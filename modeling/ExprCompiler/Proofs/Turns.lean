import ExprCompiler.Proofs.History
import ExprCompiler.Proofs.Relocation

/-!
# Turns of a session

One turn of the loop sees the tokens ahead. It skips a semicolon, or it reads
a unit, compiles it and reports what came of that. When the unit fails, the
turn gives up the token where it failed, unless the next unit can begin there.
-/

namespace ExprCompiler

open ExprCompiler.Parser (Facing Moved)
open IR (FunctionId)

namespace Session

/-! ### Reports -/

structure Tells (s : Session) (new : List Event) (s' : Session) : Prop where
  parser : s'.parser = s.parser
  failures : s'.failures = s.failures
  events : s'.events = new ++ s.events

theorem Tells.trans {s s' s'' : Session} {new new' : List Event} (h : Tells s new s')
    (k : Tells s' new' s'') : Tells s (new' ++ new) s'' :=
  ⟨k.parser.trans h.parser, k.failures.trans h.failures,
    by rw [k.events, h.events, List.append_assoc]⟩

def Quiet {α : Type} (x : SessionM α) : Prop := ∀ s, ∃ a new s', x s = .ok a s' ∧ Tells s new s'

def Shows {α : Type} (e : Event) (x : SessionM α) : Prop :=
  ∀ s, ∃ a new s', x s = .ok a s' ∧ Tells s new s' ∧ e ∈ new

section

variable {α β : Type} {e : Event}

theorem Quiet.pure (a : α) : Quiet (Pure.pure a : SessionM α) :=
  fun s => ⟨a, [], s, rfl, rfl, rfl, rfl⟩

theorem Quiet.bind {x : SessionM α} {k : α → SessionM β} (hx : Quiet x) (hk : ∀ a, Quiet (k a)) :
    Quiet (x >>= k) := by
  intro s
  obtain ⟨a, new, s', hs', htells⟩ := hx s
  obtain ⟨b, new', s'', hs'', htells'⟩ := hk a s'
  exact ⟨b, _, s'', (bind_eq_ok hs').trans hs'', htells.trans htells'⟩

theorem Quiet.state {k : Session → SessionM β} (hk : ∀ s, Quiet (k s)) : Quiet (get >>= k) :=
  fun s => hk s s

theorem Quiet.ite {c : Prop} [Decidable c] {x y : SessionM α} (hx : Quiet x) (hy : Quiet y) :
    Quiet (if c then x else y) := by
  split
  · exact hx
  · exact hy

theorem Quiet.onBackend {x : BackendM α} (hx : ∀ b, ∃ a b', x b = .ok a b') :
    Quiet (onBackend x) := by
  intro s
  obtain ⟨a, b, hb⟩ := hx s.generator.backend
  exact ⟨a, _, _, onGenerator_eq_ok (Generator.onBackend_eq_ok hb), rfl, rfl, rfl⟩

theorem Shows.quiet {x : SessionM α} (h : Shows e x) : Quiet x := by
  intro s
  obtain ⟨a, new, s', hs', htells, -⟩ := h s
  exact ⟨a, new, s', hs', htells⟩

theorem Shows.bind {x : SessionM α} {k : α → SessionM β} (hx : Shows e x)
    (hk : ∀ a, Quiet (k a)) : Shows e (x >>= k) := by
  intro s
  obtain ⟨a, new, s', hs', htells, he⟩ := hx s
  obtain ⟨b, new', s'', hs'', htells'⟩ := hk a s'
  exact ⟨b, _, s'', (bind_eq_ok hs').trans hs'', htells.trans htells',
    List.mem_append_right _ he⟩

theorem Quiet.shows {x : SessionM α} {k : α → SessionM β} (hx : Quiet x)
    (hk : ∀ a, Shows e (k a)) : Shows e (x >>= k) := by
  intro s
  obtain ⟨a, new, s', hs', htells⟩ := hx s
  obtain ⟨b, new', s'', hs'', htells', he⟩ := hk a s'
  exact ⟨b, _, s'', (bind_eq_ok hs').trans hs'', htells.trans htells', List.mem_append_left _ he⟩

theorem shows_tell (e : Event) : Shows e (tell e) :=
  fun _ => ⟨(), [e], _, rfl, ⟨rfl, rfl, rfl⟩, List.mem_singleton_self e⟩

theorem shows_print (line : String) : Shows (.out (line ++ "\n")) (print line) := shows_tell _

theorem quiet_log (n : Note) : Quiet (log n) := (shows_tell _).quiet

theorem shows_summarize (heading : String) (f : FunctionId) :
    Shows (.out (heading ++ "\n")) (summarize heading f) := by
  refine (shows_print heading).bind fun _ => .state fun s => .ite ?_ (.pure _)
  exact (Quiet.onBackend fun b => ⟨_, _, rfl⟩).bind fun text => (shows_print text).quiet

theorem evaluate_total (f : FunctionId) (b : Backend) :
    ∃ r b', Backend.evaluate f b = .ok r b' := by
  cases h : b.refusal? (b.module.reach f) with
  | some reason => exact ⟨_, _, Backend.evaluate_refused h⟩
  | none =>
    rw [Backend.evaluate_run h]
    split <;> exact ⟨_, _, rfl⟩

theorem reporting_quiet : Reporting Quiet where
  pure := .pure
  bind := .bind
  state hk _ := .state hk
  tell e := (shows_tell e).quiet
  functionText _ := .onBackend fun _ => ⟨_, _, rfl⟩
  evaluation f := .onBackend (evaluate_total f)

theorem quiet_erase (f : FunctionId) : Quiet (onBackend (Backend.erase f)) :=
  .onBackend fun b => by
    obtain ⟨j, hj⟩ := Backend.erase_run b f
    exact ⟨_, _, hj⟩

end

/-! ### Units that fail -/

def beyond (ts : List Token) : List Token := if (look ts).startsUnit then ts else ts.tail

structure Failed (s : Session) (e : CompileError) (number : Nat) (ts : List Token) (s' : Session) :
    Prop where
  facing : s'.parser.Facing (beyond ts)
  anonymous : s'.parser.anonymous = number
  failures : s'.failures = s.failures + 1
  events : ∃ new, s'.events = new ++ s.events ∧ .err e.diagnostic.text ∈ new ∧
    ∀ text, .out text ∉ new

structure Succeeded (s : Session) (heading : String) (number : Nat) (ts : List Token)
    (s' : Session) : Prop where
  facing : s'.parser.Facing ts
  anonymous : s'.parser.anonymous = number
  failures : s'.failures = s.failures
  events : ∃ new, s'.events = new ++ s.events ∧ .out (heading ++ "\n") ∈ new

section

variable {s : Session} {ts : List Token}

theorem not_end_of_startsUnit {t : Token} (h : t.startsUnit = false) : t.kind ≠ .endOfInput := by
  rintro hend
  simp [Token.startsUnit, hend] at h

theorem skipToken_run (h : s.parser.Facing ts) :
    ∃ q, skipToken s = .ok () { s with parser := q } ∧ q.Facing (beyond ts) ∧ Moved s.parser q := by
  unfold skipToken beyond
  rw [bind_eq_ok (onParser_eq_ok h.current_eq)]
  cases hstarts : (look ts).startsUnit with
  | true => exact ⟨s.parser, rfl, h, .refl _⟩
  | false =>
    obtain ⟨q, hq, hfacing, hmoved⟩ := h.advance_eq (not_end_of_startsUnit hstarts)
    exact ⟨q, bind_eq_ok (onParser_eq_ok hq), hfacing, hmoved⟩

theorem failUnit_run (h : s.parser.Facing ts) (e : CompileError) :
    ∃ q, failUnit e s = .ok () { s with
        parser := q, failures := s.failures + 1, events := .err e.diagnostic.text :: s.events } ∧
      q.Facing (beyond ts) ∧ Moved s.parser q := by
  have htold : s.parser.Facing ts := h
  obtain ⟨q, hq, hfacing, hmoved⟩ := skipToken_run (s := { s with
    failures := s.failures + 1, events := .err e.diagnostic.text :: s.events }) htold
  exact ⟨q, hq, hfacing, hmoved⟩

theorem failParse_run (h : s.parser.Facing ts) {e : ParseError}
    (he : s.parser.errors.getLast? = some e) :
    ∃ s', failParse s = .ok () s' ∧ Failed s (.grammar e) s.parser.anonymous ts s' := by
  unfold failParse
  rw [bind_eq_ok (get_eq_ok s)]
  simp only [he]
  have hlog : log (.parseFailed e.location e.message) s = .ok () { s with
      events := .log (.parseFailed e.location e.message) :: s.events } := rfl
  obtain ⟨q, hq, hfacing, hmoved⟩ := failUnit_run (s := { s with
    events := .log (.parseFailed e.location e.message) :: s.events }) h (.grammar e)
  rw [bind_eq_ok hlog, hq]
  refine ⟨_, rfl, hfacing, hmoved.anonymous, rfl, [_, _], rfl, List.mem_cons_self, fun text => ?_⟩
  simp

theorem failGeneration_run (h : s.parser.Facing ts) {e : CompileError}
    (he : s.generator.errors.getLast? = some e) :
    ∃ s', failGeneration s = .ok () s' ∧ Failed s e s.parser.anonymous ts s' := by
  unfold failGeneration
  rw [bind_eq_ok (get_eq_ok s)]
  simp only [he]
  obtain ⟨q, hq, hfacing, hmoved⟩ := failUnit_run h e
  rw [hq]
  exact ⟨_, rfl, hfacing, hmoved.anonymous, rfl, [_], rfl, List.mem_cons_self, fun text => by simp⟩

end

/-! ### Compiling a unit -/

def compileWith {α : Type} (parse : ParserM α) (toUnit : α → TopLevel)
    (follow : α → FunctionId → SessionM Unit) : SessionM Unit := do
  match ← onParser (Parser.guarded parse) with
  | none => failParse
  | some a =>
    match ← onGenerator (Generator.generate (toUnit a)) with
    | none => failGeneration
    | some f => follow a f

section

variable {α : Type} {parse : ParserM α} {toUnit : α → TopLevel}
  {follow : α → FunctionId → SessionM Unit} {s : Session} {q : Parser} {ts : List Token}

theorem compileWith_faulty {e : ParseError} (h : parse s.parser = .error (.invalid e) q)
    (hq : q.Facing ts) :
    ∃ s', compileWith parse toUnit follow s = .ok () s' ∧
      Failed s (.grammar e) q.anonymous ts s' := by
  have hguarded : Parser.guarded parse s.parser =
      .ok none { q with errors := q.errors ++ [e] } := by
    simp only [Parser.guarded, h]
  have hlast : (q.errors ++ [e]).getLast? = some e := List.getLast?_concat
  obtain ⟨s', hs', hfailed⟩ :=
    failParse_run (s := { s with parser := { q with errors := q.errors ++ [e] } })
      ⟨hq.closed, hq.lookahead, hq.tokens⟩ hlast
  exact ⟨s', (bind_eq_ok (onParser_eq_ok hguarded)).trans hs', hfailed.facing, hfailed.anonymous,
    hfailed.failures, hfailed.events⟩

theorem guarded_eq_ok {a : α} (h : parse s.parser = .ok a q) :
    onParser (Parser.guarded parse) s = .ok (some a) { s with parser := q } := by
  refine onParser_eq_ok ?_
  simp only [Parser.guarded, h]

theorem loggedEvents_ne_out (journal : List JournalEntry) (text : String) :
    .out text ∉ loggedEvents journal := by
  simp [loggedEvents]

theorem compileWith_failed {a : α} {g : Generator} {e : CompileError}
    (h : parse s.parser = .ok a q) (hq : q.Facing ts)
    (hg : Generator.generate (toUnit a) s.generator = .ok none g)
    (he : g.errors.getLast? = some e) :
    ∃ s', compileWith parse toUnit follow s = .ok () s' ∧ Failed s e q.anonymous ts s' := by
  have hgenerate : onGenerator (Generator.generate (toUnit a)) { s with parser := q } =
      .ok none (flushJournal { s with parser := q, generator := g }) := onGenerator_eq_ok hg
  obtain ⟨s', hs', hfailed⟩ :=
    failGeneration_run (s := flushJournal { s with parser := q, generator := g }) hq he
  obtain ⟨new, hnew, hmem, hout⟩ := hfailed.events
  refine ⟨s', ?_, hfailed.facing, hfailed.anonymous, hfailed.failures,
    new ++ loggedEvents g.backend.journal, ?_, List.mem_append_left _ hmem, fun text htext => ?_⟩
  · exact (bind_eq_ok (guarded_eq_ok h)).trans ((bind_eq_ok hgenerate).trans hs')
  · rw [hnew, List.append_assoc]
    rfl
  · rcases List.mem_append.1 htext with htext | htext
    · exact hout text htext
    · exact loggedEvents_ne_out _ text htext

theorem compileWith_succeeded {a : α} {g : Generator} {f : FunctionId} {heading : String}
    (h : parse s.parser = .ok a q) (hq : q.Facing ts)
    (hg : Generator.generate (toUnit a) s.generator = .ok (some f) g)
    (hfollow : Shows (.out (heading ++ "\n")) (follow a f)) :
    ∃ s', compileWith parse toUnit follow s = .ok () s' ∧
      Succeeded s heading q.anonymous ts s' := by
  have hgenerate : onGenerator (Generator.generate (toUnit a)) { s with parser := q } =
      .ok (some f) (flushJournal { s with parser := q, generator := g }) := onGenerator_eq_ok hg
  obtain ⟨_, new, s', hs', htells, hmem⟩ :=
    hfollow (flushJournal { s with parser := q, generator := g })
  have hparser : s'.parser = q := htells.parser
  refine ⟨s', (bind_eq_ok (guarded_eq_ok h)).trans ((bind_eq_ok hgenerate).trans hs'),
    hparser ▸ hq, congrArg Parser.anonymous hparser, htells.failures,
    new ++ loggedEvents g.backend.journal, ?_, List.mem_append_left _ hmem⟩
  rw [htells.events, List.append_assoc]
  rfl

end

theorem handleDefinition_eq : handleDefinition =
    compileWith Parser.definition .definition (fun d f => do
      log (.compiledDefinition d.name)
      summarize "Read function definition:" f) := by
  refine bind_congr fun r => ?_
  cases r with
  | none => rfl
  | some d => exact bind_congr fun r => by cases r <;> rfl

theorem handleExternal_eq : handleExternal =
    compileWith Parser.external .external (fun p f => do
      log (.compiledExtern p.name)
      summarize "Read extern:" f) := by
  refine bind_congr fun r => ?_
  cases r with
  | none => rfl
  | some p => exact bind_congr fun r => by cases r <;> rfl

theorem handleExpression_eq : handleExpression =
    compileWith Parser.bareExpression .definition (fun _ f => do
      summarize "Read top-level expression:" f
      if (← get).options.evaluate then evaluate f
      onBackend (Backend.erase f)) := by
  refine bind_congr fun r => ?_
  cases r with
  | none => rfl
  | some d => exact bind_congr fun r => by cases r <;> rfl

def heading : TopLevel → String
  | .external _ => "Read extern:"
  | .definition d =>
    if d.prototype.isAnonymous then "Read top-level expression:" else "Read function definition:"

theorem shows_followExpression (f : FunctionId) :
    Shows (.out ("Read top-level expression:" ++ "\n")) (do
      summarize "Read top-level expression:" f
      if (← get).options.evaluate then evaluate f
      onBackend (Backend.erase f)) := by
  refine (shows_summarize _ f).bind fun _ => .state fun s => ?_
  split
  · exact (reporting_quiet.evaluate f).bind fun _ => quiet_erase f
  · exact quiet_erase f

end Session

/-! ### Units that are read -/

namespace Parser

def numberAfter (number : Nat) (u : TopLevel) : Nat :=
  if u.prototype.isAnonymous then number + 1 else number

/-- A parse gives the unit that is ahead, bare or not, or meets the error in it. -/
inductive ReadsUnit {α : Type} (parse : ParserM α) (toUnit : α → TopLevel) (bare : Bool)
    (p : Parser) (ts : List Token) : Prop
  | ok {a : α} {q : Parser} {us : List Token} (run : parse p = .ok a q)
    (read : Layered.unit p.anonymous ts = .ok (toUnit a) us) (facing : q.Facing us)
    (anonymous : q.anonymous = numberAfter p.anonymous (toUnit a))
    (named : (toUnit a).prototype.isAnonymous = bare) (grammatical : (toUnit a).Grammatical)
  | error {e : ParseError} {q : Parser} {us : List Token} (run : parse p = .error (.invalid e) q)
    (read : Layered.unit p.anonymous ts = .error e us) (facing : q.Facing us)
    (anonymous : q.anonymous = p.anonymous)

section

variable {p : Parser} {ts : List Token}

theorem unit_of_definition (h : (look ts).kind = .defKeyword) (number : Nat) :
    Layered.unit number ts = (Layered.definition >>= fun d => pure (.definition d)) ts := by
  simp only [Layered.unit, Layered.peek_bind, h]

theorem unit_of_external (h : (look ts).kind = .externKeyword) (number : Nat) :
    Layered.unit number ts = (Layered.external >>= fun q => pure (.external q)) ts := by
  simp only [Layered.unit, Layered.peek_bind, h]

theorem unit_of_bareExpression (hd : (look ts).kind ≠ .defKeyword)
    (he : (look ts).kind ≠ .externKeyword) (number : Nat) :
    Layered.unit number ts =
      (Layered.bareExpression number >>= fun d => pure (.definition d)) ts := by
  rw [Layered.unit, Layered.peek_bind]
  generalize (look ts).kind = kind at hd he
  cases kind with
  | defKeyword => exact absurd rfl hd
  | externKeyword => exact absurd rfl he
  | _ => rfl

theorem Facing.readsUnit_definition (h : p.Facing ts) (hp : p.Lexed)
    (hkind : (look ts).kind = .defKeyword) : ReadsUnit definition .definition false p ts := by
  have hagrees := h.definition_agrees
  have hreads := definition_reads p hp
  generalize hx : definition p = r at hagrees hreads
  generalize hy : Layered.definition ts = s at hagrees
  cases hagrees with
  | @ok d q us hq hmoved =>
    have hnot : d.prototype.isAnonymous = false := Identifier.not_anonymous hreads.2.2
    refine .ok hx ?_ hq ?_ hnot hreads.2.1
    · rw [unit_of_definition hkind, bind_eq_ok hy]
      rfl
    · rw [hmoved.anonymous, numberAfter, TopLevel.prototype, hnot]
      rfl
  | @error e q us hq hmoved =>
    refine .error hx ?_ hq hmoved.anonymous
    rw [unit_of_definition hkind, bind_eq_error hy]

theorem Facing.readsUnit_external (h : p.Facing ts) (hp : p.Lexed)
    (hkind : (look ts).kind = .externKeyword) : ReadsUnit external .external false p ts := by
  have hagrees := h.external_agrees
  have hreads := external_reads p hp
  generalize hx : external p = r at hagrees hreads
  generalize hy : Layered.external ts = s at hagrees
  cases hagrees with
  | @ok d q us hq hmoved =>
    have hnot : d.isAnonymous = false := Identifier.not_anonymous hreads.2.2
    refine .ok hx ?_ hq ?_ hnot hreads.2.1
    · rw [unit_of_external hkind, bind_eq_ok hy]
      rfl
    · rw [hmoved.anonymous, numberAfter, TopLevel.prototype, hnot]
      rfl
  | @error e q us hq hmoved =>
    refine .error hx ?_ hq hmoved.anonymous
    rw [unit_of_external hkind, bind_eq_error hy]

theorem Facing.readsUnit_bareExpression (h : p.Facing ts) (hp : p.Lexed)
    (hd : (look ts).kind ≠ .defKeyword) (he : (look ts).kind ≠ .externKeyword) :
    ReadsUnit bareExpression .definition true p ts := by
  have hreads := bareExpression_reads p hp
  obtain ⟨d, q, us, hx, hy, hq, hmoved⟩ | ⟨e, q, us, hx, hy, hq, hmoved⟩ :=
    h.bareExpression_agrees
  · rw [hx] at hreads
    obtain ⟨-, hgrammatical, k, hk⟩ := hreads
    have hbare : d.prototype.isAnonymous = true := isAnonymous_of_name hk
    refine .ok hx ?_ hq ?_ hbare hgrammatical
    · rw [unit_of_bareExpression hd he, bind_eq_ok hy]
      rfl
    · rw [hmoved.anonymous, numberAfter, TopLevel.prototype, hbare]
      rfl
  · refine .error hx ?_ hq hmoved.anonymous
    rw [unit_of_bareExpression hd he, bind_eq_error hy]

end

end Parser

/-! ### Turns -/

namespace Session

open ExprCompiler.Parser (ReadsUnit numberAfter)

inductive Turn (s : Session) (ts : List Token) (s' : Session) : Prop
  | semicolon (h : (look ts).isChar ";" = true) (facing : s'.parser.Facing ts.tail)
    (anonymous : s'.parser.anonymous = s.parser.anonymous) (tells : s'.events = s.events)
  | faulty {e : ParseError} {us : List Token} (h : (look ts).isChar ";" = false)
    (read : Layered.unit s.parser.anonymous ts = .error e us)
    (failed : Failed s (.grammar e) s.parser.anonymous us s')
  | refused {u : TopLevel} {us : List Token} {e : CompileError} {g : Generator}
    (h : (look ts).isChar ";" = false) (read : Layered.unit s.parser.anonymous ts = .ok u us)
    (generated : Generator.generate u s.generator = .ok none g)
    (latest : g.errors.getLast? = some e)
    (failed : Failed s e (numberAfter s.parser.anonymous u) us s')
  | compiled {u : TopLevel} {us : List Token} {f : FunctionId} {g : Generator}
    (h : (look ts).isChar ";" = false) (read : Layered.unit s.parser.anonymous ts = .ok u us)
    (generated : Generator.generate u s.generator = .ok (some f) g)
    (succeeded : Succeeded s (heading u) (numberAfter s.parser.anonymous u) us s')

section

variable {vs : List TopLevel} {s : Session} {ts : List Token}

theorem exists_answer {g : Generator} {u : TopLevel} (hs : Generator.Sound vs g.backend.module)
    (hu : u.Grammatical) :
    (∃ f g', Generator.generate u g = .ok (some f) g') ∨
      ∃ e g', Generator.generate u g = .ok none g' ∧ g'.errors.getLast? = some e := by
  obtain ⟨r, g', hg⟩ := Generator.generate_total hs hu
  cases r with
  | some f => exact Or.inl ⟨f, g', hg⟩
  | none =>
    obtain ⟨x, -, hx, herrors, -⟩ := Generator.generate_step hs.indexed hs.named hg
    cases x with
    | ok f => cases hx
    | error e =>
      refine Or.inr ⟨e, g', hg, ?_⟩
      rw [herrors, Generator.newErrors, List.getLast?_concat]

theorem compileWith_turn {α : Type} {parse : ParserM α} {toUnit : α → TopLevel} {bare : Bool}
    {follow : α → FunctionId → SessionM Unit} (hs : Generator.Sound vs s.generator.backend.module)
    (hsemicolon : (look ts).isChar ";" = false) (h : ReadsUnit parse toUnit bare s.parser ts)
    (hfollow : ∀ a f, (toUnit a).prototype.isAnonymous = bare →
      Shows (.out (heading (toUnit a) ++ "\n")) (follow a f)) :
    ∃ s', compileWith parse toUnit follow s = .ok () s' ∧ Turn s ts s' := by
  cases h with
  | error hrun hread hfacing hanonymous =>
    obtain ⟨s', hs', hfailed⟩ := compileWith_faulty hrun hfacing
    exact ⟨s', hs', .faulty hsemicolon hread (hanonymous ▸ hfailed)⟩
  | @ok a q us hrun hread hfacing hanonymous hnamed hgrammatical =>
    obtain ⟨f, g, hg⟩ | ⟨e, g, hg, he⟩ := exists_answer hs hgrammatical
    · obtain ⟨s', hs', hsucceeded⟩ :=
        compileWith_succeeded hrun hfacing hg (hfollow a f hnamed)
      exact ⟨s', hs', .compiled hsemicolon hread hg (hanonymous ▸ hsucceeded)⟩
    · obtain ⟨s', hs', hfailed⟩ := compileWith_failed hrun hfacing hg he
      exact ⟨s', hs', .refused hsemicolon hread hg he (hanonymous ▸ hfailed)⟩

variable (hs : Generator.Sound vs s.generator.backend.module) (hp : s.parser.Lexed)
  (h : s.parser.Facing ts)
include hs hp h

theorem handleDefinition_turn (hkind : (look ts).kind = .defKeyword) :
    ∃ s', handleDefinition s = .ok () s' ∧ Turn s ts s' := by
  rw [handleDefinition_eq]
  refine compileWith_turn hs (by simp [Token.isChar, hkind]) (h.readsUnit_definition hp hkind) ?_
  intro d f hnamed
  have hheading : heading (.definition d) = "Read function definition:" := by
    have hnot : d.prototype.isAnonymous = false := hnamed
    simp [heading, hnot]
  rw [hheading]
  exact (quiet_log _).shows fun _ => shows_summarize _ f

theorem handleExternal_turn (hkind : (look ts).kind = .externKeyword) :
    ∃ s', handleExternal s = .ok () s' ∧ Turn s ts s' := by
  rw [handleExternal_eq]
  refine compileWith_turn hs (by simp [Token.isChar, hkind]) (h.readsUnit_external hp hkind) ?_
  exact fun p f _ => (quiet_log _).shows fun _ => shows_summarize _ f

theorem handleExpression_turn (hsemicolon : (look ts).isChar ";" = false)
    (hd : (look ts).kind ≠ .defKeyword) (he : (look ts).kind ≠ .externKeyword) :
    ∃ s', handleExpression s = .ok () s' ∧ Turn s ts s' := by
  rw [handleExpression_eq]
  refine compileWith_turn hs hsemicolon (h.readsUnit_bareExpression hp hd he) ?_
  intro d f hnamed
  have hheading : heading (.definition d) = "Read top-level expression:" := by
    have hbare : d.prototype.isAnonymous = true := hnamed
    simp [heading, hbare]
  rw [hheading]
  exact shows_followExpression f

end

section

variable {v : Verifier} {vs : List TopLevel} {s s' : Session} {q : Parser} {ts : List Token}

theorem Turn.of_parser (h : Turn { s with parser := q } ts s')
    (hq : q.anonymous = s.parser.anonymous) : Turn s ts s' := by
  cases h with
  | semicolon h facing anonymous tells => exact .semicolon h facing (anonymous.trans hq) tells
  | faulty h read failed =>
    simp only [hq] at read failed
    exact .faulty h read ⟨failed.facing, failed.anonymous, failed.failures, failed.events⟩
  | refused h read generated latest failed =>
    simp only [hq] at read failed
    exact .refused h read generated latest
      ⟨failed.facing, failed.anonymous, failed.failures, failed.events⟩
  | compiled h read generated succeeded =>
    simp only [hq] at read succeeded
    exact .compiled h read generated
      ⟨succeeded.facing, succeeded.anonymous, succeeded.failures, succeeded.events⟩

def HandledBy (handler : SessionM Unit) (s s' : Session) : Prop :=
  ∃ q, Parser.current s.parser = .ok (look s.parser.tokens) q ∧
    handler { s with parser := q } = .ok () s'

theorem handleNext_of_end {t : Token} (hq : Parser.current s.parser = .ok t q)
    (h : t.kind = .endOfInput) : handleNext s = .ok false { s with parser := q } := by
  unfold handleNext
  rw [bind_eq_ok (onParser_eq_ok hq), if_pos h]
  rfl

theorem handleNext_of_unit {t : Token} {handler : SessionM Unit}
    (hq : Parser.current s.parser = .ok t q) (hend : t.kind ≠ .endOfInput)
    (hsemicolon : t.isChar ";" = false)
    (hh : handler = match t.kind with
      | .defKeyword => handleDefinition
      | .externKeyword => handleExternal
      | _ => handleExpression)
    (h : handler { s with parser := q } = .ok () s') : handleNext s = .ok true s' := by
  unfold handleNext
  rw [bind_eq_ok (onParser_eq_ok hq), if_neg hend, hsemicolon]
  subst hh
  cases hk : t.kind <;> simp only [hk] at h <;> exact bind_eq_ok h

theorem Traced.handleNext_turn (h : Traced v vs s) (hc : s.parser.lexer.ending = .closed)
    (hend : (look s.parser.tokens).kind ≠ .endOfInput) :
    ∃ s', handleNext s = .ok true s' ∧ Turn s s.parser.tokens s' ∧
      ((look s.parser.tokens).kind = .defKeyword → HandledBy handleDefinition s s') ∧
      ((look s.parser.tokens).kind = .externKeyword → HandledBy handleExternal s s') := by
  obtain ⟨q, hq, hfacing, hmoved⟩ := Parser.current_of_closed hc
  have hlexed : q.Lexed := Parser.Reads.current.lexed h.parser hq
  have hs := h.reached.sound_of_grammatical
  have hs₁ : Generator.Sound vs { s with parser := q }.generator.backend.module := hs
  by_cases hsemicolon : (look s.parser.tokens).isChar ";" = true
  · obtain ⟨r, hr, hfacing', hmoved'⟩ := hfacing.advance_eq hend
    have hkind := Token.kind_of_isChar hsemicolon
    refine ⟨{ s with parser := r }, ?_, .semicolon hsemicolon hfacing' ?_ rfl, ?_, ?_⟩
    · unfold handleNext
      rw [bind_eq_ok (onParser_eq_ok hq), if_neg hend, hsemicolon]
      exact bind_eq_ok (onParser_eq_ok hr)
    · exact hmoved'.anonymous.trans hmoved.anonymous
    · exact fun hd => by simp [hkind] at hd
    · exact fun he => by simp [hkind] at he
  rw [Bool.not_eq_true] at hsemicolon
  by_cases hd : (look s.parser.tokens).kind = .defKeyword
  · obtain ⟨s', hs', hturn⟩ := handleDefinition_turn hs₁ hlexed hfacing hd
    refine ⟨s', handleNext_of_unit hq hend hsemicolon (by rw [hd]) hs',
      hturn.of_parser hmoved.anonymous, fun _ => ⟨q, hq, hs'⟩, fun he => ?_⟩
    rw [hd] at he
    cases he
  by_cases he : (look s.parser.tokens).kind = .externKeyword
  · obtain ⟨s', hs', hturn⟩ := handleExternal_turn hs₁ hlexed hfacing he
    exact ⟨s', handleNext_of_unit hq hend hsemicolon (by rw [he]) hs',
      hturn.of_parser hmoved.anonymous, fun hd' => absurd hd' hd, fun _ => ⟨q, hq, hs'⟩⟩
  · obtain ⟨s', hs', hturn⟩ := handleExpression_turn hs₁ hlexed hfacing hsemicolon hd he
    refine ⟨s', handleNext_of_unit hq hend hsemicolon ?_ hs', hturn.of_parser hmoved.anonymous,
      fun hd' => absurd hd' hd, fun he' => absurd he' he⟩
    generalize (look s.parser.tokens).kind = kind at hd he
    cases kind with
    | defKeyword => exact absurd rfl hd
    | externKeyword => exact absurd rfl he
    | _ => rfl

end

end Session

end ExprCompiler
