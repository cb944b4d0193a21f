import ExprCompiler.Proofs.Recording
import ExprCompiler.Proofs.Turns

/-!
# The account of a turn

A session keeps books: it counts failures, and there is a list of errors in
the parser and one in the generator. Each turn of the loop skips a semicolon,
accepts a unit or rejects one, and what it enters into the books and shows to
the user tells which.
-/

namespace ExprCompiler

open IR (FunctionId)

def Event.isShown : Event → Bool
  | .log _ => false
  | _ => true

def Event.isHeading : Event → Bool
  | .out text => "Read ".toList.isPrefixOf text.toList
  | _ => false

namespace Session

structure Books where
  failures : Nat
  grammar : List ParseError
  meaning : List CompileError

def books (s : Session) : Books := ⟨s.failures, s.parser.errors, s.generator.errors⟩

inductive Books.Entry (b : Books) : Books → Prop
  | nothing : Entry b b
  | grammar (e : ParseError) : Entry b ⟨b.failures + 1, b.grammar ++ [e], b.meaning⟩
  | meaning (e : CompileError) : Entry b ⟨b.failures + 1, b.grammar, b.meaning ++ [e]⟩

def shown (es : List Event) : List Event := es.reverse.filter Event.isShown

def Displays (s : Session) (es : List Event) (s' : Session) : Prop :=
  ∃ new, s'.events = new ++ s.events ∧ shown new = es

theorem Displays.trans {s s' s'' : Session} {es es' : List Event} (h : Displays s es s')
    (k : Displays s' es' s'') : Displays s (es ++ es') s'' := by
  obtain ⟨new, hnew, rfl⟩ := h
  obtain ⟨new', hnew', rfl⟩ := k
  refine ⟨new' ++ new, by rw [hnew', hnew, List.append_assoc], ?_⟩
  rw [shown, List.reverse_append, List.filter_append]
  rfl

theorem Displays.unique {s s' : Session} {es es' : List Event} (h : Displays s es s')
    (k : Displays s es' s') : es = es' := by
  obtain ⟨new, hnew, rfl⟩ := h
  obtain ⟨new', hnew', rfl⟩ := k
  rw [List.append_cancel_right (hnew.symm.trans hnew')]

/-! ### Actions that leave the books alone -/

structure Wrote {α : Type} (s : Session) (es : List Event)
    (r : EStateM.Result SessionStop Session α) : Prop where
  books : (ended r).books = s.books
  options : (ended r).options = s.options
  displays : ∀ a s', r = .ok a s' → Displays s es s'

section

variable {α β : Type} {s : Session} {es es' : List Event}

theorem Wrote.ok {a : α} {s' : Session} (hb : s'.books = s.books) (ho : s'.options = s.options)
    (h : Displays s es s') : Wrote s es (.ok a s') :=
  ⟨hb, ho, fun _ _ heq => by cases heq; exact h⟩

theorem Wrote.error {stop : SessionStop} {s' : Session} (hb : s'.books = s.books)
    (ho : s'.options = s.options) : Wrote s es (.error stop s' : EStateM.Result _ _ α) :=
  ⟨hb, ho, fun _ _ heq => by cases heq⟩

theorem wrote_pure (a : α) (s : Session) : Wrote s [] ((pure a : SessionM α) s) :=
  .ok rfl rfl ⟨[], rfl, rfl⟩

theorem Wrote.after {a : α} {s' : Session} {r : EStateM.Result SessionStop Session β}
    (h : Wrote s es (.ok a s' : EStateM.Result SessionStop Session α)) (k : Wrote s' es' r) :
    Wrote s (es ++ es') r :=
  ⟨k.books.trans h.books, k.options.trans h.options,
    fun b t ht => (h.displays a s' rfl).trans (k.displays b t ht)⟩

theorem Wrote.bind {x : SessionM α} {k : α → SessionM β} (hx : Wrote s es (x s))
    (hk : ∀ a s', x s = .ok a s' → Wrote s' es' (k a s')) : Wrote s (es ++ es') ((x >>= k) s) := by
  cases hxs : x s with
  | ok a s' =>
    rw [hxs] at hx
    rw [bind_eq_ok hxs]
    exact hx.after (hk a s' hxs)
  | error stop s' =>
    rw [hxs] at hx
    rw [bind_eq_error hxs]
    exact .error hx.books hx.options

theorem wrote_log (n : Note) (s : Session) : Wrote s [] (log n s) := .ok rfl rfl ⟨[_], rfl, rfl⟩

theorem wrote_print (line : String) (s : Session) :
    Wrote s [.out (line ++ "\n")] (print line s) := .ok rfl rfl ⟨[_], rfl, rfl⟩

theorem wrote_report (d : Diagnostic) (s : Session) : Wrote s [.err d.text] (report d s) :=
  .ok rfl rfl ⟨[_], rfl, rfl⟩

theorem wrote_onParser {x : ParserM α} (hx : Parser.Silent x) (s : Session) :
    Wrote s [] (onParser x s) := by
  have hrun := hx s.parser
  unfold onParser
  cases hxp : x s.parser with
  | ok a q =>
    rw [hxp] at hrun
    have hq : q.errors = s.parser.errors := hrun
    exact .ok (by simp only [Session.books, hq]) rfl ⟨[], rfl, rfl⟩
  | error stop q =>
    rw [hxp] at hrun
    have hq : q.errors = s.parser.errors := hrun
    cases stop <;> exact .error (by simp only [Session.books, hq]) rfl

theorem shown_loggedEvents (journal : List JournalEntry) : shown (loggedEvents journal) = [] := by
  refine List.filter_eq_nil_iff.2 fun e he => ?_
  obtain ⟨n, -, rfl⟩ := List.mem_map.1 (List.mem_reverse.1 he)
  exact Bool.false_ne_true

theorem displays_flushJournal (s : Session) (g : Generator) :
    Displays s [] (flushJournal { s with generator := g }) :=
  ⟨loggedEvents g.backend.journal, rfl, shown_loggedEvents _⟩

theorem wrote_onBackend (x : BackendM α) (s : Session) : Wrote s [] (onBackend x s) := by
  unfold onBackend onGenerator Generator.onBackend
  cases x s.generator.backend with
  | ok a b => exact .ok rfl rfl (displays_flushJournal s { s.generator with backend := b })
  | error e b => exact .error rfl rfl

theorem wrote_skipToken (s : Session) : Wrote s [] (skipToken s) := by
  unfold skipToken
  refine (wrote_onParser .current s).bind fun t s' _ => ?_
  split
  · exact (wrote_onParser .advance s').bind fun _ s'' _ => wrote_pure () s''
  · exact wrote_pure () s'

theorem wrote_reportBackend {e : BackendError} (h : s.generator.backend.errors.getLast? = some e) :
    Wrote s [.err e.diagnostic.text] (reportBackend s) := by
  unfold reportBackend
  rw [bind_eq_ok (get_eq_ok s)]
  simp only [h]
  exact wrote_report _ s

end

/-! ### Failures -/

section

variable {s : Session}

theorem wrote_failUnit (e : CompileError) (s : Session) :
    Wrote { s with failures := s.failures + 1 } [.err e.diagnostic.text] (failUnit e s) := by
  have hcount : (modify fun s => { s with failures := s.failures + 1 } : SessionM Unit) s =
      .ok () { s with failures := s.failures + 1 } := rfl
  unfold failUnit
  rw [bind_eq_ok hcount]
  exact (wrote_report _ _).bind fun _ s' _ => wrote_skipToken s'

theorem wrote_failParse {e : ParseError} (h : s.parser.errors.getLast? = some e) :
    Wrote { s with failures := s.failures + 1 } [.err e.diagnostic.text] (failParse s) := by
  have hlog : log (.parseFailed e.location e.message) s =
      .ok () { s with events := .log (.parseFailed e.location e.message) :: s.events } := rfl
  have hfail := wrote_failUnit (.grammar e)
    { s with events := .log (.parseFailed e.location e.message) :: s.events }
  unfold failParse
  rw [bind_eq_ok (get_eq_ok s)]
  simp only [h]
  rw [bind_eq_ok hlog]
  have hlogged : Displays { s with failures := s.failures + 1 } [] { s with
      failures := s.failures + 1
      events := .log (.parseFailed e.location e.message) :: s.events } := ⟨[_], rfl, rfl⟩
  exact ⟨hfail.books, hfail.options, fun a s' hs' => hlogged.trans (hfail.displays a s' hs')⟩

theorem wrote_failGeneration {e : CompileError} (h : s.generator.errors.getLast? = some e) :
    Wrote { s with failures := s.failures + 1 } [.err e.diagnostic.text] (failGeneration s) := by
  unfold failGeneration
  rw [bind_eq_ok (get_eq_ok s)]
  simp only [h]
  exact wrote_failUnit e s

end

/-! ### What a unit shows -/

def listing (o : Options) (m : IR.Module) (f : FunctionId) : List Event :=
  if o.showCode then [.out ((m.sealFunction f).functionText f ++ "\n")] else []

inductive Outcome (m : IR.Module) (f : FunctionId) : List Event → Prop
  | none : Outcome m f []
  | value {b b' : Backend} {v : Int} (hm : ∃ fs, b.module = m.sealAll fs)
    (h : Backend.evaluate f b = .ok (some v) b') :
    Outcome m f [.out ("Evaluated to " ++ toString v ++ "\n")]
  | refused {b b' : Backend} {e : BackendError} (hm : ∃ fs, b.module = m.sealAll fs)
    (h : Backend.evaluate f b = .ok none b') (he : b'.errors = b.errors ++ [e])
    (hs : e.diagnostic.severity = Diagnostic.warningSeverity) :
    Outcome m f [.err e.diagnostic.text]

theorem evaluate_cases (f : FunctionId) (b : Backend) :
    (∃ v b', Backend.evaluate f b = .ok (some v) b') ∨
      ∃ n d b', Backend.evaluate f b = .ok none b' ∧ b'.errors = b.errors ++ [.evaluation n d] := by
  cases h : b.refusal? (b.module.reach f) with
  | some reason => exact .inr ⟨_, _, _, Backend.evaluate_refused h, rfl⟩
  | none =>
    rw [Backend.evaluate_run h]
    split
    · exact .inr ⟨_, _, _, rfl, rfl⟩
    · exact .inr ⟨_, _, _, rfl, rfl⟩
    · exact .inl ⟨_, _, rfl⟩

section

variable {s : Session} {m : IR.Module}

theorem wrote_evaluate (f : FunctionId) (hm : ∃ fs, s.generator.backend.module = m.sealAll fs) :
    ∃ es, Outcome m f es ∧ Wrote s es (evaluate f s) := by
  have hwrote := wrote_onBackend (Backend.evaluate f) s
  unfold evaluate
  obtain ⟨v, b, hv⟩ | ⟨n, d, b, hn, he⟩ := evaluate_cases f s.generator.backend
  · have hrun := onGenerator_eq_ok (Generator.onBackend_eq_ok hv)
    rw [onBackend, hrun] at hwrote
    rw [onBackend, bind_eq_ok hrun]
    exact ⟨_, .value hm hv, hwrote.after (wrote_print _ _)⟩
  · have hrun := onGenerator_eq_ok (Generator.onBackend_eq_ok hn)
    have hlast : b.errors.getLast? = some (.evaluation n d) := by rw [he, List.getLast?_concat]
    rw [onBackend, hrun] at hwrote
    rw [onBackend, bind_eq_ok hrun]
    exact ⟨_, .refused hm hn he rfl, hwrote.after (wrote_reportBackend hlast)⟩

theorem wrote_summarize (heading : String) (f : FunctionId) (s : Session) :
    Wrote s (.out (heading ++ "\n") :: listing s.options s.generator.backend.module f)
      (summarize heading f s) := by
  obtain ⟨s₁, hprint, ho, hg⟩ : ∃ s₁, print heading s = .ok () s₁ ∧ s₁.options = s.options ∧
      s₁.generator = s.generator := ⟨_, rfl, rfl, rfl⟩
  have hheading := wrote_print heading s
  rw [hprint] at hheading
  have hcode : Wrote s₁ (listing s₁.options s₁.generator.backend.module f)
      ((if s₁.options.showCode then do print (← onBackend (Backend.functionText f)) else pure () :
        SessionM Unit) s₁) := by
    unfold listing
    split
    · exact (wrote_onBackend _ s₁).bind fun text s₂ hs₂ => by
        cases hs₂
        exact wrote_print _ _
    · exact wrote_pure () s₁
  unfold summarize
  rw [bind_eq_ok hprint, bind_eq_ok (get_eq_ok s₁), ← ho, ← hg]
  exact hheading.after hcode

end

/-! ### Fates of a unit -/

/-- The unit is compiled. One summary is shown, and at most a warning. -/
inductive Accepted (s s' : Session) : Option TopLevel → Prop
  | unit {u : TopLevel} {f : FunctionId} {g : Generator} {es : List Event}
    (generated : Generator.generate u s.generator = .ok (some f) g) (books : s'.books = s.books)
    (outcome : Outcome g.backend.module f es)
    (displays : Displays s
      (.out (heading u ++ "\n") :: (listing s.options g.backend.module f ++ es)) s')
    (once : ∀ es, Displays s es s' → es.countP Event.isHeading = 1) : Accepted s s' (some u)

/-- There is no unit, or it is refused. The error is entered and shown, and nothing else is. -/
inductive Rejected (s s' : Session) : Option TopLevel → Prop
  | grammar {e : ParseError}
    (books : s'.books = ⟨s.failures + 1, s.parser.errors ++ [e], s.generator.errors⟩)
    (displays : Displays s [.err e.diagnostic.text] s') : Rejected s s' none
  | meaning {u : TopLevel} {g : Generator} {e : CompileError}
    (generated : Generator.generate u s.generator = .ok none g)
    (books : s'.books = ⟨s.failures + 1, s.parser.errors, s.generator.errors ++ [e]⟩)
    (displays : Displays s [.err e.diagnostic.text] s') : Rejected s s' (some u)

structure Skipped (s s' : Session) : Prop where
  consumed : ∃ t u p, Parser.current s.parser = .ok t p ∧ t.isChar ";" = true ∧
    Parser.advance p = .ok u s'.parser
  books : s'.books = s.books
  generator : s'.generator = s.generator
  displays : Displays s [] s'

theorem isHeading_heading (u : TopLevel) : Event.isHeading (.out (heading u ++ "\n")) = true := by
  unfold heading
  split
  · decide
  · split <;> decide

theorem isHeading_of_front {word rest : String} (h : ∃ c cs, word.toList = c :: cs ∧ c ≠ 'R') :
    Event.isHeading (.out (word ++ rest)) = false := by
  obtain ⟨c, cs, hword, hc⟩ := h
  have hread : "Read ".toList = 'R' :: "ead ".toList := by decide
  rw [Event.isHeading, String.toList_append, hword, List.cons_append, hread,
    List.isPrefixOf_cons_cons, beq_eq_false_iff_ne.2 (Ne.symm hc), Bool.false_and]

theorem isHeading_functionText (m : IR.Module) (f : FunctionId) :
    Event.isHeading (.out (m.functionText f ++ "\n")) = false := by
  simp only [IR.Module.functionText]
  split
  · simp only [String.append_assoc]
    exact isHeading_of_front ⟨'d', "efine ".toList, by decide, by decide⟩
  · simp only [String.append_assoc]
    exact isHeading_of_front ⟨'d', "eclare ".toList, by decide, by decide⟩

theorem countP_outcome {m : IR.Module} {f : FunctionId} {es : List Event} (h : Outcome m f es) :
    es.countP Event.isHeading = 0 := by
  cases h with
  | none => rfl
  | value hm h =>
    rw [List.countP_singleton, String.append_assoc, isHeading_of_front]
    · rfl
    · exact ⟨'E', "valuated to ".toList, by decide, by decide⟩
  | refused hm h he hs => rfl

theorem countP_summary {u : TopLevel} {o : Options} {m : IR.Module} {f : FunctionId}
    {es : List Event} (h : Outcome m f es) :
    (.out (heading u ++ "\n") :: (listing o m f ++ es)).countP Event.isHeading = 1 := by
  have hlisting : (listing o m f).countP Event.isHeading = 0 := by
    unfold listing
    split
    · rw [List.countP_singleton, isHeading_functionText]
      rfl
    · rfl
  rw [List.countP_cons_of_pos (isHeading_heading u), List.countP_append, hlisting,
    countP_outcome h]

structure Accounted (s : Session) (w : Option TopLevel) (r : EStateM.Result SessionStop Session Unit) :
    Prop where
  entry : s.books.Entry (ended r).books
  options : (ended r).options = s.options
  fate : ∀ s', r = .ok () s' → Accepted s s' w ∨ Rejected s s' w

/-! ### Compiling a unit -/

section

variable {s t : Session} {u : TopLevel} {g : Generator}

theorem accounted_grammar {e : ParseError} (ht : Displays s [] t) (ho : t.options = s.options)
    (hbooks : t.books = ⟨s.failures, s.parser.errors ++ [e], s.generator.errors⟩) :
    Accounted s none (failParse t) := by
  obtain ⟨hfailures, hgrammar, hmeaning⟩ := Books.mk.inj hbooks
  have hwrote := wrote_failParse (by rw [hgrammar, List.getLast?_concat] :
    t.parser.errors.getLast? = some e)
  have hended : (ended (failParse t)).books =
      ⟨s.failures + 1, s.parser.errors ++ [e], s.generator.errors⟩ := by
    rw [hwrote.books, ← hfailures, ← hgrammar, ← hmeaning]
    rfl
  refine ⟨hended ▸ .grammar e, hwrote.options.trans ho, fun s' hs' =>
    .inr (.grammar (e := e) ?_ ?_)⟩
  · rw [← hended, hs']
    rfl
  · have hcounted : Displays s [] { t with failures := t.failures + 1 } := ht
    exact hcounted.trans (hwrote.displays _ _ hs')

theorem accounted_meaning {e : CompileError} (hg : Generator.generate u s.generator = .ok none g)
    (ht : Displays s [] t) (ho : t.options = s.options)
    (hbooks : t.books = ⟨s.failures, s.parser.errors, s.generator.errors ++ [e]⟩) :
    Accounted s (some u) (failGeneration t) := by
  obtain ⟨hfailures, hgrammar, hmeaning⟩ := Books.mk.inj hbooks
  have hwrote := wrote_failGeneration (by rw [hmeaning, List.getLast?_concat] :
    t.generator.errors.getLast? = some e)
  have hended : (ended (failGeneration t)).books =
      ⟨s.failures + 1, s.parser.errors, s.generator.errors ++ [e]⟩ := by
    rw [hwrote.books, ← hfailures, ← hgrammar, ← hmeaning]
    rfl
  refine ⟨hended ▸ .meaning e, hwrote.options.trans ho, fun s' hs' =>
    .inr (.meaning (e := e) hg ?_ ?_)⟩
  · rw [← hended, hs']
    rfl
  · have hcounted : Displays s [] { t with failures := t.failures + 1 } := ht
    exact hcounted.trans (hwrote.displays _ _ hs')

theorem accounted_unit {f : FunctionId} {es : List Event} {x : SessionM Unit}
    (hg : Generator.generate u s.generator = .ok (some f) g) (ht : Displays s [] t)
    (ho : t.options = s.options) (hbooks : t.books = s.books) (houtcome : Outcome g.backend.module f es)
    (hwrote : Wrote t (.out (heading u ++ "\n") :: (listing s.options g.backend.module f ++ es))
      (x t)) : Accounted s (some u) (x t) := by
  have hended : (ended (x t)).books = s.books := hwrote.books.trans hbooks
  refine ⟨hended ▸ .nothing, hwrote.options.trans ho, fun s' hs' => .inl ?_⟩
  have hdisplays := ht.trans (hwrote.displays _ _ hs')
  refine .unit hg ?_ houtcome hdisplays fun es' hes' => ?_
  · rw [← hended, hs']
    rfl
  · rw [hes'.unique hdisplays]
    exact countP_summary houtcome

end

section

variable {α : Type} {parse : ParserM α} {toUnit : α → TopLevel}
  {follow : α → FunctionId → SessionM Unit} {us : List TopLevel} {s : Session}

theorem compileWith_accounted (bare : Bool) (hs : Generator.Sound us s.generator.backend.module)
    (hp : s.parser.Lexed) (hparse : Parser.Silent parse)
    (hreads : Parser.Reads parse fun a =>
      (toUnit a).Grammatical ∧ (toUnit a).prototype.isAnonymous = bare)
    (hfollow : ∀ a f t, (toUnit a).prototype.isAnonymous = bare → t.parser.Lexed →
      ∃ es, Outcome t.generator.backend.module f es ∧
        Wrote t (.out (heading (toUnit a) ++ "\n") ::
          (listing t.options t.generator.backend.module f ++ es)) (follow a f t)) :
    Accounted s (parsed? (Parser.guarded parse) toUnit s.parser)
      (compileWith parse toUnit follow s) := by
  have hread := hreads s.parser hp
  unfold compileWith parsed?
  obtain ⟨a, q, hq, hguarded, herrors⟩ | ⟨e, q, hguarded, herrors⟩ | ⟨stop, q, hguarded, herrors⟩ :=
    hparse.guarded s.parser
  · rw [hq] at hread
    obtain ⟨hlexed, hgrammatical, hbare⟩ := hread
    obtain ⟨r, g, hg⟩ := Generator.generate_total hs hgrammatical
    obtain ⟨x, -, rfl, hnew, -⟩ := Generator.generate_step hs.indexed hs.named hg
    have hflush : Displays s [] (flushJournal { s with parser := q, generator := g }) :=
      displays_flushJournal { s with parser := q } g
    have hbooks : (flushJournal { s with parser := q, generator := g }).books =
        ⟨s.failures, s.parser.errors, s.generator.errors ++ Generator.newErrors x⟩ := by
      rw [← herrors, ← hnew]
      rfl
    have hgenerate : onGenerator (Generator.generate (toUnit a)) { s with parser := q } =
      .ok x.toOption (flushJournal { s with parser := q, generator := g }) := onGenerator_eq_ok hg
    rw [bind_eq_ok (onParser_eq_ok hguarded)]
    simp only [hguarded, Option.map_some]
    rw [bind_eq_ok hgenerate]
    cases x with
    | error e => exact accounted_meaning hg hflush rfl hbooks
    | ok f =>
      obtain ⟨es, houtcome, hwrote⟩ :=
        hfollow a f (flushJournal { s with parser := q, generator := g }) hbare hlexed
      refine accounted_unit hg hflush rfl ?_ houtcome hwrote
      rw [hbooks, Generator.newErrors, List.append_nil]
      rfl
  · rw [bind_eq_ok (onParser_eq_ok hguarded)]
    simp only [hguarded, Option.map_none]
    refine accounted_grammar (e := e) ⟨[], rfl, rfl⟩ rfl ?_
    rw [← herrors]
    rfl
  · obtain ⟨stop', hstop⟩ := onParser_eq_error hguarded
    have hbooks : ({ s with parser := q } : Session).books = s.books := by
      rw [Session.books, herrors]
      rfl
    rw [bind_eq_error hstop]
    exact ⟨hbooks ▸ .nothing, rfl, fun s' hs' => by cases hs'⟩

variable (hs : Generator.Sound us s.generator.backend.module) (hp : s.parser.Lexed)
include hs hp

theorem handleDefinition_accounted :
    Accounted s (parsed? Parser.definition? .definition s.parser) (handleDefinition s) := by
  rw [handleDefinition_eq]
  refine compileWith_accounted false hs hp Parser.silent_definition
    (Parser.definition_reads.mono fun d hd => ⟨hd.1, Identifier.not_anonymous hd.2⟩) ?_
  intro d f t hnamed _
  have hheading : heading (.definition d) = "Read function definition:" := by
    have hnot : d.prototype.isAnonymous = false := hnamed
    simp [heading, hnot]
  rw [hheading]
  refine ⟨[], .none, ?_⟩
  rw [List.append_nil]
  exact (wrote_log _ t).bind fun _ s' hs' => by
    cases hs'
    exact wrote_summarize _ f _

theorem handleExternal_accounted :
    Accounted s (parsed? Parser.external? .external s.parser) (handleExternal s) := by
  rw [handleExternal_eq]
  refine compileWith_accounted false hs hp Parser.silent_external
    (Parser.external_reads.mono fun d hd => ⟨hd.1, Identifier.not_anonymous hd.2⟩) ?_
  intro p f t _ _
  refine ⟨[], .none, ?_⟩
  rw [List.append_nil]
  exact (wrote_log _ t).bind fun _ s' hs' => by
    cases hs'
    exact wrote_summarize _ f _

theorem handleExpression_accounted :
    Accounted s (parsed? Parser.bareExpression? .definition s.parser) (handleExpression s) := by
  rw [handleExpression_eq]
  refine compileWith_accounted true hs hp Parser.silent_bareExpression
    (Parser.bareExpression_reads.mono fun d hd => ⟨hd.1, ?_⟩) ?_
  · obtain ⟨k, hk⟩ := hd.2
    exact isAnonymous_of_name hk
  intro d f t hnamed hlexed
  have hheading : heading (.definition d) = "Read top-level expression:" := by
    have hbare : d.prototype.isAnonymous = true := hnamed
    simp [heading, hbare]
  rw [hheading]
  obtain ⟨t₁, h₁⟩ := summarize_ok "Read top-level expression:" f t
  have hsummary := wrote_summarize "Read top-level expression:" f t
  have hkeeps := Calm.compositional.summarize "Read top-level expression:" f t hlexed
  rw [h₁] at hsummary hkeeps
  rw [bind_eq_ok h₁, bind_eq_ok (get_eq_ok t₁)]
  by_cases he : t₁.options.evaluate = true
  · obtain ⟨es, houtcome, hwrote⟩ := wrote_evaluate f hkeeps.generator.module
    have herase : Wrote t₁ (es ++ []) ((evaluate f >>= fun _ => onBackend (Backend.erase f)) t₁) :=
      hwrote.bind fun _ t₂ _ => wrote_onBackend _ t₂
    rw [List.append_nil] at herase
    refine ⟨es, houtcome, ?_⟩
    rw [if_pos he]
    exact hsummary.after herase
  · refine ⟨[], .none, ?_⟩
    rw [if_neg he]
    exact hsummary.after (wrote_onBackend _ t₁)

end

/-! ### Turns -/

inductive Fate
  | skipped
  | accepted
  | rejected

def Fate.Fits (s s' : Session) : Fate → Prop
  | skipped => Skipped s s'
  | accepted => Accepted s s' (nextUnit? s.parser)
  | rejected => Rejected s s' (nextUnit? s.parser)

section

variable {s s' : Session} {q : Parser} {w : Option TopLevel}

theorem books_unrecorded (h : q.errors = s.parser.errors) :
    ({ s with parser := q } : Session).books = s.books := by
  rw [Session.books, h]
  rfl

theorem Accounted.of_parser {r : EStateM.Result SessionStop Session Unit}
    (h : Accounted { s with parser := q } w r) (hq : q.errors = s.parser.errors) :
    Accounted s w r := by
  refine ⟨books_unrecorded hq ▸ h.entry, h.options, fun s' hs' => ?_⟩
  obtain haccepted | hrejected := h.fate s' hs'
  · cases haccepted with
    | unit generated books outcome displays once =>
      exact .inl (.unit generated (books.trans (books_unrecorded hq)) outcome displays once)
  · cases hrejected with
    | grammar books displays =>
      rw [hq] at books
      exact .inr (.grammar books displays)
    | meaning generated books displays =>
      rw [hq] at books
      exact .inr (.meaning generated books displays)

theorem Accepted.failures (h : Accepted s s' w) : s'.failures = s.failures := by
  cases h with
  | unit generated books => exact congrArg Books.failures books

theorem Rejected.failures (h : Rejected s s' w) : s'.failures = s.failures + 1 := by
  cases h with
  | grammar books => exact congrArg Books.failures books
  | meaning generated books => exact congrArg Books.failures books

theorem Skipped.not_accepted (h : Skipped s s') : ¬ Accepted s s' w := by
  rintro (⟨_, _, _, displays, _⟩)
  cases h.displays.unique displays

theorem Skipped.not_rejected (h : Skipped s s') : ¬ Rejected s s' w := by
  intro hr
  have hkept : s'.failures = s.failures := congrArg Books.failures h.books
  rw [hr.failures] at hkept
  exact Nat.succ_ne_self _ hkept

theorem Accepted.not_rejected (h : Accepted s s' w) : ¬ Rejected s s' w := by
  intro hr
  have hkept := h.failures
  rw [hr.failures] at hkept
  exact Nat.succ_ne_self _ hkept

theorem Fate.unique {a b : Fate} (ha : a.Fits s s') (hb : b.Fits s s') : a = b := by
  cases a with
  | skipped =>
    cases b with
    | skipped => rfl
    | accepted => exact absurd hb ha.not_accepted
    | rejected => exact absurd hb ha.not_rejected
  | accepted =>
    cases b with
    | skipped => exact absurd ha hb.not_accepted
    | accepted => rfl
    | rejected => exact absurd hb ha.not_rejected
  | rejected =>
    cases b with
    | skipped => exact absurd ha hb.not_rejected
    | accepted => exact absurd ha hb.not_rejected
    | rejected => rfl

structure Turnover (s : Session) (w : Option TopLevel) (r : EStateM.Result SessionStop Session Bool) :
    Prop where
  entry : s.books.Entry (ended r).books
  options : (ended r).options = s.options
  fate : ∀ s', r = .ok true s' → Skipped s s' ∨ Accepted s s' w ∨ Rejected s s' w

theorem Accounted.turnover {handler : SessionM Unit} (h : Accounted s w (handler s')) :
    Turnover s w ((handler >>= fun _ => pure true : SessionM Bool) s') := by
  have hended := (ended_bind_pure handler true s').symm
  refine ⟨hended ▸ h.entry, hended ▸ h.options, fun t ht => .inr ?_⟩
  obtain ⟨_, t', ht', hpure⟩ := exists_of_bind_eq_ok ht
  cases hpure
  exact h.fate _ ht'

theorem skipped_of_advance {t u : Token} {p q : Parser} (hc : Parser.current s.parser = .ok t p)
    (ht : t.isChar ";" = true) (ha : Parser.advance p = .ok u q)
    (hq : q.errors = s.parser.errors) : Skipped s { s with parser := q } :=
  ⟨⟨t, u, p, hc, ht, ha⟩, books_unrecorded hq, rfl, [], rfl, rfl⟩

/-- A turn enters at most one error, and when it comes to an end it skips a semicolon, accepts a
unit or rejects one. -/
theorem handleNext_turnover {us : List TopLevel}
    (hs : Generator.Sound us s.generator.backend.module) (hp : s.parser.Lexed) :
    Turnover s (nextUnit? s.parser) (handleNext s) := by
  have hread := Parser.Reads.current s.parser hp
  have hsilent := Parser.Silent.current s.parser
  unfold handleNext nextUnit?
  cases hc : Parser.current s.parser with
  | error stop q =>
    rw [hc] at hsilent
    obtain ⟨e, he⟩ := onParser_eq_error hc
    rw [bind_eq_error he]
    exact ⟨(books_unrecorded hsilent) ▸ .nothing, rfl, fun s' hs' => by cases hs'⟩
  | ok t q =>
    rw [hc] at hread hsilent
    have hq : q.errors = s.parser.errors := hsilent
    have hdefinition := (handleDefinition_accounted (s := { s with parser := q }) hs hread.1)
    have hexternal := (handleExternal_accounted (s := { s with parser := q }) hs hread.1)
    have hexpression := (handleExpression_accounted (s := { s with parser := q }) hs hread.1)
    rw [bind_eq_ok (onParser_eq_ok hc)]
    by_cases hend : t.kind = .endOfInput
    · simp only [hend, if_true, true_or]
      exact ⟨(books_unrecorded hq) ▸ .nothing, rfl, fun s' hs' => by cases hs'⟩
    by_cases hsemicolon : t.isChar ";" = true
    · simp only [hend, hsemicolon, if_true, if_false, or_true]
      have hadvance := Parser.Silent.advance q
      cases ha : Parser.advance q with
      | error stop q' =>
        rw [ha] at hadvance
        obtain ⟨e, he⟩ := onParser_eq_error (s := { s with parser := q }) ha
        rw [bind_eq_error he]
        exact ⟨(books_unrecorded (hadvance.trans hq)) ▸ .nothing, rfl, fun s' hs' => by cases hs'⟩
      | ok u q' =>
        rw [ha] at hadvance
        have hrun : onParser Parser.advance { s with parser := q } =
          .ok u { s with parser := q' } := onParser_eq_ok ha
        have hskipped := skipped_of_advance hc hsemicolon ha (hadvance.trans hq)
        rw [bind_eq_ok hrun]
        exact ⟨hskipped.books ▸ .nothing, rfl, fun s' hs' => by cases hs'; exact .inl hskipped⟩
    · simp only [hend, hsemicolon, Bool.false_eq_true, if_false, or_self]
      cases hk : t.kind <;> simp only
      case defKeyword => exact (hdefinition.of_parser hq).turnover
      case externKeyword => exact (hexternal.of_parser hq).turnover
      all_goals exact (hexpression.of_parser hq).turnover

end

end Session

end ExprCompiler
