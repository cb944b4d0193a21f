import ExprCompiler.Proofs.Parsed
import ExprCompiler.Proofs.Reporting

/-!
# Sessions and their modules

Reports and prompts leave the module of a session as it is, but for sealing.
A unit that is handled is generated, and the function of a bare expression is
erased again after its report.
-/

namespace ExprCompiler

open IR (FunctionId Module)

namespace Generator.Observed

variable {g g' g'' : Generator}

theorem refl (g : Generator) : Observed g g := ⟨⟨[], rfl⟩, rfl, rfl⟩

theorem trans (h : Observed g g') (k : Observed g' g'') : Observed g g'' := by
  obtain ⟨fs, hfs⟩ := h.module
  obtain ⟨gs, hgs⟩ := k.module
  refine ⟨⟨fs ++ gs, ?_⟩, k.errors.trans h.errors, k.verifier.trans h.verifier⟩
  rw [hgs, hfs, Module.sealAll, Module.sealAll, Module.sealAll, List.foldl_append]

end Generator.Observed

namespace Session

open Generator (Observed)

theorem onParser_eq_ok {α : Type} {x : ParserM α} {s : Session} {a : α} {p : Parser}
    (h : x s.parser = .ok a p) : onParser x s = .ok a { s with parser := p } := by
  simp only [onParser, h]

theorem onParser_eq_error {α : Type} {x : ParserM α} {s : Session} {stop : ParseStop} {p : Parser}
    (h : x s.parser = .error stop p) : ∃ e, onParser x s = .error e { s with parser := p } := by
  simp only [onParser, h]
  cases stop <;> exact ⟨_, rfl⟩

theorem onGenerator_eq_ok {α : Type} {x : GeneratorM α} {s : Session} {a : α} {g : Generator}
    (h : x s.generator = .ok a g) :
    onGenerator x s = .ok a (flushJournal { s with generator := g }) := by
  simp only [onGenerator, h]

structure Keeps (s s' : Session) : Prop where
  generator : Observed s.generator s'.generator
  parser : s'.parser.Lexed

def Calm {α : Type} (x : SessionM α) : Prop := ∀ s, s.parser.Lexed → Keeps s (ended (x s))

namespace Calm

variable {α β : Type}

theorem pure (a : α) : Calm (Pure.pure a : SessionM α) := fun _ hp => ⟨.refl _, hp⟩

theorem bind {x : SessionM α} {k : α → SessionM β} (hx : Calm x) (hk : ∀ a, Calm (k a)) :
    Calm (x >>= k) := by
  intro s hp
  have hrun := hx s hp
  cases hxs : x s with
  | ok a s' =>
    rw [hxs] at hrun
    have hrest := hk a s' hrun.parser
    rw [bind_eq_ok hxs]
    exact ⟨hrun.generator.trans hrest.generator, hrest.parser⟩
  | error stop s' =>
    rw [hxs] at hrun
    rw [bind_eq_error hxs]
    exact hrun

theorem state {k : Session → SessionM β} (hk : ∀ s, Calm (k s)) : Calm (get >>= k) :=
  fun s hp => hk s s hp

theorem modify (k : Session → Session) (hg : ∀ s, (k s).generator = s.generator)
    (hp : ∀ s, (k s).parser = s.parser) : Calm (modify k) := by
  intro s hs
  refine ⟨?_, ?_⟩
  · change Observed s.generator (k s).generator
    rw [hg]
    exact .refl _
  · change (k s).parser.Lexed
    rwa [hp]

theorem ite {c : Prop} [Decidable c] {x y : SessionM α} (hx : Calm x) (hy : Calm y) :
    Calm (if c then x else y) := by
  split
  · exact hx
  · exact hy

theorem onParser {x : ParserM α} {Q : α → Prop} (hx : Parser.Reads x Q) : Calm (onParser x) := by
  intro s hs
  have hrun := hx s.parser hs
  cases hxp : x s.parser with
  | ok a q =>
    rw [hxp] at hrun
    rw [onParser_eq_ok hxp]
    exact ⟨.refl _, hrun.1⟩
  | error stop q =>
    rw [hxp] at hrun
    obtain ⟨e, he⟩ := onParser_eq_error hxp
    rw [he]
    exact ⟨.refl _, hrun⟩

theorem onBackend {x : BackendM α} (hx : Backend.Seals x) : Calm (onBackend x) := by
  intro s hs
  obtain ⟨fs, hfs⟩ := hx s.generator.backend
  simp only [Session.onBackend, onGenerator, Generator.onBackend]
  cases hxb : x s.generator.backend with
  | ok a b =>
    rw [hxb] at hfs
    exact ⟨⟨⟨fs, hfs⟩, rfl, rfl⟩, hs⟩
  | error e b =>
    rw [hxb] at hfs
    exact ⟨⟨⟨fs, hfs⟩, rfl, rfl⟩, hs⟩

theorem tell (e : Event) : Calm (tell e) := .modify _ (fun _ => rfl) fun _ => rfl

theorem compositional : Compositional Calm where
  pure := .pure
  bind := .bind
  state hk _ := .state hk
  tell := tell
  count := .modify _ (fun _ => rfl) fun _ => rfl
  current := onParser Parser.Reads.current
  advance := onParser Parser.Reads.advance
  functionText f := onBackend (Backend.seals_functionText f)
  evaluation f := onBackend (Backend.seals_evaluate f)

theorem stop (e : SessionStop) : Calm (throw e : SessionM α) := fun _ hp => ⟨.refl _, hp⟩

theorem writeText (path : String) : Calm (writeText path) := by
  unfold Session.writeText
  refine .state fun s => ?_
  cases s.files.openForWriting path with
  | error e =>
    cases e with
    | nullInPath => exact stop _
    | _ => exact (tell _).bind fun _ => .modify _ (fun _ => rfl) fun _ => rfl
  | ok t =>
    refine (onBackend Backend.seals_moduleText).bind fun text => .modify _ (fun s => ?_) fun s => ?_
    · split <;> rfl
    · split <;> rfl

theorem outputPath : Calm outputPath := by
  refine .state fun s => ?_
  cases s.options.outputPath with
  | text path => exact .pure _
  | dropped => exact stop _

end Calm

theorem calm_finish : Calm finish := by
  have htail (w : Option FileTree) : Calm (do
      let failures := (← get).failures
      log (.finished failures)
      return w.isSome && failures == 0 : SessionM Bool) :=
    .state fun _ => (Calm.tell _).bind fun _ => .pure _
  unfold finish
  apply Calm.state
  intro s
  rcases s.options.textPath.bind OptionValue.text? with _ | path
  on_goal 2 => refine .ite ((Calm.writeText path).bind fun _ => ?_) ?_
  -- The object file is written whatever became of the text.
  all_goals
    refine Calm.outputPath.bind fun path => .state fun s => ?_
    refine (Calm.onBackend (Backend.seals_emit path s.files)).bind fun w => ?_
    cases w with
    | some files =>
      refine (Calm.modify _ ?_ ?_).bind fun _ => (Calm.tell _).bind fun _ => htail (some files)
      · exact fun _ => rfl
      · exact fun _ => rfl
    | none => exact Calm.compositional.reportBackend.bind fun _ => htail none

/-! ### Handling a unit -/

def parsed? {α : Type} (x : ParserM (Option α)) (toUnit : α → TopLevel) (p : Parser) :
    Option TopLevel :=
  match x p with
  | .ok a _ => a.map toUnit
  | .error _ _ => none

def nextUnit? (p : Parser) : Option TopLevel :=
  match Parser.current p with
  | .error _ _ => none
  | .ok t p =>
    if t.kind = .endOfInput ∨ t.isChar ";" then none
    else
      match t.kind with
      | .defKeyword => parsed? Parser.definition? .definition p
      | .externKeyword => parsed? Parser.external? .external p
      | _ => parsed? Parser.bareExpression? .definition p

def Finishes (u : TopLevel) (r : Option FunctionId) (g : Generator) (s' : Session) : Prop :=
  (Observed g s'.generator ∧ (u.prototype.isAnonymous = true → r = none)) ∨
    ∃ f g₁ g₂, u.prototype.isAnonymous = true ∧ r = some f ∧ Observed g g₁ ∧
      Generator.onBackend (Backend.erase f) g₁ = .ok () g₂ ∧ Observed g₂ s'.generator

structure Compiles (s : Session) (u : TopLevel) (s' : Session) : Prop where
  grammatical : u.Grammatical
  parser : s'.parser.Lexed
  generated : ∃ r g, Generator.generate u s.generator = .ok r g ∧ Finishes u r g s'

def Handles (s s' : Session) : Option TopLevel → Prop
  | none => Keeps s s'
  | some u => Compiles s u s'

section

variable {us : List TopLevel} {s s' : Session} {u : TopLevel}

theorem Compiles.of_generator {t : Session} (h : Compiles s' u t)
    (hg : s'.generator = s.generator) : Compiles s u t :=
  ⟨h.grammatical, h.parser, hg ▸ h.generated⟩

theorem observed_flush (s : Session) : Observed s.generator (flushJournal s).generator :=
  ⟨⟨[], rfl⟩, rfl, rfl⟩

theorem compile_named {k : Option FunctionId → SessionM Unit} (hk : ∀ r, Calm (k r))
    (hs : Generator.Sound us s.generator.backend.module) (hp : s.parser.Lexed)
    (hu : u.Grammatical) (hn : u.prototype.isAnonymous = false) :
    Compiles s u (ended ((onGenerator (Generator.generate u) >>= k) s)) := by
  obtain ⟨r, g, hg⟩ := Generator.generate_total hs hu
  have hrest := hk r (flushJournal { s with generator := g }) hp
  rw [bind_eq_ok (onGenerator_eq_ok hg)]
  refine ⟨hu, hrest.parser, r, g, hg, Or.inl ⟨?_, fun ha => ?_⟩⟩
  · exact (observed_flush { s with generator := g }).trans hrest.generator
  · rw [hn] at ha
    cases ha

theorem compile_bare {k : FunctionId → SessionM Unit} {fail : SessionM Unit} (hfail : Calm fail)
    (hk : ∀ f t, t.parser.Lexed → ∃ t', Keeps t t' ∧ k f t = onBackend (Backend.erase f) t')
    (hs : Generator.Sound us s.generator.backend.module) (hp : s.parser.Lexed)
    (hu : u.Grammatical) (hn : u.prototype.isAnonymous = true) :
    Compiles s u (ended ((onGenerator (Generator.generate u) >>= fun r =>
      match r with
      | none => fail
      | some f => k f) s)) := by
  obtain ⟨r, g, hg⟩ := Generator.generate_total hs hu
  have hflush := observed_flush { s with generator := g }
  rw [bind_eq_ok (onGenerator_eq_ok hg)]
  cases r with
  | none =>
    have hrest := hfail (flushJournal { s with generator := g }) hp
    exact ⟨hu, hrest.parser, none, g, hg, Or.inl ⟨hflush.trans hrest.generator, fun _ => rfl⟩⟩
  | some f =>
    obtain ⟨t, hkeeps, hrun⟩ := hk f (flushJournal { s with generator := g }) hp
    obtain ⟨j, hj⟩ := Backend.erase_run t.generator.backend f
    have herase := Generator.onBackend_eq_ok hj
    simp only
    rw [hrun, onBackend, onGenerator_eq_ok herase]
    exact ⟨hu, hkeeps.parser, some f, g, hg, Or.inr ⟨f, _, _, hn, rfl,
      hflush.trans hkeeps.generator, herase, ⟨⟨[], rfl⟩, rfl, rfl⟩⟩⟩

theorem parse_handles {α : Type} {x : ParserM (Option α)} {Q : α → Prop}
    {k : Option α → SessionM Unit} (toUnit : α → TopLevel)
    (hx : Parser.Reads x fun r => ∀ a, r = some a → Q a) (hp : s.parser.Lexed)
    (hnone : Calm (k none))
    (hsome : ∀ a t, Q a → t.generator = s.generator → t.parser.Lexed →
      Compiles t (toUnit a) (ended (k (some a) t))) :
    Handles s (ended ((onParser x >>= k) s)) (parsed? x toUnit s.parser) := by
  have hread := hx s.parser hp
  unfold parsed?
  cases hxp : x s.parser with
  | error stop q =>
    rw [hxp] at hread
    obtain ⟨e, he⟩ := onParser_eq_error hxp
    rw [bind_eq_error he]
    exact ⟨.refl _, hread⟩
  | ok a q =>
    rw [hxp] at hread
    rw [bind_eq_ok (onParser_eq_ok hxp)]
    cases a with
    | none =>
      have hkeeps := hnone { s with parser := q } hread.1
      exact ⟨hkeeps.generator, hkeeps.parser⟩
    | some a => exact (hsome a { s with parser := q } (hread.2 a rfl) rfl hread.1).of_generator rfl

theorem definition_handles (hs : Generator.Sound us s.generator.backend.module)
    (hp : s.parser.Lexed) :
    Handles s (ended (handleDefinition s)) (parsed? Parser.definition? .definition s.parser) := by
  unfold handleDefinition Parser.definition?
  refine parse_handles .definition Parser.definition_reads.guarded hp ?_ fun d t hd ht hpt => ?_
  · exact Calm.compositional.failParse
  refine compile_named (fun r => ?_) (ht ▸ hs) hpt hd.1 (Identifier.not_anonymous hd.2)
  cases r with
  | none => exact Calm.compositional.failGeneration
  | some f => exact (Calm.tell _).bind fun _ => Calm.compositional.summarize _ f

theorem external_handles (hs : Generator.Sound us s.generator.backend.module)
    (hp : s.parser.Lexed) :
    Handles s (ended (handleExternal s)) (parsed? Parser.external? .external s.parser) := by
  unfold handleExternal Parser.external?
  refine parse_handles .external Parser.external_reads.guarded hp ?_ fun q t hq ht hpt => ?_
  · exact Calm.compositional.failParse
  refine compile_named (fun r => ?_) (ht ▸ hs) hpt hq.1 (Identifier.not_anonymous hq.2)
  cases r with
  | none => exact Calm.compositional.failGeneration
  | some f => exact (Calm.tell _).bind fun _ => Calm.compositional.summarize _ f

theorem summarize_ok (header : String) (f : FunctionId) (s : Session) :
    ∃ s', summarize header f s = .ok () s' := by
  unfold summarize
  have hprint : print header s = .ok () { s with events := .out (header ++ "\n") :: s.events } := rfl
  rw [bind_eq_ok hprint]
  generalize { s with events := .out (header ++ "\n") :: s.events } = t
  rw [bind_eq_ok (get_eq_ok t)]
  split
  · exact ⟨_, rfl⟩
  · exact ⟨_, rfl⟩

theorem evaluate_ok (f : FunctionId) (s : Session) : ∃ s', evaluate f s = .ok () s' := by
  have heval : ∃ r b, Backend.evaluate f s.generator.backend = .ok r b := by
    cases h : s.generator.backend.refusal? (s.generator.backend.module.reach f) with
    | some reason => exact ⟨_, _, Backend.evaluate_refused h⟩
    | none =>
      rw [Backend.evaluate_run h]
      split <;> exact ⟨_, _, rfl⟩
  obtain ⟨r, b, hr⟩ := heval
  unfold evaluate onBackend
  rw [bind_eq_ok (onGenerator_eq_ok (Generator.onBackend_eq_ok hr))]
  cases r with
  | some v => exact ⟨_, rfl⟩
  | none =>
    unfold reportBackend
    simp only
    generalize flushJournal _ = t
    rw [bind_eq_ok (get_eq_ok t)]
    cases t.generator.backend.errors.getLast? with
    | none => exact ⟨_, rfl⟩
    | some e => exact ⟨_, rfl⟩

theorem expression_handles (hs : Generator.Sound us s.generator.backend.module)
    (hp : s.parser.Lexed) :
    Handles s (ended (handleExpression s)) (parsed? Parser.bareExpression? .definition s.parser) := by
  unfold handleExpression Parser.bareExpression?
  refine parse_handles .definition Parser.bareExpression_reads.guarded hp ?_ fun d t hd ht hpt => ?_
  · exact Calm.compositional.failParse
  obtain ⟨hgrammatical, k, hk⟩ := hd
  refine compile_bare Calm.compositional.failGeneration (fun f t ht => ?_) (ht ▸ hs) hpt hgrammatical
    (isAnonymous_of_name hk)
  obtain ⟨t₁, h₁⟩ := summarize_ok "Read top-level expression:" f t
  have hkeeps₁ := Calm.compositional.summarize "Read top-level expression:" f t ht
  rw [h₁] at hkeeps₁
  rw [bind_eq_ok h₁, bind_eq_ok (get_eq_ok t₁)]
  by_cases he : t₁.options.evaluate = true
  · obtain ⟨t₂, h₂⟩ := evaluate_ok f t₁
    have hkeeps₂ := Calm.compositional.evaluate f t₁ hkeeps₁.parser
    rw [h₂] at hkeeps₂
    refine ⟨t₂, ⟨hkeeps₁.generator.trans hkeeps₂.generator, hkeeps₂.parser⟩, ?_⟩
    simp only [he, if_true]
    exact bind_eq_ok h₂
  · refine ⟨t₁, hkeeps₁, ?_⟩
    simp only [he]
    rfl

theorem ended_bind_pure {α β : Type} (x : SessionM α) (b : β) (s : Session) :
    ended ((x >>= fun _ => pure b) s) = ended (x s) := by
  cases h : x s with
  | ok a s' =>
    rw [bind_eq_ok h]
    rfl
  | error stop s' =>
    rw [bind_eq_error h]
    rfl

theorem Handles.of_generator {t t' : Session} {w : Option TopLevel} (h : Handles t t' w)
    (hg : t.generator = s.generator) : Handles s t' w := by
  cases w with
  | none => exact ⟨hg ▸ h.generator, h.parser⟩
  | some u => exact Compiles.of_generator h hg

/-- One turn of the loop handles the unit that is read next. -/
theorem handleNext_handles (hs : Generator.Sound us s.generator.backend.module)
    (hp : s.parser.Lexed) : Handles s (ended (handleNext s)) (nextUnit? s.parser) := by
  have hread := Parser.Reads.current s.parser hp
  unfold handleNext nextUnit?
  cases hc : Parser.current s.parser with
  | error stop q =>
    rw [hc] at hread
    obtain ⟨e, he⟩ := onParser_eq_error hc
    rw [bind_eq_error he]
    exact ⟨.refl _, hread⟩
  | ok t q =>
    rw [hc] at hread
    have hdefinition := definition_handles (s := { s with parser := q }) hs hread.1
    have hexternal := external_handles (s := { s with parser := q }) hs hread.1
    have hexpression := expression_handles (s := { s with parser := q }) hs hread.1
    rw [bind_eq_ok (onParser_eq_ok hc)]
    by_cases hend : t.kind = .endOfInput
    · simp only [hend, if_true, true_or]
      exact ⟨.refl _, hread.1⟩
    by_cases hsemicolon : t.isChar ";" = true
    · simp only [hend, hsemicolon, if_true, if_false, or_true]
      rw [ended_bind_pure]
      have hadvance := Calm.onParser Parser.Reads.advance { s with parser := q } hread.1
      exact ⟨hadvance.generator, hadvance.parser⟩
    · simp only [hend, hsemicolon, Bool.false_eq_true, if_false, or_self]
      cases hk : t.kind <;> simp only <;> rw [ended_bind_pure]
      case defKeyword => exact hdefinition.of_generator rfl
      case externKeyword => exact hexternal.of_generator rfl
      all_goals exact hexpression.of_generator rfl

end

end Session

end ExprCompiler
