import ExprCompiler.Proofs.Sessions

/-!
# Histories of a session

A session reads one source after another, in full or a line at a time, and
handles their units in turn. Its history counts the units that have
succeeded.
-/

namespace ExprCompiler.Session

open Generator (Anonymous Observed Reached succeeded)

def tally (us : List TopLevel) (s : Session) : List TopLevel :=
  match nextUnit? s.parser with
  | none => us
  | some u => succeeded us u (Generator.answer? u s.generator).join

/-- The states of a session whose verifier is given, together with the units that have succeeded in
it. A turn or an end counts as well if it breaks off. -/
inductive History (v : Verifier) : List TopLevel → Session → Prop
  | start {o : Options} {files : FileTree} {s : Session} (h : start o files v = .ok s) :
    History v [] s
  | source {us : List TopLevel} {s : Session} (text : Source) (h : History v us s) :
    History v us { s with parser := .ofSource text s.options.file }
  | line {us : List TopLevel} {s : Session} (text : String) (h : History v us s) :
    History v us (s.receive text)
  | prompt {us : List TopLevel} {s : Session} (h : History v us s) :
    History v us (ended (prompt s))
  | turn {us : List TopLevel} {s : Session} (h : History v us s) :
    History v (tally us s) (ended (handleNext s))
  | finish {us : List TopLevel} {s : Session} (h : History v us s) :
    History v us (ended (finish s))

structure Traced (v : Verifier) (us : List TopLevel) (s : Session) : Prop where
  reached : Reached TopLevel.Grammatical Anonymous us s.generator
  parser : s.parser.Lexed
  verifier : s.generator.verifier = v

section

variable {v : Verifier} {us : List TopLevel} {s s' : Session}

theorem start_eq_ok {o : Options} {files : FileTree} (h : Session.start o files v = .ok s) :
    ∃ triple, s = flushJournal
      ⟨o, .ofBackend (.ofTarget o.moduleName triple) v, emptyParser o, 0, files, []⟩ := by
  unfold Session.start at h
  cases ht : Target.ofTriple? (o.target.bind OptionValue.text?) with
  | error e =>
    rw [ht] at h
    cases h
  | ok triple =>
    rw [ht] at h
    cases h
    exact ⟨triple, rfl⟩

theorem anonymous_of_generate {u : TopLevel} {f : IR.FunctionId} {g g' : Generator}
    (hs : Generator.Sound us g.backend.module) (hu : u.Grammatical)
    (ha : u.prototype.isAnonymous = true) (hg : Generator.generate u g = .ok (some f) g') :
    Anonymous g'.backend.module f := by
  obtain ⟨x, hstep, hx, -, -⟩ := Generator.generate_step hs.indexed hs.named hg
  cases x with
  | error e => cases hx
  | ok c =>
    cases hx
    have hl := hstep.lookup hs
    rcases hu.name with hn | ⟨k, d, rfl, hk, -⟩
    · rw [Identifier.not_anonymous hn] at ha
      cases ha
    · exact ⟨k, hk ▸ hl⟩

theorem Traced.keeps (h : Traced v us s) (hk : Keeps s s') : Traced v us s' :=
  ⟨h.reached.observed hk.generator, hk.parser, hk.generator.verifier.trans h.verifier⟩

theorem Traced.handled (h : Traced v us s) :
    (tally us s = us ∧ Keeps s (ended (handleNext s))) ∨
      ∃ u r g, Compiles s u (ended (handleNext s)) ∧
        Generator.generate u s.generator = .ok r g ∧ tally us s = succeeded us u r ∧
        Finishes u r g (ended (handleNext s)) := by
  have hhandles := handleNext_handles h.reached.sound_of_grammatical h.parser
  cases hu : nextUnit? s.parser with
  | none =>
    rw [hu] at hhandles
    exact Or.inl ⟨by simp only [tally, hu], hhandles⟩
  | some u =>
    rw [hu] at hhandles
    have hcompiles : Compiles s u (ended (handleNext s)) := hhandles
    obtain ⟨r, g, hg, hfinishes⟩ := hcompiles.generated
    refine Or.inr ⟨u, r, g, hcompiles, hg, ?_, hfinishes⟩
    simp only [tally, hu, Generator.answer?, hg, Option.join_some]

inductive Turned (v : Verifier) (us : List TopLevel) (s s' : Session) : List TopLevel → Prop
  | kept (h : Observed s.generator s'.generator) : Turned v us s s' us
  | stepped {u : TopLevel} {x : Except CompileError IR.FunctionId} {m : IR.Module}
      {fs : List IR.FunctionId} (hu : u.Grammatical)
      (hstep : Generator.Step v s.generator.backend.module u x m)
      (herrors : s'.generator.errors = s.generator.errors ++ Generator.newErrors x)
      (hmodule : s'.generator.backend.module = m.sealAll fs)
      (hbare : u.prototype.isAnonymous = true → x.toOption = none) :
    Turned v us s s' (succeeded us u x.toOption)
  | erased {u : TopLevel} {f : IR.FunctionId} {m : IR.Module} {fs gs : List IR.FunctionId}
      (hstep : Generator.Step v s.generator.backend.module u (.ok f) m)
      (herrors : s'.generator.errors = s.generator.errors)
      (hmodule : s'.generator.backend.module = ((m.sealAll fs).erase f).sealAll gs)
      (hbare : u.prototype.isAnonymous = true) :
    Turned v us s s' (us ++ [u])

theorem Traced.turned (h : Traced v us s) :
    Turned v us s (ended (handleNext s)) (tally us s) := by
  have hsound := h.reached.sound_of_grammatical
  obtain ⟨htally, hkeeps⟩ | ⟨u, r, g, hcompiles, hg, htally, hfinishes⟩ := h.handled
  · rw [htally]
    exact .kept hkeeps.generator
  · obtain ⟨x, hstep, rfl, herrors, -⟩ := Generator.generate_step hsound.indexed hsound.named hg
    rw [h.verifier] at hstep
    rw [htally]
    obtain ⟨hobserved, hnone⟩ | ⟨f, g₁, g₂, ha, hf, hbefore, herase, hafter⟩ := hfinishes
    · obtain ⟨fs, hfs⟩ := hobserved.module
      exact .stepped hcompiles.grammatical hstep (hobserved.errors.trans herrors) hfs hnone
    · obtain ⟨fs, hfs⟩ := hbefore.module
      obtain ⟨gs, hgs⟩ := hafter.module
      obtain ⟨hm, he, -⟩ := Generator.erase_module herase
      cases x with
      | error e => cases hf
      | ok c =>
        cases hf
        rw [hm, hfs] at hgs
        have herrors' := hafter.errors.trans (he.trans (hbefore.errors.trans herrors))
        exact .erased hstep (herrors'.trans (List.append_nil _)) hgs ha

theorem Traced.turn (h : Traced v us s) : Traced v (tally us s) (ended (handleNext s)) := by
  have hsound := h.reached.sound_of_grammatical
  obtain ⟨htally, hkeeps⟩ | ⟨u, r, g, hcompiles, hg, htally, hfinishes⟩ := h.handled
  · rw [htally]
    exact h.keeps hkeeps
  · have hreached := h.reached.generated hcompiles.grammatical hg
    obtain ⟨x, -, -, -, hverifier⟩ := Generator.generate_step hsound.indexed hsound.named hg
    have hv : g.verifier = v := hverifier.trans h.verifier
    rw [htally]
    obtain ⟨hobserved, -⟩ | ⟨f, g₁, g₂, ha, rfl, hbefore, herase, hafter⟩ := hfinishes
    · exact ⟨hreached.observed hobserved, hcompiles.parser, hobserved.verifier.trans hv⟩
    · have hanonymous : Anonymous g₁.backend.module f := by
        obtain ⟨k, hk⟩ := anonymous_of_generate hsound hcompiles.grammatical ha hg
        obtain ⟨fs, hfs⟩ := hbefore.module
        exact ⟨k, by rw [hfs, IR.Module.lookup_sealAll, hk]⟩
      obtain ⟨-, -, herased⟩ := Generator.erase_module herase
      have herasing := (hreached.observed hbefore).erased hanonymous herase
      have hverifier := hafter.verifier.trans (herased.trans (hbefore.verifier.trans hv))
      exact ⟨herasing.observed hafter, hcompiles.parser, hverifier⟩

/-- A session is always in order. -/
theorem History.traced (h : History v us s) : Traced v us s := by
  induction h with
  | @start o files s h =>
    obtain ⟨triple, rfl⟩ := start_eq_ok h
    have hstart := Reached.start (P := TopLevel.Grammatical) (E := Anonymous) o.moduleName triple v
    refine ⟨hstart.observed ⟨⟨[], rfl⟩, rfl, rfl⟩, ?_, rfl⟩
    intro t ht
    cases ht
  | source text h ih =>
    refine ⟨ih.reached, ?_, ih.verifier⟩
    intro t ht
    cases ht
  | line text h ih => exact ⟨ih.reached, ih.parser, ih.verifier⟩
  | prompt h ih => exact ih.keeps (Calm.compositional.prompt _ ih.parser)
  | turn h ih => exact ih.turn
  | finish h ih => exact ih.keeps (calm_finish _ ih.parser)

/-! ### Whole sources -/

theorem History.loop (h : History v us s) (n : Nat) :
    ∃ us', History v us' (ended (loopAt n s)) := by
  induction n generalizing us s with
  | zero => exact ⟨us, h⟩
  | succ n ih =>
    have hprompt := h.prompt
    cases hp : Session.prompt s with
    | error stop s₁ =>
      rw [hp] at hprompt
      exact ⟨us, by rwa [loopAt, bind_eq_error hp]⟩
    | ok a s₁ =>
      rw [hp] at hprompt
      have hturn := History.turn (s := s₁) hprompt
      rw [loopAt, bind_eq_ok hp]
      cases ht : handleNext s₁ with
      | error stop s₂ =>
        rw [ht] at hturn
        exact ⟨_, by rwa [bind_eq_error ht]⟩
      | ok more s₂ =>
        rw [ht] at hturn
        rw [bind_eq_ok ht]
        cases more with
        | true => exact ih hturn
        | false => exact ⟨_, hturn⟩

theorem run_eq (text : Source) (s : Session) : run text s =
    (Session.loop >>= fun _ => finish) { s with parser := .ofSource text s.options.file } := rfl

theorem History.run (h : History v us s) (text : Source) :
    ∃ us', History v us' (ended (run text s)) := by
  have hsource := h.source text
  rw [run_eq]
  generalize { s with parser := .ofSource text s.options.file } = t at *
  obtain ⟨us₁, hloop⟩ := hsource.loop (t.parser.weight + 1)
  have hrun : Session.loop t = loopAt (t.parser.weight + 1) t := rfl
  cases hl : loopAt (t.parser.weight + 1) t with
  | error stop s₁ =>
    rw [hl] at hloop hrun
    exact ⟨us₁, by rwa [bind_eq_error hrun]⟩
  | ok a s₁ =>
    rw [hl] at hloop hrun
    rw [bind_eq_ok hrun]
    exact ⟨us₁, History.finish (s := s₁) hloop⟩

end

end ExprCompiler.Session
