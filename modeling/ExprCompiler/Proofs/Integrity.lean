import ExprCompiler.Proofs.History

/-!
# The code of a session is in order

Between the turns of a session every function in its module is well-formed,
whatever has failed before. A check finds no fault in such a module, so that
units fail for reasons of meaning only.
-/

namespace ExprCompiler

open IR (FunctionId Module)

namespace Generator

variable {us : List TopLevel} {m m' : Module} {f : FunctionId} {u : TopLevel}

theorem Sound.accepted {d : Definition} {t : IR.Scope} {b : IR.Block} (h : Sound us m)
    (hb : Bodiless m d.name) (hp : Generator.introduce m d.prototype = .ok (f, m'))
    (he : emitBody m' f d = .ok (t, b)) (fs : List FunctionId) :
    ((m'.withBody f t [b]).sealAll fs).fault? = none := by
  obtain ⟨-, hl, ha, -, hblocks⟩ := introduce_function h.indexed h.named hp
  have hnodup := (introduce_cases hp).1
  have hsound := ((h.introduce hp).withBody hl (hblocks hb) ha hnodup he).sealAll fs
  exact Module.fault?_eq_none fun g hg => hsound.wellFormed hg

theorem Step.semantic {e : CompileError} (hs : Sound us m) (hu : u.Grammatical)
    (h : Step .checking m u (.error e) m') : ∃ x, e = .semantic x := by
  cases h with
  | refused hp =>
    obtain ⟨x, hx⟩ := not_stuck hs.indexed hu (Or.inl hp)
    cases hx
    exact ⟨x, rfl⟩
  | @repeated d f hl hb => exact ⟨_, rfl⟩
  | @unfinished d f m₁ _ t b hb hp he =>
    obtain ⟨x, hx⟩ := not_stuck hs.indexed hu (Or.inr ⟨d, f, m₁, rfl, hp, he⟩)
    cases hx
    exact ⟨x, rfl⟩
  | rejected hb hp he hv => exact absurd (hs.accepted hb hp he _) (hv Verifier.accepting_checking)

end Generator

theorem SemanticError.code_ne_verification (e : SemanticError) :
    e.diagnostic.code ≠ some "B001" := by
  cases e <;> simp [SemanticError.diagnostic, SemanticError.code]

namespace Session

open Generator (Literal)

variable {v : Verifier} {us : List TopLevel} {s : Session}

theorem History.semantic (h : History .checking us s) :
    ∀ e ∈ s.generator.errors, ∃ x, e = .semantic x := by
  induction h with
  | @start o files s h =>
    obtain ⟨triple, rfl⟩ := start_eq_ok h
    intro e he
    cases he
  | source text h ih => exact ih
  | line text h ih => exact ih
  | prompt h ih =>
    rw [(Calm.compositional.prompt _ h.traced.parser).generator.errors]
    exact ih
  | @turn us s h ih =>
    have hsound := h.traced.reached.sound_of_grammatical
    have hturned := h.traced.turned
    generalize tally us s = ws at hturned
    cases hturned with
    | kept hobserved =>
      rw [hobserved.errors]
      exact ih
    | erased hstep herrors hmodule hbare =>
      rw [herrors]
      exact ih
    | @stepped u x m fs hu hstep herrors hmodule hbare =>
      rw [herrors]
      intro e he
      rcases List.mem_append.1 he with he | he
      · exact ih e he
      · cases x with
        | ok f => cases he
        | error e' =>
          rw [List.mem_singleton.1 he]
          exact hstep.semantic hsound hu
  | finish h ih =>
    rw [(calm_finish _ h.traced.parser).generator.errors]
    exact ih

/-- Every function in the module of a session is well-formed, its constants are integers of 32
bits, and if code is checked by its verifier then no unit fails because of its code. -/
theorem wellFormed_of_history (h : History v us s) :
    (∀ f ∈ s.generator.backend.module.registered,
      s.generator.backend.module.WellFormed f ∧
        ∀ w, Literal w (s.generator.backend.module.get f).instructions →
          Parser.int32Min ≤ w ∧ w ≤ Parser.int32Max) ∧
      (v = .checking → ∀ e ∈ s.generator.errors, e.diagnostic.code ≠ some "B001") := by
  have hreached := h.traced.reached
  have hsound := hreached.sound_of_grammatical
  refine ⟨fun f hf => ⟨hsound.wellFormed hf, fun w hw => ?_⟩, ?_⟩
  · obtain ⟨hlow, hhigh⟩ := hsound.literal_range hreached.forall hf hw
    have hmin : Parser.int32Min ≤ 0 := by decide
    exact ⟨by omega, hhigh⟩
  · rintro rfl e he
    obtain ⟨x, rfl⟩ := h.semantic e he
    exact x.code_ne_verification

theorem wellFormed_of_history_afterFailure : ∃ us s, History .checking us s ∧
    s.generator.errors.length = 1 ∧ s.generator.backend.module.names = ["f"] ∧
    (∀ f ∈ s.generator.backend.module.registered,
      s.generator.backend.module.WellFormed f ∧
        ∀ w, Literal w (s.generator.backend.module.get f).instructions →
          Parser.int32Min ≤ w ∧ w ≤ Parser.int32Max) ∧
      ∀ e ∈ s.generator.errors, e.diagnostic.code ≠ some "B001" := by
  have hstart : History .checking [] _ :=
    .start (rfl : start { showCode := false, evaluate := false } .empty .checking = .ok _)
  have h := (hstart.source (.ofString "def f(entry) f(entry)+z def f(addtmp) addtmp+f(1)")).turn.turn
  obtain ⟨hcode, herrors⟩ := wellFormed_of_history h
  exact ⟨_, _, h, by decide +kernel, by decide +kernel, hcode, herrors rfl⟩

end Session

end ExprCompiler
