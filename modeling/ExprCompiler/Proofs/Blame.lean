import ExprCompiler.Proofs.Reached
import ExprCompiler.Proofs.Using

/-!
# The error of a rejected function

Verifying, evaluating and writing out all record their errors in one list of
the backend. The error of a function that is rejected is taken off the end of
that list. It is the right one if the verification has recorded one, or if the
list has been empty. Otherwise an older error is taken away, and the rejected
function is blamed for what it says.
-/

namespace ExprCompiler.Generator

open IR (Function FunctionId Module)

variable {us : List TopLevel} {g g' : Generator} {d : Definition} {f : FunctionId} {b b' : Backend}

def Submits (g : Generator) (d : Definition) (f : FunctionId) (b : Backend) : Prop :=
  Bodiless g.backend.module d.name ∧ ∃ g₀ g₁, prototype d.prototype g = .ok f g₀ ∧
    code f d { g₀ with scope := [], current := some f } = .ok () g₁ ∧ g₁.backend = b

/-- The error of a rejected function: the one that its verification has recorded, or, without
one, a new one that names the function. The errors from before the unit are still there. -/
structure Blamed (g g' : Generator) (d : Definition) (recorded : Option BackendError) : Prop where
  error : g'.errors =
    g.errors ++ [.backend (recorded.getD (.verification d.name (.words "")))]
  kept : g'.backend.errors = g.backend.errors

def withoutLatest (g : Generator) (b : Backend) : Generator :=
  { g with scope := [], current := none, backend := { b with errors := b.errors.dropLast } }

theorem body_rejected {g₁ : Generator}
    (hcode : code f d { g with scope := [], current := some f } = .ok () g₁)
    (hv : Backend.verify g₁.verifier f g₁.backend = .ok false b) :
    body f d g =
      .error (.failed (.backend (b.errors.getLast?.getD (.verification d.name (.words "")))))
        (g₁.withoutLatest b) := by
  have hjudge : (code f d >>= fun _ => judge f d.name)
      { g with scope := [], current := some f } = judge f d.name g₁ := bind_eq_ok hcode
  rw [body_eq]
  exact within_eq_error (hjudge.trans (judge_rejected d.name hv))

def noted (g : Generator) (n : Note) : Generator :=
  { g with backend := { g.backend with journal := .note n :: g.backend.journal } }

theorem recorded_failed {α : Type} {x : GeneratorM α} {e : CompileError}
    (h : x g = .error (.failed e) g') :
    recorded x g = .ok none
      { g'.noted (.generationFailed e.diagnostic.message) with errors := g'.errors ++ [e] } := by
  simp only [recorded, h]
  rfl

theorem Submits.built (hi : g.backend.module.Indexed)
    (hn : ∀ f ∈ g.backend.module.registered, (g.backend.module.get f).Named)
    (h : Submits g d f b) : ∃ m j t x k s,
      prototype d.prototype g = .ok f (g.onModule m j) ∧
      code f d { g.onModule m j with scope := [], current := some f } =
        .ok () ((g.onModule m j).coded f d t x k) ∧
      b = ((g.onModule m j).coded f d t x k).backend ∧ (m.get f).freshScope = .ok s := by
  obtain ⟨hless, g₀, g₁, hproto, hcode, rfl⟩ := h
  have hrun := prototype_run g d.prototype
  cases hp : introduce g.backend.module d.prototype with
  | error stop =>
    rw [hp] at hrun
    obtain ⟨j, hj⟩ := hrun
    cases hj.symm.trans hproto
  | ok q =>
    obtain ⟨f', m⟩ := q
    rw [hp] at hrun
    obtain ⟨j, hj⟩ := hrun
    cases hj.symm.trans hproto
    obtain ⟨hlt, -, -, hnamed, hblocks⟩ := introduce_function hi hn hp
    obtain ⟨s, hs, -⟩ := hnamed.freshScope
    have hrun := code_run (g.onModule m j) f d hlt (hblocks hless)
    cases he : emitBody (g.onModule m j).backend.module f d with
    | error stop =>
      rw [he] at hrun
      obtain ⟨t, x, k, hk⟩ := hrun
      cases hk.symm.trans hcode
    | ok q =>
      obtain ⟨t, x⟩ := q
      rw [he] at hrun
      obtain ⟨k, hk⟩ := hrun
      cases hk.symm.trans hcode
      exact ⟨m, j, t, x, k, s, hj, hk, rfl, hs⟩

/-- The generator takes the latest error that there is after the verification. -/
theorem Submits.generate_rejected (hi : g.backend.module.Indexed)
    (hn : ∀ f ∈ g.backend.module.registered, (g.backend.module.get f).Named)
    (h : Submits g d f b) (hv : Backend.verify g.verifier f b = .ok false b') :
    ∃ g', generate (.definition d) g = .ok none g' ∧
      g'.errors = g.errors ++
        [.backend (b'.errors.getLast?.getD (.verification d.name (.words "")))] ∧
      g'.backend.errors = b'.errors.dropLast := by
  obtain ⟨m, j, t, x, k, s, hproto, hcode, rfl, hs⟩ := h.built hi hn
  have hbody := body_rejected hcode hv
  have hfresh : ((((g.onModule m j).coded f d t x k).withoutLatest b').backend.module.get
      f).freshScope = .ok s := by
    obtain ⟨ok, fs, e?, l, hverify, -⟩ :=
      Backend.verify_run ((g.onModule m j).coded f d t x k).backend g.verifier f
    cases hverify.symm.trans hv
    exact ((freshScope_sealAll _ f fs).trans (freshScope_withBody m f t [x])).trans hs
  obtain ⟨g₃, hundo, hheld, herrors⟩ := undo_run (g.backend.module.lookup d.name) hfresh
  have htop : topLevel (.definition d) g = .error (.failed (.backend
      (b'.errors.getLast?.getD (.verification d.name (.words ""))))) g₃ :=
    (definition_of_bodiless h.1).trans
      ((bind_eq_ok hproto).trans (bind_eq_error (onFailure_eq_error hbody hundo)))
  refine ⟨_, recorded_failed htop, ?_, herrors⟩
  exact congrArg (· ++ _) hheld.errors

theorem Submits.errors_eq (hi : g.backend.module.Indexed)
    (hn : ∀ f ∈ g.backend.module.registered, (g.backend.module.get f).Named)
    (h : Submits g d f b) : b.errors = g.backend.errors := by
  obtain ⟨m, j, t, x, k, s, -, -, rfl, -⟩ := h.built hi hn
  rfl

/-- A rejected function gets the error that its verification has recorded. If there is none, it
gets the latest of the errors from before, which is lost there, and an error of its own only if
there are no errors from before. -/
theorem blamed_iff (h : Reached (fun _ => True) Module.Unused us g) (hs : Submits g d f b)
    (hv : Backend.verify g.verifier f b = .ok false b') :
    ∃ recorded g', b'.errors = g.backend.errors ++ recorded.toList ∧
      generate (.definition d) g = .ok none g' ∧
      g'.errors = g.errors ++ [.backend
        ((recorded.or g.backend.errors.getLast?).getD (.verification d.name (.words "")))] ∧
      g'.backend.errors =
        (if recorded.isSome then g.backend.errors else g.backend.errors.dropLast) ∧
      (Blamed g g' d recorded ↔ recorded.isSome ∨ g.backend.errors = []) := by
  have hsound := h.sound fun _ _ _ _ _ hu => hu
  obtain ⟨g', hg, herror, hkept⟩ := hs.generate_rejected hsound.indexed hsound.named hv
  have hrecorded : ∃ recorded : Option BackendError,
      b'.errors = g.backend.errors ++ recorded.toList := by
    obtain ⟨ok, fs, e?, j, hverify, -⟩ := Backend.verify_run b g.verifier f
    cases hverify.symm.trans hv
    exact ⟨e?, by rw [hs.errors_eq hsound.indexed hsound.named]⟩
  obtain ⟨recorded, hb⟩ := hrecorded
  rw [hb] at herror hkept
  refine ⟨recorded, g', hb, hg, ?_⟩
  cases recorded with
  | some e =>
    simp only [Option.toList_some, List.getLast?_concat, List.dropLast_concat] at herror hkept
    exact ⟨herror, hkept, iff_of_true ⟨herror, hkept⟩ (.inl rfl)⟩
  | none =>
    simp only [Option.toList_none, List.append_nil] at herror hkept
    refine ⟨herror, hkept, fun hblamed => .inr ?_, ?_⟩
    · have hlength := congrArg List.length (hkept.symm.trans hblamed.kept)
      rw [List.length_dropLast] at hlength
      exact List.eq_nil_of_length_eq_zero (by omega)
    · rintro (hsome | hnil)
      · cases hsome
      · rw [hnil] at herror hkept
        exact ⟨herror, hkept.trans hnil.symm⟩

/-! ### A warning that is taken for an error -/

def verification? (g : Generator) (d : Definition) :
    Option (FunctionId × Backend × Bool × Backend) :=
  match prototype d.prototype g with
  | .error _ _ => none
  | .ok f g₀ =>
    match code f d { g₀ with scope := [], current := some f } with
    | .error _ _ => none
    | .ok _ g₁ =>
      match Backend.verify g.verifier f g₁.backend with
      | .error _ _ => none
      | .ok ok b => some (f, g₁.backend, ok, b)

theorem submits_of_verification? {ok : Bool} (hless : Bodiless g.backend.module d.name)
    (h : verification? g d = some (f, b, ok, b')) :
    Submits g d f b ∧ Backend.verify g.verifier f b = .ok ok b' := by
  unfold verification? at h
  cases hproto : prototype d.prototype g with
  | error stop g₀ =>
    rw [hproto] at h
    cases h
  | ok f' g₀ =>
    simp only [hproto] at h
    cases hcode : code f' d { g₀ with scope := [], current := some f' } with
    | error stop g₁ =>
      simp only [hcode] at h
      cases h
    | ok u g₁ =>
      simp only [hcode] at h
      cases hverify : Backend.verify g.verifier f' g₁.backend with
      | error stop b₁ =>
        simp only [hverify] at h
        cases h
      | ok ok' b₁ =>
        simp only [hverify] at h
        cases h
        exact ⟨⟨hless, g₀, g₁, hproto, hcode, rfl⟩, hverify⟩

theorem Observed.of_seals {α : Type} {x : BackendM α} (hx : Backend.Seals x) (g : Generator) :
    Observed g (ended (onBackend x g)) := by
  have hmodule := hx g.backend
  unfold onBackend
  cases hrun : x g.backend with
  | ok a b =>
    rw [hrun] at hmodule
    exact ⟨hmodule, rfl, rfl⟩
  | error e b =>
    rw [hrun] at hmodule
    exact ⟨hmodule, rfl, rfl⟩

def silent : Verifier := fun _ n => if n = "h" then .rejected none else .check

def declared : TopLevel := .external ⟨"g", [], none⟩

def caller : TopLevel := .definition ⟨⟨"f", [], none⟩, .call "g" [] none, none⟩

def rejected : Definition := ⟨⟨"h", [], none⟩, .number 1 none, none⟩

def warned : Generator :=
  ended (onBackend (Backend.evaluate 1)
    (after caller (after declared (ofBackend (.ofTarget "m" Target.host) silent))))

theorem reached_warned :
    Reached (fun _ => True) Module.Unused [declared, caller] warned := by
  have hdeclared : answer? declared (ofBackend (.ofTarget "m" Target.host) silent) =
      some (some 0) := by decide +kernel
  have hcaller : answer? caller (after declared (ofBackend (.ofTarget "m" Target.host) silent)) =
      some (some 1) := by decide +kernel
  have hfirst : Reached (fun _ => True) Module.Unused [declared] _ :=
    (Reached.start "m" Target.host silent).generated trivial (generate_eq_after hdeclared)
  have hsecond := hfirst.generated trivial (generate_eq_after hcaller)
  exact hsecond.observed (.of_seals (Backend.seals_evaluate 1) _)

theorem warned_submits :
    ∃ f b b', Submits warned rejected f b ∧ Backend.verify warned.verifier f b = .ok false b' ∧
      b'.errors = b.errors := by
  have hless : Bodiless warned.backend.module rejected.name := by
    have hnone : warned.backend.module.lookup rejected.name = none := by decide +kernel
    exact fun f hf => absurd (hnone.symm.trans hf) (Option.some_ne_none f).symm
  have hrun : (verification? warned rejected).map
      (fun x => (x.2.2.1, x.2.2.2.errors == x.2.1.errors)) = some (false, true) := by
    decide +kernel
  cases hv : verification? warned rejected with
  | none =>
    rw [hv] at hrun
    cases hrun
  | some x =>
    obtain ⟨f, b, ok, b'⟩ := x
    rw [hv] at hrun
    simp only [Option.map_some, Option.some.injEq, Prod.mk.injEq, beq_iff_eq] at hrun
    obtain ⟨rfl, herrors⟩ := hrun
    obtain ⟨hsubmits, hverify⟩ := submits_of_verification? hless hv
    exact ⟨f, b, b', hsubmits, hverify, herrors⟩

theorem blamed_iff_warned :
    ∃ f b b', Reached (fun _ => True) Module.Unused [declared, caller] warned ∧
      Submits warned rejected f b ∧ Backend.verify warned.verifier f b = .ok false b' ∧
      ∃ recorded g', b'.errors = warned.backend.errors ++ recorded.toList ∧
        generate (.definition rejected) warned = .ok none g' ∧
        g'.errors = warned.errors ++ [.backend ((recorded.or warned.backend.errors.getLast?).getD
          (.verification rejected.name (.words "")))] ∧
        g'.backend.errors = (if recorded.isSome then warned.backend.errors
          else warned.backend.errors.dropLast) ∧
        (Blamed warned g' rejected recorded ↔
          recorded.isSome ∨ warned.backend.errors = []) := by
  obtain ⟨f, b, b', hsubmits, hverify, -⟩ := warned_submits
  exact ⟨f, b, b', reached_warned, hsubmits, hverify, blamed_iff reached_warned hsubmits hverify⟩

/-- The rejected function `h` is recorded with the warning about `f`, which the backend loses. -/
theorem warning_is_taken :
    Reached (fun _ => True) Module.Unused [declared, caller] warned ∧
      warned.backend.errors = [.evaluation "f" (.words "calls functions with no body: g")] ∧
      ∃ f b b' g', Submits warned rejected f b ∧
        Backend.verify warned.verifier f b = .ok false b' ∧ b'.errors = b.errors ∧
        generate (.definition rejected) warned = .ok none g' ∧
        g'.errors = [.backend (.evaluation "f" (.words "calls functions with no body: g"))] ∧
        g'.backend.errors = [] ∧ ¬ Blamed warned g' rejected none := by
  obtain ⟨f, b, b', hsubmits, hverify, hsame⟩ := warned_submits
  have hsound := reached_warned.sound fun _ _ _ _ _ hu => hu
  obtain ⟨g', hgenerate, herror, hafter⟩ :=
    hsubmits.generate_rejected hsound.indexed hsound.named hverify
  have hbefore : warned.backend.errors =
      [.evaluation "f" (.words "calls functions with no body: g")] := by decide +kernel
  have hnone : warned.errors = [] := List.isEmpty_iff.1 (by decide +kernel)
  rw [hsame, hsubmits.errors_eq hsound.indexed hsound.named, hbefore] at herror hafter
  rw [hnone] at herror
  refine ⟨reached_warned, hbefore, f, b, b', g', hsubmits, hverify, hsame, hgenerate, herror,
    hafter, fun hblamed => ?_⟩
  cases hafter.symm.trans (hblamed.kept.trans hbefore)

end ExprCompiler.Generator
