import ExprCompiler.Proofs.Running
import ExprCompiler.Proofs.Sources
import ExprCompiler.Proofs.Using

/-!
# Evaluation

A function without parameters that is evaluated gives what its definition
means, and it is refused when its definition has no meaning: when it reaches
a function without a body, or one that reaches itself.
-/

namespace ExprCompiler

open IR (FunctionId Module)

namespace IR.Module

variable {m : Module} {f : FunctionId} {row : List FunctionId}

theorem callees_sealAll (m : Module) (fs : List FunctionId) (a : FunctionId) :
    ((m.sealAll fs).get a).callees = (m.get a).callees :=
  map_get_sealAll Function.callees (by simp) fs a

theorem Settled.sealAll (fs : List FunctionId) (h : m.Settled [] row) :
    (m.sealAll fs).Settled [] row := by
  induction row with
  | nil => trivial
  | cons a row ih =>
    refine ⟨fun c hc => ?_, ih h.2⟩
    have hc' : m.Calls a c := by
      rw [Calls, ← callees_sealAll m fs]
      exact hc
    rcases h.1 c hc' with hm | hm
    · exact Or.inl hm
    · cases hm

end IR.Module

namespace Generator

variable {us : List TopLevel} {m : Module} {f : FunctionId}

theorem Sound.value (h : Sound us m) {fs row : List FunctionId} (hperm : fs.Perm row)
    (hrow : m.Runnable f row) (ha : (m.get f).arity = 0) :
    ∃ x, invoke (latest us) fs.length (m.get f).name [] = some x ∧
      m.value? fs f = some x.toInt := by
  have hreg : ∀ a ∈ fs, a ∈ m.registered := fun a ha => hrow.registered a (hperm.subset ha)
  obtain ⟨x, hx, hrun⟩ := h.run hreg (fun a ha => hperm.symm.subset ha) hrow.hasBody hrow.settled f
    hrow.root fs.length hperm.length_eq.ge [] ha.symm
  refine ⟨x, hx, ?_⟩
  have hrun' : m.run fs fs.length f [] = some x.toNat := hrun
  rw [Module.value?, hrun', Option.map_some, IR.signed_toNat]

theorem Sound.faultOf?_eq_none (h : Sound us m) {fs row : List FunctionId} (hperm : fs.Perm row)
    (hrow : m.Runnable f row) : m.faultOf? fs = none := by
  refine Module.faultOf?_eq_none (fun a ha => ?_) fun a ha c hc => ?_
  · exact h.wellFormed (hrow.registered a (hperm.subset ha))
  · have hcm := hrow.settled.closed (hperm.subset ha) hc
    exact List.mem_map.2 ⟨c, hperm.symm.subset hcm, rfl⟩

end Generator

/-! ### Evaluating -/

def HasValue (us : List TopLevel) (n : String) (x : BitVec 32) : Prop :=
  ∃ fuel, invoke (latest us) fuel n [] = some x

/-- What an evaluation gives: the value of the function, or a warning if it has none. -/
structure Evaluated (us : List TopLevel) (b : Backend) (f : FunctionId) (r : Option Int)
    (b' : Backend) : Prop where
  value : ∀ v, r = some v ↔ ∃ x, HasValue us (b.module.get f).name x ∧ x.toInt = v
  refused : r = none ↔ ∀ fuel, invoke (latest us) fuel (b.module.get f).name [] = none
  warned : r = none → ∃ e : BackendError, b'.errors = b.errors ++ [e] ∧
    e.diagnostic.code = some "B003" ∧ e.diagnostic.severity = Diagnostic.warningSeverity
  kept : r ≠ none → b'.errors = b.errors

namespace Evaluated

variable {us : List TopLevel} {b : Backend} {f : FunctionId}

theorem of_value {b' : Backend} {x : BitVec 32} (h : HasValue us (b.module.get f).name x)
    (he : b'.errors = b.errors) : Evaluated us b f (some x.toInt) b' := by
  obtain ⟨fuel, hx⟩ := h
  refine ⟨fun v => ⟨fun hv => ?_, ?_⟩, ⟨fun hn => ?_, fun hn => ?_⟩, fun hn => ?_, fun _ => he⟩
  · cases hv
    exact ⟨x, ⟨fuel, hx⟩, rfl⟩
  · rintro ⟨y, ⟨fuel', hy⟩, rfl⟩
    rw [invoke_unique hx hy]
  · cases hn
  · rw [hn fuel] at hx
    cases hx
  · cases hn

theorem of_refused {reason : String}
    (h : ∀ fuel, invoke (latest us) fuel (b.module.get f).name [] = none) :
    Evaluated us b f none (b.unevaluated (b.module.get f).name (.words reason)) := by
  refine ⟨fun v => ⟨fun hv => ?_, ?_⟩, ⟨fun _ => h, fun _ => rfl⟩, fun _ => ?_,
    fun hn => absurd rfl hn⟩
  · cases hv
  · rintro ⟨x, ⟨fuel, hx⟩, -⟩
    rw [h fuel] at hx
    cases hx
  · exact ⟨.evaluation (b.module.get f).name (.words reason), rfl, rfl, rfl⟩

end Evaluated

namespace Generator

variable {us : List TopLevel} {g : Generator} {f : FunctionId}

theorem refusal_cases {b : Backend} {r : IR.Reach} (h : b.targetsHost = true) :
    (∃ reason, b.refusal? r = some reason ∧ (r.missing ≠ [] ∨ r.recursive = true)) ∨
      b.refusal? r = none ∧ r.missing = [] ∧ r.recursive = false := by
  unfold Backend.refusal?
  simp only [h, Bool.not_true, Bool.false_eq_true, if_false]
  by_cases hm : r.missing = []
  · rw [if_neg (not_not.2 hm)]
    by_cases hr : r.recursive = true
    · exact Or.inl ⟨_, if_pos hr, Or.inr hr⟩
    · exact Or.inr ⟨if_neg hr, hm, by simpa using hr⟩
  · exact Or.inl ⟨_, if_pos hm, Or.inl hm⟩

theorem Reached.no_value (h : Reached TopLevel.Grammatical Anonymous us g)
    (hf : f ∈ g.backend.module.registered) (hb : (g.backend.module.get f).hasBody = true)
    (hr : (g.backend.module.reach f).missing ≠ [] ∨ (g.backend.module.reach f).recursive = true)
    (fuel : Nat) : invoke (latest us) fuel (g.backend.module.get f).name [] = none := by
  have hsound := h.sound_of_grammatical
  by_contra hne
  obtain ⟨v, hv⟩ := Option.ne_none_iff_exists'.1 hne
  rcases hr with hr | hr
  · obtain ⟨c, hc, hless, hreach⟩ := Module.reach_missing hsound.linked hf hb hr
    obtain ⟨-, k, -, ys, w, hw⟩ := hsound.invoke_reaches hf hreach hv
    cases k with
    | zero => cases hw
    | succ k =>
      obtain ⟨d, hd, -⟩ := invoke_eq_some.1 hw
      rw [h.latest_eq_none hc hless] at hd
      cases hd
  · obtain ⟨a, hreach, hcycle⟩ := Module.reach_recursive hsound.linked hf hb hr
    obtain ⟨ha, k, -, ys, w, hw⟩ := hsound.invoke_reaches hf hreach hv
    rw [hsound.no_value_of_cycle ha hcycle] at hw
    cases hw

/-- Evaluating a function gives what its definition means, and is refused exactly when its
definition has no meaning. -/
theorem evaluate_means (h : Reached TopLevel.Parsed Anonymous us g)
    (hhost : g.backend.targetsHost = true) (hf : f ∈ g.backend.module.registered)
    (hb : (g.backend.module.get f).hasBody = true) (ha : (g.backend.module.get f).arity = 0) :
    ∃ r b, Backend.evaluate f g.backend = .ok r b ∧ Evaluated us g.backend f r b := by
  have hreached := h.mono fun u hu => hu.grammatical
  have hsound := hreached.sound_of_grammatical
  rcases refusal_cases (r := g.backend.module.reach f) hhost with
    ⟨reason, hrefused, hr⟩ | ⟨hrun, hmissing, hrecursive⟩
  · exact ⟨none, _, Backend.evaluate_refused hrefused,
      .of_refused (hreached.no_value hf hb hr)⟩
  · obtain ⟨row, hperm, hrow⟩ := Module.reach_runnable hsound.linked hf hb hmissing hrecursive
    set fs := (g.backend.module.reach f).reached with hfs
    have hsealed : Sound us (g.backend.sealedFor f).module := hsound.sealAll fs
    have hrunnable : (g.backend.sealedFor f).module.Runnable f row := by
      refine ⟨hrow.root, fun a ha => ?_, fun a ha => ?_, hrow.settled.sealAll fs⟩
      · exact (Module.registered_sealAll g.backend.module fs).symm ▸ hrow.registered a ha
      · exact (Module.map_get_sealAll IR.Function.hasBody (by simp) fs a).trans (hrow.hasBody a ha)
    have harity : ((g.backend.sealedFor f).module.get f).arity = 0 :=
      (Module.map_get_sealAll IR.Function.arity (by simp) fs f).trans ha
    have hname : ((g.backend.sealedFor f).module.get f).name = (g.backend.module.get f).name :=
      Module.map_get_sealAll IR.Function.name (by simp) fs f
    have hfault := hsealed.faultOf?_eq_none hperm hrunnable
    obtain ⟨x, hx, hvalue⟩ := hsealed.value hperm hrunnable harity
    rw [hname] at hx
    have heval := Backend.evaluate_run hrun
    rw [← hfs, hfault, hvalue] at heval
    exact ⟨some x.toInt, _, heval, .of_value ⟨_, hx⟩ rfl⟩

theorem evaluate_means_declaredFirst : ∃ us g f b, Reached TopLevel.Parsed Anonymous us g ∧
    g.backend.targetsHost = true ∧ f ∈ g.backend.module.registered ∧
    (g.backend.module.get f).hasBody = true ∧ (g.backend.module.get f).arity = 0 ∧
    Backend.evaluate f g.backend = .ok (some 1) b ∧ Evaluated us g.backend f (some 1) b := by
  obtain ⟨us, h⟩ := (Reached.start "" Target.host .checking).run
    (Parser.unitsOf "extern f(a) 1<f(2)*3 def f(b) b-5" "") Parser.parsed_of_mem_unitsOf
  obtain ⟨r, b, heval, hevaluated⟩ := evaluate_means (f := 1) h (by decide +kernel)
    (by decide +kernel) (by decide +kernel) (by decide +kernel)
  have hvalue : (match Backend.evaluate 1 (run
      (Parser.unitsOf "extern f(a) 1<f(2)*3 def f(b) b-5" "")
      (ofBackend (.ofTarget "" Target.host) .checking)).backend with
    | .ok r _ => r
    | .error _ _ => none) = some 1 := by decide +kernel
  rw [heval] at hvalue
  cases hvalue
  exact ⟨us, _, 1, b, h, by decide +kernel, by decide +kernel, by decide +kernel, by decide +kernel,
    heval, hevaluated⟩

end Generator

end ExprCompiler
