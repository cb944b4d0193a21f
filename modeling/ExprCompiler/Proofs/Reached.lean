import ExprCompiler.Proofs.Growth

/-!
# States of a generator

The states that a generator reaches from an empty module: by generating
units, by uses that seal code, and by erasing functions that no other one
calls.
-/

namespace ExprCompiler

open IR (Block Function FunctionId Instruction Module Operand Scope)

namespace IR.Module

def Unused (m : Module) (f : FunctionId) : Prop :=
  ∀ g ∈ m.registered, g ≠ f → f ∉ (m.get g).callees

end IR.Module

namespace Generator

structure Observed (g g' : Generator) : Prop where
  module : ∃ fs, g'.backend.module = g.backend.module.sealAll fs
  errors : g'.errors = g.errors
  verifier : g'.verifier = g.verifier

/-- The states that are reached from an empty module with units of a kind, when functions of a
kind may be erased, together with the units that have succeeded. -/
inductive Reached (P : TopLevel → Prop) (E : Module → FunctionId → Prop) :
    List TopLevel → Generator → Prop
  | start (name triple : String) (v : Verifier) : Reached P E [] (ofBackend (.ofTarget name triple) v)
  | generated {us : List TopLevel} {u : TopLevel} {g g' : Generator} {r : Option FunctionId}
      (h : Reached P E us g) (hu : P u) (hg : generate u g = .ok r g') :
    Reached P E (succeeded us u r) g'
  | observed {us : List TopLevel} {g g' : Generator} (h : Reached P E us g) (hg : Observed g g') :
    Reached P E us g'
  | erased {us : List TopLevel} {g g' : Generator} {f : FunctionId} (h : Reached P E us g)
      (hf : E g.backend.module f) (hg : onBackend (Backend.erase f) g = .ok () g') :
    Reached P E us g'

section

variable {P : TopLevel → Prop} {E : Module → FunctionId → Prop} {us : List TopLevel}
  {g g' : Generator}

theorem Reached.mono {P' : TopLevel → Prop} (hP : ∀ u, P u → P' u) (h : Reached P E us g) :
    Reached P' E us g := by
  induction h with
  | start name triple v => exact .start name triple v
  | generated h hu hg ih => exact .generated ih (hP _ hu) hg
  | observed h hg ih => exact .observed ih hg
  | erased h hf hg ih => exact .erased ih hf hg

theorem Reached.forall (h : Reached P E us g) : ∀ u ∈ us, P u := by
  induction h with
  | start name triple v => simp
  | @generated us u g g' r h hu hg ih =>
    cases r with
    | none => exact ih
    | some f =>
      intro w hw
      rcases List.mem_append.1 hw with hw | hw
      · exact ih w hw
      · rw [List.mem_singleton.1 hw]
        exact hu
  | observed h hg ih => exact ih
  | erased h hf hg ih => exact ih

theorem erase_module {f : FunctionId} (h : onBackend (Backend.erase f) g = .ok () g') :
    g'.backend.module = g.backend.module.erase f ∧ g'.errors = g.errors ∧
      g'.verifier = g.verifier := by
  obtain ⟨j, hj⟩ := Backend.erase_run g.backend f
  rw [onBackend_eq_ok hj] at h
  cases h
  exact ⟨rfl, rfl, rfl⟩

/-- Every state is sound, if only functions that no other one calls are erased. -/
theorem Reached.sound
    (hE : ∀ us m f, Sound us m → (∀ u ∈ us, P u) → E m f → m.Unused f)
    (h : Reached P E us g) : Sound us g.backend.module := by
  induction h with
  | start name triple v => exact .empty name triple
  | generated h hu hg ih =>
    obtain ⟨x, hstep, rfl, -, -⟩ := generate_step ih.indexed ih.named hg
    exact ih.step hstep
  | observed h hg ih =>
    obtain ⟨fs, hm⟩ := hg.module
    rw [hm]
    exact ih.sealAll fs
  | erased h hf hg ih =>
    rw [(erase_module hg).1]
    exact ih.erase (hE _ _ _ ih h.forall hf)

end

/-! ### Following a unit -/

def answer? (u : TopLevel) (g : Generator) : Option (Option FunctionId) :=
  match generate u g with
  | .ok r _ => some r
  | .error _ _ => none

def after (u : TopLevel) (g : Generator) : Generator :=
  match generate u g with
  | .ok _ g => g
  | .error _ g => g

theorem generate_eq_after {u : TopLevel} {g : Generator} {r : Option FunctionId}
    (h : answer? u g = some r) : generate u g = .ok r (after u g) := by
  unfold answer? at h
  unfold after
  cases hr : generate u g with
  | ok a g' =>
    rw [hr] at h
    cases h
    rfl
  | error stop g' =>
    rw [hr] at h
    cases h

end Generator

end ExprCompiler
