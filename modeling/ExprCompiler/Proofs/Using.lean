import ExprCompiler.Proofs.Building

/-!
# Using what has been built

Printing, evaluating and writing out change a module by sealing only.
-/

namespace ExprCompiler

open IR (FunctionId)

def ended {ε σ α : Type} : EStateM.Result ε σ α → σ
  | .ok _ s => s
  | .error _ s => s

namespace Backend

theorem moduleText_run (b : Backend) :
    moduleText b =
      .ok b.module.text { b with module := b.module.sealAll b.module.registered } := by
  have ht := IR.Module.text_sealAll b.module b.module.registered
  unfold moduleText
  rw [bind_eq_ok (sealRegistered_run b), ← ht]
  rfl

theorem functionText_run (f : FunctionId) (b : Backend) :
    functionText f b =
      .ok (b.module.functionText f) { b with module := b.module.sealAll [f] } := by
  have ht := IR.Module.functionText_sealAll b.module [f] f
  rw [← ht]
  rfl

def unevaluated (b : Backend) (name : String) (d : Detail) : Backend :=
  { b with errors := b.errors ++ [.evaluation name d] }

def sealedFor (b : Backend) (f : FunctionId) : Backend :=
  { b with module := b.module.sealAll (b.module.reach f).reached }

theorem evaluate_refused {b : Backend} {f : FunctionId} {reason : String}
    (h : b.refusal? (b.module.reach f) = some reason) :
    evaluate f b = .ok none (b.unevaluated (b.module.get f).name (.words reason)) := by
  unfold evaluate
  rw [bind_eq_ok (function_run b f), bind_eq_ok (get_eq_ok b)]
  simp only [h]
  rfl

theorem evaluate_run {b : Backend} {f : FunctionId}
    (h : b.refusal? (b.module.reach f) = none) :
    evaluate f b =
      match (b.sealedFor f).module.faultOf? (b.module.reach f).reached,
        (b.sealedFor f).module.value? (b.module.reach f).reached f with
      | some fault, _ => .ok none ((b.sealedFor f).unevaluated (b.module.get f).name (.fault fault))
      | none, none => .ok none ((b.sealedFor f).unevaluated (b.module.get f).name (.words ""))
      | none, some v => .ok (some v) { b.sealedFor f with
          journal := .note (.evaluated (b.module.get f).name v) :: b.journal } := by
  have hseal : modifyModule (·.sealAll (b.module.reach f).reached) b = .ok () (b.sealedFor f) := rfl
  unfold evaluate
  rw [bind_eq_ok (function_run b f), bind_eq_ok (get_eq_ok b)]
  simp only [h]
  rw [bind_eq_ok hseal, bind_eq_ok (get_eq_ok _)]
  generalize (b.sealedFor f).module.faultOf? (b.module.reach f).reached = fault
  generalize (b.sealedFor f).module.value? (b.module.reach f).reached f = v
  cases fault with
  | some fault => rfl
  | none =>
    cases v with
    | none => rfl
    | some v => rfl

def Seals {α : Type} (x : BackendM α) : Prop :=
  ∀ b, ∃ fs, (ended (x b)).module = b.module.sealAll fs

theorem seals_functionText (f : FunctionId) : Seals (functionText f) := fun _ => ⟨[f], rfl⟩

theorem seals_moduleText : Seals moduleText := fun b => ⟨b.module.registered, rfl⟩

theorem seals_evaluate (f : FunctionId) : Seals (evaluate f) := by
  intro b
  cases h : b.refusal? (b.module.reach f) with
  | some reason =>
    rw [evaluate_refused h]
    exact ⟨[], rfl⟩
  | none =>
    rw [evaluate_run h]
    exists (b.module.reach f).reached
    split <;> rfl

theorem seals_emit (path : String) (t : FileTree) : Seals (emit path t) := by
  intro b
  exists b.module.registered
  unfold emit
  rw [bind_eq_ok (sealRegistered_run b), bind_eq_ok (get_eq_ok _)]
  simp only
  generalize (b.module.sealAll b.module.registered).fault? = fault
  generalize t.write path _ = written
  cases fault with
  | some fault => rfl
  | none =>
    cases written with
    | ok t => rfl
    | error e => cases e <;> rfl

end Backend

end ExprCompiler
