import ExprCompiler.Proofs.Growth

/-!
# The meaning of definitions

Expressions have integers of 32 bits for values. A call gives its arguments
to the parameters of a definition and takes the value of its body; a bound on
the depth of calls makes the meaning a function, and a call has a value when
some bound gives it one.
-/

namespace ExprCompiler

open IR (Arith FunctionId Instruction Module)

abbrev Bindings := List (String × BitVec 32)

/-- What an operator makes of its operands: arithmetic wraps around, and `<` compares without
signs. -/
def operation (op : String) (x y : BitVec 32) : Option (BitVec 32) :=
  if op = "+" then some (x + y)
  else if op = "-" then some (x - y)
  else if op = "*" then some (x * y)
  else if op = "<" then some (if x < y then 1 else 0)
  else none

namespace Expr

mutual

def value (call : String → List (BitVec 32) → Option (BitVec 32)) (b : Bindings) :
    Expr → Option (BitVec 32)
  | .number v _ => some (BitVec.ofInt 32 v)
  | .var n _ => b.lookup n
  | .binary op l r _ => do
    let x ← l.value call b
    let y ← r.value call b
    operation op x y
  | .call callee args _ => do
    let xs ← values call b args
    call callee xs
  | .stray _ => none

def values (call : String → List (BitVec 32) → Option (BitVec 32)) (b : Bindings) :
    List Expr → Option (List (BitVec 32))
  | [] => some []
  | e :: es => do
    let x ← e.value call b
    let xs ← values call b es
    return x :: xs

end

end Expr

def invoke (definition? : String → Option Definition) :
    Nat → String → List (BitVec 32) → Option (BitVec 32)
  | 0, _, _ => none
  | fuel + 1, n, xs => do
    let d ← definition? n
    if d.prototype.arity = xs.length then
      d.body.value (invoke definition? fuel) (d.prototype.params.zip xs)
    else none

/-! ### More fuel -/

section

variable {call call' : String → List (BitVec 32) → Option (BitVec 32)} {b : Bindings}
  {definition? : String → Option Definition}

mutual

theorem value_mono (h : ∀ n xs v, call n xs = some v → call' n xs = some v) :
    (e : Expr) → ∀ v, e.value call b = some v → e.value call' b = some v
  | .number _ _, _, hv => hv
  | .var _ _, _, hv => hv
  | .binary op l r _, v, hv => by
    simp only [Expr.value, Option.bind_eq_bind, Option.bind_eq_some_iff] at hv ⊢
    obtain ⟨x, hx, y, hy, hv⟩ := hv
    exact ⟨x, value_mono h l x hx, y, value_mono h r y hy, hv⟩
  | .call callee args _, v, hv => by
    simp only [Expr.value, Option.bind_eq_bind, Option.bind_eq_some_iff] at hv ⊢
    obtain ⟨xs, hxs, hv⟩ := hv
    exact ⟨xs, values_mono h args xs hxs, h _ _ _ hv⟩
  | .stray _, _, hv => by cases hv

theorem values_mono (h : ∀ n xs v, call n xs = some v → call' n xs = some v) :
    (es : List Expr) → ∀ vs, Expr.values call b es = some vs → Expr.values call' b es = some vs
  | [], _, hv => hv
  | e :: es, vs, hv => by
    simp only [Expr.values, Option.bind_eq_bind, Option.bind_eq_some_iff, Option.pure_def] at hv ⊢
    obtain ⟨x, hx, xs, hxs, hv⟩ := hv
    exact ⟨x, value_mono h e x hx, xs, values_mono h es xs hxs, hv⟩

end

theorem invoke_eq_some {fuel : Nat} {n : String} {xs : List (BitVec 32)} {v : BitVec 32} :
    invoke definition? (fuel + 1) n xs = some v ↔ ∃ d, definition? n = some d ∧
      d.prototype.arity = xs.length ∧
      d.body.value (invoke definition? fuel) (d.prototype.params.zip xs) = some v := by
  simp only [invoke, Option.bind_eq_bind, Option.bind_eq_some_iff]
  constructor
  · rintro ⟨d, hd, hv⟩
    split at hv
    · exact ⟨d, hd, ‹_›, hv⟩
    · cases hv
  · rintro ⟨d, hd, ha, hv⟩
    exact ⟨d, hd, by rwa [if_pos ha]⟩

theorem invoke_succ (fuel : Nat) : ∀ n xs v, invoke definition? fuel n xs = some v →
    invoke definition? (fuel + 1) n xs = some v := by
  induction fuel with
  | zero =>
    intro n xs v h
    cases h
  | succ fuel ih =>
    intro n xs v h
    obtain ⟨d, hd, ha, hv⟩ := invoke_eq_some.1 h
    exact invoke_eq_some.2 ⟨d, hd, ha, value_mono ih d.body v hv⟩

theorem invoke_mono {fuel fuel' : Nat} (hle : fuel ≤ fuel') {n : String} {xs : List (BitVec 32)}
    {v : BitVec 32} (h : invoke definition? fuel n xs = some v) :
    invoke definition? fuel' n xs = some v := by
  induction hle with
  | refl => exact h
  | step hle ih => exact invoke_succ _ n xs v ih

theorem invoke_unique {fuel fuel' : Nat} {n : String} {xs : List (BitVec 32)} {v w : BitVec 32}
    (h : invoke definition? fuel n xs = some v) (h' : invoke definition? fuel' n xs = some w) :
    v = w := by
  rcases Nat.le_total fuel fuel' with hle | hle
  · have := (invoke_mono hle h).symm.trans h'
    exact Option.some.inj this
  · have := (invoke_mono hle h').symm.trans h
    exact (Option.some.inj this).symm

end

/-! ### The calls of an expression -/

namespace Generator

/-- An expression that has a value has called all that its code calls. -/
theorem calls_of_value {c : Site} {call : String → List (BitVec 32) → Option (BitVec 32)}
    {b : Bindings} :
    (∀ e s y, emit c e s = .ok y → ∀ v, e.value call b = some v →
      ∀ g ∈ y.code.filterMap Instruction.callee?,
        ∃ n k xs w, c.callees n = some (g, k) ∧ call n xs = some w) ∧
    (∀ es s y, emits c es s = .ok y → ∀ vs, Expr.values call b es = some vs →
      ∀ g ∈ y.code.filterMap Instruction.callee?,
        ∃ n k xs w, c.callees n = some (g, k) ∧ call n xs = some w) := by
  apply emit_induction
    (P := fun e _ y => ∀ v, e.value call b = some v →
      ∀ g ∈ y.code.filterMap Instruction.callee?,
        ∃ n k xs w, c.callees n = some (g, k) ∧ call n xs = some w)
    (Q := fun es _ y => ∀ vs, Expr.values call b es = some vs →
      ∀ g ∈ y.code.filterMap Instruction.callee?,
        ∃ n k xs w, c.callees n = some (g, k) ∧ call n xs = some w)
  case number => simp
  case var => simp
  case operator =>
    intro op l r sp s y z w hy hz hw v hv g hg
    have hnone := callees_emitOperator hw
    simp only [Expr.value, Option.bind_eq_bind, Option.bind_eq_some_iff] at hv
    obtain ⟨x, hx, x', hx', -⟩ := hv
    simp only [List.filterMap_append, hnone, List.append_nil, List.mem_append] at hg
    rcases hg with hg | hg
    · exact hy x hx g hg
    · exact hz x' hx' g hg
  case call =>
    intro callee args sp f s y hf hy v hv g hg
    simp only [Expr.value, Option.bind_eq_bind, Option.bind_eq_some_iff] at hv
    obtain ⟨xs, hxs, hv⟩ := hv
    simp only [List.filterMap_append, List.mem_append] at hg
    rcases hg with hg | hg
    · exact hy xs hxs g hg
    · have hgf : g = f := by simpa [Instruction.callee?] using hg
      subst hgf
      exact ⟨callee, args.length, xs, v, hf, hv⟩
  case nil => simp
  case cons =>
    intro e es s y z hy hz vs hvs g hg
    simp only [Expr.values, Option.bind_eq_bind, Option.bind_eq_some_iff] at hvs
    obtain ⟨x, hx, xs, hxs, -⟩ := hvs
    simp only [List.filterMap_append, List.mem_append] at hg
    rcases hg with hg | hg
    · exact hy x hx g hg
    · exact hz xs hxs g hg

end Generator

end ExprCompiler
