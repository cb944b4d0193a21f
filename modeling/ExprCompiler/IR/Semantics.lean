import ExprCompiler.IR.Text
import ExprCompiler.Number.Power

/-!
# Running code

Numbers of a type are natural numbers below a power of two, and arithmetic
wraps around. A call runs the first block of the function of its name with
its parameters bound; code without conditions needs no more depth than there
are functions, unless it calls itself.
-/

namespace ExprCompiler.IR

def wrap (width : Nat) (v : Int) : Nat := (v % (pow2 width : Int)).toNat

def signed (width n : Nat) : Int := if n < pow2 (width - 1) then n else (n : Int) - pow2 width

def Arith.apply (op : Arith) (width a b : Nat) : Nat :=
  match op with
  | add => wrap width ((a : Int) + b)
  | sub => wrap width ((a : Int) - b)
  | mul => wrap width ((a : Int) * b)

abbrev Env := List (String × Nat)

namespace Module

def operandValue (m : Module) (env : Env) (t : Ty) (x : Operand) : Option Nat :=
  match m.sealOperand x with
  | .const v => some (wrap t.width v)
  | .named n _ => env.lookup n
  | .param .. => none

def runBlock (m : Module) (call : FunctionId → List Nat → Option Nat) :
    Env → List Instruction → Option Nat
  | _, [] => none
  | env, .arith op r a b :: is => do
    let x ← m.operandValue env a.type a
    let y ← m.operandValue env a.type b
    m.runBlock call ((r, op.apply a.type.width x y) :: env) is
  | env, .less r a b :: is => do
    let x ← m.operandValue env a.type a
    let y ← m.operandValue env a.type b
    m.runBlock call ((r, if x < y then 1 else 0) :: env) is
  | env, .widen r a :: is => do
    let x ← m.operandValue env a.type a
    m.runBlock call ((r, x) :: env) is
  | env, .call r f args :: is => do
    let xs ← args.mapM fun a => m.operandValue env a.type a
    let y ← call f xs
    m.runBlock call ((r, y) :: env) is
  | env, .ret a :: _ => m.operandValue env a.type a

/-- The function of the same name among those that are there. -/
def resolve (m : Module) (fs : List FunctionId) (f : FunctionId) : Option FunctionId :=
  fs.find? fun g => (m.get g).name == (m.get f).name

def run (m : Module) (fs : List FunctionId) : Nat → FunctionId → List Nat → Option Nat
  | 0, _, _ => none
  | depth + 1, f, args => do
    let g := m.get (← m.resolve fs f)
    let entry ← g.blocks.head?
    m.runBlock (m.run fs depth) (g.params.zip args) entry.instructions

def value? (m : Module) (fs : List FunctionId) (f : FunctionId) : Option Int :=
  (m.run fs fs.length f []).map (signed 32)

end Module

end ExprCompiler.IR
