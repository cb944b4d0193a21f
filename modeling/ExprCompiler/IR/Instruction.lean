/-!
# Instructions

Straight-line code on 32-bit integers and on the bits that comparisons give.
A parameter is referred to by its place until the code is first printed,
and by the name it has then from that moment on.
-/

namespace ExprCompiler.IR

inductive Ty
  | i32
  | i1
  deriving DecidableEq, Repr, Inhabited

def Ty.text : Ty → String
  | i32 => "i32"
  | i1 => "i1"

def Ty.width : Ty → Nat
  | i32 => 32
  | i1 => 1

/-- The place of a function in the store of a module. -/
abbrev FunctionId := Nat

inductive Operand
  | const (value : Int)
  | param (owner : FunctionId) (index : Nat)
  | named (name : String) (type : Ty)
  deriving DecidableEq, Repr, Inhabited

def Operand.type : Operand → Ty
  | named _ t => t
  | _ => .i32

inductive Arith
  | add
  | sub
  | mul
  deriving DecidableEq, Repr, Inhabited

def Arith.mnemonic : Arith → String
  | add => "add"
  | sub => "sub"
  | mul => "mul"

def Arith.base : Arith → String
  | add => "addtmp"
  | sub => "subtmp"
  | mul => "multmp"

inductive Instruction
  | arith (op : Arith) (result : String) (a b : Operand)
  /-- Whether the one is less than the other as unsigned numbers. -/
  | less (result : String) (a b : Operand)
  | widen (result : String) (a : Operand)
  | call (result : String) (callee : FunctionId) (args : List Operand)
  | ret (value : Operand)
  deriving DecidableEq, Repr, Inhabited

namespace Instruction

def isRet : Instruction → Bool
  | ret _ => true
  | _ => false

def result? : Instruction → Option (String × Ty)
  | arith _ r a _ => some (r, a.type)
  | less r _ _ => some (r, .i1)
  | widen r _ => some (r, .i32)
  | call r _ _ => some (r, .i32)
  | ret _ => none

def callee? : Instruction → Option FunctionId
  | call _ f _ => some f
  | _ => none

def operands : Instruction → List Operand
  | arith _ _ a b => [a, b]
  | less _ a b => [a, b]
  | widen _ a => [a]
  | call _ _ args => args
  | ret a => [a]

def mapOperands (g : Operand → Operand) : Instruction → Instruction
  | arith op r a b => arith op r (g a) (g b)
  | less r a b => less r (g a) (g b)
  | widen r a => widen r (g a)
  | call r f args => call r f (args.map g)
  | ret a => ret (g a)

end Instruction

structure Block where
  label : String
  instructions : List Instruction
  deriving DecidableEq, Repr, Inhabited

namespace Block

def isTerminated (b : Block) : Bool := b.instructions.any Instruction.isRet

def push (b : Block) (i : Instruction) : Block :=
  { b with instructions := b.instructions ++ [i] }

end Block

end ExprCompiler.IR
