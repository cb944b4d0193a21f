import ExprCompiler.IR.Text

/-!
# Checking code

The code of a function is in order when its names are distinct, every block
ends in its only return and returns an integer, and every name it uses is
there with the type it is used at: in the first block a parameter or an
earlier result, in the others, which are never entered, any of the function's.
-/

namespace ExprCompiler.IR

inductive Fault
  | repeatedName (function name : String)
  | unterminated (function block : String)
  | earlyReturn (function block : String)
  | returnType (function block : String)
  | unavailable (function name : String)
  | unknownFunction (function callee : String)
  deriving DecidableEq, Repr, Inhabited

def Fault.text : Fault → String
  | repeatedName f n => "the name '" ++ n ++ "' occurs twice in '" ++ f ++ "'"
  | unterminated f b => "block '" ++ b ++ "' of '" ++ f ++ "' does not return"
  | earlyReturn f b => "block '" ++ b ++ "' of '" ++ f ++ "' goes on after it returns"
  | returnType f b => "block '" ++ b ++ "' of '" ++ f ++ "' returns a bit"
  | unavailable f n => "the value '" ++ n ++ "' is not available in '" ++ f ++ "'"
  | unknownFunction f c => "'" ++ f ++ "' calls '" ++ c ++ "', which is not there"

abbrev Typing := List (String × Ty)

/-- The operands with the types that they are used at; both sides of an operation have the type
of its first one. -/
def Instruction.uses : Instruction → List (Operand × Ty)
  | .arith _ _ a b => [(a, a.type), (b, a.type)]
  | .less _ a b => [(a, a.type), (b, a.type)]
  | .widen _ a => [(a, a.type)]
  | .call _ _ args => args.map fun a => (a, a.type)
  | .ret a => [(a, a.type)]

namespace Module

def useFault? (m : Module) (function : String) (known : Typing) (use : Operand × Ty) :
    Option Fault :=
  match m.sealOperand use.1 with
  | .named n _ => if known.lookup n = some use.2 then none else some (.unavailable function n)
  | _ => none

def calleeFault? (m : Module) (function : String) (present : List String) (i : Instruction) :
    Option Fault :=
  match i.callee? with
  | some f =>
    let name := (m.get f).name
    if present.contains name then none else some (.unknownFunction function name)
  | none => none

def instructionFault? (m : Module) (function : String) (present : List String) (known : Typing)
    (i : Instruction) : Option Fault :=
  (m.calleeFault? function present i).or (i.uses.findSome? (m.useFault? function known))

/-- The first fault of instructions of which each may use the results of those before it. -/
def sequenceFault? (m : Module) (function : String) (present : List String) :
    Typing → List Instruction → Option Fault
  | _, [] => none
  | known, i :: is =>
    (m.instructionFault? function present known i).or
      (m.sequenceFault? function present (i.result?.toList ++ known) is)

end Module

def Block.returnFault? (function : String) (b : Block) : Option Fault :=
  match b.instructions.reverse with
  | .ret a :: before =>
    if before.any Instruction.isRet then some (.earlyReturn function b.label)
    else if a.type ≠ .i32 then some (.returnType function b.label)
    else none
  | _ => some (.unterminated function b.label)

namespace Function

def localNames (f : Function) : List String :=
  f.params ++ f.blocks.flatMap fun b =>
    b.label :: (b.instructions.filterMap Instruction.result?).map Prod.fst

def paramTyping (f : Function) : Typing := f.params.map fun p => (p, .i32)

end Function

def firstRepeated : List String → Option String
  | [] => none
  | n :: ns => if ns.contains n then some n else firstRepeated ns

namespace Module

def functionFault? (m : Module) (present : List String) (f : FunctionId) : Option Fault :=
  let g := m.get f
  let params := g.paramTyping
  let all := params ++ g.instructions.filterMap Instruction.result?
  let repeated := (firstRepeated g.localNames).map (.repeatedName g.name)
  let returns := g.blocks.findSome? (Block.returnFault? g.name)
  let entered :=
    (g.blocks.take 1).findSome? fun b => m.sequenceFault? g.name present params b.instructions
  let others :=
    (g.blocks.drop 1).findSome? fun b =>
      b.instructions.findSome? (m.instructionFault? g.name present all)
  repeated.or (returns.or (entered.or others))

def faultOf? (m : Module) (fs : List FunctionId) : Option Fault :=
  fs.findSome? (m.functionFault? (fs.map fun f => (m.get f).name))

def fault? (m : Module) : Option Fault := m.faultOf? m.registered

end Module

end ExprCompiler.IR
