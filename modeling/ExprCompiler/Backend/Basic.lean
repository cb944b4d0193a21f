import ExprCompiler.Backend.Error
import ExprCompiler.Backend.Journal

/-!
# Building code

The backend owns one module, a point where instructions are inserted, the
errors it has recorded, and a journal. Misuse of an operation is not
recorded but refused; it may leave a trace in the state, such as a name that
was registered before the refusal.
-/

namespace ExprCompiler

open IR (Ty Operand Arith Instruction Block Function FunctionId)

inductive InsertionPoint
  | endOf (f : FunctionId)
  | detached (f : FunctionId) (b : Block)
  deriving DecidableEq, Repr, Inhabited

def InsertionPoint.owner : InsertionPoint → FunctionId
  | endOf f => f
  | detached f _ => f

inductive Misuse
  | noInsertionPoint
  | operandTypes (a b : Ty)
  | argumentType (position : Nat) (expected found : Ty)
  | missingArgument
  | terminated
  | nameInUse (name : String)
  | nullInPath
  | noPath
  deriving DecidableEq, Repr, Inhabited

def Misuse.message : Misuse → String
  | noInsertionPoint => ""
  | operandTypes a b =>
    "Operands must be the same type, got (" ++ a.text ++ ", " ++ b.text ++ ")"
  | argumentType n a b =>
    "Type of #" ++ toString n ++ " arg mismatch: " ++ a.text ++ " != " ++ b.text
  | missingArgument => "list index out of range"
  | terminated => ""
  | nameInUse n => n
  | nullInPath => "embedded null byte"
  | noPath => "expected str, bytes or os.PathLike object, not list"

structure Backend where
  module : IR.Module
  point : Option InsertionPoint
  errors : List BackendError
  verifications : Nat
  /-- The latest entry comes first. -/
  journal : List JournalEntry
  deriving Repr, Inhabited

abbrev BackendM := EStateM Misuse Backend

namespace Backend

def ofTarget (moduleName triple : String) : Backend :=
  ⟨.empty moduleName triple, none, [], 0, [.note (.ready triple)]⟩

def request (r : Request) : BackendM Unit :=
  modify fun b => { b with journal := .request r :: b.journal }

def note (n : Note) : BackendM Unit := modify fun b => { b with journal := .note n :: b.journal }

def fail (e : BackendError) : BackendM Unit :=
  modify fun b => { b with errors := b.errors ++ [e] }

def modifyModule (g : IR.Module → IR.Module) : BackendM Unit :=
  modify fun b => { b with module := g b.module }

def modifyFunction (f : FunctionId) (g : Function → Function) : BackendM Unit :=
  modifyModule fun m => m.modify f g

def function (f : FunctionId) : BackendM Function := do return (← get).module.get f

def reference (x : Operand) : BackendM String := do return (← get).module.reference x

def functionReference (f : FunctionId) : BackendM String := do
  return (← get).module.functionReference f

/-! ### Instructions -/

def insertionPoint : BackendM InsertionPoint := do
  match (← get).point with
  | some p => return p
  | none => throw .noInsertionPoint

def freshName (p : InsertionPoint) (base : String) : BackendM String := do
  let (name, scope) := (← function p.owner).scope.register base
  modifyFunction p.owner fun f => { f with scope := scope }
  return name

def insert (p : InsertionPoint) (i : Instruction) : BackendM Unit :=
  match p with
  | .endOf f => modifyFunction f (·.pushInstruction i)
  | .detached f b => modify fun s => { s with point := some (.detached f (b.push i)) }

def isTerminated (p : InsertionPoint) : BackendM Bool := do
  match p with
  | .endOf f => return ((← function f).blocks.getLast?.map Block.isTerminated).getD false
  | .detached _ b => return b.isTerminated

def constant (v : Int) : BackendM Operand := do
  request (.constant v)
  return .const v

def arith (op : Arith) (a b : Operand) : BackendM Operand := do
  request (.arith op (← reference a) (← reference b))
  let p ← insertionPoint
  if a.type ≠ b.type then throw (.operandTypes a.type b.type)
  let name ← freshName p op.base
  insert p (.arith op name a b)
  return .named name a.type

def less (a b : Operand) : BackendM Operand := do
  request (.less (← reference a) (← reference b))
  let p ← insertionPoint
  let name ← freshName p "cmptmp"
  insert p (.less name a b)
  return .named name .i1

def widen (a : Operand) : BackendM Operand := do
  request (.widen (← reference a))
  let p ← insertionPoint
  if a.type = .i32 then return a
  let name ← freshName p "booltmp"
  insert p (.widen name a)
  return .named name .i32

def argumentMisuse? : Nat → Nat → List Operand → Option Misuse
  | 0, _, _ => none
  | _ + 1, _, [] => some .missingArgument
  | n + 1, i, a :: as =>
    if a.type = .i32 then argumentMisuse? n (i + 1) as
    else some (.argumentType (i + 1) .i32 a.type)

def call (f : FunctionId) (args : List Operand) : BackendM Operand := do
  request (.call (← functionReference f) (← args.mapM reference))
  let p ← insertionPoint
  if let some e := argumentMisuse? (← function f).arity 0 args then throw e
  let name ← freshName p "calltmp"
  insert p (.call name f args)
  return .named name .i32

/-- A return takes a name, though none is written, before it can be refused. -/
def ret (a : Operand) : BackendM Unit := do
  request (.ret (← reference a))
  let p ← insertionPoint
  let _ ← freshName p ""
  if ← isTerminated p then throw .terminated
  insert p (.ret a)

/-! ### Functions -/

def lookup (name : String) : BackendM (Option FunctionId) := do
  return (← get).module.lookup name

def arity (f : FunctionId) : BackendM Nat := do return (← function f).arity

def hasBody (f : FunctionId) : BackendM Bool := do return (← function f).hasBody

def parameters (f : FunctionId) : BackendM (List Operand) := do
  return (List.range (← function f).arity).map (Operand.param f)

def declare (name : String) (arity : Nat) : BackendM FunctionId := do
  request (.declare name arity)
  match (← get).module.declare? name arity with
  | some (f, m) =>
    modifyModule fun _ => m
    note (.declared name arity)
    return f
  | none => throw (.nameInUse name)

def setParams (f : FunctionId) (names : List String) : BackendM Unit := do
  request (.setParams (← functionReference f) names)
  modifyFunction f (·.setParams names)

def enter (f : FunctionId) : BackendM String := do
  request (.enter (← functionReference f))
  let (label, g) := (← function f).addBlock
  modifyFunction f fun _ => g
  modify fun b => { b with point := some (.endOf f) }
  return label

def leave (f : FunctionId) : BackendM Unit :=
  modify fun b => { b with point := b.point.filter fun p => p.owner != f }

def erase (f : FunctionId) : BackendM Unit := do
  request (.erase (← functionReference f))
  modifyModule fun m => m.erase f
  leave f
  note (.erased (← function f).name)

def detach (f : FunctionId) : BackendM Unit := do
  let g ← function f
  modify fun b =>
    match b.point, g.blocks.getLast? with
    | some (.endOf h), some block =>
      if h = f then { b with point := some (.detached f block) } else b
    | _, _ => b

/-- Makes a definition a declaration again. Parameters of one name are found only when the
blocks are gone. -/
def clear (f : FunctionId) : BackendM Unit := do
  request (.clear (← functionReference f))
  detach f
  modifyFunction f Function.dropBlocks
  match (← function f).freshScope with
  | .ok scope =>
    modifyFunction f fun g => { g with scope := scope }
    leave f
    note (.cleared (← function f).name)
  | .error name => throw (.nameInUse name)

end Backend

end ExprCompiler
