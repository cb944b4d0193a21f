import ExprCompiler.Backend.Basic
import ExprCompiler.Backend.FileTree
import ExprCompiler.Backend.Target
import ExprCompiler.IR.CallGraph
import ExprCompiler.IR.Semantics

/-!
# Using code

Printing, verifying, evaluating and writing out what has been built.
Printing seals the instructions that it shows.
-/

namespace ExprCompiler

open IR (FunctionId)

inductive Verdict
  | check
  | accepted
  | rejected (error : Option BackendError)
  deriving DecidableEq, Repr, Inhabited

/-- Answers by the number of verifications so far and the name of the function. -/
abbrev Verifier := Nat → String → Verdict

def Verifier.checking : Verifier := fun _ _ => .check

namespace Backend

def textOf (fs : List FunctionId) : BackendM String := do
  modifyModule (·.sealAll fs)
  return (← get).module.textOf fs

def functionText (f : FunctionId) : BackendM String := do
  modifyModule (·.sealFunction f)
  return (← get).module.functionText f

def sealRegistered : BackendM Unit := modifyModule fun m => m.sealAll m.registered

def moduleText : BackendM String := do
  sealRegistered
  return (← get).module.text

def check (f : FunctionId) : BackendM Bool := do
  sealRegistered
  match (← get).module.fault? with
  | none => return true
  | some fault =>
    let name := (← function f).name
    note (.unverified name fault.text)
    fail (.verification name (.fault fault))
    return false

def verify (v : Verifier) (f : FunctionId) : BackendM Bool := do
  request (.verify (← functionReference f))
  let n := (← get).verifications
  modify fun b => { b with verifications := n + 1 }
  match v n (← function f).name with
  | .check => check f
  | .accepted => return true
  | .rejected e =>
    if let some e := e then fail e
    return false

/-! ### Evaluation -/

def targetsHost (b : Backend) : Bool := b.module.triple == Target.host

def sortedNames (names : List String) : List String := names.mergeSort fun a b => decide (a ≤ b)

def refusal? (b : Backend) (r : IR.Reach) : Option String :=
  if !b.targetsHost then
    some ("code for '" ++ b.module.triple ++ "' cannot run on this host")
  else if r.missing ≠ [] then
    some ("calls functions with no body: " ++ ", ".intercalate (sortedNames r.missing))
  else if r.recursive then some "calls itself recursively and cannot terminate"
  else none

/-- Runs a function without parameters, or records why it cannot be run. Only the functions
that it reaches take part. -/
def evaluate (f : FunctionId) : BackendM (Option Int) := do
  let name := (← function f).name
  let b ← get
  let r := b.module.reach f
  match b.refusal? r with
  | some reason =>
    fail (.evaluation name (.words reason))
    return none
  | none =>
    modifyModule (·.sealAll r.reached)
    let m := (← get).module
    match m.faultOf? r.reached, m.value? r.reached f with
    | some fault, _ =>
      fail (.evaluation name (.fault fault))
      return none
    | none, none =>
      fail (.evaluation name (.words ""))
      return none
    | none, some v =>
      note (.evaluated name v)
      return some v

/-! ### Files -/

def emit (path : String) (t : FileTree) : BackendM (Option FileTree) := do
  sealRegistered
  let m := (← get).module
  match m.fault? with
  | some fault =>
    fail (.emission path (.fault fault))
    return none
  | none =>
    let code := m.text
    match t.write path (.object code) with
    | .ok t =>
      note (.wrote code.utf8ByteSize path)
      return some t
    | .error .nullInPath => throw .nullInPath
    | .error e =>
      fail (.emission path (.words (e.text path)))
      return none

end Backend

end ExprCompiler
