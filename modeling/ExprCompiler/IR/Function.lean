import ExprCompiler.IR.Instruction
import ExprCompiler.IR.Scope

/-!
# Functions

A function has a name, the current names of its parameters, a scope for
everything named inside it, and blocks. It is a declaration as long as it
has no blocks.
-/

namespace ExprCompiler.IR

structure Function where
  name : String
  params : List String
  scope : Scope
  blocks : List Block
  deriving DecidableEq, Repr, Inhabited

namespace Function

/-- A declaration. Its parameters, and its value after them, take numbers for names. -/
def declared (name : String) (arity : Nat) : Function :=
  let (params, scope) := Scope.registerCopies arity "" .empty
  let (_, scope) := scope.register ""
  ⟨name, params, scope, []⟩

def arity (f : Function) : Nat := f.params.length

def hasBody (f : Function) : Bool := !f.blocks.isEmpty

def renamed : List String → List String → Scope → List String × Scope
  | _ :: olds, n :: news, s =>
    let (name, s) := s.register n
    let (names, s) := renamed olds news s
    (name :: names, s)
  | olds, _, s => (olds, s)

/-- Renames the parameters. All old names are released first, so that names may be swapped. -/
def setParams (f : Function) (names : List String) : Function :=
  if f.params = names then f
  else
    let (params, scope) := renamed f.params names (f.params.foldl Scope.release f.scope)
    { f with params := params, scope := scope }

def dropBlocks (f : Function) : Function := { f with blocks := [] }

def freshScope (f : Function) : Except String Scope :=
  Scope.reserveAll (f.params.filter (· != "")) .empty

def addBlock (f : Function) : String × Function :=
  let (label, scope) := f.scope.register "entry"
  (label, { f with scope := scope, blocks := f.blocks ++ [⟨label, []⟩] })

def pushInstruction (f : Function) (i : Instruction) : Function :=
  { f with blocks := f.blocks.dropLast ++ (f.blocks.getLast?.map (·.push i)).toList }

def instructions (f : Function) : List Instruction := f.blocks.flatMap Block.instructions

def callees (f : Function) : List FunctionId := f.instructions.filterMap Instruction.callee?

end Function

end ExprCompiler.IR
