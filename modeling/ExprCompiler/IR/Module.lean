import ExprCompiler.IR.Function

/-!
# Modules

A module stores every function that was ever made in it, because calls keep
referring to functions after they have been erased. The table names the
functions that are registered now, in the order of their registration.
-/

namespace ExprCompiler.IR

structure Module where
  name : String
  triple : String
  functions : List Function
  table : List (String × FunctionId)
  scope : Scope
  deriving DecidableEq, Repr, Inhabited

namespace Module

def empty (name triple : String) : Module := ⟨name, triple, [], [], .empty⟩

def get (m : Module) (f : FunctionId) : Function := m.functions[f]?.getD default

def modify (m : Module) (f : FunctionId) (g : Function → Function) : Module :=
  { m with functions := m.functions.modify f g }

def lookup (m : Module) (name : String) : Option FunctionId := m.table.lookup name

def names (m : Module) : List String := m.table.map Prod.fst

def registered (m : Module) : List FunctionId := m.table.map Prod.snd

def declare? (m : Module) (name : String) (arity : Nat) : Option (FunctionId × Module) :=
  match m.scope.reserve? name with
  | none => none
  | some scope =>
    let f := m.functions.length
    some (f, { m with functions := m.functions ++ [.declared name arity],
                      table := m.table ++ [(name, f)], scope := scope })

/-- A function leaves the table, and its name becomes free, if it is the one registered under
that name. -/
def erase (m : Module) (f : FunctionId) : Module :=
  let name := (m.get f).name
  if m.lookup name = some f then
    { m with table := m.table.filter (·.1 != name), scope := m.scope.release name }
  else m

end Module

end ExprCompiler.IR
