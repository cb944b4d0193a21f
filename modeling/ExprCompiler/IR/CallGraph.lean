import ExprCompiler.IR.Module

/-!
# The call graph

What a function reaches through calls, found depth first: the functions
with a body, the names of those without, and whether some call leads back to
a function that is still being walked through.
-/

namespace ExprCompiler.IR

structure Reach where
  reached : List FunctionId
  missing : List String
  recursive : Bool
  deriving DecidableEq, Repr, Inhabited

structure Walk where
  reach : Reach
  seen : List String
  onPath : List String
  deriving Repr, Inhabited

abbrev Path := List (FunctionId × List FunctionId)

namespace Module

/-- Follows one call, or leaves a function whose calls have all been followed. -/
def walkStep (m : Module) : Path → Walk → Path × Walk
  | [], w => ([], w)
  | (f, []) :: path, w => (path, { w with onPath := w.onPath.erase (m.get f).name })
  | (f, c :: cs) :: path, w =>
    let g := m.get c
    let r := w.reach
    if w.onPath.contains g.name then
      ((f, cs) :: path, { w with reach := { r with recursive := true } })
    else if w.seen.contains g.name then ((f, cs) :: path, w)
    else if g.hasBody then
      ((c, g.callees) :: (f, cs) :: path,
        ⟨{ r with reached := r.reached ++ [c] }, g.name :: w.seen, g.name :: w.onPath⟩)
    else
      ((f, cs) :: path,
        { w with reach := { r with missing := r.missing ++ [g.name] }, seen := g.name :: w.seen })

def walkFor (m : Module) : Nat → Path → Walk → Walk
  | 0, _, w => w
  | n + 1, path, w =>
    let (path, w) := m.walkStep path w
    walkFor m n path w

def countSteps : List Function → Nat
  | [] => 0
  | g :: gs => g.callees.length + 1 + countSteps gs

/-- Every call of every function is followed once, and every function left once. -/
def walkBound (m : Module) : Nat := countSteps m.functions

def reach (m : Module) (f : FunctionId) : Reach :=
  let g := m.get f
  (m.walkFor m.walkBound [(f, g.callees)] ⟨⟨[f], [], false⟩, [g.name], [g.name]⟩).reach

end Module

end ExprCompiler.IR
