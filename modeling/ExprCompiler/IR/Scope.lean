/-!
# Scopes of names

A scope knows the names in use and, for each base name, the last number it
handed out. A name that is taken is made new by a number; numbers are never
handed out twice, even when the name they were part of has been released.
-/

namespace ExprCompiler.IR

structure Scope where
  used : List String
  counters : List (String × Nat)
  deriving DecidableEq, Repr, Inhabited

namespace Scope

def empty : Scope := ⟨[""], []⟩

def isUsed (s : Scope) (name : String) : Bool := s.used.contains name

def counter (s : Scope) (base : String) : Nat := (s.counters.lookup base).getD 0

def numbered (base : String) (n : Nat) : String := base ++ "." ++ toString n

/-- The first number after the counter whose name is free. One of the numbers looked at is,
because there are more of them than names in use. -/
def nextNumber (s : Scope) (base : String) : Nat :=
  let first := s.counter base + 1
  ((List.range' first (s.used.length + 1)).find? fun n => !s.isUsed (numbered base n)).getD first

def mark (s : Scope) (name : String) : Scope := { s with used := name :: s.used }

def register (s : Scope) (base : String) : String × Scope :=
  if s.isUsed base then
    let n := s.nextNumber base
    let counters := (base, n) :: s.counters.filter fun c => c.1 != base
    (numbered base n, mark { s with counters := counters } (numbered base n))
  else (base, s.mark base)

def reserve? (s : Scope) (name : String) : Option Scope :=
  if s.isUsed name then none else some (s.mark name)

def release (s : Scope) (name : String) : Scope :=
  if name = "" then s else { s with used := s.used.filter (· != name) }

def registerCopies : Nat → String → Scope → List String × Scope
  | 0, _, s => ([], s)
  | n + 1, base, s =>
    let (name, s) := s.register base
    let (names, s) := registerCopies n base s
    (name :: names, s)

/-- The scope that holds just these names, or the first name that occurs twice. -/
def reserveAll : List String → Scope → Except String Scope
  | [], s => .ok s
  | n :: ns, s =>
    match s.reserve? n with
    | some s => reserveAll ns s
    | none => .error n

end Scope

end ExprCompiler.IR
