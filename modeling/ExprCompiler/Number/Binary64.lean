import ExprCompiler.Number.Power

/-!
# Double precision numbers

A nonnegative double is a whole number of units of `2^-1074`, or infinity.
A quotient is rounded to the nearest double, and a half goes to the even
neighbour; everything is computed exactly on natural numbers.
-/

namespace ExprCompiler

inductive Binary64
  /-- The number `units / 2^1074`. -/
  | finite (units : Nat)
  | infinite
  deriving DecidableEq, Repr, Inhabited

namespace Binary64

def one : Nat := pow2 1074

def limit : Nat := pow2 2098

def bitLength (n : Nat) : Nat := if n = 0 then 0 else n.log2 + 1

/-- The quotient of two numbers as a natural number, a half to the even neighbour. -/
def divNearest (n d : Nat) : Nat :=
  let q := n / d
  let r := n % d
  if 2 * r < d then q else if d < 2 * r then q + 1 else q + q % 2

/-- The last binary place, in units, that a number of this many units keeps: all places of a
number of at most 53 binary digits, and 53 places of a longer one. -/
def lastPlace (units : Nat) : Nat := pow2 (bitLength units - 53)

def ofQuotient (n d : Nat) : Binary64 :=
  let place := lastPlace (n * one / d)
  let units := divNearest (n * one) (d * place) * place
  if units < limit then .finite units else .infinite

def toNat? : Binary64 → Option Nat
  | .finite units => if units % one = 0 then some (units / one) else none
  | .infinite => none

def toBits : Binary64 → Nat
  | .infinite => 2047 * pow2 52
  | .finite units =>
    let exponent := bitLength units - 53
    if units < pow2 52 then units
    else (exponent + 1) * pow2 52 + (units / pow2 exponent - pow2 52)

end Binary64

end ExprCompiler
