import ExprCompiler.Number.Binary64

/-!
# Decimal literals

A literal is a coefficient and a power of ten. Its value as a double is the
exact quotient rounded once, whatever the number of digits.
-/

namespace ExprCompiler

structure Decimal where
  coefficient : Nat
  exponent : Int
  deriving DecidableEq, Repr

namespace Decimal

def isDigit (c : Char) : Bool := '0' ≤ c && c ≤ '9'

def digitValue (c : Char) : Nat := c.toNat - 48

def ofDigits (ds : List Char) : Nat := ds.foldl (fun n d => 10 * n + digitValue d) 0

def ofParts (whole fraction : List Char) : Decimal :=
  ⟨ofDigits (whole ++ fraction), -(fraction.length : Int)⟩

def toBinary64 (d : Decimal) : Binary64 :=
  if 0 ≤ d.exponent then .ofQuotient (d.coefficient * pow10 d.exponent.toNat) 1
  else .ofQuotient d.coefficient (pow10 (-d.exponent).toNat)

def exponentOf? : List Char → Option Int
  | '-' :: ds => if ds ≠ [] ∧ ds.all isDigit then some (-(ofDigits ds : Int)) else none
  | '+' :: ds => if ds ≠ [] ∧ ds.all isDigit then some (ofDigits ds) else none
  | ds => if ds ≠ [] ∧ ds.all isDigit then some (ofDigits ds) else none

def ofString? (s : String) : Option Decimal :=
  let whole := s.toList.takeWhile isDigit
  let rest := s.toList.dropWhile isDigit
  let (fraction, rest) :=
    match rest with
    | '.' :: r => (r.takeWhile isDigit, r.dropWhile isDigit)
    | r => ([], r)
  if whole ++ fraction = [] then none
  else
    let d := ofParts whole fraction
    match rest with
    | [] => some d
    | c :: r =>
      if c = 'e' ∨ c = 'E' then
        (exponentOf? r).map fun e => { d with exponent := d.exponent + e }
      else none

end Decimal

end ExprCompiler
