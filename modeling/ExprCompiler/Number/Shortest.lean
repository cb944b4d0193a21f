import ExprCompiler.Number.Decimal

/-!
# Shortest decimal text

The text of a double has the fewest digits that read back as the same
double, and of those the ones nearest to it. It always shows a point or an
exponent.
-/

namespace ExprCompiler.Binary64

structure Interval where
  low : Nat
  high : Nat
  denominator : Nat
  closed : Bool

/-- The interval reaches half way to both neighbours; below a power of two the neighbour is
nearer by half. -/
def roundingInterval (units : Nat) : Interval :=
  let place := lastPlace units
  let narrow := units = pow2 52 * place ∧ 1 < place
  ⟨4 * units - (if narrow then place else 2 * place), 4 * units + 2 * place, 4 * one,
    (units / place) % 2 == 0⟩

def Interval.contains (i : Interval) (d : Decimal) : Bool :=
  let scaled := d.coefficient * pow10 d.exponent.toNat * i.denominator
  let low := i.low * pow10 (-d.exponent).toNat
  let high := i.high * pow10 (-d.exponent).toNat
  if i.closed then low ≤ scaled && scaled ≤ high else low < scaled && scaled < high

def leadingPlaces : Nat → Nat → Nat
  | 0, _ => 0
  | fuel + 1, units => if units < one then leadingPlaces fuel (10 * units) + 1 else 0

def decimalExponent (units : Nat) : Int :=
  if units < one then -(leadingPlaces 330 units : Int)
  else ((Nat.toDigits 10 (units / one)).length : Int) - 1

def floorAt (units : Nat) (e : Int) : Nat :=
  units * pow10 (-e).toNat / (one * pow10 e.toNat)

/-- Twice a double lies this much above the sum of two neighbours on the grid of `10 ^ e`. -/
def pastMiddle (units floor : Nat) (e : Int) : Ordering :=
  compare (2 * units * pow10 (-e).toNat) ((2 * floor + 1) * (one * pow10 e.toNat))

def onGrid? (units : Nat) (e : Int) : Option Decimal :=
  let interval := roundingInterval units
  let floor := floorAt units e
  let below := interval.contains ⟨floor, e⟩
  let above := interval.contains ⟨floor + 1, e⟩
  match below, above with
  | false, false => none
  | true, false => some ⟨floor, e⟩
  | false, true => some ⟨floor + 1, e⟩
  | true, true =>
    match pastMiddle units floor e with
    | .lt => some ⟨floor, e⟩
    | .gt => some ⟨floor + 1, e⟩
    | .eq => some ⟨floor + floor % 2, e⟩

/-- The shortest decimal: the first of the grids of 1, 2, ... 17 digits with a hit. -/
def shortest (units : Nat) : Decimal :=
  let top := decimalExponent units
  match (List.range 17).findSome? fun n : Nat => onGrid? units (top - n) with
  | some d => d
  | none => ⟨floorAt units (top - 16), top - 16⟩

structure Layout where
  exponentBelow : Int
  exponentFrom : Int
  exponentDigits : Nat
  infinity : String

/-- Numbers below `10^-4` and from `10^16` on have an exponent of two digits or more. -/
def Layout.plain : Layout := ⟨-4, 16, 2, "inf"⟩

def significant (d : Decimal) : List Char :=
  let ds := ((Nat.toDigits 10 d.coefficient).reverse.dropWhile (· == '0')).reverse
  if ds.isEmpty then ['0'] else ds

def positional (ds : List Char) (places : Int) : List Char :=
  if places ≤ 0 then '0' :: '.' :: (List.replicate (-places).toNat '0' ++ ds)
  else
    let n := places.toNat
    let whole := ds.take n ++ List.replicate (n - ds.length) '0'
    let fraction := ds.drop n
    whole ++ '.' :: (if fraction.isEmpty then ['0'] else fraction)

def scientific (l : Layout) (ds : List Char) (exponent : Int) : List Char :=
  let mantissa :=
    match ds with
    | d :: e :: es => d :: '.' :: e :: es
    | short => short
  let digits := (Nat.toDigits 10 exponent.natAbs).leftpad l.exponentDigits '0'
  mantissa ++ 'e' :: (if exponent < 0 then '-' else '+') :: digits

def toText (l : Layout) : Binary64 → String
  | .infinite => l.infinity
  | .finite 0 => "0.0"
  | .finite units =>
    let d := shortest units
    let ds := significant d
    let exponent := d.exponent + ((Nat.toDigits 10 d.coefficient).length : Int) - 1
    String.ofList <|
      if exponent < l.exponentBelow ∨ l.exponentFrom ≤ exponent then scientific l ds exponent
      else positional ds (exponent + 1)

end ExprCompiler.Binary64
