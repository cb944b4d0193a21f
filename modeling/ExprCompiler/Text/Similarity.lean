/-!
# Close matches

How alike two texts are: twice the number of characters that lie in common
blocks, over the number of all characters. The blocks are found by taking
the longest common run, earliest in the first text and then in the second,
and going on to its left and to its right. In a long text a frequent
character starts no run, but a run grows over it.
-/

namespace ExprCompiler.Text.Similarity

structure Block where
  left : Nat
  right : Nat
  size : Nat

def commonRun (ok : Char → Bool) : List Char → List Char → Nat
  | x :: xs, y :: ys => if x == y && ok x then commonRun ok xs ys + 1 else 0
  | _, _ => 0

def bestInRow (ok : Char → Bool) (xs : List Char) (i : Nat) :
    List Char → Nat → Block → Block
  | [], _, best => best
  | y :: ys, j, best =>
    let k := commonRun ok xs (y :: ys)
    bestInRow ok xs i ys (j + 1) (if best.size < k then ⟨i, j, k⟩ else best)

def bestRun (ok : Char → Bool) (ys : List Char) : List Char → Nat → Block → Block
  | [], _, best => best
  | x :: xs, i, best => bestRun ok ys xs (i + 1) (bestInRow ok (x :: xs) i ys 0 best)

def Block.grow (xs ys : List Char) (b : Block) : Block :=
  let back := commonRun (fun _ => true) (xs.take b.left).reverse (ys.take b.right).reverse
  let ahead :=
    commonRun (fun _ => true) (xs.drop (b.left + b.size)) (ys.drop (b.right + b.size))
  ⟨b.left - back, b.right - back, back + b.size + ahead⟩

def longestBlock (ok : Char → Bool) (xs ys : List Char) : Block :=
  (bestRun ok ys xs 0 ⟨0, 0, 0⟩).grow xs ys

def matched (ok : Char → Bool) (xs ys : List Char) : Nat :=
  match longestBlock ok xs ys with
  | ⟨i, j, k⟩ =>
    if _h : 0 < k ∧ i + k ≤ xs.length then
      matched ok (xs.take i) (ys.take j) + k + matched ok (xs.drop (i + k)) (ys.drop (j + k))
    else 0
termination_by xs.length
decreasing_by all_goals simp only [List.length_take, List.length_drop]; omega

/-- The characters of a text of fewer than 200 characters all start runs; in a longer one
those that make up more than about a hundredth of it do not. -/
def startsRuns (ys : List Char) (c : Char) : Bool :=
  ys.length < 200 || ys.count c ≤ ys.length / 100 + 1

structure Scored where
  candidate : String
  matched : Nat
  total : Nat

def score (name candidate : String) : Scored :=
  let ys := name.toList
  let xs := candidate.toList
  ⟨candidate, matched (startsRuns ys) xs ys, xs.length + ys.length⟩

/-- Close enough is a score of three fifths; two empty texts score one. -/
def Scored.isClose (s : Scored) : Bool :=
  s.total == 0 || 3 * s.total ≤ 10 * s.matched

def Scored.numerator (s : Scored) : Nat := if s.total = 0 then 1 else s.matched

def Scored.denominator (s : Scored) : Nat := if s.total = 0 then 2 else s.total

def Scored.ahead (s t : Scored) : Bool :=
  let a := s.numerator * t.denominator
  let b := t.numerator * s.denominator
  b < a || (a == b && decide (t.candidate ≤ s.candidate))

def closeMatches (name : String) (candidates : List String) : List String :=
  (((candidates.map (score name)).filter Scored.isClose).mergeSort Scored.ahead).take 3
    |>.map Scored.candidate

end ExprCompiler.Text.Similarity
