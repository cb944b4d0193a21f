/-!
# Powers of two and of ten

The bases of doubles, of machine integers and of decimal literals.
-/

namespace ExprCompiler

def pow2 (n : Nat) : Nat := Nat.pow 2 n

def pow10 (n : Nat) : Nat := Nat.pow 10 n

theorem pow2_pos (n : Nat) : 0 < pow2 n := Nat.pow_pos (by decide)

end ExprCompiler
