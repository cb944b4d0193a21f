import Mathlib.Algebra.Order.Ring.Abs
import Mathlib.Algebra.Order.Ring.Rat
import Mathlib.Algebra.Order.Field.Rat
import Mathlib.Tactic.Linarith
import ExprCompiler.Number.Binary64

/-!
# The nearest double

A number of units is a double if 53 binary digits are enough for it. Between
two neighbours on this grid there are no doubles, so a number is rounded by
looking at the neighbours around it: the nearer one is taken, and of two that
are equally near the one with an even last digit. Rounding a quotient is
exactly that, and a double beyond the greatest is infinity.
-/

namespace ExprCompiler

theorem pow2_add (m n : Nat) : pow2 (m + n) = pow2 m * pow2 n := Nat.pow_add 2 m n

theorem pow2_dvd {m n : Nat} (h : m ≤ n) : pow2 m ∣ pow2 n := Nat.pow_dvd_pow 2 h

namespace Binary64

/-! ### Binary digits -/

theorem bitLength_le_iff {n k : Nat} : bitLength n ≤ k ↔ n < pow2 k := by
  unfold bitLength
  split
  · rename_i hn
    rw [hn]
    exact iff_of_true (Nat.zero_le k) (pow2_pos k)
  · rename_i hn
    exact Nat.log2_lt hn

theorem lt_bitLength_iff {n k : Nat} : k < bitLength n ↔ pow2 k ≤ n := by
  rw [← Nat.not_le, bitLength_le_iff, Nat.not_lt]

theorem bitLength_mono {m n : Nat} (h : m ≤ n) : bitLength m ≤ bitLength n :=
  bitLength_le_iff.2 (Nat.lt_of_le_of_lt h (bitLength_le_iff.1 (Nat.le_refl _)))

theorem pow2_le_pow2_iff {m n : Nat} : pow2 m ≤ pow2 n ↔ m ≤ n :=
  Nat.pow_le_pow_iff_right (by decide)

theorem lastPlace_pos (n : Nat) : 0 < lastPlace n := pow2_pos _

theorem lastPlace_mono {m n : Nat} (h : m ≤ n) : lastPlace m ≤ lastPlace n :=
  pow2_le_pow2_iff.2 (Nat.sub_le_sub_right (bitLength_mono h) 53)

def significand (n : Nat) : Nat := n / lastPlace n

theorem significand_lt (n : Nat) : significand n < pow2 53 := by
  have hlt := bitLength_le_iff.1 (Nat.le_refl (bitLength n))
  have hle : pow2 (bitLength n) ≤ pow2 53 * lastPlace n := by
    rw [lastPlace, ← pow2_add]
    exact pow2_le_pow2_iff.2 (by omega)
  exact Nat.div_lt_of_lt_mul (Nat.mul_comm _ _ ▸ Nat.lt_of_lt_of_le hlt hle)

/-! ### The grid of doubles -/

def Representable (u : Nat) : Prop := ∃ m e, m < pow2 53 ∧ u = m * pow2 e

def below (n : Nat) : Nat := significand n * lastPlace n

theorem representable_below (n : Nat) : Representable (below n) := ⟨_, _, significand_lt n, rfl⟩

theorem below_le (n : Nat) : below n ≤ n := Nat.div_mul_le_self n _

theorem lt_below_add (n : Nat) : n < below n + lastPlace n := by
  have hmod := Nat.mod_lt n (lastPlace_pos n)
  have hdiv := Nat.div_add_mod' n (lastPlace n)
  unfold below significand
  omega

theorem lastPlace_below (n : Nat) : lastPlace (below n) = lastPlace n := by
  by_cases hn : bitLength n ≤ 53
  · have hplace : lastPlace n = 1 := by rw [lastPlace, Nat.sub_eq_zero_of_le hn]; rfl
    rw [below, significand, hplace, Nat.div_one, Nat.mul_one, hplace]
  · -- The leading digit of a number stays when places behind the last one are dropped.
    have hdvd : lastPlace n ∣ pow2 (bitLength n - 1) := pow2_dvd (by omega)
    have hlead : pow2 (bitLength n - 1) ≤ n := lt_bitLength_iff.1 (by omega)
    have hle : pow2 (bitLength n - 1) ≤ below n := by
      rw [← Nat.div_mul_cancel hdvd]
      exact Nat.mul_le_mul_right _ (Nat.div_le_div_right hlead)
    have hlt := lt_bitLength_iff.2 hle
    have hge := bitLength_mono (below_le n)
    rw [lastPlace, lastPlace, show bitLength (below n) = bitLength n by omega]

theorem representable_next (n : Nat) : Representable (below n + lastPlace n) := by
  have hlt := significand_lt n
  have hsum : below n + lastPlace n = (significand n + 1) * lastPlace n := by
    rw [below, Nat.succ_mul]
  rcases Nat.lt_or_ge (significand n + 1) (pow2 53) with h | h
  · exact ⟨_, _, h, hsum⟩
  · have htop : significand n + 1 = pow2 53 := by omega
    refine ⟨1, 53 + (bitLength n - 53), by decide, ?_⟩
    rw [hsum, htop, lastPlace, pow2_add, Nat.one_mul]

namespace Representable

variable {u w n : Nat}

theorem lastPlace_dvd (h : Representable u) (hle : n ≤ u) : lastPlace n ∣ u := by
  obtain ⟨m, e, hm, rfl⟩ := h
  have hplace : bitLength n - 53 ≤ e := by
    have hlt : m * pow2 e < pow2 (53 + e) := by
      rw [pow2_add]
      exact Nat.mul_lt_mul_of_pos_right hm (pow2_pos e)
    have hbits := bitLength_le_iff.2 (Nat.lt_of_le_of_lt hle hlt)
    omega
  exact Nat.dvd_trans (pow2_dvd hplace) (Nat.dvd_mul_left _ m)

theorem below_eq (h : Representable u) : below u = u :=
  Nat.div_mul_cancel (h.lastPlace_dvd (Nat.le_refl u))

theorem le_or_ge (h : Representable w) (n : Nat) :
    w ≤ below n ∨ below n + lastPlace n ≤ w := by
  rcases Nat.lt_or_ge (below n) w with hlt | hle
  · right
    have hw := h.lastPlace_dvd (Nat.le_of_lt hlt)
    rw [lastPlace_below] at hw
    have hbelow : lastPlace n ∣ below n := Nat.dvd_mul_left _ _
    have hstep := Nat.le_of_dvd (Nat.sub_pos_of_lt hlt) (Nat.dvd_sub hw hbelow)
    omega
  · exact .inl hle

theorem le_below (h : Representable w) (hle : w ≤ n) : w ≤ below n := by
  have hlt := lt_below_add n
  rcases h.le_or_ge n with hw | hw
  · exact hw
  · omega

theorem next_le (h : Representable w) (hlt : n < w) : below n + lastPlace n ≤ w := by
  have hle := below_le n
  rcases h.le_or_ge n with hw | hw
  · omega
  · exact hw

theorem below_pred (h : Representable u) (hu : 0 < u) : below (u - 1) + lastPlace (u - 1) = u := by
  have hlt := lt_below_add (u - 1)
  have hle := h.next_le (n := u - 1) (by omega)
  omega

theorem next (h : Representable u) : Representable (u + lastPlace u) := by
  have hnext := representable_next u
  rwa [h.below_eq] at hnext

theorem add_lastPlace_le (hu : Representable u) (hw : Representable w) (hlt : u < w) :
    u + lastPlace u ≤ w := by
  have hle := hw.next_le hlt
  rwa [hu.below_eq] at hle

theorem significand_next (h : Representable u) :
    (significand u + 1 < pow2 53 ∧ significand (u + lastPlace u) = significand u + 1) ∨
      (significand u + 1 = pow2 53 ∧ significand (u + lastPlace u) = pow2 52) := by
  have hsum : u + lastPlace u = (significand u + 1) * lastPlace u := by
    rw [Nat.succ_mul, ← below, h.below_eq]
  have hlt := significand_lt u
  rcases Nat.lt_or_ge (significand u + 1) (pow2 53) with hs | hs
  · refine .inl ⟨hs, ?_⟩
    have hbits : bitLength (u + lastPlace u) ≤ 53 + (bitLength u - 53) := by
      rw [bitLength_le_iff, pow2_add, hsum]
      exact Nat.mul_lt_mul_of_pos_right hs (lastPlace_pos u)
    have hle : lastPlace (u + lastPlace u) ≤ lastPlace u := pow2_le_pow2_iff.2 (by omega)
    have hplace := Nat.le_antisymm hle (lastPlace_mono (Nat.le_add_right u _))
    rw [significand, hplace, hsum, Nat.mul_div_cancel _ (lastPlace_pos u)]
  · -- The digits are all ones, and the next double has a digit more.
    have htop : significand u + 1 = pow2 53 := by omega
    refine .inr ⟨htop, ?_⟩
    have hpow : u + lastPlace u = pow2 (53 + (bitLength u - 53)) := by
      rw [hsum, htop, lastPlace, pow2_add]
    have hbits : bitLength (u + lastPlace u) = 54 + (bitLength u - 53) := by
      have hle : bitLength (u + lastPlace u) ≤ 54 + (bitLength u - 53) := by
        rw [bitLength_le_iff, hpow, ← Nat.not_le, pow2_le_pow2_iff]
        omega
      have hlt := lt_bitLength_iff.2 (Nat.le_of_eq hpow.symm)
      omega
    have hplace : lastPlace (u + lastPlace u) = pow2 (1 + (bitLength u - 53)) := by
      rw [lastPlace, hbits, show 54 + (bitLength u - 53) - 53 = 1 + (bitLength u - 53) by omega]
    have hsplit : pow2 (53 + (bitLength u - 53)) = pow2 52 * pow2 (1 + (bitLength u - 53)) := by
      rw [← pow2_add, ← Nat.add_assoc]
    rw [significand, hplace, hpow, hsplit, Nat.mul_div_cancel _ (pow2_pos _)]

theorem even_next_iff (h : Representable u) :
    Even (significand (u + lastPlace u)) ↔ ¬ Even (significand u) := by
  rcases h.significand_next with ⟨-, hnext⟩ | ⟨htop, hnext⟩
  · rw [hnext, Nat.even_add_one]
  · have hodd : Even (significand u + 1) := htop ▸ (by decide : Even (pow2 53))
    rw [hnext]
    exact iff_of_true (by decide) (Nat.even_add_one.1 hodd)

end Representable

/-! ### Nearest doubles -/

/-- This number of units is the double nearest to `x`. No other double is nearer, and if another
one is as near, the last digit of this one is even. -/
structure Nearest (x : ℚ) (u : Nat) : Prop where
  representable : Representable u
  least : ∀ w : Nat, Representable w → |x - u| ≤ |x - w|
  even : ∀ w : Nat, Representable w → w ≠ u → |x - w| = |x - u| → Even (significand u)

section

variable {x : ℚ} {u v w : Nat}

theorem dist_le_iff {a b : ℚ} (h : a < b) : |x - a| ≤ |x - b| ↔ 2 * x ≤ a + b := by
  constructor
  · intro hle
    by_contra hlt
    rw [not_le] at hlt
    have hnear : |x - b| < x - a := abs_lt.2 ⟨by linarith, by linarith⟩
    linarith [le_abs_self (x - a)]
  · intro hle
    have hb : b - x ≤ |x - b| := by linarith [neg_le_abs (x - b)]
    exact abs_le.2 ⟨by linarith [le_abs_self (x - b), neg_le_abs (x - b)], by linarith⟩

theorem dist_ge_iff {a b : ℚ} (h : a < b) : |x - b| ≤ |x - a| ↔ a + b ≤ 2 * x := by
  have hneg := dist_le_iff (x := -x) (neg_lt_neg h)
  rw [neg_sub_neg, neg_sub_neg] at hneg
  rw [abs_sub_comm x b, abs_sub_comm x a, hneg]
  constructor <;> intro h' <;> linarith

namespace Nearest

theorem le_of_le (h : Nearest x u) (hw : Representable w) (hle : (w : ℚ) ≤ x) : w ≤ u := by
  by_contra hlt
  have hlt' : (u : ℚ) < w := by exact_mod_cast not_le.1 hlt
  have hmid := (dist_le_iff hlt').1 (h.least w hw)
  linarith

theorem ge_of_ge (h : Nearest x u) (hw : Representable w) (hle : x ≤ w) : u ≤ w := by
  by_contra hlt
  have hlt' : (w : ℚ) < u := by exact_mod_cast not_le.1 hlt
  have hmid := (dist_ge_iff hlt').1 (h.least w hw)
  linarith

theorem eq_of_representable (h : Nearest w u) (hw : Representable w) : u = w :=
  Nat.le_antisymm (h.ge_of_ge hw le_rfl) (h.le_of_le hw le_rfl)

theorem not_lt (hu : Nearest x u) (hv : Nearest x v) : ¬ u < v := by
  -- Both would be as near, so that they are neighbours and both even.
  intro hlt
  have hlt' : (u : ℚ) < v := by exact_mod_cast hlt
  have hnext : ((u + lastPlace u : ℕ) : ℚ) ≤ v := by
    exact_mod_cast hu.representable.add_lastPlace_le hv.representable hlt
  have hstep : (u : ℚ) < (u + lastPlace u : ℕ) := by
    exact_mod_cast Nat.lt_add_of_pos_right (lastPlace_pos u)
  have hbelow := (dist_le_iff hstep).1 (hu.least _ hu.representable.next)
  have habove := (dist_ge_iff hlt').1 (hv.least u hu.representable)
  have hneighbour : u + lastPlace u = v := by
    have hq : ((u + lastPlace u : ℕ) : ℚ) = v := by linarith
    exact_mod_cast hq
  have htie : |x - u| = |x - v| :=
    le_antisymm (hu.least v hv.representable) (hv.least u hu.representable)
  have heven := hu.even v hv.representable (Nat.ne_of_gt hlt) htie.symm
  have heven' := hv.even u hu.representable (Nat.ne_of_lt hlt) htie
  rw [← hneighbour] at heven'
  exact hu.representable.even_next_iff.1 heven' heven

theorem unique (hu : Nearest x u) (hv : Nearest x v) : u = v :=
  Nat.le_antisymm (Nat.le_of_not_lt (hv.not_lt hu)) (Nat.le_of_not_lt (hu.not_lt hv))

end Nearest

theorem nearest_iff_of_even (hu : Representable u) (heven : Even (significand u)) (hx : 0 ≤ x) :
    Nearest x u ↔ 2 * (u : ℚ) ≤ 2 * x + lastPlace (u - 1) ∧ 2 * x ≤ 2 * u + lastPlace u := by
  have hstep : (u : ℚ) < (u + lastPlace u : ℕ) := by
    exact_mod_cast Nat.lt_add_of_pos_right (lastPlace_pos u)
  have hback (hpos : 0 < u) : (below (u - 1) : ℚ) + lastPlace (u - 1) = u := by
    exact_mod_cast hu.below_pred hpos
  constructor
  · intro h
    constructor
    · rcases Nat.eq_zero_or_pos u with rfl | hpos
      · have hplace : (0 : ℚ) ≤ (lastPlace (0 - 1) : ℕ) := Nat.cast_nonneg _
        push_cast
        linarith
      · have hlt : (below (u - 1) : ℚ) < u := by
          have hplace : (0 : ℚ) < (lastPlace (u - 1) : ℕ) := by exact_mod_cast lastPlace_pos _
          linarith [hback hpos]
        have hmid := (dist_ge_iff hlt).1 (h.least _ (representable_below _))
        linarith [hback hpos]
    · have hmid := (dist_le_iff hstep).1 (h.least _ hu.next)
      push_cast at hmid
      linarith
  · rintro ⟨hlow, hhigh⟩
    refine ⟨hu, fun w hw => ?_, fun _ _ _ _ => heven⟩
    rcases Nat.lt_trichotomy u w with hlt | rfl | hlt
    · have hnext : ((u + lastPlace u : ℕ) : ℚ) ≤ w := by
        exact_mod_cast hu.add_lastPlace_le hw hlt
      have hlt' : (u : ℚ) < w := by exact_mod_cast hlt
      push_cast at hnext
      exact (dist_le_iff hlt').2 (by linarith)
    · exact le_rfl
    · have hprev : (w : ℚ) ≤ below (u - 1) := by
        exact_mod_cast hw.le_below (n := u - 1) (by omega)
      have hlt' : (w : ℚ) < u := by exact_mod_cast hlt
      exact (dist_ge_iff hlt').2 (by linarith [hback (by omega)])

end

/-! ### Rounding a quotient -/

/-- The double that a number is correctly rounded to: the nearest one, as if there were no
greatest, and infinity if that is beyond the greatest. -/
inductive Rounds (x : ℚ) : Binary64 → Prop
  | finite {u : Nat} (h : Nearest (x * one) u) (hu : u < limit) : Rounds x (.finite u)
  | infinite {u : Nat} (h : Nearest (x * one) u) (hu : limit ≤ u) : Rounds x .infinite

theorem Rounds.unique {x : ℚ} {a b : Binary64} (ha : Rounds x a) (hb : Rounds x b) : a = b := by
  cases ha with
  | finite h hu =>
    cases hb with
    | finite h' => rw [h.unique h']
    | infinite h' hu' => exact absurd hu (Nat.not_lt.2 (h'.unique h ▸ hu'))
  | infinite h hu =>
    cases hb with
    | finite h' hu' => exact absurd hu' (Nat.not_lt.2 (h.unique h' ▸ hu))
    | infinite => rfl

section

variable {x : ℚ} {n d : Nat}

theorem lt_next (n : Nat) : (below n : ℚ) < (below n + lastPlace n : ℕ) := by
  exact_mod_cast Nat.lt_add_of_pos_right (lastPlace_pos n)

theorem nearest_below (hx : (below n : ℚ) ≤ x)
    (hmid : 2 * x ≤ below n + (below n + lastPlace n : ℕ))
    (heven : 2 * x = below n + (below n + lastPlace n : ℕ) → Even (significand (below n))) :
    Nearest x (below n) := by
  refine ⟨representable_below n, fun w hw => ?_, fun w hw hne heq => ?_⟩
  · rcases Nat.lt_trichotomy w (below n) with hlt | rfl | hlt
    · have hlt' : (w : ℚ) < below n := by exact_mod_cast hlt
      exact (dist_ge_iff hlt').2 (by linarith)
    · exact le_rfl
    · have hnext : ((below n + lastPlace n : ℕ) : ℚ) ≤ w := by
        exact_mod_cast (hw.le_or_ge n).resolve_left (Nat.not_le.2 hlt)
      have hlt' : (below n : ℚ) < w := by exact_mod_cast hlt
      exact (dist_le_iff hlt').2 (by linarith)
  · rcases Nat.lt_or_gt_of_ne hne with hlt | hlt
    · have hlt' : (w : ℚ) < below n := by exact_mod_cast hlt
      have hfar := (dist_le_iff hlt').1 heq.le
      linarith
    · have hnext : ((below n + lastPlace n : ℕ) : ℚ) ≤ w := by
        exact_mod_cast (hw.le_or_ge n).resolve_left (Nat.not_le.2 hlt)
      have hlt' : (below n : ℚ) < w := by exact_mod_cast hlt
      have hfar := (dist_ge_iff hlt').1 heq.le
      exact heven (by linarith)

theorem nearest_next (hx : x ≤ (below n + lastPlace n : ℕ))
    (hmid : below n + (below n + lastPlace n : ℕ) ≤ 2 * x)
    (heven : 2 * x = below n + (below n + lastPlace n : ℕ) →
      Even (significand (below n + lastPlace n))) :
    Nearest x (below n + lastPlace n) := by
  have hstep := lt_next n
  refine ⟨representable_next n, fun w hw => ?_, fun w hw hne heq => ?_⟩
  · rcases Nat.lt_trichotomy w (below n + lastPlace n) with hlt | rfl | hlt
    · have hprev : (w : ℚ) ≤ below n := by
        exact_mod_cast (hw.le_or_ge n).resolve_right (Nat.not_le.2 hlt)
      exact (dist_ge_iff (hprev.trans_lt hstep)).2 (by linarith)
    · exact le_rfl
    · have hlt' : ((below n + lastPlace n : ℕ) : ℚ) < w := by exact_mod_cast hlt
      exact (dist_le_iff hlt').2 (by linarith)
  · rcases Nat.lt_or_gt_of_ne hne with hlt | hlt
    · have hprev : (w : ℚ) ≤ below n := by
        exact_mod_cast (hw.le_or_ge n).resolve_right (Nat.not_le.2 hlt)
      have hfar := (dist_le_iff (hprev.trans_lt hstep)).1 heq.le
      exact heven (by linarith)
    · have hlt' : ((below n + lastPlace n : ℕ) : ℚ) < w := by exact_mod_cast hlt
      have hfar := (dist_ge_iff hlt').1 heq.le
      linarith

theorem divNearest_cases (n d : Nat) :
    (2 * (n % d) < d ∧ divNearest n d = n / d) ∨
    (d < 2 * (n % d) ∧ divNearest n d = n / d + 1) ∨
    (2 * (n % d) = d ∧ divNearest n d = n / d + n / d % 2) := by
  unfold divNearest
  rcases Nat.lt_trichotomy (2 * (n % d)) d with h | h | h
  · exact .inl ⟨h, if_pos h⟩
  · exact .inr (.inr ⟨h, by simp [h]⟩)
  · exact .inr (.inl ⟨h, by simp [h, Nat.lt_asymm h]⟩)

theorem quotient_sub_below (hd : 0 < d) (n : Nat) :
    (d : ℚ) * (n / d - below (n / d)) = (n % (d * lastPlace (n / d)) : ℕ) := by
  have hd' : (d : ℚ) ≠ 0 := by exact_mod_cast Nat.pos_iff_ne_zero.1 hd
  have hbelow : d * below (n / d) = d * lastPlace (n / d) * (n / (d * lastPlace (n / d))) := by
    rw [below, significand, Nat.div_div_eq_div_mul, Nat.mul_comm _ (lastPlace _), Nat.mul_assoc]
  have hsplit : (d : ℚ) * below (n / d) + (n % (d * lastPlace (n / d)) : ℕ) = n := by
    exact_mod_cast hbelow ▸ Nat.div_add_mod n (d * lastPlace (n / d))
  rw [mul_sub, mul_div_cancel₀ _ hd', ← hsplit, add_sub_cancel_left]

theorem nearest_quotient (hd : 0 < d) (n : Nat) :
    Nearest (n / d) (divNearest n (d * lastPlace (n / d)) * lastPlace (n / d)) := by
  have hd' : (0 : ℚ) < d := by exact_mod_cast hd
  have hleft := quotient_sub_below hd n
  have hdigits : n / (d * lastPlace (n / d)) = significand (n / d) := by
    rw [significand, Nat.div_div_eq_div_mul]
  have hnext : (significand (n / d) + 1) * lastPlace (n / d) =
      below (n / d) + lastPlace (n / d) := by
    rw [below, Nat.succ_mul]
  have hmod := Nat.mod_lt n (Nat.mul_pos hd (lastPlace_pos (n / d)))
  have hcases := divNearest_cases n (d * lastPlace (n / d))
  rw [hdigits] at hcases
  generalize n % (d * lastPlace (n / d)) = r at *
  have hbelow : (below (n / d) : ℚ) ≤ n / d := by
    refine le_of_mul_le_mul_left ?_ hd'
    linarith [Nat.cast_nonneg (α := ℚ) r]
  have habove : (n : ℚ) / d ≤ (below (n / d) + lastPlace (n / d) : ℕ) := by
    have hr : (r : ℚ) < d * (lastPlace (n / d) : ℕ) := by exact_mod_cast hmod
    refine le_of_mul_le_mul_left ?_ hd'
    push_cast
    linarith
  rcases hcases with ⟨hr, hdiv⟩ | ⟨hr, hdiv⟩ | ⟨hr, hdiv⟩
  · have hmid : 2 * ((n : ℚ) / d) < below (n / d) + (below (n / d) + lastPlace (n / d) : ℕ) := by
      have hr' : 2 * (r : ℚ) < d * (lastPlace (n / d) : ℕ) := by exact_mod_cast hr
      refine lt_of_mul_lt_mul_left ?_ hd'.le
      push_cast
      linarith
    rw [hdiv]
    exact nearest_below hbelow hmid.le fun htie => absurd htie hmid.ne
  · have hmid : below (n / d) + (below (n / d) + lastPlace (n / d) : ℕ) < 2 * ((n : ℚ) / d) := by
      have hr' : (d : ℚ) * (lastPlace (n / d) : ℕ) < 2 * r := by exact_mod_cast hr
      refine lt_of_mul_lt_mul_left ?_ hd'.le
      push_cast
      linarith
    rw [hdiv, hnext]
    exact nearest_next habove hmid.le fun htie => absurd htie hmid.ne'
  · have hmid : 2 * ((n : ℚ) / d) = below (n / d) + (below (n / d) + lastPlace (n / d) : ℕ) := by
      have hr' : 2 * (r : ℚ) = d * (lastPlace (n / d) : ℕ) := by exact_mod_cast hr
      refine mul_left_cancel₀ hd'.ne' ?_
      push_cast
      linarith
    have hsame : significand (below (n / d)) = significand (n / d) := by
      rw [significand, lastPlace_below, below, Nat.mul_div_cancel _ (lastPlace_pos _)]
    rw [hdiv]
    -- Half way between two neighbours the even one is taken.
    rcases Nat.mod_two_eq_zero_or_one (significand (n / d)) with hparity | hparity
    · rw [hparity, Nat.add_zero]
      exact nearest_below hbelow hmid.le fun _ => hsame ▸ Nat.even_iff.2 hparity
    · have hodd : ¬ Even (significand (below (n / d))) := by
        rw [hsame, Nat.even_iff, hparity]
        decide
      have heven := (representable_below (n / d)).even_next_iff.2 hodd
      rw [lastPlace_below] at heven
      rw [hparity, hnext]
      exact nearest_next habove hmid.ge fun _ => heven

/-- A quotient is rounded correctly. -/
theorem rounds_ofQuotient (hd : 0 < d) (n : Nat) : Rounds (n / d) (ofQuotient n d) := by
  have hnearest := nearest_quotient hd (n * one)
  have hscaled : ((n * one : ℕ) : ℚ) / d = n / d * one := by
    push_cast
    rw [div_mul_eq_mul_div]
  rw [hscaled] at hnearest
  cases Nat.lt_or_ge (divNearest (n * one) (d * lastPlace (n * one / d)) * lastPlace (n * one / d))
      limit with
  | inl hlt =>
    simp only [ofQuotient, if_pos hlt]
    exact .finite hnearest hlt
  | inr hge =>
    simp only [ofQuotient, if_neg (Nat.not_lt.2 hge)]
    exact .infinite hnearest hge

end

end Binary64

end ExprCompiler
