import ExprCompiler.Proofs.Climbing
import ExprCompiler.Proofs.Numerals

/-!
# What a numeral is read as

A literal stands for the whole number that its double is. Of a whole number
that is exactly the number that was written, as far as 32 bits go, and beyond
that no rounding comes back below the limit. A numeral with a fraction is
rounded before it is looked at, so that one within half a last place of a
whole number is read as that number.
-/

namespace ExprCompiler

open ExprCompiler.Parser (int32Max tooWide fractional literal tokenNumber)
open ExprCompiler.Decimal (exactValue exactValue_nonneg)
open ExprCompiler.Binary64 (Rounds)

namespace Binary64

/-! ### Whole numbers among the doubles -/

section

variable {x : ℚ} {k n u : Nat} {b : Binary64}

theorem one_pos : 0 < one := pow2_pos 1074

theorem one_eq : one = pow2 1074 := rfl

theorem two_mul_one : 2 * one = pow2 1075 := by
  rw [one_eq, ← show pow2 1 = 2 from rfl, ← pow2_add]

theorem pow2_mul_one (n : Nat) : pow2 n * one = pow2 (n + 1074) := (pow2_add n 1074).symm

theorem representable_whole (h : k < pow2 53) : Representable (k * one) := ⟨k, 1074, h, rfl⟩

theorem whole_lt_limit (h : k < pow2 53) : k * one < limit := by
  have hlt : k * one < pow2 53 * one := Nat.mul_lt_mul_of_pos_right h one_pos
  rw [pow2_mul_one] at hlt
  exact Nat.lt_of_lt_of_le hlt (pow2_le_pow2_iff.2 (by decide))

theorem bitLength_whole (h : k < pow2 n) : bitLength (k * one) ≤ n + 1074 := by
  rw [bitLength_le_iff, ← pow2_mul_one]
  exact Nat.mul_lt_mul_of_pos_right h one_pos

theorem even_whole (h : k < pow2 52) : Even (significand (k * one)) := by
  have hbits := bitLength_whole h
  obtain ⟨j, hj⟩ : ∃ j, 1074 = (bitLength (k * one) - 53) + (j + 1) :=
    ⟨1073 - (bitLength (k * one) - 53), by omega⟩
  have hone : one = pow2 (j + 1) * lastPlace (k * one) := by
    rw [lastPlace, ← pow2_add, Nat.add_comm, ← hj, one_eq]
  have hdigits : significand (k * one) = k * pow2 (j + 1) := by
    refine Nat.div_eq_of_eq_mul_left (lastPlace_pos _) ?_
    rw [Nat.mul_assoc, ← hone]
  rw [hdigits, pow2_add]
  exact (even_two.mul_left _).mul_left k

theorem Representable.exists_whole (h : Representable u) (hle : pow2 53 * one ≤ u) :
    ∃ k, u = k * one := by
  have hbits : 1126 < bitLength (pow2 53 * one) := by
    rw [lt_bitLength_iff, pow2_mul_one, pow2_le_pow2_iff]
    decide
  have hdvd : one ∣ lastPlace (pow2 53 * one) := pow2_dvd (by omega)
  exact exists_eq_mul_left_of_dvd (hdvd.trans (h.lastPlace_dvd hle))

theorem le_int32Max_iff : (k : Int) ≤ int32Max ↔ k < pow2 31 := by
  change (k : Int) ≤ 2147483647 ↔ k < 2147483648
  omega

theorem literal_of_whole (hu : u = k * one) :
    literal (.finite u) = if (k : Int) ≤ int32Max then .ok (k : Int) else .error tooWide := by
  have hmod : u % one = 0 := by rw [hu, Nat.mul_mod_left]
  have hnat : toNat? (.finite u) = some k := by
    rw [toNat?, if_pos hmod, hu, Nat.mul_div_cancel k one_pos]
  simp only [literal, hnat]

theorem literal_of_not_whole (hu : ¬ ∃ k, u = k * one) :
    literal (.finite u) = .error fractional := by
  have hmod : ¬ u % one = 0 := fun h => hu (exists_eq_mul_left_of_dvd (Nat.dvd_of_mod_eq_zero h))
  have hnat : toNat? (.finite u) = none := by rw [toNat?, if_neg hmod]
  simp only [literal, hnat]

theorem whole_of_literal {v : Int} (h : literal (.finite u) = .ok v) :
    ∃ k : Nat, u = k * one ∧ v = k ∧ (k : Int) ≤ int32Max := by
  by_cases hwhole : ∃ k, u = k * one
  · obtain ⟨k, hu⟩ := hwhole
    rw [literal_of_whole hu] at h
    by_cases hk : (k : Int) ≤ int32Max
    · rw [if_pos hk] at h
      cases h
      exact ⟨k, hu, rfl, hk⟩
    · rw [if_neg hk] at h
      cases h
  · rw [literal_of_not_whole hwhole] at h
    cases h

theorem reason_of_literal {reason : String} (h : literal (.finite u) = .error reason) :
    reason = fractional ∨ reason = tooWide ∧ pow2 31 * one ≤ u := by
  by_cases hwhole : ∃ k, u = k * one
  · obtain ⟨k, hu⟩ := hwhole
    rw [literal_of_whole hu] at h
    by_cases hk : (k : Int) ≤ int32Max
    · rw [if_pos hk] at h
      cases h
    · rw [if_neg hk] at h
      cases h
      rw [le_int32Max_iff, Nat.not_lt] at hk
      rw [hu]
      exact .inr ⟨rfl, Nat.mul_le_mul_right one hk⟩
  · rw [literal_of_not_whole hwhole] at h
    cases h
    exact .inl rfl

/-- A whole number is read as itself or is too wide, however many digits it has. -/
theorem Rounds.literal_whole (h : Rounds n b) :
    literal b = if (n : Int) ≤ int32Max then .ok (n : Int) else .error tooWide := by
  have hexact (hn : n < pow2 53) {u : Nat} (hu : Nearest (n * one) u) : u = n * one := by
    rw [← Nat.cast_mul] at hu
    exact hu.eq_of_representable (representable_whole hn)
  cases h with
  | @finite u h hu =>
    rcases Nat.lt_or_ge n (pow2 53) with hn | hn
    · exact literal_of_whole (hexact hn h)
    · have hle : pow2 53 * one ≤ u := by
        refine h.le_of_le ⟨1, 53 + 1074, by decide, by rw [Nat.one_mul, pow2_mul_one]⟩ ?_
        rw [← Nat.cast_mul]
        exact Nat.cast_le.2 (Nat.mul_le_mul_right one hn)
      obtain ⟨k, hu⟩ := h.representable.exists_whole hle
      have hk := Nat.le_of_mul_le_mul_right (hu ▸ hle) one_pos
      have hlimit {m : Nat} (hm : pow2 53 ≤ m) : ¬ (m : Int) ≤ int32Max := by
        rw [le_int32Max_iff, Nat.not_lt]
        exact Nat.le_trans (by decide) hm
      rw [literal_of_whole hu, if_neg (hlimit hk), if_neg (hlimit hn)]
  | infinite h hu =>
    rw [if_neg]
    · rfl
    · intro hle
      have hn : n < pow2 53 := Nat.lt_trans (le_int32Max_iff.1 hle) (by decide)
      exact absurd (whole_lt_limit hn) (Nat.not_lt.2 (hexact hn h ▸ hu))

/-! ### Numbers next to a whole number -/

/-- The number is no farther from the whole number `k` than half of the last place there, below
`k` or above it. -/
def WithinHalfPlace (x : ℚ) (k : Nat) : Prop :=
  k - (lastPlace (k * one - 1) : ℚ) / (2 * one) ≤ x ∧ x ≤ k + (lastPlace (k * one) : ℚ) / (2 * one)

theorem nearest_whole_iff (hx : 0 ≤ x) (hk : k < pow2 52) :
    Nearest (x * one) (k * one) ↔ WithinHalfPlace x k := by
  have hrep : Representable (k * one) := representable_whole (Nat.lt_trans hk (by decide))
  have hone : (0 : ℚ) < 2 * one := mul_pos two_pos (Nat.cast_pos.2 one_pos)
  have hx' : 0 ≤ x * one := mul_nonneg hx (Nat.cast_nonneg _)
  have hlow : k - (lastPlace (k * one - 1) : ℚ) / (2 * one) ≤ x ↔
      (k - x) * (2 * one) ≤ lastPlace (k * one - 1) := by
    rw [sub_le_comm, le_div_iff₀ hone]
  have hhigh : x ≤ k + (lastPlace (k * one) : ℚ) / (2 * one) ↔
      (x - k) * (2 * one) ≤ lastPlace (k * one) := by
    rw [← sub_le_iff_le_add', le_div_iff₀ hone]
  rw [nearest_iff_of_even hrep (even_whole hk) hx', WithinHalfPlace, hlow, hhigh, Nat.cast_mul]
  constructor <;> rintro ⟨hlow, hhigh⟩ <;> constructor <;> linarith

theorem WithinHalfPlace.abs_sub_le (h : WithinHalfPlace x k) (hk : k < pow2 31) :
    |x - k| ≤ 1 / pow2 23 := by
  have hbits := bitLength_whole hk
  have hplace {j : Nat} (hj : j ≤ k * one) : (lastPlace j : ℚ) / (2 * one) ≤ 1 / pow2 23 := by
    have hle : lastPlace j ≤ pow2 1052 :=
      Nat.le_trans (lastPlace_mono hj) (pow2_le_pow2_iff.2 (by omega))
    have hpow : pow2 1052 * pow2 23 = 2 * one := by rw [two_mul_one, ← pow2_add]
    have hle' : lastPlace j * pow2 23 ≤ 2 * one := by
      rw [← hpow]
      exact Nat.mul_le_mul_right _ hle
    rw [div_le_div_iff₀ (mul_pos two_pos (Nat.cast_pos.2 one_pos)) (Nat.cast_pos.2 (pow2_pos 23)),
      one_mul]
    exact_mod_cast hle'
  have hbelow := hplace (Nat.sub_le (k * one) 1)
  have habove := hplace (Nat.le_refl (k * one))
  exact abs_le.2 ⟨by linarith [h.1], by linarith [h.2]⟩

/-- A number is read as the whole number in the range of literals next to it, if there is one. -/
theorem Rounds.literal_eq_ok_iff (hx : 0 ≤ x) (h : Rounds x b) {v : Int} :
    literal b = .ok v ↔ ∃ k : Nat, v = k ∧ (k : Int) ≤ int32Max ∧ WithinHalfPlace x k := by
  have hwide {k : Nat} (hk : (k : Int) ≤ int32Max) : k < pow2 52 :=
    Nat.lt_trans (le_int32Max_iff.1 hk) (by decide)
  constructor
  · intro hv
    cases h with
    | finite h hu =>
      obtain ⟨k, hk, rfl, hmax⟩ := whole_of_literal hv
      rw [hk] at h
      exact ⟨k, rfl, hmax, (nearest_whole_iff hx (hwide hmax)).1 h⟩
    | infinite h hu => cases hv
  · rintro ⟨k, rfl, hk, hnear⟩
    have hnearest := (nearest_whole_iff hx (hwide hk)).2 hnear
    have hlimit := whole_lt_limit (Nat.lt_trans (hwide hk) (by decide))
    rw [h.unique (.finite hnearest hlimit), literal_of_whole rfl, if_pos hk]

theorem Nearest.beyond (h : Nearest (x * one) u) (hu : pow2 31 * one ≤ u) : int32Max < x := by
  refine not_le.1 fun hle => ?_
  have hmax : (2147483647 : Nat) < pow2 31 := by decide
  have hx : x * one ≤ (2147483647 * one : ℕ) := by
    push_cast
    exact mul_le_mul_of_nonneg_right hle (Nat.cast_nonneg _)
  have hle' := h.ge_of_ge (representable_whole (by decide)) hx
  exact absurd (Nat.mul_lt_mul_of_pos_right hmax one_pos) (Nat.not_lt.2 (Nat.le_trans hu hle'))

theorem Rounds.literal_error (h : Rounds x b) {reason : String} (he : literal b = .error reason) :
    reason = fractional ∨ int32Max < x ∧ reason = tooWide := by
  cases h with
  | finite h hu =>
    obtain rfl | ⟨rfl, hbeyond⟩ := reason_of_literal he
    · exact .inl rfl
    · exact .inr ⟨h.beyond hbeyond, rfl⟩
  | infinite h hu =>
    cases he
    have hle : pow2 31 * one ≤ limit := Nat.le_of_lt (whole_lt_limit (by decide))
    exact .inr ⟨h.beyond (Nat.le_trans hle hu), rfl⟩

end

end Binary64

theorem literal_of_numeral {n : Nat} (h : (n : Int) ≤ int32Max) :
    literal (Decimal.toBinary64 ⟨n, 0⟩) = .ok n := by
  have hvalue : Decimal.toBinary64 ⟨n, 0⟩ = .ofQuotient n 1 := by
    have hone : pow10 (0 : Int).toNat = 1 := rfl
    simp only [Decimal.toBinary64, Int.le_refl, if_true, hone, Nat.mul_one]
  have hrounds := Binary64.rounds_ofQuotient Nat.one_pos n
  rw [Nat.cast_one, div_one] at hrounds
  rw [hvalue, hrounds.literal_whole, if_pos h]

/-! ### Texts of one numeral -/

open ExprCompiler.Layered (comparison)
open ExprCompiler.Binary64 (WithinHalfPlace)

section

variable {s file reason : String} {b : Binary64} {t e : Token} {v : Int}

def Parser.ReadsNumber (s file : String) (t e : Token) (v : Int) : Prop :=
  ∃ q, expression (.ofString s file) = .ok (.number v (some ⟨t.location, t.location⟩)) q ∧
    q.lookahead = some e

def Parser.RefusesNumber (s file : String) (t : Token) (reason : String) : Prop :=
  ∃ x q, expression (.ofString s file) = .error (.invalid x) q ∧ x = .invalidNumber t reason ∧
    x.code = "P013" ∧ x.message = "invalid numeric literal '" ++ s ++ "': " ++ reason ∧
    q.lookahead = some t

theorem Layered.comparison_number (hk : t.kind = .number) (he : e.kind = .endOfInput)
    (hv : literal (tokenNumber t) = .ok v) :
    comparison [t, e] = .ok (.number v (some ⟨t.location, t.location⟩)) [e] := by
  have hprimary : primary [t, e] = .ok (.number v (some ⟨t.location, t.location⟩)) [e] := by
    rw [primary_eq, peek_bind, look_cons, if_pos hk, hv]
    rfl
  have hloose : Loose layers [e] := fun ops _ => by simp [Token.isOneOf, he]
  rw [comparison, chain_eq, bind_eq_ok hprimary, rests_of_loose _ hloose]

theorem Layered.comparison_number_error (hk : t.kind = .number)
    (hv : literal (tokenNumber t) = .error reason) :
    comparison [t, e] = .error (.invalidNumber t reason) [t, e] := by
  have hprimary : primary [t, e] = .error (.invalidNumber t reason) [t, e] := by
    rw [primary_eq, peek_bind, look_cons, if_pos hk, hv]
    rfl
  rw [comparison, chain_eq, bind_eq_error hprimary]

namespace Lone

open ExprCompiler.Parser (ReadsNumber RefusesNumber expression_eq_ok expression_eq_error)

variable (h : Lone s file b t e)
include h

theorem tokenNumber_eq : tokenNumber t = b := by simp only [tokenNumber, h.value]

theorem tokens_eq : (Parser.ofString s file).tokens = [t, e] := h.tokens

theorem readsNumber (hv : literal b = .ok v) : ReadsNumber s file t e v := by
  rw [← h.tokenNumber_eq] at hv
  have hread := Layered.comparison_number h.kind h.ending hv
  rw [← h.tokens_eq] at hread
  obtain ⟨q, hq, hfacing⟩ := expression_eq_ok rfl hread
  exact ⟨q, hq, hfacing.lookahead⟩

theorem refusesNumber (hv : literal b = .error reason) : RefusesNumber s file t reason := by
  rw [← h.tokenNumber_eq] at hv
  have hread := Layered.comparison_number_error (e := e) h.kind hv
  rw [← h.tokens_eq] at hread
  obtain ⟨q, hq, hfacing⟩ := expression_eq_error rfl hread
  have hmessage : (ParseError.invalidNumber t reason).message =
      "invalid numeric literal '" ++ s ++ "': " ++ reason := by
    rw [← h.lexeme]
    rfl
  rw [h.tokens_eq] at hfacing
  exact ⟨_, q, hq, rfl, rfl, hmessage, hfacing.lookahead⟩

end Lone

end

namespace Parser

/-- A numeral whose exact value is a whole number is read as that number, or it is too wide,
whatever its digits are. -/
theorem expression_whole {s : String} (h : Numeric s) {n : Int} (hn : exactValue s = n)
    (file : String) :
    ∃ b t e, Lone s file b t e ∧ Rounds (exactValue s) b ∧
      (n ≤ int32Max → ReadsNumber s file t e n) ∧
      (int32Max < n → RefusesNumber s file t tooWide) := by
  obtain ⟨b, t, e, hlone, hrounds⟩ := h.lone file
  have hnonneg : 0 ≤ n := by
    have hvalue := exactValue_nonneg s
    rw [hn] at hvalue
    exact_mod_cast hvalue
  obtain ⟨k, rfl⟩ := Int.eq_ofNat_of_zero_le hnonneg
  have hliteral : literal b = if (k : Int) ≤ int32Max then .ok (k : Int) else .error tooWide := by
    rw [hn] at hrounds
    exact Rounds.literal_whole (by exact_mod_cast hrounds)
  refine ⟨b, t, e, hlone, hrounds, fun hle => ?_, fun hlt => ?_⟩
  · rw [if_pos hle] at hliteral
    exact hlone.readsNumber hliteral
  · rw [if_neg (Int.not_le.2 hlt)] at hliteral
    exact hlone.refusesNumber hliteral

theorem expression_whole_zeros :
    Numeric "0002147483648.000" ∧ exactValue "0002147483648.000" = (2147483648 : Int) ∧
      ∃ b t e, Lone "0002147483648.000" "input" b t e ∧
        Rounds (exactValue "0002147483648.000") b ∧
        ((2147483648 : Int) ≤ int32Max → ReadsNumber "0002147483648.000" "input" t e 2147483648) ∧
        (int32Max < (2147483648 : Int) → RefusesNumber "0002147483648.000" "input" t tooWide) := by
  have h : Numeric "0002147483648.000" :=
    .of_all "0002147483648".toList "000".toList (by decide +kernel) (by decide +kernel)
      (by decide +kernel)
  have hn : exactValue "0002147483648.000" = (2147483648 : Int) := by decide +kernel
  exact ⟨h, hn, expression_whole h hn "input"⟩

/-- A numeral is read as the whole number in the range of literals that it is within half a last
place of, so that a fraction as small as that is dropped. Every other numeral is refused: for its
fraction, or, beyond the range, for its width. -/
theorem expression_numeral {s : String} (h : Numeric s) (file : String) :
    ∃ b t e, Lone s file b t e ∧ Rounds (exactValue s) b ∧
      ((∃ k : Nat, (k : Int) ≤ int32Max ∧ WithinHalfPlace (exactValue s) k ∧
          |exactValue s - k| ≤ 1 / pow2 23 ∧ ReadsNumber s file t e k) ∨
        ((∀ k : Nat, (k : Int) ≤ int32Max → ¬ WithinHalfPlace (exactValue s) k) ∧
          (RefusesNumber s file t fractional ∨
            int32Max < exactValue s ∧ RefusesNumber s file t tooWide))) := by
  obtain ⟨b, t, e, hlone, hrounds⟩ := h.lone file
  refine ⟨b, t, e, hlone, hrounds, ?_⟩
  cases hliteral : literal b with
  | ok v =>
    obtain ⟨k, rfl, hk, hnear⟩ :=
      (hrounds.literal_eq_ok_iff (exactValue_nonneg s)).1 hliteral
    have hclose := hnear.abs_sub_le (Binary64.le_int32Max_iff.1 hk)
    exact .inl ⟨k, hk, hnear, hclose, hlone.readsNumber hliteral⟩
  | error reason =>
    refine .inr ⟨fun k hk hnear => ?_, ?_⟩
    · rw [(hrounds.literal_eq_ok_iff (exactValue_nonneg s)).2 ⟨k, rfl, hk, hnear⟩] at hliteral
      cases hliteral
    · obtain rfl | ⟨hlt, rfl⟩ := hrounds.literal_error hliteral
      · exact .inl (hlone.refusesNumber hliteral)
      · exact .inr ⟨hlt, hlone.refusesNumber hliteral⟩

theorem expression_numeral_greatest :
    Numeric "2147483647.0000001" ∧ ∃ b t e, Lone "2147483647.0000001" "input" b t e ∧
      Rounds (exactValue "2147483647.0000001") b ∧
      ((∃ k : Nat, (k : Int) ≤ int32Max ∧ WithinHalfPlace (exactValue "2147483647.0000001") k ∧
          |exactValue "2147483647.0000001" - k| ≤ 1 / pow2 23 ∧
          ReadsNumber "2147483647.0000001" "input" t e k) ∨
        ((∀ k : Nat, (k : Int) ≤ int32Max →
            ¬ WithinHalfPlace (exactValue "2147483647.0000001") k) ∧
          (RefusesNumber "2147483647.0000001" "input" t fractional ∨
            int32Max < exactValue "2147483647.0000001" ∧
              RefusesNumber "2147483647.0000001" "input" t tooWide))) := by
  have h : Numeric "2147483647.0000001" :=
    .of_all "2147483647".toList "0000001".toList (by decide +kernel) (by decide +kernel)
      (by decide +kernel)
  exact ⟨h, expression_numeral h "input"⟩

/-- A numeral with a fraction other than zero is read as a whole number. -/
theorem fraction_is_dropped :
    Numeric "1.00000000000000000001" ∧ (∀ n : Int, exactValue "1.00000000000000000001" ≠ n) ∧
      ∃ b t e, Lone "1.00000000000000000001" "<string>" b t e ∧
        ReadsNumber "1.00000000000000000001" "<string>" t e 1 := by
  have h : Numeric "1.00000000000000000001" :=
    .of_all ['1'] "00000000000000000001".toList (by decide +kernel) (by decide +kernel)
      (by decide +kernel)
  have hfraction (n : Int) : exactValue "1.00000000000000000001" ≠ n := by
    intro heq
    have hden := congrArg Rat.den heq
    rw [Rat.den_intCast] at hden
    exact absurd hden (by decide +kernel)
  have hnear : WithinHalfPlace (exactValue "1.00000000000000000001") 1 :=
    ⟨by decide +kernel, by decide +kernel⟩
  obtain ⟨b, t, e, hlone, hrounds⟩ := h.lone "<string>"
  have hliteral : literal b = .ok 1 :=
    (hrounds.literal_eq_ok_iff (exactValue_nonneg _)).2 ⟨1, rfl, by decide, hnear⟩
  exact ⟨h, hfraction, b, t, e, hlone, hlone.readsNumber hliteral⟩

end Parser

end ExprCompiler
