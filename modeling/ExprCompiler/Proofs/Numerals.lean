import Mathlib.Tactic.FieldSimp
import Mathlib.Tactic.Ring
import ExprCompiler.Proofs.Rounding
import ExprCompiler.Proofs.Tokenization

/-!
# The value of a numeral

A numeral has the exact value of its decimal digits, however many there are.
The lexer rounds that value once, to the nearest double. A text that is
nothing but a numeral has one token in front of its end.
-/

namespace ExprCompiler

namespace Decimal

open ExprCompiler.Binary64 (Rounds rounds_ofQuotient)

def fractionValue : List Char → ℚ
  | [] => 0
  | d :: ds => (digitValue d + fractionValue ds) / 10

/-- The exact value of a numeral: the digits in front of its point as a whole number, and those
behind the point as a fraction. -/
def exactValue (s : String) : ℚ :=
  ofDigits (s.toList.takeWhile isDigit) + fractionValue (s.toList.dropWhile isDigit).tail

theorem pow10_pos (n : Nat) : 0 < pow10 n := Nat.pow_pos (by decide)

theorem pow10_succ (n : Nat) : pow10 (n + 1) = pow10 n * 10 := Nat.pow_succ 10 n

theorem foldl_digits (n : Nat) (ds : List Char) :
    ds.foldl (fun n d => 10 * n + digitValue d) n = n * pow10 ds.length + ofDigits ds := by
  induction ds generalizing n with
  | nil => exact (Nat.mul_one n).symm
  | cons d ds ih =>
    rw [ofDigits, List.foldl_cons, List.foldl_cons, ih, ih (10 * 0 + digitValue d),
      List.length_cons, pow10_succ]
    ring

theorem ofDigits_cons (d : Char) (ds : List Char) :
    ofDigits (d :: ds) = digitValue d * pow10 ds.length + ofDigits ds := by
  rw [ofDigits, List.foldl_cons, foldl_digits, Nat.mul_zero, Nat.zero_add]

theorem ofDigits_append (as bs : List Char) :
    ofDigits (as ++ bs) = ofDigits as * pow10 bs.length + ofDigits bs := by
  rw [ofDigits, List.foldl_append, foldl_digits]
  rfl

theorem fractionValue_eq (ds : List Char) : fractionValue ds = ofDigits ds / pow10 ds.length := by
  induction ds with
  | nil => exact (zero_div _).symm
  | cons d ds ih =>
    have hpow : (pow10 ds.length : ℚ) ≠ 0 := by exact_mod_cast (pow10_pos _).ne'
    rw [fractionValue, ih, ofDigits_cons, List.length_cons, pow10_succ]
    push_cast
    field_simp

theorem fractionValue_nonneg (ds : List Char) : 0 ≤ fractionValue ds := by
  rw [fractionValue_eq]
  exact div_nonneg (Nat.cast_nonneg _) (Nat.cast_nonneg _)

theorem exactValue_nonneg (s : String) : 0 ≤ exactValue s :=
  add_nonneg (Nat.cast_nonneg _) (fractionValue_nonneg _)

theorem ofDigits_add_fractionValue (whole fraction : List Char) :
    ofDigits whole + fractionValue fraction =
      (ofDigits (whole ++ fraction) : ℚ) / pow10 fraction.length := by
  have hpow : (pow10 fraction.length : ℚ) ≠ 0 := by exact_mod_cast (pow10_pos _).ne'
  rw [fractionValue_eq, ofDigits_append]
  push_cast
  field_simp

theorem rounds_ofParts (whole fraction : List Char) :
    Rounds (ofDigits whole + fractionValue fraction) (ofParts whole fraction).toBinary64 := by
  rw [ofDigits_add_fractionValue]
  cases fraction with
  | nil =>
    have hvalue : (ofParts whole []).toBinary64 = .ofQuotient (ofDigits (whole ++ [])) 1 := by
      have hone : pow10 0 = 1 := rfl
      simp [ofParts, toBinary64, hone]
    rw [hvalue]
    exact rounds_ofQuotient Nat.one_pos _
  | cons d ds =>
    have hneg : ¬ (0 : Int) ≤ -((d :: ds).length : Int) := by
      rw [List.length_cons]
      omega
    have hvalue : (ofParts whole (d :: ds)).toBinary64 =
        .ofQuotient (ofDigits (whole ++ d :: ds)) (pow10 (d :: ds).length) := by
      simp only [ofParts, toBinary64, if_neg hneg, neg_neg, Int.toNat_natCast]
    rw [hvalue]
    exact rounds_ofQuotient (pow10_pos _) _

end Decimal

open ExprCompiler.Decimal (exactValue)
open ExprCompiler.Binary64 (Rounds)

section

variable {s file : String}

theorem Numeric.of_all (whole fraction : List Char) (hs : s.toList = whole ++ '.' :: fraction)
    (h : whole ≠ []) (hd : (whole ++ fraction).all Decimal.isDigit = true) : Numeric s := by
  rw [List.all_append, Bool.and_eq_true, List.all_eq_true, List.all_eq_true] at hd
  exact .point hs h hd.1 hd.2

/-- A numeral is rounded correctly. -/
theorem Numeric.rounds (h : Numeric s) :
    ∃ d, Decimal.ofString? s = some d ∧ Rounds (exactValue s) d.toBinary64 := by
  have hpoint (whole fraction : List Char) (hs : s.toList = whole ++ '.' :: fraction)
      (hw : ∀ d ∈ whole, Decimal.isDigit d = true) (hf : ∀ d ∈ fraction, Decimal.isDigit d = true)
      (hne : whole ++ fraction ≠ []) :
      ∃ d, Decimal.ofString? s = some d ∧ Rounds (exactValue s) d.toBinary64 := by
    refine ⟨.ofParts whole fraction, ?_, ?_⟩
    · rw [← Decimal.ofString?_point hw hf hne, ← hs, String.ofList_toList]
    · rw [exactValue, hs, (stops_point _).takeWhile_append hw,
        (stops_point _).dropWhile_append hw, List.tail_cons]
      exact Decimal.rounds_ofParts whole fraction
  cases h with
  | digits h hd =>
    obtain ⟨htake, hdrop⟩ := takeWhile_digits hd
    refine ⟨.ofParts s.toList [], ?_, ?_⟩
    · rw [← Decimal.ofString?_digits hd h, String.ofList_toList]
    · rw [exactValue, htake, hdrop]
      exact Decimal.rounds_ofParts _ []
  | point hs h hw hf => exact hpoint _ _ hs hw hf (List.append_ne_nil_of_left_ne_nil h _)
  | fraction hs h hf => exact hpoint [] _ hs (List.forall_mem_nil _) hf h

theorem rounds_of_mem_tokenize {t : Token} (ht : t ∈ tokenize s file) (hk : t.kind = .number) :
    Numeric t.lexeme ∧ ∃ b, t.value = .number b ∧ Rounds (exactValue t.lexeme) b := by
  have hmunched := ((Lexer.placed_ofString s file).tokens.munched t ht)
  cases hmunched with
  | word _ hk' =>
    rw [hk', wordKind] at hk
    split_ifs at hk
  | @number d h _ hd hv =>
    obtain ⟨d', hd', hrounds⟩ := h.member.rounds
    obtain rfl := Option.some.inj (hd.symm.trans hd')
    exact ⟨h.member, _, hv, hrounds⟩
  | char _ _ _ _ _ _ hk' => cases hk.symm.trans hk'
  | endOfInput _ _ hk' => cases hk.symm.trans hk'

/-! ### A text that is one numeral -/

structure Lone (s file : String) (b : Binary64) (t e : Token) : Prop where
  tokens : tokenize s file = [t, e]
  kind : t.kind = .number
  lexeme : t.lexeme = s
  value : t.value = .number b
  ending : e.kind = .endOfInput

theorem longest_self {P : String → Prop} (h : P s) : Longest P s.toList s where
  front := List.prefix_refl _
  member := h
  longest v hv _ := by
    rw [← String.length_toList, ← String.length_toList]
    exact hv.length_le

theorem Numeric.lone (h : Numeric s) (file : String) :
    ∃ b t e, Lone s file b t e ∧ Rounds (exactValue s) b := by
  obtain ⟨d, hd, hrounds⟩ := h.rounds
  generalize ht : (⟨.number, s, .number d.toBinary64, place file s.toList 0⟩ : Token) = t
  generalize he : (⟨.endOfInput, "", .absent, place file s.toList s.length⟩ : Token) = e
  have hstop : t.stop = s.length := by
    subst ht
    exact Nat.zero_add _
  have hend : e.kind = .endOfInput := by
    subst he
    rfl
  have hnext : Lexer.Next file s.toList 0 t := by
    subst ht
    exact ⟨Nat.zero_le _, Nat.zero_le _, .nil, .number (longest_self h) rfl hd rfl, rfl⟩
  have hlast : Lexer.Next file s.toList s.length e := by
    subst he
    have hnone : s.toList.drop s.length = [] := by
      rw [← String.length_toList, List.drop_length]
    have hgap : stretch s.toList s.length s.length = [] := by
      rw [stretch, List.drop_take, Nat.sub_self, List.take_zero]
    refine ⟨Nat.le_refl _, Nat.le_of_eq String.length_toList.symm, ?_, ?_, rfl⟩
    · change Gap _ (stretch s.toList s.length s.length)
      rw [hgap]
      exact .nil
    · exact .endOfInput hnone rfl rfl rfl
  have hkind : t.kind = .number := by
    subst ht
    rfl
  have htokens : Tokenization file s.toList 0 [t, e] :=
    .cons hnext (t.not_end_of_kind hkind (by decide)) (hstop ▸ .single hlast hend)
  refine ⟨d.toBinary64, t, e, ⟨?_, hkind, ?_, ?_, hend⟩, hrounds⟩
  · exact (Lexer.placed_ofString s file).tokens.unique htokens
  all_goals
    subst ht
    rfl

end

end ExprCompiler
