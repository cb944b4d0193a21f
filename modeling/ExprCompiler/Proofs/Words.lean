import Mathlib.Data.List.TakeWhile
import ExprCompiler.Proofs.Grammatical
import ExprCompiler.Proofs.TokensAhead

/-!
# Words with spaces between them

Numerals, identifiers and single characters are words: whatever is behind the
space that follows one of them, the lexer gives one token for it, the token
that the word gives alone.
-/

namespace ExprCompiler

def Apart (rest : List Char) : Prop := ∀ d ∈ rest.head?, d = ' '

def Word (w : String) (x : Lexeme) : Prop :=
  ∃ c cs, w.toList = c :: cs ∧ x.chars = c :: cs ∧ Text.isBlank c = false ∧ c ≠ '#' ∧
    ∀ rest, Apart rest → Lexeme.ofFront c (cs ++ rest) = x

def Token.Spells (t : Token) (w : String) : Prop :=
  ∃ c cs, w.toList = c :: cs ∧ t = (Lexeme.ofFront c cs).token t.location

theorem Apart.nil : Apart [] := nofun

theorem Word.eq_of_spells {w : String} {x : Lexeme} {t : Token} (h : Word w x) (ht : t.Spells w) :
    t = x.token t.location := by
  obtain ⟨c, cs, hw, -, -, -, hfront⟩ := h
  obtain ⟨d, ds, hw', ht⟩ := ht
  obtain ⟨rfl, rfl⟩ := List.cons.inj (hw.symm.trans hw')
  have hx := hfront [] .nil
  rw [List.append_nil] at hx
  rwa [hx] at ht

/-! ### Where runs of characters stop -/

def Stops (p : Char → Bool) (rest : List Char) : Prop := ∀ c ∈ rest.head?, p c = false

section

variable {p : Char → Bool} {cs rest : List Char}

theorem stops_nil (p : Char → Bool) : Stops p [] := nofun

theorem stops_cons {c : Char} (h : p c = false) (rest : List Char) : Stops p (c :: rest) := by
  intro d hd
  obtain rfl := Option.some.inj hd
  exact h

theorem Apart.stops (h : Apart rest) (hp : p ' ' = false) : Stops p rest :=
  fun d hd => h d hd ▸ hp

theorem Stops.takeWhile_append (h : Stops p rest) (hcs : ∀ c ∈ cs, p c = true) :
    (cs ++ rest).takeWhile p = cs := by
  rw [List.takeWhile_append_of_pos hcs]
  cases rest with
  | nil => simp
  | cons c rest => simp [h c rfl]

theorem Stops.dropWhile_append (h : Stops p rest) (hcs : ∀ c ∈ cs, p c = true) :
    (cs ++ rest).dropWhile p = rest := by
  rw [List.dropWhile_append_of_pos hcs]
  cases rest with
  | nil => rfl
  | cons c rest => simp [h c rfl]

end

/-! ### Identifiers -/

theorem isLetter_iff {c : Char} :
    isLetter c = true ↔ (97 ≤ c.toNat ∧ c.toNat ≤ 122) ∨ (65 ≤ c.toNat ∧ c.toNat ≤ 90) := by
  simp only [isLetter, Bool.or_eq_true, Bool.and_eq_true, decide_eq_true_eq, Char.le_def,
    UInt32.le_iff_toNat_le]
  rfl

theorem isDigit_iff {c : Char} :
    Decimal.isDigit c = true ↔ 48 ≤ c.toNat ∧ c.toNat ≤ 57 := by
  simp only [Decimal.isDigit, Bool.and_eq_true, decide_eq_true_eq, Char.le_def,
    UInt32.le_iff_toNat_le]
  rfl

theorem isBlank_eq_false {c : Char} (h : 33 ≤ c.toNat) (h' : c.toNat ≤ 126) :
    Text.isBlank c = false := by
  simp only [Text.isBlank, Bool.or_eq_false_iff, Bool.and_eq_false_iff, decide_eq_false_iff_not,
    beq_eq_false_iff_ne]
  omega

theorem Identifier.all_wordChar {v : String} (h : Identifier v) :
    ∀ c ∈ v.toList, isWordChar c = true := by
  obtain ⟨c, cs, hv, hc, hcs⟩ := h
  rw [hv]
  exact List.forall_mem_cons.2 ⟨by simp [isWordChar, hc], hcs⟩

theorem Identifier.word_ofWord {n : String} (h : Identifier n) : Word n (.ofWord n.toList) := by
  obtain ⟨c, cs, hn, hc, hcs⟩ := h
  have hrange := isLetter_iff.1 hc
  refine ⟨c, cs, hn, by rw [Lexeme.chars_ofWord, hn], isBlank_eq_false (by omega) (by omega), ?_,
    fun rest hrest => ?_⟩
  · rintro rfl
    exact absurd hc (by decide)
  · rw [Lexeme.ofFront, if_pos hc, (hrest.stops rfl).takeWhile_append hcs, hn]

theorem Identifier.word {n : String} (h : Identifier n) (hk : keywords.lookup n = none) :
    Word n ⟨.identifier, n.toList, .name n⟩ := by
  have hword : Lexeme.ofWord n.toList = ⟨.identifier, n.toList, .name n⟩ := by
    rw [Lexeme.ofWord, String.ofList_toList, hk]
  exact hword ▸ h.word_ofWord

/-! ### Signs -/

def isSign (c : Char) : Bool :=
  !isLetter c && !Decimal.isDigit c && c != '.' && !Text.isBlank c && c != '#'

theorem word_of_isSign {c : Char} (h : isSign c = true) :
    Word (String.singleton c) ⟨.char, [c], .absent⟩ := by
  simp only [isSign, Bool.and_eq_true, Bool.not_eq_true', bne_iff_ne, ne_eq] at h
  obtain ⟨⟨⟨⟨hletter, hdigit⟩, hpoint⟩, hblank⟩, hcomment⟩ := h
  refine ⟨c, [], by simp, rfl, hblank, hcomment, fun rest _ => ?_⟩
  simp [Lexeme.ofFront, hletter, hdigit, hpoint]

/-! ### Numerals -/

theorem digits_toDigits (n : Nat) : ∀ c ∈ Nat.toDigits 10 n, Decimal.isDigit c = true := by
  intro c hc
  have hdigit := Nat.isDigit_of_mem_toDigits (by decide) (by decide) hc
  rw [Char.isDigit_iff_toNat] at hdigit
  exact isDigit_iff.2 hdigit

theorem word_numeral (n : Nat) :
    Word (toString n) ⟨.number, Nat.toDigits 10 n, .number (Decimal.toBinary64 ⟨n, 0⟩)⟩ := by
  have hlist : (toString n).toList = Nat.toDigits 10 n := by
    rw [Nat.toString_eq_repr, Nat.toList_repr]
  cases hd : Nat.toDigits 10 n with
  | nil => exact absurd hd Nat.toDigits_ne_nil
  | cons c cs =>
    have hdigits := digits_toDigits n
    rw [hd] at hdigits hlist
    have hc := hdigits c List.mem_cons_self
    have hrange := isDigit_iff.1 hc
    have hletter : isLetter c = false := by
      rw [Bool.eq_false_iff, ne_eq, isLetter_iff]
      omega
    refine ⟨c, cs, hlist, rfl, isBlank_eq_false (by omega) (by omega), ?_, fun rest hrest => ?_⟩
    · rintro rfl
      exact absurd hc (by decide)
    · have hnumeral : Numeral.ofFront (c :: (cs ++ rest)) = ⟨c :: cs, false, []⟩ := by
        have hstops := hrest.stops (p := Decimal.isDigit) rfl
        rw [← List.cons_append, Numeral.ofFront, hstops.takeWhile_append hdigits,
          hstops.dropWhile_append hdigits]
        cases rest with
        | nil => rfl
        | cons d rest =>
          obtain rfl : d = ' ' := hrest d rfl
          rfl
      have hpoint : c :: cs ≠ ['.'] := by
        rintro ⟨⟩
        exact absurd hc (by decide)
      have hvalue : Decimal.ofDigits (c :: cs) = n := by
        rw [← hd]
        exact Nat.ofDigitChars_toDigits (by decide) (by decide)
      have hvalue' : Numeral.value ⟨c :: cs, false, []⟩ = Decimal.toBinary64 ⟨n, 0⟩ := by
        rw [Numeral.value, Decimal.ofParts, List.append_nil, hvalue]
        rfl
      simp [Lexeme.ofFront, hletter, hc, hnumeral, Lexeme.ofNumeral, Numeral.chars, hpoint, hvalue']

/-! ### The words of a text -/

theorem blankPrefix_append {blanks : List Char} (h : ∀ b ∈ blanks, Text.isBlank b = true) {c : Char}
    (hc : Text.isBlank c = false) (hc' : c ≠ '#') (cs : List Char) :
    blankPrefix false (blanks ++ c :: cs) = blanks := by
  induction blanks with
  | nil => simp [blankPrefix, hc, hc']
  | cons b bs ih =>
    have hb := h b List.mem_cons_self
    have hbs := ih fun d hd => h d (List.mem_cons_of_mem _ hd)
    rw [List.cons_append, blankPrefix, if_pos hb, hbs]

namespace Lexer

variable {l : Lexer}

theorem scan_of_word {blanks rest : List Char} {w : String} {x : Lexeme} (h : Word w x)
    (hl : l.ahead = blanks ++ (w.toList ++ rest))
    (hblanks : ∀ b ∈ blanks, Text.isBlank b = true) (hrest : Apart rest) :
    l.scan.1.Spells w ∧ l.scan.1.kind ≠ .endOfInput ∧ l.scan.2.ahead = rest := by
  obtain ⟨c, cs, hw, hx, hblank, hcomment, hfront⟩ := h
  have hahead : l.begin.skipBlanks.ahead = c :: (cs ++ rest) := by
    rw [skipBlanks, ahead_advanceBy, ahead_begin, hl, hw, List.cons_append,
      blankPrefix_append hblanks hblank hcomment, List.drop_left]
  have hone := hfront [] .nil
  rw [List.append_nil] at hone
  have hcut : l.scan = (x.token l.begin.skipBlanks.location,
      l.begin.skipBlanks.advanceBy x.chars.length) := by
    rw [scan, cut, hahead]
    simp only [hfront rest hrest]
  have hkind : x.kind ≠ .endOfInput := hone ▸ Lexeme.kind_ofFront_ne_endOfInput c cs
  rw [hcut]
  refine ⟨⟨c, cs, hw, by rw [hone]; rfl⟩, hkind, ?_⟩
  rw [ahead_advanceBy, hahead, hx, ← List.cons_append, List.drop_left]

theorem tokens_of_nil (h : l.ahead = []) : ∃ t, l.tokens = [t] ∧ t.kind = .endOfInput := by
  have hahead : l.begin.skipBlanks.ahead = [] := by
    rw [skipBlanks, ahead_advanceBy, ahead_begin, h, List.drop_nil]
  have hend : l.scan.1.kind = .endOfInput := by rw [scan, cut, hahead]
  exact ⟨_, tokens_of_end hend, hend⟩

theorem tokens_of_word {blanks rest : List Char} {w : String} {x : Lexeme} (h : Word w x)
    (hl : l.ahead = blanks ++ (w.toList ++ rest))
    (hblanks : ∀ b ∈ blanks, Text.isBlank b = true) (hrest : Apart rest) :
    ∃ (t : Token) (m : Lexer), l.tokens = t :: m.tokens ∧ t.Spells w ∧ m.ahead = rest := by
  obtain ⟨hspells, hkind, hahead⟩ := scan_of_word h hl hblanks hrest
  exact ⟨_, _, tokens_of_more hkind, hspells, hahead⟩

theorem apart_spaced (ws : List String) : Apart (ws.flatMap fun w => ' ' :: w.toList) := by
  cases ws with
  | nil => exact .nil
  | cons w ws =>
    rw [List.flatMap_cons, List.cons_append]
    exact fun d hd => (Option.some.inj hd).symm

theorem tokens_of_spaced {ws : List String} (h : ∀ w ∈ ws, ∃ x, Word w x)
    (hl : l.ahead = ws.flatMap fun w => ' ' :: w.toList) :
    ∃ ts t, l.tokens = ts ++ [t] ∧ List.Forall₂ Token.Spells ts ws ∧ t.kind = .endOfInput := by
  induction ws generalizing l with
  | nil =>
    obtain ⟨t, ht, hend⟩ := tokens_of_nil hl
    exact ⟨[], t, ht, .nil, hend⟩
  | cons w ws ih =>
    obtain ⟨x, hx⟩ := h w List.mem_cons_self
    have hspace : ∀ b ∈ [' '], Text.isBlank b = true :=
      List.forall_mem_singleton.2 Text.isBlank_space
    obtain ⟨t, m, htokens, hspells, hahead⟩ := tokens_of_word hx hl hspace (apart_spaced ws)
    obtain ⟨ts, e, hts, hall, hend⟩ := ih (fun v hv => h v (List.mem_cons_of_mem _ hv)) hahead
    exact ⟨t :: ts, e, by rw [htokens, hts, List.cons_append], .cons hspells hall, hend⟩

theorem toList_intercalate_cons (w : String) (ws : List String) :
    (" ".intercalate (w :: ws)).toList = w.toList ++ ws.flatMap fun w => ' ' :: w.toList := by
  induction ws generalizing w with
  | nil => simp
  | cons v vs ih =>
    have hv := ih v
    rw [String.toList_intercalate] at hv ⊢
    rw [List.map_cons, List.map_cons, List.intercalate_cons_cons, ← List.map_cons, hv]
    simp

/-- Words with a single space between any two of them are read one by one, up to the end. -/
theorem tokens_of_words {ws : List String} (h : ∀ w ∈ ws, ∃ x, Word w x)
    (hl : l.ahead = (" ".intercalate ws).toList) :
    ∃ ts t, l.tokens = ts ++ [t] ∧ List.Forall₂ Token.Spells ts ws ∧ t.kind = .endOfInput := by
  cases ws with
  | nil => exact tokens_of_spaced h hl
  | cons w ws =>
    obtain ⟨x, hx⟩ := h w List.mem_cons_self
    rw [toList_intercalate_cons, ← List.nil_append (w.toList ++ _)] at hl
    obtain ⟨t, m, htokens, hspells, hahead⟩ := tokens_of_word hx hl nofun (apart_spaced ws)
    obtain ⟨ts, e, hts, hall, hend⟩ :=
      tokens_of_spaced (fun v hv => h v (List.mem_cons_of_mem _ hv)) hahead
    exact ⟨t :: ts, e, by rw [htokens, hts, List.cons_append], .cons hspells hall, hend⟩

end Lexer

end ExprCompiler
