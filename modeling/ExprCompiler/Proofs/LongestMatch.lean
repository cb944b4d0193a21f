import ExprCompiler.Proofs.Positions
import ExprCompiler.Proofs.Words

/-!
# The longest match

Identifiers and numerals are two languages of words. Where a word of one of
them stands at the front of a text, the token there is the longest such word;
elsewhere it is a single character. A text has one such token, and it is the
one that the lexer cuts off.
-/

namespace ExprCompiler

inductive Numeric : String → Prop
  | digits {n : String} (h : n.toList ≠ []) (hd : ∀ d ∈ n.toList, Decimal.isDigit d = true) :
    Numeric n
  | point {n : String} {whole fraction : List Char} (hn : n.toList = whole ++ '.' :: fraction)
    (h : whole ≠ []) (hw : ∀ d ∈ whole, Decimal.isDigit d = true)
    (hf : ∀ d ∈ fraction, Decimal.isDigit d = true) : Numeric n
  | fraction {n : String} {fraction : List Char} (hn : n.toList = '.' :: fraction)
    (h : fraction ≠ []) (hf : ∀ d ∈ fraction, Decimal.isDigit d = true) : Numeric n

/-- Of the words in `P` that stand at the front of `cs`, this is the longest. -/
structure Longest (P : String → Prop) (cs : List Char) (w : String) : Prop where
  front : w.toList <+: cs
  member : P w
  longest : ∀ v, v.toList <+: cs → P v → v.length ≤ w.length

def wordKind (w : String) : TokenKind :=
  if w = "def" then .defKeyword else if w = "extern" then .externKeyword else .identifier

inductive Token.Munched (cs : List Char) (t : Token) : Prop
  | word (h : Longest Identifier cs t.lexeme) (hk : t.kind = wordKind t.lexeme)
    (hv : t.value = if t.kind = .identifier then .name t.lexeme else .absent)
  | number {d : Decimal} (h : Longest Numeric cs t.lexeme) (hk : t.kind = .number)
    (hd : Decimal.ofString? t.lexeme = some d) (hv : t.value = .number d.toBinary64)
  | char {c : Char} {rest : List Char} (h : cs = c :: rest) (hblank : Text.isBlank c = false)
    (hcomment : c ≠ '#') (hword : ∀ v, v.toList <+: cs → ¬ Identifier v)
    (hnumber : ∀ v, v.toList <+: cs → ¬ Numeric v) (hl : t.lexeme = String.singleton c)
    (hk : t.kind = .char) (hv : t.value = .absent)
  | endOfInput (h : cs = []) (hl : t.lexeme = "") (hk : t.kind = .endOfInput)
    (hv : t.value = .absent)

theorem Longest.unique {P : String → Prop} {cs : List Char} {v w : String} (hv : Longest P cs v)
    (hw : Longest P cs w) : v = w := by
  have hle := hw.longest v hv.front hv.member
  have hge := hv.longest w hw.front hw.member
  rw [← String.length_toList, ← String.length_toList] at hle hge
  have hfront := List.prefix_of_prefix_length_le hv.front hw.front hle
  exact String.toList_inj.1 (hfront.eq_of_length_le hge)

section

variable {p : Char → Bool} {as cs : List Char}

theorem length_le_takeWhile (h : as <+: cs) (has : ∀ a ∈ as, p a = true) :
    as.length ≤ (cs.takeWhile p).length := by
  obtain ⟨rest, rfl⟩ := h
  rw [List.takeWhile_append_of_pos has, List.length_append]
  exact Nat.le_add_right _ _

end

/-! ### Words -/

theorem Identifier.of_front {v : String} {c : Char} {cs : List Char} (h : Identifier v)
    (hv : v.toList <+: c :: cs) :
    isLetter c = true ∧ v.length ≤ (c :: cs.takeWhile isWordChar).length := by
  obtain ⟨d, ds, hd, hletter, hds⟩ := h
  rw [hd, List.cons_prefix_cons] at hv
  obtain ⟨rfl, hfront⟩ := hv
  rw [← String.length_toList, hd]
  exact ⟨hletter, Nat.succ_le_succ (length_le_takeWhile hfront hds)⟩

theorem longest_word {c : Char} (hc : isLetter c = true) (cs : List Char) :
    Longest Identifier (c :: cs) (String.ofList (c :: cs.takeWhile isWordChar)) := by
  refine ⟨?_, ⟨c, _, String.toList_ofList, hc, fun d hd => List.mem_takeWhile_imp hd⟩, ?_⟩
  · rw [String.toList_ofList]
    exact List.cons_prefix_cons.2 ⟨rfl, List.takeWhile_prefix _⟩
  · intro v hv hid
    rw [String.length_ofList]
    exact (hid.of_front hv).2

theorem lookup_keywords (w : String) :
    keywords.lookup w = if wordKind w = .identifier then none else some (wordKind w) := by
  unfold wordKind keywords
  by_cases hdef : w = "def"
  · subst hdef
    rfl
  by_cases hextern : w = "extern"
  · subst hextern
    rfl
  · rw [if_neg hdef, if_neg hextern, if_pos rfl, List.lookup_cons, List.lookup_cons,
      beq_eq_false_iff_ne.2 hdef, beq_eq_false_iff_ne.2 hextern]
    rfl

theorem munched_word {c : Char} (hc : isLetter c = true) (cs : List Char) (l : Location) :
    ((Lexeme.ofFront c cs).token l).Munched (c :: cs) := by
  have hlongest := longest_word hc cs
  generalize hw : c :: cs.takeWhile isWordChar = w at hlongest
  have hfront : Lexeme.ofFront c cs = Lexeme.ofWord w := by rw [Lexeme.ofFront, if_pos hc, hw]
  have hlexeme : (Lexeme.ofWord w).chars = w := Lexeme.chars_ofWord w
  rw [hfront]
  refine .word (by rwa [Lexeme.token, hlexeme]) ?_ ?_
  · by_cases hk : wordKind (String.ofList w) = .identifier <;>
      simp [Lexeme.token, Lexeme.ofWord, lookup_keywords, hk]
  · by_cases hk : wordKind (String.ofList w) = .identifier <;>
      simp [Lexeme.token, Lexeme.ofWord, lookup_keywords, hk]

/-! ### Numerals -/

theorem stops_point (rest : List Char) : Stops Decimal.isDigit ('.' :: rest) :=
  stops_cons (by decide) rest

theorem Numeral.ofFront_cases (cs : List Char) :
    (∃ whole rest, cs = whole ++ '.' :: rest ∧ (∀ d ∈ whole, Decimal.isDigit d = true) ∧
      ofFront cs = ⟨whole, true, rest.takeWhile Decimal.isDigit⟩) ∨
    ((∀ rest, cs.dropWhile Decimal.isDigit ≠ '.' :: rest) ∧
      ofFront cs = ⟨cs.takeWhile Decimal.isDigit, false, []⟩) := by
  have hsplit := List.takeWhile_append_dropWhile (p := Decimal.isDigit) (l := cs)
  unfold Numeral.ofFront
  split
  · rename_i rest hrest
    rw [hrest] at hsplit
    exact .inl ⟨_, rest, hsplit.symm, fun d hd => List.mem_takeWhile_imp hd, rfl⟩
  · rename_i hrest
    exact .inr ⟨hrest, rfl⟩

theorem Numeral.chars_prefix (cs : List Char) : (ofFront cs).chars <+: cs := by
  obtain ⟨whole, rest, hcs, -, hfront⟩ | ⟨-, hfront⟩ := ofFront_cases cs
  · rw [hfront, chars, if_pos rfl, List.append_assoc, hcs]
    exact (List.prefix_append_right_inj _).2
      (List.cons_prefix_cons.2 ⟨rfl, List.takeWhile_prefix _⟩)
  · rw [hfront, chars, List.append_nil]
    simpa using List.takeWhile_prefix (l := cs) Decimal.isDigit

theorem Numeric.length_le {v : String} {cs : List Char} (h : Numeric v) (hv : v.toList <+: cs) :
    v.length ≤ (Numeral.ofFront cs).chars.length := by
  rw [← String.length_toList]
  have hpoint {whole fraction : List Char} (hn : v.toList = whole ++ '.' :: fraction)
      (hw : ∀ d ∈ whole, Decimal.isDigit d = true)
      (hf : ∀ d ∈ fraction, Decimal.isDigit d = true) :
      v.toList.length ≤ (Numeral.ofFront cs).chars.length := by
    rw [hn] at hv ⊢
    obtain ⟨rest, rfl⟩ := hv
    have hle := length_le_takeWhile (List.prefix_append fraction rest) hf
    rw [Numeral.ofFront, List.append_assoc, List.cons_append,
      (stops_point _).takeWhile_append hw, (stops_point _).dropWhile_append hw]
    simp only [Numeral.chars, if_true, List.length_append, List.length_cons, List.length_nil]
    omega
  cases h with
  | digits h hd =>
    refine Nat.le_trans (length_le_takeWhile hv hd) ?_
    obtain ⟨whole, rest, hcs, hw, hfront⟩ | ⟨-, hfront⟩ := Numeral.ofFront_cases cs
    · rw [hfront, hcs, (stops_point _).takeWhile_append hw, Numeral.chars, List.append_assoc,
        List.length_append]
      exact Nat.le_add_right _ _
    · rw [hfront, Numeral.chars, List.append_assoc, List.length_append]
      exact Nat.le_add_right _ _
  | point hn h hw hf => exact hpoint hn hw hf
  | fraction hn h hf => exact hpoint (hn.trans (List.nil_append _).symm) (List.forall_mem_nil _) hf

theorem numeric_chars {cs : List Char} (h : (Numeral.ofFront cs).chars ≠ [])
    (h' : (Numeral.ofFront cs).chars ≠ ['.']) :
    Numeric (String.ofList (Numeral.ofFront cs).chars) := by
  obtain ⟨whole, rest, -, hw, hfront⟩ | ⟨-, hfront⟩ := Numeral.ofFront_cases cs
  · have hf (d : Char) (hd : d ∈ rest.takeWhile Decimal.isDigit) : Decimal.isDigit d = true :=
      List.mem_takeWhile_imp hd
    rw [hfront, Numeral.chars, if_pos rfl, List.append_assoc, List.singleton_append] at h h' ⊢
    cases whole with
    | nil => exact .fraction String.toList_ofList (fun hnil => h' (by rw [hnil]; rfl)) hf
    | cons c whole => exact .point String.toList_ofList (List.cons_ne_nil _ _) hw hf
  · rw [hfront, Numeral.chars, List.append_nil] at h ⊢
    simp only [Bool.false_eq_true, if_false, List.append_nil] at h ⊢
    refine .digits (by rwa [String.toList_ofList]) fun d hd => ?_
    rw [String.toList_ofList] at hd
    exact List.mem_takeWhile_imp hd

theorem longest_numeral {cs : List Char} (h : (Numeral.ofFront cs).chars ≠ [])
    (h' : (Numeral.ofFront cs).chars ≠ ['.']) :
    Longest Numeric cs (String.ofList (Numeral.ofFront cs).chars) := by
  refine ⟨?_, numeric_chars h h', fun v hv hn => ?_⟩
  · rw [String.toList_ofList]
    exact Numeral.chars_prefix cs
  · rw [String.length_ofList]
    exact hn.length_le hv

theorem Numeric.exists_digit {n : String} (h : Numeric n) :
    ∃ d ∈ n.toList, Decimal.isDigit d = true := by
  cases h with
  | digits h hd =>
    obtain ⟨d, ds, hn⟩ := List.exists_cons_of_ne_nil h
    have hmem : d ∈ n.toList := hn ▸ List.mem_cons_self
    exact ⟨d, hmem, hd d hmem⟩
  | point hn h hw hf =>
    obtain ⟨d, ds, rfl⟩ := List.exists_cons_of_ne_nil h
    exact ⟨d, hn ▸ List.mem_cons_self, hw d List.mem_cons_self⟩
  | fraction hn h hf =>
    obtain ⟨d, ds, rfl⟩ := List.exists_cons_of_ne_nil h
    exact ⟨d, by simp [hn], hf d List.mem_cons_self⟩

theorem not_numeric_of_point {cs : List Char} (h : (Numeral.ofFront cs).chars = ['.']) (v : String)
    (hv : v.toList <+: cs) : ¬ Numeric v := by
  intro hn
  have hle := hn.length_le hv
  rw [h, ← String.length_toList] at hle
  have hpoint : ['.'] <+: cs := h ▸ Numeral.chars_prefix cs
  obtain ⟨d, hd, hdigit⟩ := hn.exists_digit
  obtain rfl := List.mem_singleton.1 ((List.prefix_of_prefix_length_le hv hpoint hle).mem hd)
  exact absurd hdigit (by decide)

section

variable {whole fraction : List Char}

theorem takeWhile_digits (h : ∀ d ∈ whole, Decimal.isDigit d = true) :
    whole.takeWhile Decimal.isDigit = whole ∧ whole.dropWhile Decimal.isDigit = [] :=
  ⟨List.takeWhile_eq_self_iff.2 h, List.dropWhile_eq_nil_iff.2 h⟩

theorem Decimal.ofString?_digits (hw : ∀ d ∈ whole, isDigit d = true) (h : whole ≠ []) :
    ofString? (String.ofList whole) = some (ofParts whole []) := by
  obtain ⟨htake, hdrop⟩ := takeWhile_digits hw
  simp only [ofString?, String.toList_ofList, htake, hdrop, List.append_nil, if_neg h]

theorem Decimal.ofString?_point (hw : ∀ d ∈ whole, isDigit d = true)
    (hf : ∀ d ∈ fraction, isDigit d = true) (h : whole ++ fraction ≠ []) :
    ofString? (String.ofList (whole ++ '.' :: fraction)) = some (ofParts whole fraction) := by
  obtain ⟨htake, hdrop⟩ := takeWhile_digits hf
  simp only [ofString?, String.toList_ofList, (stops_point _).takeWhile_append hw,
    (stops_point _).dropWhile_append hw, htake, hdrop, if_neg h]

end

theorem ofString?_chars {cs : List Char} (h : Numeric (String.ofList (Numeral.ofFront cs).chars)) :
    Decimal.ofString? (String.ofList (Numeral.ofFront cs).chars) =
      some (.ofParts (Numeral.ofFront cs).whole (Numeral.ofFront cs).fraction) := by
  obtain ⟨d, hd, hdigit⟩ := h.exists_digit
  rw [String.toList_ofList] at hd
  obtain ⟨whole, rest, -, hw, hfront⟩ | ⟨-, hfront⟩ := Numeral.ofFront_cases cs
  · rw [hfront, Numeral.chars, if_pos rfl, List.append_assoc, List.singleton_append] at hd ⊢
    refine Decimal.ofString?_point hw (fun d hd => List.mem_takeWhile_imp hd) fun hnil => ?_
    simp only [List.append_eq_nil_iff] at hnil
    simp only [hnil, List.nil_append, List.mem_singleton] at hd
    rw [hd] at hdigit
    exact absurd hdigit (by decide)
  · simp only [hfront, Numeral.chars, Bool.false_eq_true, if_false, List.append_nil] at hd ⊢
    exact Decimal.ofString?_digits (fun d hd => List.mem_takeWhile_imp hd) (List.ne_nil_of_mem hd)

theorem munched_number {c : Char} {cs : List Char} (hc : isLetter c = false)
    (hd : (Decimal.isDigit c || c == '.') = true) (l : Location)
    (hpoint : (Numeral.ofFront (c :: cs)).chars ≠ ['.']) :
    ((Lexeme.ofFront c cs).token l).Munched (c :: cs) := by
  have hlongest := longest_numeral (Numeral.chars_ofFront_ne_nil cs hd) hpoint
  have hvalue := ofString?_chars hlongest.member
  rw [Lexeme.ofFront, hc, if_neg Bool.false_ne_true, if_pos hd, Lexeme.ofNumeral, if_neg hpoint]
  exact .number hlongest rfl hvalue rfl

/-! ### The token at the front -/

theorem munched_char {c : Char} {cs : List Char} (hblank : Text.isBlank c = false)
    (hcomment : c ≠ '#') (hc : isLetter c = false)
    (hnumber : ∀ v, v.toList <+: c :: cs → ¬ Numeric v) (l : Location) :
    (Lexeme.token ⟨.char, [c], .absent⟩ l).Munched (c :: cs) := by
  refine .char rfl hblank hcomment (fun v hv hid => ?_) hnumber rfl rfl rfl
  rw [(hid.of_front hv).1] at hc
  cases hc

theorem Numeric.front {v : String} {c : Char} {cs : List Char} (h : Numeric v)
    (hv : v.toList <+: c :: cs) : (Decimal.isDigit c || c == '.') = true := by
  cases h with
  | digits h hd =>
    obtain ⟨d, ds, hn⟩ := List.exists_cons_of_ne_nil h
    rw [hn, List.cons_prefix_cons] at hv
    obtain ⟨rfl, -⟩ := hv
    rw [hd d (hn ▸ List.mem_cons_self), Bool.true_or]
  | point hn h hw hf =>
    obtain ⟨d, ds, rfl⟩ := List.exists_cons_of_ne_nil h
    rw [hn, List.cons_append, List.cons_prefix_cons] at hv
    obtain ⟨rfl, -⟩ := hv
    rw [hw d List.mem_cons_self, Bool.true_or]
  | fraction hn h hf =>
    rw [hn, List.cons_prefix_cons] at hv
    obtain ⟨rfl, -⟩ := hv
    rfl

/-- What the lexer cuts off a text that starts with neither a blank nor a comment is the
longest match there. -/
theorem munched_ofFront {c : Char} {cs : List Char} (hblank : Text.isBlank c = false)
    (hcomment : c ≠ '#') (l : Location) : ((Lexeme.ofFront c cs).token l).Munched (c :: cs) := by
  by_cases hc : isLetter c = true
  · exact munched_word hc cs l
  rw [Bool.not_eq_true] at hc
  by_cases hd : (Decimal.isDigit c || c == '.') = true
  · by_cases hpoint : (Numeral.ofFront (c :: cs)).chars = ['.']
    · have hfront := (Numeral.chars_prefix (c :: cs))
      rw [hpoint, List.cons_prefix_cons] at hfront
      rw [Lexeme.ofFront, hc, if_neg Bool.false_ne_true, if_pos hd, Lexeme.ofNumeral, if_pos hpoint,
        hfront.1]
      exact munched_char hblank hcomment hc (not_numeric_of_point hpoint) l
    · exact munched_number hc hd l hpoint
  · rw [Lexeme.ofFront, hc, if_neg Bool.false_ne_true, if_neg hd]
    exact munched_char hblank hcomment hc (fun v hv hn => hd (hn.front hv)) l

theorem eq_empty_of_front {w : String} (h : w.toList <+: []) : w = "" :=
  String.toList_inj.1 (List.prefix_nil.1 h)

theorem Numeric.ne_empty {n : String} (h : Numeric n) : n ≠ "" := by
  rintro rfl
  obtain ⟨d, hd, -⟩ := h.exists_digit
  cases hd

theorem Identifier.not_numeric {v w : String} {cs : List Char} (hv : Identifier v)
    (hvs : v.toList <+: cs) (hws : w.toList <+: cs) : ¬ Numeric w := by
  intro hw
  cases cs with
  | nil => exact hv.ne_empty (eq_empty_of_front hvs)
  | cons c cs =>
    have hletter := isLetter_iff.1 (hv.of_front hvs).1
    have hfront := hw.front hws
    rw [Bool.or_eq_true, isDigit_iff, beq_iff_eq] at hfront
    obtain hdigit | rfl := hfront
    · omega
    · exact absurd hletter (by decide)

theorem Token.Munched.alike {cs : List Char} {t u : Token} (ht : t.Munched cs) (hu : u.Munched cs) :
    t.Alike u := by
  cases ht with
  | word h hk hv =>
    cases hu with
    | word h' hk' hv' =>
      have hl := h.unique h'
      have hkind : t.kind = u.kind := by rw [hk, hk', hl]
      exact ⟨hkind, hl, by rw [hv, hv', hkind, hl]⟩
    | number h' => exact absurd h'.member (h.member.not_numeric h.front h'.front)
    | char _ _ _ hword => exact absurd h.member (hword _ h.front)
    | endOfInput hcs => exact absurd (eq_empty_of_front (hcs ▸ h.front)) h.member.ne_empty
  | number h hk hd hv =>
    cases hu with
    | word h' => exact absurd h.member (h'.member.not_numeric h'.front h.front)
    | number h' hk' hd' hv' =>
      have hl := h.unique h'
      obtain rfl := Option.some.inj (hd.symm.trans (hl ▸ hd'))
      exact ⟨hk.trans hk'.symm, hl, hv.trans hv'.symm⟩
    | char _ _ _ _ hnumber => exact absurd h.member (hnumber _ h.front)
    | endOfInput hcs => exact absurd (eq_empty_of_front (hcs ▸ h.front)) h.member.ne_empty
  | char hcs _ _ hword hnumber hl hk hv =>
    cases hu with
    | word h' => exact absurd h'.member (hword _ h'.front)
    | number h' => exact absurd h'.member (hnumber _ h'.front)
    | char hcs' _ _ _ _ hl' hk' hv' =>
      obtain ⟨rfl, -⟩ := List.cons.inj (hcs.symm.trans hcs')
      exact ⟨hk.trans hk'.symm, hl.trans hl'.symm, hv.trans hv'.symm⟩
    | endOfInput hcs' => exact absurd (hcs.symm.trans hcs') (List.cons_ne_nil _ _)
  | endOfInput hcs hl hk hv =>
    cases hu with
    | word h' => exact absurd (eq_empty_of_front (hcs ▸ h'.front)) h'.member.ne_empty
    | number h' => exact absurd (eq_empty_of_front (hcs ▸ h'.front)) h'.member.ne_empty
    | char hcs' => exact absurd (hcs'.symm.trans hcs) (List.cons_ne_nil _ _)
    | endOfInput _ hl' hk' hv' => exact ⟨hk.trans hk'.symm, hl.trans hl'.symm, hv.trans hv'.symm⟩

theorem Token.Munched.front {cs : List Char} {t : Token} (h : t.Munched cs) :
    t.lexeme.toList <+: cs := by
  cases h with
  | word h => exact h.front
  | number h => exact h.front
  | char h _ _ _ _ hl => simp [hl, h]
  | endOfInput _ hl => simp [hl]

end ExprCompiler
