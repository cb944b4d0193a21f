import ExprCompiler.Proofs.Layout

/-!
# The ends of lines

A line may end with a newline alone or with a return in front of it. The
lexer goes through the two forms of a text side by side: it is at the same
line and column in both, and it is further on in the longer one by the
returns behind it.
-/

namespace ExprCompiler

def longForm (c : Char) : List Char := if c = '\n' then ['\r', '\n'] else [c]

def withReturns (s : String) : String := String.ofList (s.toList.flatMap longForm)

theorem longForm_newline : longForm '\n' = ['\r', '\n'] := rfl

theorem longForm_of_ne {c : Char} (h : c ≠ '\n') : longForm c = [c] := if_neg h

theorem flatMap_longForm {cs : List Char} (h : '\n' ∉ cs) : cs.flatMap longForm = cs := by
  induction cs with
  | nil => rfl
  | cons c cs ih =>
    rw [List.mem_cons, not_or] at h
    rw [List.flatMap_cons, longForm_of_ne (Ne.symm h.1), ih h.2, List.singleton_append]

/-! ### Blanks and lexemes -/

theorem blankPrefix_longForm (b : Bool) (cs : List Char) :
    blankPrefix b (cs.flatMap longForm) = (blankPrefix b cs).flatMap longForm := by
  induction cs generalizing b with
  | nil => cases b <;> rfl
  | cons c cs ih =>
    by_cases hc : c = '\n'
    · subst hc
      rw [List.flatMap_cons, longForm_newline]
      cases b with
      | true => simp [blankPrefix, ih, Text.isBlank_newline, longForm_newline]
      | false => simp [blankPrefix, ih, Text.isBlank_newline, Text.isBlank_return, longForm_newline]
    · rw [List.flatMap_cons, longForm_of_ne hc, List.singleton_append]
      cases b with
      | true => rw [blankPrefix, blankPrefix, ih, List.flatMap_cons, longForm_of_ne hc]; rfl
      | false =>
        rw [blankPrefix, blankPrefix, ih, ih]
        split_ifs <;> simp [longForm_of_ne hc]

section

variable {p : Char → Bool}

theorem takeWhile_longForm (hn : p '\n' = false) (hr : p '\r' = false) (cs : List Char) :
    (cs.flatMap longForm).takeWhile p = cs.takeWhile p := by
  induction cs with
  | nil => rfl
  | cons c cs ih =>
    by_cases hc : c = '\n'
    · simp [hc, longForm_newline, hn, hr]
    · rw [List.flatMap_cons, longForm_of_ne hc, List.singleton_append, List.takeWhile_cons,
        List.takeWhile_cons, ih]

theorem dropWhile_longForm (hn : p '\n' = false) (hr : p '\r' = false) (cs : List Char) :
    (cs.flatMap longForm).dropWhile p = (cs.dropWhile p).flatMap longForm := by
  induction cs with
  | nil => rfl
  | cons c cs ih =>
    by_cases hc : c = '\n'
    · simp [hc, longForm_newline, hn, hr]
    · rw [List.flatMap_cons, longForm_of_ne hc, List.singleton_append, List.dropWhile_cons,
        List.dropWhile_cons, ih]
      split
      · rfl
      · rw [List.flatMap_cons, longForm_of_ne hc, List.singleton_append]

end

theorem Numeral.ofFront_longForm (cs : List Char) :
    ofFront (cs.flatMap longForm) = ofFront cs := by
  have hn : Decimal.isDigit '\n' = false := rfl
  have hr : Decimal.isDigit '\r' = false := rfl
  rw [ofFront, ofFront, takeWhile_longForm hn hr, dropWhile_longForm hn hr]
  cases cs.dropWhile Decimal.isDigit with
  | nil => rfl
  | cons c ds =>
    by_cases hc : c = '\n'
    · subst hc
      rfl
    · rw [List.flatMap_cons, longForm_of_ne hc, List.singleton_append]
      by_cases hpoint : c = '.'
      · subst hpoint
        simp only [takeWhile_longForm hn hr]
      · simp [hpoint]

theorem Lexeme.ofFront_longForm {c : Char} (hc : c ≠ '\n') (cs : List Char) :
    ofFront c (cs.flatMap longForm) = ofFront c cs := by
  have hnumeral := Numeral.ofFront_longForm (c :: cs)
  rw [List.flatMap_cons, longForm_of_ne hc, List.singleton_append] at hnumeral
  rw [ofFront, ofFront, takeWhile_longForm rfl rfl, hnumeral]

theorem Token.Munched.no_newline {cs : List Char} {t : Token} (h : t.Munched cs) :
    '\n' ∉ t.lexeme.toList := by
  intro hmem
  cases h with
  | word h => exact absurd (h.member.all_wordChar _ hmem) (by decide)
  | number h => exact absurd (h.member.isNumeralChar _ hmem) (by decide)
  | char _ hblank _ _ _ hl =>
    rw [hl, String.toList_singleton, List.mem_singleton] at hmem
    rw [← hmem, Text.isBlank_newline] at hblank
    cases hblank
  | endOfInput _ hl =>
    rw [hl] at hmem
    cases hmem

/-! ### Two lexers side by side -/

structure Token.Shifted (cs : List Char) (t u : Token) : Prop extends t.Alike u where
  file : u.location.file = t.location.file
  line : u.location.line = t.location.line
  column : u.location.column = t.location.column
  offset : u.location.offset = t.location.offset + (cs.take t.location.offset).count '\n'

namespace Lexer

variable {cs : List Char} {l m : Lexer}

theorem advanceBy_add (j k : Nat) (l : Lexer) :
    l.advanceBy (j + k) = (l.advanceBy j).advanceBy k := by
  induction j generalizing l with
  | zero => rw [Nat.zero_add]; rfl
  | succ j ih => rw [Nat.succ_add, advanceBy, ih, advanceBy]

structure Mirrors (cs : List Char) (l m : Lexer) : Prop where
  within : l.Within cs
  ahead : m.ahead = l.ahead.flatMap longForm
  file : m.file = l.file
  line : m.cursor.line = l.cursor.line
  column : m.cursor.column = l.cursor.column
  offset : m.cursor.offset = l.cursor.offset + (cs.take l.cursor.offset).count '\n'

namespace Mirrors

theorem begin (h : Mirrors cs l m) : Mirrors cs l.begin m.begin := by
  have hfile (l : Lexer) : l.begin.file = l.file := congrArg Location.file l.location_begin
  have hline (l : Lexer) : l.begin.cursor.line = l.cursor.line :=
    congrArg Location.line l.location_begin
  have hcolumn (l : Lexer) : l.begin.cursor.column = l.cursor.column :=
    congrArg Location.column l.location_begin
  refine ⟨h.within.begin, ?_, ?_, ?_, ?_, ?_⟩
  · rw [ahead_begin, ahead_begin, h.ahead]
  · rw [hfile, hfile, h.file]
  · rw [hline, hline, h.line]
  · rw [hcolumn, hcolumn, h.column]
  · rw [offset_begin, offset_begin, h.offset]

theorem advance (h : Mirrors cs l m) {c : Char} {ds : List Char} (hl : l.ahead = c :: ds) :
    Mirrors cs l.advance (m.advanceBy (longForm c).length) := by
  have hwithin := h.within.advance
  have hoffset : l.advance.cursor.offset = l.cursor.offset + 1 := offset_advance hl
  have hcount : (cs.take l.advance.cursor.offset).count '\n' =
      (cs.take l.cursor.offset).count '\n' + [c].count '\n' := by
    have hget : cs[l.cursor.offset]? = some c := by
      rw [← List.head?_drop, ← h.within.ahead, hl, List.head?_cons]
    rw [hoffset, List.take_add_one, hget, Option.toList_some, List.count_append]
  by_cases hc : c = '\n'
  · subst hc
    have hm : m.ahead = '\r' :: '\n' :: ds.flatMap longForm := by rw [h.ahead, hl]; rfl
    have hm' : m.advance.ahead = '\n' :: ds.flatMap longForm := by rw [ahead_advance, hm]; rfl
    have htwo : m.advanceBy (longForm '\n').length = m.advance.advance := rfl
    rw [htwo]
    refine ⟨hwithin, ?_, ?_, ?_, ?_, ?_⟩
    · rw [ahead_advance, ahead_advance l, hm', hl]
      rfl
    · rw [advance_of_cons hm', advance_of_cons hm, advance_of_cons hl, h.file]
    · rw [advance_of_cons hm', advance_of_cons hm, advance_of_cons hl]
      exact congrArg (· + 1) h.line
    · rw [advance_of_cons hm', advance_of_cons hl]
      rfl
    · have hone : ['\n'].count '\n' = 1 := rfl
      rw [hcount, hoffset, hone, offset_advance hm', offset_advance hm, h.offset]
      omega
  · have hm : m.ahead = c :: ds.flatMap longForm := by
      rw [h.ahead, hl, List.flatMap_cons, longForm_of_ne hc, List.singleton_append]
    have hone : m.advanceBy (longForm c).length = m.advance := by rw [longForm_of_ne hc]; rfl
    have hpast (p : Cursor) : p.past c = ⟨p.offset + 1, p.line, p.column + 1⟩ := if_neg hc
    rw [hone]
    refine ⟨hwithin, ?_, ?_, ?_, ?_, ?_⟩
    · rw [advance_of_cons hm, advance_of_cons hl]
    · rw [advance_of_cons hm, advance_of_cons hl, h.file]
    · rw [advance_of_cons hm, advance_of_cons hl, hpast, hpast, h.line]
    · rw [advance_of_cons hm, advance_of_cons hl, hpast, hpast, h.column]
    · have hnone : [c].count '\n' = 0 := List.count_eq_zero.2 (by simpa using Ne.symm hc)
      rw [hcount, hoffset, hnone, offset_advance hm, h.offset]
      omega

theorem advanceBy (h : Mirrors cs l m) (n : Nat) :
    Mirrors cs (l.advanceBy n) (m.advanceBy ((l.ahead.take n).flatMap longForm).length) := by
  induction n generalizing l m with
  | zero => exact h
  | succ n ih =>
    cases hl : l.ahead with
    | nil =>
      have hstay : l.advance = l := by rw [Lexer.advance, hl]
      have hrest := ih h
      rw [hl, List.take_nil] at hrest
      rw [Lexer.advanceBy, hstay, List.take_nil]
      exact hrest
    | cons c ds =>
      have hnext := h.advance hl
      have hahead : l.advance.ahead = ds := by rw [ahead_advance, hl]; rfl
      have hrest := ih hnext
      rw [hahead, ← advanceBy_add] at hrest
      rw [List.take_succ_cons, List.flatMap_cons, List.length_append, Lexer.advanceBy]
      exact hrest

theorem skipBlanks (h : Mirrors cs l m) :
    Mirrors cs l.skipBlanks m.skipBlanks ∧ Opened l.skipBlanks.ahead := by
  obtain ⟨rest, hrest, -, hopened⟩ := exists_gap l.ahead
  have htake : l.ahead.take (blankPrefix false l.ahead).length = blankPrefix false l.ahead :=
    List.prefix_iff_eq_take.1 ⟨rest, hrest⟩ |>.symm
  have hskip := h.advanceBy (blankPrefix false l.ahead).length
  rw [htake, ← blankPrefix_longForm, ← h.ahead] at hskip
  refine ⟨hskip, ?_⟩
  have hahead : l.skipBlanks.ahead = rest := by
    rw [Lexer.skipBlanks, ahead_advanceBy]
    exact List.append_cancel_left ((List.prefix_iff_eq_append.1 ⟨rest, hrest⟩).trans hrest.symm)
  rwa [hahead]

theorem location (h : Mirrors cs l m) {t u : Token} (ht : t.location = l.location)
    (hu : u.location = m.location) (halike : t.Alike u) : t.Shifted cs u := by
  refine ⟨halike, ?_, ?_, ?_, ?_⟩ <;> rw [ht, hu]
  · exact h.file
  · exact h.line
  · exact h.column
  · exact h.offset

theorem cut (h : Mirrors cs l m) (hopened : Opened l.ahead) :
    l.cut.1.Shifted cs m.cut.1 ∧ Mirrors cs l.cut.2 m.cut.2 := by
  cases hl : l.ahead with
  | nil =>
    have hm : m.ahead = [] := by rw [h.ahead, hl]; rfl
    have hcut : l.cut = (⟨.endOfInput, "", .absent, l.location⟩, l) := by rw [Lexer.cut, hl]
    have hcut' : m.cut = (⟨.endOfInput, "", .absent, m.location⟩, m) := by rw [Lexer.cut, hm]
    rw [hcut, hcut']
    exact ⟨h.location rfl rfl ⟨rfl, rfl, rfl⟩, h⟩
  | cons c ds =>
    obtain ⟨hblank, hcomment⟩ := hopened c (by rw [hl]; rfl)
    have hc : c ≠ '\n' := by
      rintro rfl
      rw [Text.isBlank_newline] at hblank
      cases hblank
    have hm : m.ahead = c :: ds.flatMap longForm := by
      rw [h.ahead, hl, List.flatMap_cons, longForm_of_ne hc, List.singleton_append]
    have hmunched : ((Lexeme.ofFront c ds).token l.location).Munched (c :: ds) :=
      munched_ofFront hblank hcomment l.location
    have hfront := hmunched.front
    have hline := hmunched.no_newline
    rw [Lexeme.token, String.toList_ofList] at hfront hline
    have hnext := h.advanceBy (Lexeme.ofFront c ds).chars.length
    rw [hl, ← List.prefix_iff_eq_take.1 hfront, flatMap_longForm hline] at hnext
    have hcut : l.cut = ((Lexeme.ofFront c ds).token l.location,
        l.advanceBy (Lexeme.ofFront c ds).chars.length) := by rw [Lexer.cut, hl]
    have hcut' : m.cut = ((Lexeme.ofFront c ds).token m.location,
        m.advanceBy (Lexeme.ofFront c ds).chars.length) := by
      rw [Lexer.cut, hm]
      simp only [Lexeme.ofFront_longForm hc]
    rw [hcut, hcut']
    exact ⟨h.location rfl rfl ⟨rfl, rfl, rfl⟩, hnext⟩

theorem scan (h : Mirrors cs l m) :
    l.scan.1.Shifted cs m.scan.1 ∧ Mirrors cs l.scan.2 m.scan.2 := by
  obtain ⟨hskip, hopened⟩ := h.begin.skipBlanks
  exact hskip.cut hopened

theorem tokens (h : Mirrors cs l m) : List.Forall₂ (Token.Shifted cs) l.tokens m.tokens := by
  induction l using scan_induction generalizing m with
  | ends l hend =>
    obtain ⟨hshifted, -⟩ := h.scan
    have hend' : m.scan.1.kind = .endOfInput := hshifted.kind ▸ hend
    rw [tokens_of_end hend, tokens_of_end hend']
    exact .cons hshifted .nil
  | goesOn l hmore ih =>
    obtain ⟨hshifted, hrest⟩ := h.scan
    have hmore' : m.scan.1.kind ≠ .endOfInput := hshifted.kind ▸ hmore
    rw [tokens_of_more hmore, tokens_of_more hmore']
    exact .cons hshifted (ih hrest)

end Mirrors

theorem mirrors_withReturns (s file : String) :
    Mirrors s.toList (.ofString s file) (.ofString (withReturns s) file) := by
  have hstart (s : String) : Lexer.ofString s file = ⟨file, s.toList, .closed, .start, 0⟩ := rfl
  have hchars : (withReturns s).toList = s.toList.flatMap longForm := String.toList_ofList
  have hwithin := within_ofString s file
  rw [hstart] at hwithin ⊢
  rw [hstart, hchars]
  exact ⟨hwithin, rfl, rfl, rfl, rfl, rfl⟩

end Lexer

/-- A text with a return in front of each newline has as many tokens as the text alone. Each of
them is the same, at the same line and column, and further behind by the newlines in front of it. -/
theorem tokenize_withReturns (s file : String) :
    List.Forall₂ (Token.Shifted s.toList) (tokenize s file) (tokenize (withReturns s) file) :=
  (Lexer.mirrors_withReturns s file).tokens

end ExprCompiler
