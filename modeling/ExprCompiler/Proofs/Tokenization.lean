import ExprCompiler.Proofs.LongestMatch

/-!
# The tokens of a text

A text is divided into tokens in one way: each token is the longest match
where it stands, and between the tokens there are only blanks and comments.
The line and the column of a token follow from its offset. The lexer gives
this division of the text.
-/

namespace ExprCompiler

/-- Blanks and comments in front of `rest`. A comment goes on to the next end of a line, or to
the end of the text. -/
inductive Gap (rest : List Char) : List Char → Prop
  | nil : Gap rest []
  | blank {c : Char} {gap : List Char} (h : Text.isBlank c = true) (hg : Gap rest gap) :
    Gap rest (c :: gap)
  | comment {body gap : List Char} (h : ∀ c ∈ body, c ≠ '\n' ∧ c ≠ '\r')
    (hend : ∀ c ∈ (gap ++ rest).head?, c = '\n' ∨ c = '\r') (hg : Gap rest gap) :
    Gap rest ('#' :: (body ++ gap))

def place (file : String) (cs : List Char) (n : Nat) : Location :=
  ⟨file, 1 + (cs.take n).count '\n', 1 + ((cs.take n).reverse.takeWhile (· ≠ '\n')).length, n⟩

def stretch (cs : List Char) (start stop : Nat) : List Char := (cs.take stop).drop start

def Token.stop (t : Token) : Nat := t.location.offset + t.lexeme.length

/-- These are the tokens of the text from the offset `start` on. -/
structure Tokenization (file : String) (cs : List Char) (start : Nat) (ts : List Token) : Prop where
  increasing : ts.Pairwise fun t u => t.location.offset < u.location.offset
  ending : ∃ before e, ts = before ++ [e] ∧ (∀ t ∈ before, t.kind ≠ .endOfInput) ∧
    e.kind = .endOfInput ∧ e.location.offset = cs.length
  lexeme : ∀ t ∈ ts, t.lexeme.toList = stretch cs t.location.offset t.stop
  leading : ∀ t ∈ ts.head?, start ≤ t.location.offset ∧
    Gap (cs.drop t.location.offset) (stretch cs start t.location.offset)
  between : ts.IsChain fun t u => t.stop ≤ u.location.offset ∧
    Gap (cs.drop u.location.offset) (stretch cs t.stop u.location.offset)
  munched : ∀ t ∈ ts, t.Munched (cs.drop t.location.offset)
  located : ∀ t ∈ ts, t.location = place file cs t.location.offset

/-! ### Gaps -/

def inLine (c : Char) : Bool := c != '\n' && c != '\r'

theorem inLine_iff {c : Char} : inLine c = true ↔ c ≠ '\n' ∧ c ≠ '\r' := by simp [inLine]

theorem inLine_eq_false {c : Char} : inLine c = false ↔ c = '\n' ∨ c = '\r' := by
  rw [← Bool.not_eq_true, inLine_iff, not_and_or, not_not, not_not]

theorem blankPrefix_comment (cs : List Char) :
    blankPrefix true cs = cs.takeWhile inLine ++ blankPrefix false (cs.dropWhile inLine) := by
  induction cs with
  | nil => rfl
  | cons c cs ih =>
    cases hc : inLine c with
    | true =>
      have hflag : (c != '\n' && c != '\r') = true := hc
      rw [List.takeWhile_cons_of_pos hc, List.dropWhile_cons_of_pos hc, blankPrefix, hflag, ih,
        List.cons_append]
    | false =>
      have hflag : (c != '\n' && c != '\r') = false := hc
      have hblank : Text.isBlank c = true := by
        obtain rfl | rfl := inLine_eq_false.1 hc
        · exact Text.isBlank_newline
        · exact Text.isBlank_return
      rw [List.takeWhile_cons_of_neg (by simp [hc]), List.dropWhile_cons_of_neg (by simp [hc]),
        blankPrefix, hflag, List.nil_append, blankPrefix, if_pos hblank]

theorem head?_dropWhile_inLine (cs : List Char) :
    ∀ c ∈ (cs.dropWhile inLine).head?, c = '\n' ∨ c = '\r' := by
  intro c hc
  have hstop := List.head?_dropWhile_not inLine cs
  rw [Option.mem_def.1 hc] at hstop
  exact inLine_eq_false.1 hstop

def Opened (cs : List Char) : Prop := ∀ c ∈ cs.head?, Text.isBlank c = false ∧ c ≠ '#'

theorem exists_gap (cs : List Char) :
    ∃ rest, blankPrefix false cs ++ rest = cs ∧ Gap rest (blankPrefix false cs) ∧ Opened rest := by
  induction h : cs.length using Nat.strong_induction_on generalizing cs with
  | _ n ih =>
    subst h
    cases cs with
    | nil => exact ⟨[], rfl, .nil, nofun⟩
    | cons c cs =>
      by_cases hblank : Text.isBlank c = true
      · obtain ⟨rest, hrest, hgap, hopened⟩ := ih _ (Nat.lt_succ_self _) cs rfl
        rw [blankPrefix, if_pos hblank]
        exact ⟨rest, congrArg (c :: ·) hrest, .blank hblank hgap, hopened⟩
      by_cases hcomment : c = '#'
      · subst hcomment
        have hlt : (cs.dropWhile inLine).length < ('#' :: cs).length :=
          Nat.lt_succ_of_le (List.length_dropWhile_le _ _)
        obtain ⟨rest, hrest, hgap, hopened⟩ := ih _ hlt (cs.dropWhile inLine) rfl
        have hbody (c : Char) (hc : c ∈ cs.takeWhile inLine) : c ≠ '\n' ∧ c ≠ '\r' :=
          inLine_iff.1 (List.mem_takeWhile_imp hc)
        rw [blankPrefix, if_neg hblank, if_pos rfl, blankPrefix_comment]
        refine ⟨rest, ?_, .comment hbody (hrest.symm ▸ head?_dropWhile_inLine cs) hgap, hopened⟩
        rw [List.cons_append, List.append_assoc, hrest, List.takeWhile_append_dropWhile]
      · rw [blankPrefix, if_neg hblank, if_neg hcomment]
        exact ⟨c :: cs, rfl, .nil, fun d hd =>
          Option.some.inj hd ▸ ⟨Bool.eq_false_iff.2 hblank, hcomment⟩⟩

theorem Gap.blankPrefix_eq {rest gap : List Char} (h : Gap rest gap) (hrest : Opened rest) :
    blankPrefix false (gap ++ rest) = gap := by
  induction h with
  | nil =>
    cases rest with
    | nil => rfl
    | cons c cs =>
      obtain ⟨hblank, hcomment⟩ := hrest c rfl
      rw [List.nil_append, blankPrefix, if_neg (by simp [hblank]), if_neg hcomment]
  | blank h _ ih => rw [List.cons_append, blankPrefix, if_pos h, ih]
  | @comment body gap h hend _ ih =>
    have hbody (c : Char) (hc : c ∈ body) : inLine c = true := inLine_iff.2 (h c hc)
    have hstop : (gap ++ rest).takeWhile inLine = [] ∧
        (gap ++ rest).dropWhile inLine = gap ++ rest := by
      cases hgap : gap ++ rest with
      | nil => exact ⟨rfl, rfl⟩
      | cons c cs =>
        have hc : inLine c = false := inLine_eq_false.2 (hend c (by rw [hgap]; rfl))
        exact ⟨List.takeWhile_cons_of_neg (by simp [hc]), List.dropWhile_cons_of_neg (by simp [hc])⟩
    have hsign : ¬ Text.isBlank '#' = true := by decide
    rw [List.cons_append, blankPrefix, if_neg hsign, if_pos rfl, blankPrefix_comment,
      List.append_assoc, List.takeWhile_append_of_pos hbody, List.dropWhile_append_of_pos hbody,
      hstop.1, hstop.2, ih, List.append_nil]

theorem Gap.unique {rest rest' gap gap' : List Char} (h : Gap rest gap) (h' : Gap rest' gap')
    (hrest : Opened rest) (hrest' : Opened rest') (heq : gap ++ rest = gap' ++ rest') :
    gap = gap' := by
  rw [← h.blankPrefix_eq hrest, heq, h'.blankPrefix_eq hrest']

theorem Token.Munched.opened {cs : List Char} {t : Token} (h : t.Munched cs) : Opened cs := by
  intro c hc
  obtain ⟨cs, rfl⟩ : ∃ ds, cs = c :: ds := ⟨_, (List.cons_head?_tail hc).symm⟩
  have hrange (h : 33 ≤ c.toNat ∧ c.toNat ≤ 126) (hne : c ≠ '#') :
      Text.isBlank c = false ∧ c ≠ '#' := ⟨isBlank_eq_false h.1 h.2, hne⟩
  cases h with
  | word h =>
    have hletter := isLetter_iff.1 (h.member.of_front h.front).1
    refine hrange (by omega) ?_
    rintro rfl
    exact absurd hletter (by decide)
  | number h =>
    have hfront := h.member.front h.front
    rw [Bool.or_eq_true, isDigit_iff, beq_iff_eq] at hfront
    obtain hdigit | rfl := hfront
    · refine hrange (by omega) ?_
      rintro rfl
      exact absurd hdigit (by decide)
    · exact ⟨by decide, by decide⟩
  | char h hblank hcomment =>
    obtain ⟨rfl, -⟩ := List.cons.inj h
    exact ⟨hblank, hcomment⟩
  | endOfInput h => exact absurd h (List.cons_ne_nil _ _)

/-! ### Places -/

theorem stretch_of_drop {cs as bs : List Char} {start : Nat} (h : cs.drop start = as ++ bs) :
    stretch cs start (start + as.length) = as := by
  rw [stretch, List.drop_take, Nat.add_sub_cancel_left, h, List.take_left]

theorem stretch_append_drop {cs : List Char} {start stop : Nat} (h : start ≤ stop) :
    stretch cs start stop ++ cs.drop stop = cs.drop start := by
  have hdrop : cs.drop stop = (cs.drop start).drop (stop - start) := by
    rw [List.drop_drop, Nat.add_sub_cancel' h]
  rw [stretch, List.drop_take, hdrop, List.take_append_drop]

theorem length_stretch {cs : List Char} {start stop : Nat} (h : stop ≤ cs.length) :
    (stretch cs start stop).length = stop - start := by
  rw [stretch, List.length_drop, List.length_take, Nat.min_eq_left h]

theorem place_succ {file : String} {cs ds : List Char} {c : Char} {n : Nat}
    (h : cs.drop n = c :: ds) :
    place file cs (n + 1) =
      if c = '\n' then ⟨file, (place file cs n).line + 1, 1, n + 1⟩
      else ⟨file, (place file cs n).line, (place file cs n).column + 1, n + 1⟩ := by
  have hget : cs[n]? = some c := by rw [← List.head?_drop, h, List.head?_cons]
  have htake : cs.take (n + 1) = cs.take n ++ [c] := by
    rw [List.take_add_one, hget, Option.toList_some]
  rw [place, htake, List.count_append, List.reverse_append, List.reverse_singleton]
  by_cases hc : c = '\n'
  · simp [hc, place, Nat.add_assoc]
  · simp [hc, place, Nat.add_assoc]

namespace Lexer

variable {file : String} {cs : List Char} {l : Lexer}

structure Placed (file : String) (cs : List Char) (l : Lexer) : Prop extends Within cs l where
  inside : l.cursor.offset ≤ cs.length
  location : l.location = place file cs l.cursor.offset

theorem placed_ofString (s file : String) : Placed file s.toList (.ofString s file) :=
  ⟨within_ofString s file, Nat.zero_le _, rfl⟩

theorem Placed.begin (h : Placed file cs l) : Placed file cs l.begin := by
  refine ⟨h.toWithin.begin, l.offset_begin ▸ h.inside, ?_⟩
  rw [location_begin, h.location, offset_begin]

theorem Placed.advance (h : Placed file cs l) : Placed file cs l.advance := by
  cases hl : l.ahead with
  | nil => rwa [advance_of_nil hl]
  | cons c ds =>
    have hdrop : cs.drop l.cursor.offset = c :: ds := h.ahead.symm.trans hl
    have hoffset := offset_advance hl
    have hlength := congrArg List.length hdrop
    rw [List.length_drop, List.length_cons] at hlength
    refine ⟨h.toWithin.advance, by omega, ?_⟩
    rw [hoffset, place_succ hdrop, ← h.location, advance_of_cons hl]
    have hfile : l.file = file := congrArg Location.file h.location
    by_cases hc : c = '\n' <;> simp [Lexer.location, Cursor.past, hc, hfile]

theorem Placed.advanceBy (h : Placed file cs l) (n : Nat) : Placed file cs (l.advanceBy n) := by
  induction n generalizing l with
  | zero => exact h
  | succ n ih => exact ih h.advance

theorem offset_advanceBy {n : Nat} (h : n ≤ l.ahead.length) :
    (l.advanceBy n).cursor.offset = l.cursor.offset + n := by
  induction n generalizing l with
  | zero => rfl
  | succ n ih =>
    obtain ⟨c, ds, hl⟩ := List.exists_cons_of_length_pos (Nat.lt_of_lt_of_le n.succ_pos h)
    have hlength : n ≤ l.advance.ahead.length := by
      rw [ahead_advance, List.length_drop]
      omega
    rw [Lexer.advanceBy, ih hlength, offset_advance hl]
    omega

theorem Placed.skip (h : Placed file cs l) :
    Placed file cs l.begin.skipBlanks ∧
      l.cursor.offset ≤ l.begin.skipBlanks.cursor.offset ∧
      Gap l.begin.skipBlanks.ahead (stretch cs l.cursor.offset l.begin.skipBlanks.cursor.offset) ∧
      Opened l.begin.skipBlanks.ahead := by
  obtain ⟨rest, hrest, hgap, hopened⟩ := exists_gap l.ahead
  have hdrop : cs.drop l.cursor.offset = blankPrefix false l.ahead ++ rest := by
    rw [← h.ahead, hrest]
  have hahead : l.begin.skipBlanks.ahead = rest := by
    have hfront : l.begin.skipBlanks.ahead = l.front := rfl
    rw [hfront, front_eq]
    exact List.append_cancel_left ((List.prefix_iff_eq_append.1 ⟨rest, hrest⟩).trans hrest.symm)
  have hoffset : l.begin.skipBlanks.cursor.offset =
      l.cursor.offset + (blankPrefix false l.ahead).length := by
    have hlength := congrArg List.length hrest
    rw [List.length_append] at hlength
    rw [skipBlanks, ahead_begin, offset_advanceBy (by rw [ahead_begin]; omega), offset_begin]
  rw [hahead, hoffset, stretch_of_drop hdrop]
  exact ⟨h.begin.advanceBy _, Nat.le_add_right _ _, hgap, hopened⟩

theorem Placed.cut (h : Placed file cs l) (hopened : Opened l.ahead) :
    l.cut.1.location = l.location ∧ l.cut.1.Munched l.ahead ∧ Placed file cs l.cut.2 ∧
      l.cut.2.cursor.offset = l.cut.1.stop := by
  unfold Lexer.cut
  cases hl : l.ahead with
  | nil => exact ⟨rfl, .endOfInput rfl rfl rfl rfl, h, rfl⟩
  | cons c ds =>
    obtain ⟨hblank, hcomment⟩ := hopened c (by rw [hl]; rfl)
    have hmunched : ((Lexeme.ofFront c ds).token l.location).Munched (c :: ds) :=
      munched_ofFront hblank hcomment l.location
    have hle := hmunched.front.length_le
    rw [Lexeme.token, String.toList_ofList, ← hl] at hle
    refine ⟨rfl, hmunched, h.advanceBy _, ?_⟩
    rw [offset_advanceBy hle]
    simp only [Token.stop, Lexeme.token, String.length_ofList, Lexer.location]

structure Next (file : String) (cs : List Char) (start : Nat) (t : Token) : Prop where
  behind : start ≤ t.location.offset
  inside : t.location.offset ≤ cs.length
  gap : Gap (cs.drop t.location.offset) (stretch cs start t.location.offset)
  munched : t.Munched (cs.drop t.location.offset)
  located : t.location = place file cs t.location.offset

/-- A scan gives the next token and leaves the lexer behind it. -/
theorem Placed.scan (h : Placed file cs l) :
    Next file cs l.cursor.offset l.scan.1 ∧ Placed file cs l.scan.2 ∧
      l.scan.2.cursor.offset = l.scan.1.stop := by
  obtain ⟨hskip, hbehind, hgap, hopened⟩ := h.skip
  obtain ⟨hlocation, hmunched, hplaced, hstop⟩ := hskip.cut hopened
  have hoffset : l.scan.1.location.offset = l.begin.skipBlanks.cursor.offset :=
    congrArg Location.offset hlocation
  have hahead := hskip.ahead
  rw [← hoffset] at hahead hbehind hgap
  rw [hahead] at hgap hmunched
  exact ⟨⟨hbehind, hoffset ▸ hskip.inside, hgap, hmunched,
    hlocation.trans (hoffset ▸ hskip.location)⟩, hplaced, hstop⟩

end Lexer

/-! ### Tokens -/

section

open Lexer (Next Placed)

variable {file : String} {cs : List Char} {start : Nat} {t : Token} {ts : List Token}

theorem Token.Munched.slice (h : t.Munched (cs.drop t.location.offset)) :
    t.lexeme.toList = stretch cs t.location.offset t.stop := by
  obtain ⟨rest, hrest⟩ := h.front
  rw [Token.stop, ← String.length_toList, stretch_of_drop hrest.symm]

theorem Token.Munched.ends_iff (h : t.Munched cs) : t.kind = .endOfInput ↔ cs = [] := by
  have hfront (hne : t.lexeme ≠ "") : cs ≠ [] := by
    rintro rfl
    exact hne (eq_empty_of_front h.front)
  cases h with
  | word h hk hv =>
    have hkind : wordKind t.lexeme ≠ .endOfInput := by
      unfold wordKind
      split_ifs <;> simp
    exact iff_of_false (hk ▸ hkind) (hfront h.member.ne_empty)
  | number h hk => exact iff_of_false (by simp [hk]) (hfront h.member.ne_empty)
  | char hcs _ _ _ _ _ hk => exact iff_of_false (by simp [hk]) (by simp [hcs])
  | endOfInput hcs _ hk => exact iff_of_true hk hcs

theorem Token.Munched.offset_lt_stop (h : t.Munched cs) (hmore : t.kind ≠ .endOfInput) :
    t.location.offset < t.stop := by
  have hne : t.lexeme ≠ "" := by
    cases h with
    | word h => exact h.member.ne_empty
    | number h => exact h.member.ne_empty
    | char _ _ _ _ _ hl =>
      rw [hl]
      exact String.singleton_ne_empty
    | endOfInput _ _ hk => exact absurd hk hmore
  have hpos : 0 < t.lexeme.length := Nat.pos_of_ne_zero (mt String.length_eq_zero_iff.1 hne)
  rw [Token.stop]
  omega

namespace Lexer.Next

variable {u : Token}

theorem offset_of_end (h : Next file cs start t) (hend : t.kind = .endOfInput) :
    t.location.offset = cs.length :=
  Nat.le_antisymm h.inside (List.drop_eq_nil_iff.1 (h.munched.ends_iff.1 hend))

theorem unique (h : Next file cs start t) (hu : Next file cs start u) : t = u := by
  have hgap : stretch cs start t.location.offset = stretch cs start u.location.offset :=
    h.gap.unique hu.gap h.munched.opened hu.munched.opened
      ((stretch_append_drop h.behind).trans (stretch_append_drop hu.behind).symm)
  have hlength := congrArg List.length hgap
  rw [length_stretch h.inside, length_stretch hu.inside] at hlength
  have hoffset : t.location.offset = u.location.offset := by
    have := h.behind
    have := hu.behind
    omega
  have halike := h.munched.alike (hoffset ▸ hu.munched)
  have hlocation : t.location = u.location := by rw [h.located, hu.located, hoffset]
  cases t
  cases u
  rw [Token.mk.injEq]
  exact ⟨halike.kind, halike.lexeme, halike.value, hlocation⟩

end Lexer.Next

namespace Tokenization

theorem ne_nil (h : Tokenization file cs start ts) : ts ≠ [] := by
  obtain ⟨before, e, hts, -⟩ := h.ending
  simp [hts]

theorem start_le (h : Tokenization file cs start ts) : ∀ u ∈ ts, start ≤ u.location.offset := by
  cases ts with
  | nil => exact List.forall_mem_nil _
  | cons t ts =>
    have hstart := (h.leading t rfl).1
    refine List.forall_mem_cons.2 ⟨hstart, fun u hu => ?_⟩
    exact Nat.le_trans hstart (Nat.le_of_lt (List.rel_of_pairwise_cons h.increasing hu))

theorem inside (h : Tokenization file cs start ts) : ∀ u ∈ ts, u.location.offset ≤ cs.length := by
  obtain ⟨before, e, hts, -, -, hoffset⟩ := h.ending
  have hincreasing := h.increasing
  rw [hts, List.pairwise_append] at hincreasing
  rw [hts]
  refine List.forall_mem_append.2 ⟨fun u hu => ?_, ?_⟩
  · rw [← hoffset]
    exact Nat.le_of_lt (hincreasing.2.2 u hu e List.mem_cons_self)
  · exact List.forall_mem_singleton.2 (Nat.le_of_eq hoffset)

theorem next (h : Tokenization file cs start (t :: ts)) : Next file cs start t where
  behind := (h.leading t rfl).1
  inside := h.inside t List.mem_cons_self
  gap := (h.leading t rfl).2
  munched := h.munched t List.mem_cons_self
  located := h.located t List.mem_cons_self

theorem single (h : Next file cs start t) (hend : t.kind = .endOfInput) :
    Tokenization file cs start [t] where
  increasing := List.pairwise_singleton _ _
  ending := ⟨[], t, rfl, List.forall_mem_nil _, hend, h.offset_of_end hend⟩
  lexeme := List.forall_mem_singleton.2 h.munched.slice
  leading := fun _ hu => Option.some.inj hu ▸ ⟨h.behind, h.gap⟩
  between := .singleton _
  munched := List.forall_mem_singleton.2 h.munched
  located := List.forall_mem_singleton.2 h.located

theorem cons (h : Next file cs start t) (hmore : t.kind ≠ .endOfInput)
    (hts : Tokenization file cs t.stop ts) : Tokenization file cs start (t :: ts) where
  increasing := .cons (fun u hu =>
    Nat.lt_of_lt_of_le (h.munched.offset_lt_stop hmore) (hts.start_le u hu)) hts.increasing
  ending := by
    obtain ⟨before, e, rfl, hbefore, he⟩ := hts.ending
    exact ⟨t :: before, e, rfl, List.forall_mem_cons.2 ⟨hmore, hbefore⟩, he⟩
  lexeme := List.forall_mem_cons.2 ⟨h.munched.slice, hts.lexeme⟩
  leading := fun _ hu => Option.some.inj hu ▸ ⟨h.behind, h.gap⟩
  between := by
    obtain ⟨u, us, rfl⟩ := List.exists_cons_of_ne_nil hts.ne_nil
    exact List.isChain_cons_cons.2 ⟨hts.leading u rfl, hts.between⟩
  munched := List.forall_mem_cons.2 ⟨h.munched, hts.munched⟩
  located := List.forall_mem_cons.2 ⟨h.located, hts.located⟩

theorem tail (h : Tokenization file cs start (t :: ts)) (hts : ts ≠ []) :
    t.kind ≠ .endOfInput ∧ Tokenization file cs t.stop ts := by
  obtain ⟨u, us, rfl⟩ := List.exists_cons_of_ne_nil hts
  obtain ⟨before, e, hbefore, hmore, hend, hoffset⟩ := h.ending
  cases before with
  | nil => simp at hbefore
  | cons v before =>
    obtain ⟨rfl, hus⟩ := List.cons.inj hbefore
    obtain ⟨hleading, hbetween⟩ := List.isChain_cons_cons.1 h.between
    exact ⟨hmore t List.mem_cons_self,
      { increasing := h.increasing.of_cons
        ending := ⟨before, e, hus, fun w hw => hmore w (List.mem_cons_of_mem _ hw), hend, hoffset⟩
        lexeme := fun w hw => h.lexeme w (List.mem_cons_of_mem _ hw)
        leading := fun w hw => Option.some.inj hw ▸ hleading
        between := hbetween
        munched := fun w hw => h.munched w (List.mem_cons_of_mem _ hw)
        located := fun w hw => h.located w (List.mem_cons_of_mem _ hw) }⟩

theorem ends_of_single (h : Tokenization file cs start [t]) : t.kind = .endOfInput := by
  obtain ⟨before, e, hbefore, -, hend, -⟩ := h.ending
  cases before with
  | nil =>
    obtain ⟨rfl, -⟩ := List.cons.inj hbefore
    exact hend
  | cons v before => simp at hbefore

theorem unique {us : List Token} (h : Tokenization file cs start ts)
    (hu : Tokenization file cs start us) : ts = us := by
  induction ts generalizing start us with
  | nil => exact absurd rfl h.ne_nil
  | cons t ts ih =>
    obtain ⟨u, us, rfl⟩ := List.exists_cons_of_ne_nil hu.ne_nil
    obtain rfl := h.next.unique hu.next
    by_cases hts : ts = []
    · subst hts
      by_cases hus : us = []
      · rw [hus]
      · exact absurd h.ends_of_single (hu.tail hus).1
    · have hmore := h.tail hts
      have hus : us ≠ [] := by
        rintro rfl
        exact hmore.1 hu.ends_of_single
      rw [ih hmore.2 (hu.tail hus).2]

end Tokenization

theorem Lexer.Placed.tokens {l : Lexer} (h : Placed file cs l) :
    Tokenization file cs l.cursor.offset l.tokens := by
  induction l using Lexer.scan_induction with
  | ends l hend =>
    rw [Lexer.tokens_of_end hend]
    exact .single h.scan.1 hend
  | goesOn l hmore ih =>
    obtain ⟨hnext, hplaced, hstop⟩ := h.scan
    rw [Lexer.tokens_of_more hmore]
    exact .cons hnext hmore (hstop ▸ ih hplaced)

end

/-- The lexer divides every text into tokens, in the one way in which each token is the longest
match where it stands. -/
theorem tokenize_eq_iff (s file : String) (ts : List Token) :
    tokenize s file = ts ↔ Tokenization file s.toList 0 ts := by
  have h : Tokenization file s.toList 0 (tokenize s file) :=
    (Lexer.placed_ofString s file).tokens
  constructor
  · rintro rfl
    exact h
  · exact h.unique

end ExprCompiler
