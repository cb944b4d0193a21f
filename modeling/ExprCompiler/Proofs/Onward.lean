import ExprCompiler.Proofs.Asking
import ExprCompiler.Proofs.BrokenTexts
import ExprCompiler.Proofs.Tokenization

/-!
# The same tokens in another text

Tokens that have been given are given again by a text that begins with the
same characters and then goes on otherwise, if it goes on with a space. So
what a parser has consumed begins many rows of tokens.
-/

namespace ExprCompiler

/-! ### Lexemes -/

section

variable {ds ks rest : List Char}

theorem prefix_of_apart {v : List Char} (h : v <+: ds ++ rest) (hrest : Apart rest) (hv : ' ' ∉ v) :
    v <+: ds := by
  obtain hfront | ⟨w, rfl⟩ := List.prefix_or_prefix_of_prefix h (List.prefix_append ds rest)
  · exact hfront
  have hw := (List.prefix_append_right_inj ds).1 h
  cases w with
  | nil => simp
  | cons c w =>
    obtain ⟨rest', rfl⟩ := hw
    have hspace : c = ' ' := hrest c rfl
    exact absurd (by simp [hspace]) hv

theorem not_mem_of_digits {cs : List Char} (h : ∀ d ∈ cs, Decimal.isDigit d = true) : ' ' ∉ cs :=
  fun hmem => absurd (h _ hmem) (by decide)

theorem Identifier.no_space {v : String} (h : Identifier v) : ' ' ∉ v.toList := by
  obtain ⟨c, cs, hv, hc, hcs⟩ := h
  rw [hv, List.mem_cons, not_or]
  exact ⟨by rintro rfl; exact absurd hc (by decide), fun hmem => absurd (hcs _ hmem) (by decide)⟩

theorem Numeric.no_space {v : String} (h : Numeric v) : ' ' ∉ v.toList := by
  cases h with
  | digits _ hd => exact not_mem_of_digits hd
  | point hn _ hw hf =>
    rw [hn, List.mem_append, List.mem_cons, not_or, not_or]
    exact ⟨not_mem_of_digits hw, by decide, not_mem_of_digits hf⟩
  | fraction hn _ hf =>
    rw [hn, List.mem_cons, not_or]
    exact ⟨by decide, not_mem_of_digits hf⟩

theorem Longest.onward {P : String → Prop} (hP : ∀ v, P v → ' ' ∉ v.toList) {w : String}
    (h : Longest P (ds ++ ks) w) (hw : w.toList <+: ds) (hrest : Apart rest) :
    Longest P (ds ++ rest) w where
  front := hw.trans (List.prefix_append ds rest)
  member := h.member
  longest v hv hmem :=
    h.longest v ((prefix_of_apart hv hrest (hP v hmem)).trans (List.prefix_append ds ks)) hmem

theorem Token.Munched.onward {t : Token} (h : t.Munched (ds ++ ks)) (ht : t.lexeme.toList <+: ds)
    (hne : ds ≠ []) (hrest : Apart rest) : t.Munched (ds ++ rest) := by
  have hfront {v : String} (hv : v.toList <+: ds ++ rest) (hspace : ' ' ∉ v.toList) :
      v.toList <+: ds ++ ks :=
    (prefix_of_apart hv hrest hspace).trans (List.prefix_append ds ks)
  cases h with
  | word hlongest hk hv => exact .word (hlongest.onward (fun _ => Identifier.no_space) ht hrest) hk hv
  | number hlongest hk hd hv =>
    exact .number (hlongest.onward (fun _ => Numeric.no_space) ht hrest) hk hd hv
  | @char c _ h hblank hcomment hword hnumber hl hk hv =>
    obtain ⟨d, ds, rfl⟩ := List.exists_cons_of_ne_nil hne
    rw [List.cons_append, List.cons.injEq] at h
    obtain ⟨rfl, -⟩ := h
    exact .char rfl hblank hcomment (fun v hv hid => hword v (hfront hv hid.no_space) hid)
      (fun v hv hn => hnumber v (hfront hv hn.no_space) hn) hl hk hv
  | endOfInput h => exact absurd (List.append_eq_nil_iff.1 h).1 hne

theorem blankPrefix_onward {b : Bool} {bs cs : List Char} {c : Char}
    (h : blankPrefix b (bs ++ c :: ds) = bs) : blankPrefix b (bs ++ c :: cs) = bs := by
  induction bs generalizing b with
  | nil =>
    cases b with
    | true => simp [blankPrefix] at h
    | false =>
      rw [List.nil_append, blankPrefix] at h ⊢
      split_ifs at h ⊢
      rfl
  | cons d bs ih =>
    cases b with
    | true =>
      rw [List.cons_append, blankPrefix, List.cons.injEq] at h ⊢
      exact ⟨rfl, ih h.2⟩
    | false =>
      rw [List.cons_append, blankPrefix] at h ⊢
      split_ifs at h ⊢
      · rw [List.cons.injEq] at h ⊢
        exact ⟨rfl, ih h.2⟩
      · rw [List.cons.injEq] at h ⊢
        exact ⟨rfl, ih h.2⟩

end

/-! ### Lexers -/

namespace Lexer

variable {l m : Lexer} {t : Token}

theorem scan_parts (h : l.scan = (t, m)) (hmore : t.kind ≠ .endOfInput) :
    ∃ c k, l.ahead = blankPrefix false l.ahead ++ c :: (k ++ m.ahead) ∧
      l.begin.skipBlanks.ahead = c :: (k ++ m.ahead) ∧ Text.isBlank c = false ∧ c ≠ '#' ∧
      (Lexeme.ofFront c (k ++ m.ahead)).chars = c :: k ∧
      t = (Lexeme.ofFront c (k ++ m.ahead)).token l.begin.skipBlanks.location ∧
      m = l.begin.skipBlanks.advanceBy (k.length + 1) := by
  obtain ⟨rest, hrest, -, hopened⟩ := exists_gap l.ahead
  have hskipped : l.begin.skipBlanks.ahead = rest := by
    have hdrop := congrArg (List.drop (blankPrefix false l.ahead).length) hrest
    rw [List.drop_left] at hdrop
    exact l.front_eq.trans hdrop.symm
  unfold scan cut at h
  rw [hskipped] at h
  cases rest with
  | nil =>
    cases h
    exact absurd rfl hmore
  | cons c cs =>
    obtain ⟨hblank, hcomment⟩ := hopened c rfl
    obtain ⟨rfl, rfl⟩ := Prod.mk.inj h
    have hmunched : ((Lexeme.ofFront c cs).token l.location).Munched (c :: cs) :=
      munched_ofFront hblank hcomment l.location
    have hfront := hmunched.front
    rw [Lexeme.token, String.toList_ofList] at hfront
    obtain ⟨left, hleft⟩ := hfront
    obtain ⟨d, k, hchars⟩ := List.exists_cons_of_ne_nil (Lexeme.chars_ofFront_ne_nil c cs)
    rw [hchars, List.cons_append, List.cons.injEq] at hleft
    obtain ⟨rfl, rfl⟩ := hleft
    have hahead : (l.begin.skipBlanks.advanceBy (k.length + 1)).ahead = left := by
      rw [ahead_advanceBy, hskipped, List.drop_succ_cons, List.drop_left]
    simp only [hchars, List.length_cons, hahead]
    exact ⟨d, k, hrest.symm, hskipped, hblank, hcomment, hchars, rfl, rfl⟩

theorem skipBlanks_onward {bs cs : List Char} (hl : l.ahead = bs ++ cs)
    (hbs : blankPrefix false l.ahead = bs) {ds : List Char}
    (hds : blankPrefix false (bs ++ ds) = bs) :
    (l.onward (bs ++ ds)).begin.skipBlanks = l.begin.skipBlanks.onward ds := by
  have htake : (bs ++ ds).take bs.length = l.begin.ahead.take bs.length := by
    rw [ahead_begin, hl, List.take_left, List.take_left]
  have hahead : (l.begin.onward (bs ++ ds)).ahead = bs ++ ds := rfl
  rw [begin_onward, skipBlanks, hahead, hds, advanceBy_onward htake, List.drop_left, skipBlanks,
    ahead_begin, hbs]

theorem ofFront_onward {c : Char} {k es ks rest : List Char} (hblank : Text.isBlank c = false)
    (hcomment : c ≠ '#') (hchars : (Lexeme.ofFront c (k ++ (es ++ ks))).chars = c :: k)
    (hrest : Apart rest) :
    Lexeme.ofFront c (k ++ (es ++ rest)) = Lexeme.ofFront c (k ++ (es ++ ks)) := by
  have hgiven : ((Lexeme.ofFront c (k ++ (es ++ ks))).token default).Munched
      ((c :: (k ++ es)) ++ ks) := by
    simpa using munched_ofFront hblank hcomment default
  have hother : ((Lexeme.ofFront c (k ++ (es ++ rest))).token default).Munched
      (c :: (k ++ (es ++ rest))) := munched_ofFront hblank hcomment default
  have hfront : ((Lexeme.ofFront c (k ++ (es ++ ks))).token default).lexeme.toList <+:
      c :: (k ++ es) := by
    rw [Lexeme.token, String.toList_ofList, hchars, ← List.cons_append]
    exact List.prefix_append _ _
  have hsame : ((Lexeme.ofFront c (k ++ (es ++ ks))).token default).Munched
      (c :: (k ++ (es ++ rest))) := by
    simpa using hgiven.onward hfront (List.cons_ne_nil _ _) hrest
  obtain ⟨hkind, hlexeme, hvalue⟩ := hother.alike hsame
  generalize Lexeme.ofFront c (k ++ (es ++ rest)) = x at hkind hlexeme hvalue
  generalize Lexeme.ofFront c (k ++ (es ++ ks)) = y at hkind hlexeme hvalue
  cases x with
  | mk _ _ _ =>
    cases y with
    | mk _ _ _ =>
      have hcs := congrArg String.toList hlexeme
      rw [Lexeme.token, Lexeme.token, String.toList_ofList, String.toList_ofList] at hcs
      rw [Lexeme.mk.injEq]
      exact ⟨hkind, hcs, hvalue⟩

theorem scan_onward (h : l.scan = (t, m)) (hmore : t.kind ≠ .endOfInput) :
    ∃ ds, l.ahead = ds ++ m.ahead ∧ ∀ es ks rest, m.ahead = es ++ ks → Apart rest →
      (l.onward (ds ++ (es ++ rest))).scan = (t, m.onward (es ++ rest)) := by
  obtain ⟨c, k, hahead, hskipped, hblank, hcomment, hchars, ht, hm⟩ := scan_parts h hmore
  generalize hbs : blankPrefix false l.ahead = bs at hahead
  refine ⟨bs ++ c :: k, by rw [hahead, List.append_assoc, List.cons_append], ?_⟩
  intro es ks rest hes hrest
  rw [hes] at hchars ht
  have hskip : (l.onward (bs ++ c :: (k ++ (es ++ rest)))).begin.skipBlanks =
      l.begin.skipBlanks.onward (c :: (k ++ (es ++ rest))) :=
    skipBlanks_onward hahead hbs (blankPrefix_onward (hahead ▸ hbs))
  have hfront := ofFront_onward hblank hcomment hchars hrest
  have htake : (c :: (k ++ (es ++ rest))).take (k.length + 1) =
      l.begin.skipBlanks.ahead.take (k.length + 1) := by
    rw [hskipped, List.take_succ_cons, List.take_succ_cons, List.take_left, List.take_left]
  have hcut : (l.begin.skipBlanks.onward (c :: (k ++ (es ++ rest)))).cut =
      ((Lexeme.ofFront c (k ++ (es ++ rest))).token l.begin.skipBlanks.location,
        (l.begin.skipBlanks.onward (c :: (k ++ (es ++ rest)))).advanceBy
          (Lexeme.ofFront c (k ++ (es ++ rest))).chars.length) := rfl
  rw [List.append_assoc, List.cons_append, scan, hskip, hcut, hfront, hchars, List.length_cons,
    advanceBy_onward htake, List.drop_succ_cons, List.drop_left, ← hm, ← ht]

end Lexer

/-! ### Parsers -/

namespace Parser

def onward (p : Parser) (cs : List Char) : Parser := { p with lexer := p.lexer.onward cs }

variable {p q : Parser} {asked : List Token} {t : Token}

theorem tokens_onward_of_given {l : Lexer} {cs ds : List Char}
    (h : (l.onward ds).scan = (t, q.lexer.onward cs)) (hq : q.lookahead = some t) :
    (l.onward ds).tokens = (q.onward cs).tokens := by
  have hlook : (q.onward cs).lookahead = some t := hq
  rw [Lexer.tokens_eq, h, tokens, hlook]
  rfl

/-- What a parser has consumed it consumes again, however the text goes on behind it. -/
theorem Asks.onward (h : Asks p asked q) (hasked : asked ≠ []) (hq : q.lookahead = some t) :
    ∃ consumed, p.lookahead.toList ++ asked = consumed ++ [t] ∧
      ∃ (cs : List Char) (l : Lexer), p.lexer.ahead = cs ++ l.ahead ∧ ∀ rest, Apart rest →
        (p.onward (cs ++ rest)).tokens = consumed ++ (l.onward rest).tokens := by
  induction h with
  | nothing => exact absurd rfl hasked
  | @token p m q u ts hmore hnext hm hrest ih =>
    have hheld (cs : List Char) :
        (p.onward cs).tokens = p.lookahead.toList ++ (p.lexer.onward cs).tokens :=
      tokens_of_lookahead hmore
    by_cases hts : ts = []
    · -- The last token asked for is not consumed, so the text may go on in front of it.
      subst hts
      obtain rfl : u = t := by
        cases hrest with
        | nothing _ hlook => exact Option.some.inj (hm.symm.trans (hlook.symm.trans hq))
      exact ⟨p.lookahead.toList, rfl, [], p.lexer, rfl, fun rest _ => hheld rest⟩
    · have hu : u.kind ≠ .endOfInput := by
        cases hrest with
        | nothing => exact absurd rfl hts
        | token hmore' => exact hmore' u hm
      obtain ⟨consumed, hseen, cs, l, hahead, htokens⟩ := ih hts hq
      obtain ⟨ds, hds, hscan⟩ := Lexer.scan_onward (Lexer.scan_of_next hnext) hu
      rw [hm] at hseen
      refine ⟨p.lookahead.toList ++ consumed, ?_, ds ++ cs, l, ?_, fun rest happart => ?_⟩
      · rw [List.append_assoc, ← hseen]
        rfl
      · rw [hds, hahead, List.append_assoc]
      · have hgiven := tokens_onward_of_given (hscan cs l.ahead rest hahead happart) hm
        rw [hheld, List.append_assoc, hgiven, htokens rest happart, List.append_assoc]

end Parser

end ExprCompiler
