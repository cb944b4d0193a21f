import Mathlib.Data.List.Forall2
import ExprCompiler.Proofs.TokensAhead

/-!
# Tokens and their places

The tokens of a text say where they stand, each one behind the one before it.
Where it stands apart, a token depends on the text from there on: a text that
begins where a token stands has the tokens from that one on.
-/

namespace ExprCompiler

structure Token.Alike (t u : Token) : Prop where
  kind : t.kind = u.kind
  lexeme : t.lexeme = u.lexeme
  value : t.value = u.value

theorem Token.Alike.refl (t : Token) : t.Alike t := ⟨rfl, rfl, rfl⟩

abbrev Same (ts us : List Token) : Prop := List.Forall₂ Token.Alike ts us

theorem Same.refl (ts : List Token) : Same ts ts := by
  induction ts with
  | nil => exact .nil
  | cons t ts ih => exact .cons (.refl t) ih

theorem Same.look {ts us : List Token} (h : Same ts us) : (look ts).Alike (look us) := by
  cases h with
  | nil => exact .refl _
  | cons h _ => exact h

theorem Same.tail {ts us : List Token} (h : Same ts us) : Same ts.tail us.tail := by
  cases h with
  | nil => exact .nil
  | cons _ h => exact h

/-! ### Blanks -/

theorem blankPrefix_drop (b : Bool) (cs : List Char) :
    blankPrefix false (cs.drop (blankPrefix b cs).length) = [] := by
  induction cs generalizing b with
  | nil => cases b <;> rfl
  | cons c cs ih =>
    cases b with
    | true =>
      rw [blankPrefix, List.length_cons, List.drop_succ_cons]
      exact ih _
    | false =>
      by_cases hblank : Text.isBlank c = true
      · rw [blankPrefix, if_pos hblank, List.length_cons, List.drop_succ_cons]
        exact ih _
      by_cases hcomment : c = '#'
      · rw [blankPrefix, if_neg hblank, if_pos hcomment, List.length_cons, List.drop_succ_cons]
        exact ih _
      · rw [blankPrefix, if_neg hblank, if_neg hcomment, List.length_nil, List.drop_zero,
          blankPrefix, if_neg hblank, if_neg hcomment]

namespace Lexer

variable {l m : Lexer} {cs : List Char}

def front (l : Lexer) : List Char := l.begin.skipBlanks.ahead

theorem front_eq (l : Lexer) : l.front = l.ahead.drop (blankPrefix false l.ahead).length := by
  rw [front, skipBlanks, ahead_advanceBy, ahead_begin]

theorem front_of_ahead (h : m.ahead = l.front) : m.front = l.front := by
  rw [front_eq, h, front_eq l, blankPrefix_drop, List.length_nil, List.drop_zero]

theorem scan_alike (h : l.front = m.front) :
    l.scan.1.Alike m.scan.1 ∧ l.scan.2.ahead = m.scan.2.ahead := by
  have hl : l.begin.skipBlanks.ahead = l.front := rfl
  have hm : m.begin.skipBlanks.ahead = l.front := h.symm
  unfold scan cut
  cases hf : l.front with
  | nil =>
    rw [hf] at hl hm
    simp only [hl, hm]
    exact ⟨⟨rfl, rfl, rfl⟩, trivial⟩
  | cons c cs =>
    rw [hf] at hl hm
    simp only [hl, hm]
    exact ⟨⟨rfl, rfl, rfl⟩, by rw [ahead_advanceBy, ahead_advanceBy, hl, hm]⟩

theorem tokens_same (h : l.front = m.front) : Same l.tokens m.tokens := by
  induction l using scan_induction generalizing m with
  | ends l hend =>
    obtain ⟨halike, -⟩ := scan_alike h
    have hend' : m.scan.1.kind = .endOfInput := halike.kind ▸ hend
    rw [tokens_of_end hend, tokens_of_end hend']
    exact .cons halike .nil
  | goesOn l hmore ih =>
    obtain ⟨halike, hahead⟩ := scan_alike h
    have hmore' : m.scan.1.kind ≠ .endOfInput := halike.kind ▸ hmore
    rw [tokens_of_more hmore, tokens_of_more hmore']
    refine .cons halike (ih ?_)
    rw [front_eq, front_eq, hahead]

/-! ### Offsets -/

theorem offset_begin (l : Lexer) : l.begin.cursor.offset = l.cursor.offset :=
  congrArg Location.offset l.location_begin

theorem offset_advance_le (l : Lexer) : l.cursor.offset ≤ l.advance.cursor.offset := by
  unfold advance
  split
  · exact Nat.le_refl _
  · simp only [Cursor.past]
    split <;> exact Nat.le_succ _

theorem offset_advance {c : Char} {ds : List Char} (h : l.ahead = c :: ds) :
    l.advance.cursor.offset = l.cursor.offset + 1 := by
  simp only [advance_of_cons h, Cursor.past]
  split <;> rfl

theorem offset_advanceBy_le (n : Nat) (l : Lexer) :
    l.cursor.offset ≤ (l.advanceBy n).cursor.offset := by
  induction n generalizing l with
  | zero => exact Nat.le_refl _
  | succ n ih => exact Nat.le_trans l.offset_advance_le (ih l.advance)

theorem offset_le_scan (l : Lexer) : l.cursor.offset ≤ l.scan.1.location.offset := by
  have hskip : l.cursor.offset ≤ l.begin.skipBlanks.cursor.offset := by
    rw [← l.offset_begin]
    exact offset_advanceBy_le _ _
  unfold scan cut
  split <;> exact hskip

theorem offset_scan_lt (h : l.scan.1.kind ≠ .endOfInput) :
    l.scan.1.location.offset < l.scan.2.cursor.offset := by
  unfold scan cut at h ⊢
  split at h
  · exact absurd rfl h
  · rename_i c cs hahead
    obtain ⟨d, ds, hchars⟩ := List.exists_cons_of_ne_nil (Lexeme.chars_ofFront_ne_nil c cs)
    simp only [hchars, List.length_cons, advanceBy]
    refine Nat.lt_of_lt_of_le ?_ (offset_advanceBy_le _ _)
    simp only [Lexeme.token, location, advance, hahead, Cursor.past]
    split <;> exact Nat.lt_succ_self _

theorem offset_le_of_mem {t : Token} (h : t ∈ l.tokens) : l.cursor.offset ≤ t.location.offset := by
  induction l using scan_induction with
  | ends l hend =>
    rw [tokens_of_end hend, List.mem_singleton] at h
    exact h ▸ l.offset_le_scan
  | goesOn l hmore ih =>
    rw [tokens_of_more hmore] at h
    obtain rfl | h := List.mem_cons.1 h
    · exact l.offset_le_scan
    · have hlt := offset_scan_lt hmore
      have hle := ih h
      exact Nat.le_trans l.offset_le_scan (Nat.le_trans (Nat.le_of_lt hlt) hle)

/-- Each token stands behind the one before it. -/
theorem tokens_increase (l : Lexer) :
    l.tokens.Pairwise fun t u => t.location.offset < u.location.offset := by
  induction l using scan_induction with
  | ends l hend =>
    rw [tokens_of_end hend]
    exact List.pairwise_singleton _ _
  | goesOn l hmore ih =>
    rw [tokens_of_more hmore]
    exact .cons (fun u hu => Nat.lt_of_lt_of_le (offset_scan_lt hmore) (offset_le_of_mem hu)) ih

theorem index_eq_of_key_eq {α : Type} {k : α → Nat} {as : List α}
    (h : as.Pairwise fun a b => k a < k b) {i j : Nat} {a b : α} (ha : as[i]? = some a)
    (hb : as[j]? = some b) (hk : k a = k b) : i = j := by
  obtain ⟨hi, rfl⟩ := List.getElem?_eq_some_iff.1 ha
  obtain ⟨hj, rfl⟩ := List.getElem?_eq_some_iff.1 hb
  rw [List.pairwise_iff_getElem] at h
  rcases Nat.lt_trichotomy i j with hij | hij | hij
  · exact absurd (h i j hi hj hij) (by rw [hk]; exact Nat.lt_irrefl _)
  · exact hij
  · exact absurd (h j i hj hi hij) (by rw [hk]; exact Nat.lt_irrefl _)

theorem eq_of_location_eq {ts : List Token} {t u : Token}
    (hts : ts.Pairwise fun t u => t.location.offset < u.location.offset) (ht : t ∈ ts) (hu : u ∈ ts)
    (h : t.location = u.location) : t = u := by
  obtain ⟨i, hi⟩ := List.mem_iff_getElem?.1 ht
  obtain ⟨j, hj⟩ := List.mem_iff_getElem?.1 hu
  obtain rfl := index_eq_of_key_eq hts hi hj (by rw [h])
  exact Option.some.inj (hi.symm.trans hj)

structure Within (cs : List Char) (l : Lexer) : Prop where
  ahead : l.ahead = cs.drop l.cursor.offset

theorem within_ofString (s file : String) : Within s.toList (.ofString s file) := ⟨rfl⟩

namespace Within

theorem begin (h : Within cs l) : Within cs l.begin :=
  ⟨by rw [ahead_begin, offset_begin, h.ahead]⟩

theorem advance (h : Within cs l) : Within cs l.advance := by
  cases hl : l.ahead with
  | nil => rwa [advance_of_nil hl]
  | cons c ds =>
    refine ⟨?_⟩
    rw [ahead_advance, offset_advance hl, h.ahead, List.drop_drop]

theorem advanceBy (h : Within cs l) (n : Nat) : Within cs (l.advanceBy n) := by
  induction n generalizing l with
  | zero => exact h
  | succ n ih => exact ih h.advance

theorem skipBlanks (h : Within cs l) : Within cs l.skipBlanks := h.advanceBy _

theorem scan (h : Within cs l) :
    l.front = cs.drop l.scan.1.location.offset ∧ Within cs l.scan.2 := by
  have hskip : Within cs l.begin.skipBlanks := h.begin.skipBlanks
  have hfront : l.front = cs.drop l.begin.skipBlanks.cursor.offset := hskip.ahead
  rw [hfront]
  unfold Lexer.scan cut
  split
  · exact ⟨rfl, hskip⟩
  · exact ⟨rfl, hskip.advanceBy _⟩

theorem same_of_split {before after : List Token} {t : Token} (h : Within cs l)
    (hs : l.tokens = before ++ t :: after) (file : String) :
    Same (t :: after) (ofString (String.ofList (cs.drop t.location.offset)) file).tokens := by
  have hhead {m : Lexer} (hm : Within cs m) :
      Same m.tokens (ofString (String.ofList (cs.drop m.scan.1.location.offset)) file).tokens := by
    refine tokens_same (front_of_ahead ?_).symm
    rw [← hm.scan.1]
    exact String.toList_ofList
  induction l using scan_induction generalizing before with
  | ends l hend =>
    have htokens := tokens_of_end hend
    rw [htokens] at hs
    cases before with
    | nil =>
      obtain ⟨rfl, rfl⟩ := List.cons.inj hs
      rw [← htokens]
      exact hhead h
    | cons u before => exact absurd (List.cons.inj hs).2.symm (by simp)
  | goesOn l hmore ih =>
    have htokens := tokens_of_more hmore
    rw [htokens] at hs
    cases before with
    | nil =>
      obtain ⟨rfl, rfl⟩ := List.cons.inj hs
      rw [← htokens]
      exact hhead h
    | cons u before => exact ih h.scan.2 (List.cons.inj hs).2

end Within

end Lexer

end ExprCompiler
