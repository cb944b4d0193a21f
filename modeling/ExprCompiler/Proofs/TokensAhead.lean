import ExprCompiler.Parser.Grammar
import ExprCompiler.Proofs.Building

/-!
# The tokens ahead of a parser

A parser sees a text through one token of lookahead. The tokens ahead of it
are that token and all that the lexer has yet to give, up to the end of the
input. To advance is to drop the first of them.
-/

namespace ExprCompiler

def look (ts : List Token) : Token := ts.headD default

@[simp] theorem look_cons (t : Token) (ts : List Token) : look (t :: ts) = t := rfl

theorem look_mem {ts : List Token} (h : ts ≠ []) : look ts ∈ ts := by
  cases ts with
  | nil => exact absurd rfl h
  | cons t ts => exact List.mem_cons_self

theorem length_tail_lt {ts : List Token} (h : (look ts).kind ≠ .endOfInput) :
    ts.tail.length < ts.length := by
  cases ts with
  | nil => exact absurd rfl h
  | cons t ts => simp

theorem Token.kind_of_isChar {t : Token} {c : String} (h : t.isChar c = true) : t.kind = .char := by
  simp only [isChar, Bool.and_eq_true, beq_iff_eq] at h
  exact h.1

theorem Token.not_isChar_of_ne {t : Token} {c d : String} (h : t.isChar c = true) (hne : c ≠ d) :
    t.isChar d = false := by
  simp only [isChar, Bool.and_eq_true, beq_iff_eq] at h
  simp [isChar, h.2, hne]

theorem Token.not_end_of_kind {t : Token} {k : TokenKind} (h : t.kind = k)
    (hk : k ≠ .endOfInput) : t.kind ≠ .endOfInput := h ▸ hk

theorem Token.not_end_of_isChar {t : Token} {c : String} (h : t.isChar c = true) :
    t.kind ≠ .endOfInput := t.not_end_of_kind (kind_of_isChar h) (by decide)

namespace Lexer

@[elab_as_elim] theorem scan_induction {P : Lexer → Prop}
    (ends : ∀ l, l.scan.1.kind = .endOfInput → P l)
    (goesOn : ∀ l, l.scan.1.kind ≠ .endOfInput → P l.scan.2 → P l) (l : Lexer) : P l := by
  induction l using drain.induct with
  | case1 l r h => exact ends l h
  | case2 l r h ih => exact goesOn l h ih

def tokens (l : Lexer) : List Token := l.drain.1

theorem tokens_eq (l : Lexer) :
    l.tokens =
      if l.scan.1.kind = .endOfInput then [l.scan.1] else l.scan.1 :: l.scan.2.tokens := by
  unfold tokens
  rw [drain]
  by_cases h : l.scan.1.kind = .endOfInput
  · rw [dif_pos h, if_pos h]
  · rw [dif_neg h, if_neg h]

theorem tokens_of_end {l : Lexer} (h : l.scan.1.kind = .endOfInput) : l.tokens = [l.scan.1] := by
  rw [tokens_eq, if_pos h]

theorem tokens_of_more {l : Lexer} (h : l.scan.1.kind ≠ .endOfInput) :
    l.tokens = l.scan.1 :: l.scan.2.tokens := by
  rw [tokens_eq, if_neg h]

theorem look_tokens (l : Lexer) : look l.tokens = l.scan.1 := by
  rw [tokens_eq]
  split <;> rfl

theorem tokens_ne_nil (l : Lexer) : l.tokens ≠ [] := by
  rw [tokens_eq]
  split <;> exact List.cons_ne_nil _ _

theorem advance_of_nil {l : Lexer} (h : l.ahead = []) : l.advance = l := by rw [advance, h]

theorem advance_of_cons {l : Lexer} {c : Char} {cs : List Char} (h : l.ahead = c :: cs) :
    l.advance = { l with ahead := cs, cursor := l.cursor.past c, reads := l.reads + 1 } := by
  rw [advance, h]

theorem location_begin (l : Lexer) : l.begin.location = l.location := by
  unfold begin
  split <;> rfl

@[simp] theorem ending_begin (l : Lexer) : l.begin.ending = l.ending := by
  unfold begin
  split <;> rfl

@[simp] theorem ending_advanceBy (n : Nat) (l : Lexer) : (l.advanceBy n).ending = l.ending := by
  induction n generalizing l with
  | zero => rfl
  | succ n ih =>
    rw [advanceBy, ih, advance]
    split <;> rfl

@[simp] theorem ending_scan (l : Lexer) : l.scan.2.ending = l.ending := by
  have hcut (l : Lexer) : l.cut.2.ending = l.ending := by
    unfold cut
    split
    · rfl
    · exact ending_advanceBy _ _
  rw [scan, hcut, skipBlanks, ending_advanceBy, ending_begin]

theorem next_of_closed {l : Lexer} (h : l.ending = .closed) : l.next = .ok l.scan := by
  have hnone : l.ending.failure? = none := by rw [h]; rfl
  unfold next
  simp only [hnone]
  split
  · contradiction
  · rfl

theorem length_tokens_le (l : Lexer) : l.tokens.length ≤ l.ahead.length + 1 := by
  induction l using scan_induction with
  | ends l h =>
    rw [tokens_of_end h, List.length_singleton]
    omega
  | goesOn l h ih =>
    have hlt := ahead_scan_length_lt l h
    rw [tokens_of_more h, List.length_cons]
    omega

end Lexer

namespace Parser

def tokens (p : Parser) : List Token :=
  match p.lookahead with
  | none => p.lexer.tokens
  | some t => if t.kind = .endOfInput then [t] else t :: p.lexer.tokens

/-- The lookahead has been read, and these are the tokens from it on. -/
structure Facing (p : Parser) (ts : List Token) : Prop where
  closed : p.lexer.ending = .closed
  lookahead : p.lookahead = some (look ts)
  tokens : p.tokens = ts

structure Moved (p q : Parser) : Prop where
  anonymous : q.anonymous = p.anonymous
  errors : q.errors = p.errors

namespace Moved

variable {p q r : Parser}

theorem refl (p : Parser) : Moved p p := ⟨rfl, rfl⟩

theorem trans (h : Moved p q) (k : Moved q r) : Moved p r :=
  ⟨k.anonymous.trans h.anonymous, k.errors.trans h.errors⟩

end Moved

section

variable {p : Parser} {ts : List Token}

theorem length_tokens_le (p : Parser) : p.tokens.length ≤ p.weight + 1 := by
  have hlexer := p.lexer.length_tokens_le
  unfold tokens weight
  cases p.lookahead with
  | none => simpa using hlexer
  | some t =>
    by_cases h : t.kind = .endOfInput
    · simp [h]
    · simpa [h] using hlexer

/-- The bound on the depth of a parse is greater than two for each of the tokens ahead. -/
theorem lt_depthBound (p : Parser) : 2 * p.tokens.length + 1 < p.depthBound := by
  have hle := p.length_tokens_le
  unfold depthBound
  omega

theorem Facing.depth (h : p.Facing ts) : 2 * ts.length + 1 < p.depthBound :=
  h.tokens ▸ p.lt_depthBound

theorem tokens_ne_nil (p : Parser) : p.tokens ≠ [] := by
  unfold tokens
  cases p.lookahead with
  | none => exact p.lexer.tokens_ne_nil
  | some t =>
    simp only
    split <;> exact List.cons_ne_nil _ _

theorem tokens_of_end (h : (look p.tokens).kind = .endOfInput) :
    p.tokens = [look p.tokens] := by
  have hlexer (l : Lexer) (hl : (look l.tokens).kind = .endOfInput) :
      l.tokens = [look l.tokens] := by
    rw [l.look_tokens] at hl ⊢
    exact Lexer.tokens_of_end hl
  unfold tokens at h ⊢
  cases hlook : p.lookahead with
  | none =>
    rw [hlook] at h
    exact hlexer _ h
  | some t =>
    rw [hlook] at h
    by_cases ht : t.kind = .endOfInput
    · simp [ht]
    · simp [ht] at h

theorem Facing.ne_nil (h : p.Facing ts) : ts ≠ [] := h.tokens ▸ p.tokens_ne_nil

theorem facing_scan {l : Lexer} (h : l.ending = .closed) (p : Parser) :
    Facing { p with lexer := l.scan.2, lookahead := some l.scan.1 } l.tokens := by
  refine ⟨by simpa using h, by rw [l.look_tokens], ?_⟩
  rw [Lexer.tokens_eq]
  rfl

theorem advance_of_closed (h : p.lexer.ending = .closed) :
    advance p = .ok p.lexer.scan.1
      { p with lexer := p.lexer.scan.2, lookahead := some p.lexer.scan.1 } := by
  simp only [advance, Lexer.next_of_closed h]

theorem current_of_closed (h : p.lexer.ending = .closed) :
    ∃ q, current p = .ok (look p.tokens) q ∧ q.Facing p.tokens ∧ Moved p q := by
  unfold current
  cases hl : p.lookahead with
  | none =>
    have htokens : p.tokens = p.lexer.tokens := by rw [tokens, hl]
    rw [htokens, p.lexer.look_tokens]
    exact ⟨_, advance_of_closed h, facing_scan h p, rfl, rfl⟩
  | some t =>
    have hlook : look p.tokens = t := by
      rw [tokens, hl]
      simp only
      split <;> rfl
    rw [hlook]
    exact ⟨p, rfl, ⟨h, hl.trans (congrArg some hlook.symm), rfl⟩, .refl p⟩

theorem Facing.current_eq (h : p.Facing ts) : current p = .ok (look ts) p := by
  simp only [current, h.lookahead]

theorem Facing.current_bind {α : Type} (h : p.Facing ts) (k : Token → ParserM α) :
    (current >>= k) p = k (look ts) p :=
  bind_eq_ok h.current_eq

theorem Facing.advance_eq (h : p.Facing ts) (hend : (look ts).kind ≠ .endOfInput) :
    ∃ q, advance p = .ok (look ts.tail) q ∧ q.Facing ts.tail ∧ Moved p q := by
  have hlexer : p.lexer.tokens = ts.tail := by
    have htokens : p.tokens = ts := h.tokens
    simp only [Parser.tokens, h.lookahead, if_neg hend] at htokens
    rw [← htokens, List.tail_cons]
  have hfacing := facing_scan h.closed p
  rw [hlexer] at hfacing
  rw [← hlexer, p.lexer.look_tokens]
  exact ⟨_, advance_of_closed h.closed, hlexer ▸ hfacing, rfl, rfl⟩

theorem Facing.advance_bind {α : Type} (h : p.Facing ts) (hend : (look ts).kind ≠ .endOfInput) :
    ∃ q, q.Facing ts.tail ∧ Moved p q ∧
      ∀ k : Token → ParserM α, (advance >>= k) p = k (look ts.tail) q := by
  obtain ⟨q, hq, hfacing, hmoved⟩ := h.advance_eq hend
  exact ⟨q, hfacing, hmoved, fun k => bind_eq_ok hq⟩

end

end Parser

end ExprCompiler
