import ExprCompiler.Proofs.Productions

/-!
# The tokens that are asked for

A parse asks the lexer for one token after the other. The last of them is its
lookahead, those before it are consumed, and none of these is the end of the
input. A parse that rejects a token has it as its lookahead.
-/

namespace ExprCompiler

theorem Lexer.scan_of_next {l m : Lexer} {t : Token} (h : l.next = .ok (t, m)) :
    l.scan = (t, m) := by
  unfold next at h
  dsimp only at h
  split at h
  · cases h
  · exact Except.ok.inj h

namespace Parser

/-- On its way from one state to another a parser has asked for these tokens and no others. It goes
on from the lookahead only where that is not the end of the input. -/
inductive Asks : Parser → List Token → Parser → Prop
  | nothing {p q : Parser} (lexer : q.lexer = p.lexer) (lookahead : q.lookahead = p.lookahead) :
    Asks p [] q
  | token {p q r : Parser} {t : Token} {ts : List Token}
    (more : ∀ u ∈ p.lookahead, u.kind ≠ .endOfInput) (given : p.lexer.next = .ok (t, q.lexer))
    (lookahead : q.lookahead = some t) (rest : Asks q ts r) : Asks p (t :: ts) r

namespace Asks

variable {p q r : Parser} {ts us : List Token}

theorem refl (p : Parser) : Asks p [] p := .nothing rfl rfl

theorem of_same (hl : p.lexer = q.lexer) (hp : p.lookahead = q.lookahead) (h : Asks q ts r) :
    Asks p ts r := by
  cases h with
  | nothing hl' hq => exact .nothing (hl'.trans hl.symm) (hq.trans hp.symm)
  | token hmore hnext hq hrest => exact .token (hp ▸ hmore) (hl ▸ hnext) hq hrest

theorem trans (h : Asks p ts q) (k : Asks q us r) : Asks p (ts ++ us) r := by
  induction h with
  | nothing hl hq => exact k.of_same hl.symm hq.symm
  | token hmore hnext hq _ ih => exact .token hmore hnext hq (ih k)

end Asks

def Prompted {α : Type} (p : Parser) : EStateM.Result ParseStop Parser α → Prop
  | .ok _ q => ∃ asked, Asks p asked q
  | .error s q => (∃ asked, Asks p asked q) ∧ ∀ e, s = .invalid e → q.lookahead = some e.token

theorem stepwise_prompted : Stepwise Prompted where
  refl p a := ⟨[], .refl p⟩
  exhausted p := ⟨⟨[], .refl p⟩, fun _ he => by cases he⟩
  reject h := ⟨⟨[], .refl _⟩, fun _ he => ParseStop.invalid.inj he ▸ h⟩
  advance {p} h := by
    obtain ⟨t, l, hnext, hrun⟩ | ⟨f, -, hrun⟩ := p.advance_cases
    · rw [hrun]
      exact ⟨[t], .token h hnext rfl (.refl _)⟩
    · rw [hrun]
      exact ⟨⟨[], .refl p⟩, fun _ he => by cases he⟩
  count p := ⟨[], .nothing rfl rfl⟩
  trans := by
    rintro α β p q a r ⟨ts, hts⟩ hr
    cases r with
    | ok b q' =>
      obtain ⟨us, hus⟩ := hr
      exact ⟨ts ++ us, hts.trans hus⟩
    | error s q' =>
      obtain ⟨⟨us, hus⟩, hinvalid⟩ := hr
      exact ⟨⟨ts ++ us, hts.trans hus⟩, hinvalid⟩
  stop h := h

theorem prompted_definition (p : Parser) : Prompted p (definition p) :=
  stepwise_prompted.compositional.definition p p.sees_none

theorem prompted_external (p : Parser) : Prompted p (external p) :=
  stepwise_prompted.compositional.external p p.sees_none

theorem prompted_bareExpression (p : Parser) : Prompted p (bareExpression p) :=
  stepwise_prompted.compositional.bareExpression p p.sees_none

/-! ### What has been consumed -/

section

variable {p q : Parser} {asked : List Token} {t : Token}

theorem tokens_of_lookahead (h : ∀ u ∈ p.lookahead, u.kind ≠ .endOfInput) :
    p.tokens = p.lookahead.toList ++ p.lexer.tokens := by
  unfold tokens
  cases hp : p.lookahead with
  | none => rfl
  | some u => exact if_neg (h u hp)

theorem tokens_of_given {l : Lexer} (h : l.next = .ok (t, q.lexer)) (hq : q.lookahead = some t) :
    l.tokens = q.tokens := by
  rw [Lexer.tokens_eq, Lexer.scan_of_next h, tokens, hq]

/-- All that has been seen but the lookahead is consumed. -/
theorem Asks.consumed (h : Asks p asked q) (hq : q.lookahead = some t) :
    ∃ consumed, p.lookahead.toList ++ asked = consumed ++ [t] ∧ p.tokens = consumed ++ q.tokens := by
  induction h with
  | @nothing p q hl hlook =>
    refine ⟨[], ?_, ?_⟩
    · rw [← hlook, hq]
      rfl
    · rw [tokens, ← hl, ← hlook]
      rfl
  | @token p m q u ts hmore hnext hm hrest ih =>
    obtain ⟨consumed, hseen, htokens⟩ := ih hq
    rw [hm] at hseen
    refine ⟨p.lookahead.toList ++ consumed, ?_, ?_⟩
    · rw [List.append_assoc, ← hseen]
      rfl
    · rw [tokens_of_lookahead hmore, tokens_of_given hnext hm, htokens, List.append_assoc]

end

end Parser

end ExprCompiler
