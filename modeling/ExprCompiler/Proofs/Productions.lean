import ExprCompiler.Proofs.TokensAhead
import ExprCompiler.Proofs.Using

/-!
# What passes through every production

A property of parses that the steps of the parser have, and that a parse has
when its parts have it, is a property of every production. Which token is the
lookahead when a parse begins is part of the property, where it is known: the
parser goes over a token only after it has looked at it.
-/

namespace ExprCompiler.Parser

structure Compositional (P : {α : Type} → Option Token → ParserM α → Prop) : Prop where
  pure {α : Type} (o : Option Token) (a : α) : P o (Pure.pure a : ParserM α)
  exhausted {α : Type} (o : Option Token) : P o (throw .exhausted : ParserM α)
  reject {α : Type} (e : ParseError) : P (some e.token) (Parser.reject e : ParserM α)
  bind {α β : Type} {o : Option Token} {x : ParserM α} {k : α → ParserM β} (hx : P o x)
    (hk : ∀ a, P none (k a)) : P o (x >>= k)
  forget {α : Type} {x : ParserM α} (hx : P none x) (o : Option Token) : P o x
  current {β : Type} {k : Token → ParserM β} (hk : ∀ t, P (some t) (k t)) :
    P none (Parser.current >>= k)
  seen {β : Type} {t : Token} {k : Token → ParserM β} (hk : P (some t) (k t)) :
    P (some t) (Parser.current >>= k)
  advance {β : Type} {t : Token} {k : Token → ParserM β} (h : t.kind ≠ .endOfInput)
    (hk : ∀ u, P (some u) (k u)) : P (some t) (Parser.advance >>= k)
  depth {β : Type} {o : Option Token} {k : Nat → ParserM β} (hk : ∀ n, P o (k n)) :
    P o (get >>= fun p => k p.depthBound)
  count : P none nextAnonymous

def Sees (p : Parser) (o : Option Token) : Prop := ∀ t ∈ o, p.lookahead = some t

theorem sees_none (p : Parser) : p.Sees none := nofun

theorem sees_some {p : Parser} {t : Token} : p.Sees (some t) ↔ p.lookahead = some t :=
  ⟨fun h => h t rfl, fun h _ hu => Option.some.inj hu ▸ h⟩

theorem advance_cases (p : Parser) :
    (∃ t l, p.lexer.next = .ok (t, l) ∧
      Parser.advance p = .ok t { p with lexer := l, lookahead := some t }) ∨
    ∃ f, p.lexer.next = .error f ∧ Parser.advance p = .error (.unread f) p := by
  unfold Parser.advance
  cases h : p.lexer.next with
  | ok r => exact .inl ⟨r.1, r.2, rfl, rfl⟩
  | error f => exact .inr ⟨f, rfl, rfl⟩

theorem sees_of_advance {p q : Parser} {t : Token} (h : Parser.advance p = .ok t q) :
    q.Sees (some t) := by
  obtain ⟨u, l, -, hrun⟩ | ⟨f, -, hrun⟩ := p.advance_cases
  · rw [hrun] at h
    cases h
    exact sees_some.2 rfl
  · rw [hrun] at h
    cases h

theorem current_of_some {p : Parser} {t : Token} (h : p.lookahead = some t) :
    Parser.current p = .ok t p := by
  simp only [Parser.current, h]

theorem current_of_none {p : Parser} (h : p.lookahead = none) :
    Parser.current p = Parser.advance p := by
  simp only [Parser.current, h]

theorem sees_of_current {p q : Parser} {t : Token} (h : Parser.current p = .ok t q) :
    q.Sees (some t) := by
  cases hp : p.lookahead with
  | some u =>
    rw [current_of_some hp] at h
    cases h
    exact sees_some.2 hp
  | none => exact sees_of_advance (current_of_none hp ▸ h)

/-- A relation between where a parse begins and what it comes to, which goes from one step to the
next. The parser advances when it has not read a token yet, or when there is something behind the
one it has read. -/
structure Stepwise (Q : {α : Type} → Parser → EStateM.Result ParseStop Parser α → Prop) :
    Prop where
  refl {α : Type} (p : Parser) (a : α) : Q p (.ok a p)
  exhausted {α : Type} (p : Parser) : Q p (.error .exhausted p : EStateM.Result _ _ α)
  reject {α : Type} {p : Parser} {e : ParseError} (h : p.lookahead = some e.token) :
    Q p (.error (.invalid e) p : EStateM.Result _ _ α)
  advance {p : Parser} (h : ∀ t ∈ p.lookahead, t.kind ≠ .endOfInput) : Q p (Parser.advance p)
  count (p : Parser) : Q p (nextAnonymous p)
  trans {α β : Type} {p q : Parser} {a : α} {r : EStateM.Result ParseStop Parser β}
    (h : Q p (.ok a q)) (hr : Q q r) : Q p r
  stop {α β : Type} {p q : Parser} {s : ParseStop}
    (h : Q p (.error s q : EStateM.Result _ _ α)) : Q p (.error s q : EStateM.Result _ _ β)

section

variable {Q : {α : Type} → Parser → EStateM.Result ParseStop Parser α → Prop}

theorem Stepwise.bind (h : Stepwise Q) {α β : Type} {p : Parser} {x : ParserM α}
    {k : α → ParserM β} (hx : Q p (x p)) (hk : ∀ a q, x p = .ok a q → Q q (k a q)) :
    Q p ((x >>= k) p) := by
  cases hxp : x p with
  | ok a q =>
    rw [bind_eq_ok hxp]
    exact h.trans (hxp ▸ hx) (hk a q hxp)
  | error s q =>
    rw [bind_eq_error hxp]
    exact h.stop (hxp ▸ hx)

theorem Stepwise.compositional (h : Stepwise Q) :
    Compositional fun o x => ∀ p : Parser, p.Sees o → Q p (x p) where
  pure _ a p _ := h.refl p a
  exhausted _ p _ := h.exhausted p
  reject _ _ hp := h.reject (sees_some.1 hp)
  bind hx hk p hp := h.bind (hx p hp) fun a q _ => hk a q q.sees_none
  forget hx _ p _ := hx p p.sees_none
  current := by
    intro β k hk p _
    cases hp : p.lookahead with
    | some t =>
      rw [bind_eq_ok (current_of_some hp)]
      exact hk t p (sees_some.2 hp)
    | none =>
      have hnone : ∀ t ∈ p.lookahead, t.kind ≠ .endOfInput := by simp [hp]
      exact h.bind (current_of_none hp ▸ h.advance hnone) fun t q hq => hk t q (sees_of_current hq)
  seen hk p hp := by
    rw [bind_eq_ok (current_of_some (sees_some.1 hp))]
    exact hk p hp
  advance := by
    intro β t k ht hk p hp
    have hmore : ∀ u ∈ p.lookahead, u.kind ≠ .endOfInput := by simp [sees_some.1 hp, ht]
    exact h.bind (h.advance hmore) fun u q hq => hk u q (sees_of_advance hq)
  depth hk p hp := hk p.depthBound p hp
  count p _ := h.count p

end

theorem not_end_of_least {t : Token} {least : Int} (h0 : 0 ≤ least)
    (h : ¬ t.precedence < least) : t.kind ≠ .endOfInput := by
  intro hend
  have hnone : t.precedence = -1 := by simp [Token.precedence, hend, notAnOperator]
  omega

namespace Compositional

variable {P : {α : Type} → Option Token → ParserM α → Prop} {n : Nat}

structure Expressions (P : {α : Type} → Option Token → ParserM α → Prop) (n : Nat) : Prop where
  expression : P none (expressionAt n)
  rest {least : Int} (h0 : 0 ≤ least) (lhs : Expr) : P none (binaryRestAt n least lhs)
  primary : P none (primaryAt n)
  arguments {β : Type} {k : List Expr → ParserM β}
    (hk : ∀ args t, t.isChar ")" = true → P (some t) (k args)) : P none (argumentsAt n >>= k)

section

variable (h : Compositional P)

include h

theorem take {α : Type} {t : Token} (ht : t.kind ≠ .endOfInput) (a : α) :
    P (some t) (do
      let _ ← Parser.advance
      return a) :=
  h.advance ht fun u => h.pure (some u) a

theorem number {t : Token} (ht : t.kind = .number) : P (some t) Parser.number := by
  refine h.seen ?_
  have hend := Token.not_end_of_kind ht (by decide)
  cases literal (tokenNumber t) with
  | error reason => exact h.reject (.invalidNumber t reason)
  | ok v => exact h.take hend _

/-! ### Expressions -/

theorem primaryAt (ih : Expressions P n) : P none (Parser.primaryAt (n + 1)) := by
  unfold Parser.primaryAt
  refine h.current fun t => ?_
  split
  · exact h.number ‹_›
  split
  · refine h.advance (Token.not_end_of_kind ‹_› (by decide)) fun paren => ?_
    split
    · refine h.advance (Token.not_end_of_isChar ‹_›) fun first => ?_
      split
      · exact h.seen (h.take (Token.not_end_of_isChar ‹_›) _)
      · refine h.forget (ih.arguments fun args close hclose => ?_) _
        exact h.seen (h.take (Token.not_end_of_isChar hclose) _)
    · exact h.pure _ _
  split
  · refine h.advance (Token.not_end_of_isChar ‹_›) fun first => ?_
    refine h.forget (h.bind ih.expression fun e => h.current fun close => ?_) _
    split
    · exact h.take (Token.not_end_of_isChar ‹_›) _
    · exact h.reject (.unclosedParen close (some t.location))
  · exact h.reject (.invalidExpression t)

theorem argumentsAt (ih : Expressions P n) {β : Type} {k : List Expr → ParserM β}
    (hk : ∀ args t, t.isChar ")" = true → P (some t) (k args)) :
    P none (Parser.argumentsAt (n + 1) >>= k) := by
  unfold Parser.argumentsAt
  rw [bind_assoc]
  refine h.bind ih.expression fun e => ?_
  rw [bind_assoc]
  refine h.current fun t => ?_
  split
  · rw [pure_bind]
    exact hk _ t ‹_›
  split
  · rw [bind_assoc]
    refine h.advance (Token.not_end_of_isChar ‹_›) fun first => ?_
    rw [bind_assoc]
    refine h.forget (ih.arguments fun args close hclose => ?_) _
    rw [pure_bind]
    exact hk _ close hclose
  · exact h.reject (.unexpectedToken _ t)

theorem binaryRestAt (ih : Expressions P n) {least : Int} (h0 : 0 ≤ least) (lhs : Expr) :
    P none (Parser.binaryRestAt (n + 1) least lhs) := by
  unfold Parser.binaryRestAt
  refine h.current fun op => ?_
  split
  · exact h.pure _ _
  · have hop : least ≤ op.precedence := Int.not_lt.1 ‹_›
    refine h.advance (not_end_of_least h0 ‹_›) fun first => ?_
    refine h.forget (h.bind ih.primary fun operand => h.current fun following => ?_) _
    split
    · refine h.forget (h.bind (ih.rest (by omega) operand) fun rhs => ?_) _
      exact ih.rest h0 _
    · exact h.forget (ih.rest h0 _) _

theorem expressions (n : Nat) : Expressions P n := by
  -- On the bound of the depth, for all four parses at once.
  induction n with
  | zero => exact {
      expression := h.exhausted none
      rest := fun _ _ => h.exhausted none
      primary := h.exhausted none
      arguments := fun _ => h.exhausted none }
  | succ n ih => exact {
      expression := h.bind ih.primary fun lhs => ih.rest (Int.le_refl 0) lhs
      rest := fun h0 lhs => h.binaryRestAt ih h0 lhs
      primary := h.primaryAt ih
      arguments := fun hk => h.argumentsAt ih hk }

theorem expression : P none Parser.expression := h.depth fun n => (h.expressions n).expression

/-! ### Units -/

theorem spanFrom (start : Token) : P none (Parser.spanFrom start) :=
  h.current fun t => h.pure (some t) _

theorem parametersAt {t : Token} (ht : t.kind ≠ .endOfInput) : P (some t) (Parser.parametersAt n) := by
  induction n generalizing t with
  | zero => exact h.exhausted _
  | succ n ih =>
    unfold Parser.parametersAt
    refine h.advance ht fun u => ?_
    split
    · exact h.bind (ih (Token.not_end_of_kind ‹_› (by decide))) fun ns => h.pure _ _
    · exact h.pure _ _

theorem prototype : P none Parser.prototype := by
  refine h.current fun name => ?_
  split
  · exact h.reject (.invalidPrototype _ name)
  have hname : name.kind = .identifier := not_not.1 ‹_›
  refine h.advance (Token.not_end_of_kind hname (by decide)) fun paren => ?_
  split
  · exact h.reject (.invalidPrototype _ paren)
  have hparen : paren.isChar "(" = true := by simpa using ‹¬ (!paren.isChar "(") = true›
  refine h.depth (k := fun n => Parser.parametersAt n >>= _) fun n => ?_
  refine h.bind (h.parametersAt (Token.not_end_of_isChar hparen)) fun params => ?_
  refine h.current fun close => ?_
  split
  · exact h.reject (.invalidPrototype _ close)
  have hclose : close.isChar ")" = true := by simpa using ‹¬ (!close.isChar ")") = true›
  refine h.advance (Token.not_end_of_isChar hclose) fun next => ?_
  exact h.forget (h.bind (h.spanFrom name) fun span => h.pure _ _) _

theorem expect {kind : TokenKind} (hkind : kind ≠ .endOfInput) (words : String) :
    P none (Parser.expect kind words) := by
  refine h.current fun t => ?_
  split
  · exact h.reject (.unexpectedToken words t)
  · have ht : t.kind = kind := not_not.1 ‹_›
    exact h.take (Token.not_end_of_kind ht hkind) _

theorem definition : P none Parser.definition := by
  refine h.bind (h.expect (by decide) _) fun start => h.bind h.prototype fun proto => ?_
  refine h.bind h.expression fun body => h.bind (h.spanFrom start) fun span => h.pure _ _

theorem external : P none Parser.external :=
  h.bind (h.expect (by decide) _) fun _ => h.prototype

theorem bareExpression : P none Parser.bareExpression := by
  refine h.current fun start => h.forget (h.bind h.expression fun body => ?_) _
  exact h.bind h.count fun number => h.bind (h.spanFrom start) fun span => h.pure _ _

end

end Compositional

end ExprCompiler.Parser
