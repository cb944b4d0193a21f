import ExprCompiler.Proofs.Climbing

/-!
# Units read off tokens

Definitions, external prototypes and bare expressions as readers of a row of
tokens, and the parser's agreement with them.
-/

namespace ExprCompiler

namespace Layered

def isName (t : Token) : Bool := t.kind == .identifier

def parameters : Reading (List String) := fun ts =>
  .ok ((ts.takeWhile isName).map Token.lexeme) (ts.dropWhile isName)

def expected (kind : TokenKind) (words : String) : Reading Token := do
  let t ← peek
  if t.kind = kind then
    skip
    return t
  else throw (.unexpectedToken words t)

def prototype : Reading Prototype := do
  let name ← peek
  if name.kind = .identifier then
    skip
    let paren ← peek
    if paren.isChar "(" then
      skip
      let params ← parameters
      let close ← peek
      if close.isChar ")" then
        skip
        let next ← peek
        return ⟨name.lexeme, params, some ⟨name.location, next.location⟩⟩
      else throw (.invalidPrototype "')'" close)
    else throw (.invalidPrototype "'('" paren)
  else throw (.invalidPrototype "function name" name)

def definition : Reading Definition := do
  let start ← expected .defKeyword "expected 'def'"
  let proto ← prototype
  let body ← comparison
  let next ← peek
  return ⟨proto, body, some ⟨start.location, next.location⟩⟩

def external : Reading Prototype := do
  let _ ← expected .externKeyword "expected 'extern'"
  prototype

def bareExpression (number : Nat) : Reading Definition := do
  let start ← peek
  let body ← comparison
  let next ← peek
  let span : Option Span := some ⟨start.location, next.location⟩
  return ⟨⟨anonymousName number, [], span⟩, body, span⟩

def unit (number : Nat) : Reading TopLevel := do
  match (← peek).kind with
  | .defKeyword => return .definition (← definition)
  | .externKeyword => return .external (← external)
  | _ => return .definition (← bareExpression number)

theorem parameters_eq :
    parameters = (do
      let t ← peek
      if t.kind = .identifier then
        skip
        return t.lexeme :: (← parameters)
      else return []) := by
  funext ts
  rw [peek_bind]
  cases ts with
  | nil => rfl
  | cons t ts =>
    by_cases h : t.kind = .identifier
    · have hname : isName t = true := by simp [isName, h]
      rw [look_cons, if_pos h, parameters, List.takeWhile_cons_of_pos hname,
        List.dropWhile_cons_of_pos hname]
      rfl
    · have hname : ¬ isName t = true := by simp [isName, h]
      rw [look_cons, if_neg h, parameters, List.takeWhile_cons_of_neg hname,
        List.dropWhile_cons_of_neg hname]
      rfl

end Layered

namespace Parser

variable {p q : Parser} {ts us : List Token}

theorem Facing.parameters_agrees {n : Nat} (h : p.Facing ts) (hn : ts.length ≤ n)
    (hend : (look ts).kind ≠ .endOfInput) :
    Agrees p (parametersAt n p) (Layered.parameters ts.tail) := by
  induction n generalizing p ts with
  | zero => exact absurd h.length_pos (by omega)
  | succ n ih =>
    have hlt := length_tail_lt hend
    obtain ⟨q, hq, hmoved, hadvance⟩ := h.advance_bind hend
    rw [parametersAt, hadvance, Layered.parameters_eq, Layered.peek_bind]
    refine hmoved.agrees ?_
    by_cases hname : (look ts.tail).kind = .identifier
    · rw [if_pos hname, if_pos hname, Layered.skip_bind]
      have hend := Token.not_end_of_kind hname (by decide)
      exact (ih hq (by omega) hend).bind fun ns r us hr _ => hr.agrees_pure _
    · rw [if_neg hname, if_neg hname]
      exact hq.agrees_pure _

theorem Facing.spanFrom_bind {α : Type} (h : p.Facing ts) (start : Token) (k : Span → ParserM α) :
    (spanFrom start >>= k) p = k ⟨start.location, (look ts).location⟩ p := by
  rw [spanFrom, bind_assoc, h.current_bind, pure_bind]

theorem Facing.prototype_agrees (h : p.Facing ts) :
    Agrees p (prototype p) (Layered.prototype ts) := by
  refine h.agrees_current ?_
  by_cases hname : (look ts).kind = .identifier
  swap
  · simp only [hname, ne_eq, not_false_eq_true, if_true, if_false]
    exact h.agrees_reject _
  simp only [hname, ne_eq, not_true_eq_false, if_true, if_false]
  refine h.agrees_advance (Token.not_end_of_kind hname (by decide)) fun q hq => ?_
  rw [Layered.peek_bind]
  cases hparen : (look ts.tail).isChar "(" with
  | false => exact hq.agrees_reject _
  | true =>
    have hend := Token.not_end_of_isChar hparen
    have hparameters := hq.parameters_agrees (n := q.depthBound) (by have := hq.depth; omega) hend
    simp only [Bool.not_true, Bool.false_eq_true, if_false, if_true]
    rw [bind_eq_ok (get_eq_ok q), Layered.skip_bind]
    refine hparameters.bind fun params r us hr _ => hr.agrees_current ?_
    cases hclose : (look us).isChar ")" with
    | false => exact hr.agrees_reject _
    | true =>
      simp only [Bool.not_true, Bool.false_eq_true, if_false, if_true]
      refine hr.agrees_advance (Token.not_end_of_isChar hclose) fun s hs => ?_
      rw [hs.spanFrom_bind, Layered.peek_bind]
      exact hs.agrees_pure _

theorem Facing.expect_agrees (h : p.Facing ts) (kind : TokenKind) (hkind : kind ≠ .endOfInput)
    (words : String) : Agrees p (expect kind words p) (Layered.expected kind words ts) := by
  refine h.agrees_current ?_
  by_cases ht : (look ts).kind = kind
  · simp only [ht, ne_eq, not_true_eq_false, if_true, if_false]
    exact h.agrees_advance (Token.not_end_of_kind ht hkind) fun q hq => hq.agrees_pure _
  · simp only [ht, ne_eq, not_false_eq_true, if_true, if_false]
    exact h.agrees_reject _

theorem Facing.definition_agrees (h : p.Facing ts) :
    Agrees p (definition p) (Layered.definition ts) := by
  refine (h.expect_agrees .defKeyword (by decide) _).bind fun start q us hq _ => ?_
  refine hq.prototype_agrees.bind fun proto r vs hr _ => ?_
  refine hr.expression_agrees.bind fun body s ws hs _ => ?_
  rw [hs.spanFrom_bind, Layered.peek_bind]
  exact hs.agrees_pure _

theorem Facing.external_agrees (h : p.Facing ts) :
    Agrees p (external p) (Layered.external ts) :=
  (h.expect_agrees .externKeyword (by decide) _).bind fun _ _ _ hq _ => hq.prototype_agrees

theorem Facing.bareExpression_agrees (h : p.Facing ts) :
    (∃ d q us, bareExpression p = .ok d q ∧ Layered.bareExpression p.anonymous ts = .ok d us ∧
      q.Facing us ∧ Moved { p with anonymous := p.anonymous + 1 } q) ∨
    ∃ e q us, bareExpression p = .error (.invalid e) q ∧
      Layered.bareExpression p.anonymous ts = .error e us ∧ q.Facing us ∧ Moved p q := by
  unfold bareExpression Layered.bareExpression
  rw [h.current_bind, Layered.peek_bind]
  have hagrees := h.expression_agrees
  generalize hx : expression p = r at hagrees
  generalize hy : Layered.comparison ts = s at hagrees
  cases hagrees with
  | @ok body q us hq hmoved =>
    have hnext : nextAnonymous q = .ok q.anonymous { q with anonymous := q.anonymous + 1 } := rfl
    have hq' : Facing { q with anonymous := q.anonymous + 1 } us :=
      ⟨hq.closed, hq.lookahead, hq.tokens⟩
    rw [bind_eq_ok hx, bind_eq_ok hy, bind_eq_ok hnext, hq'.spanFrom_bind, Layered.peek_bind,
      hmoved.anonymous]
    refine Or.inl ⟨_, _, us, rfl, rfl, ?_, ?_⟩
    · exact ⟨hq.closed, hq.lookahead, hq.tokens⟩
    · exact ⟨rfl, hmoved.errors⟩
  | @error e q us hq hmoved =>
    rw [bind_eq_error hx, bind_eq_error hy]
    exact Or.inr ⟨e, q, us, rfl, rfl, hq, hmoved⟩

end Parser

end ExprCompiler
