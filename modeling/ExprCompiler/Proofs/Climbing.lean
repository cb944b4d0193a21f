import ExprCompiler.Proofs.Layered
import ExprCompiler.Proofs.Grammatical

/-!
# Precedences and layers

Folding operators in as long as they bind tightly enough reads the same
expressions as the layered grammar. What is left to do behind an operand, when
operators of some least precedence may follow, are the links of the layers
that bind at least as tightly, those of the tightest layer first.
-/

namespace ExprCompiler

namespace Layered

open ExprCompiler.Parser (joinSpans)

def Loose (gs : List (List String)) (ts : List Token) : Prop :=
  ∀ ops ∈ gs, (look ts).isOneOf ops = false

def rests : List (List String) → Expr → Reading Expr
  | [], lhs => pure lhs
  | ops :: tighter, lhs => rests tighter lhs >>= links ops tighter

theorem chain_eq (gs : List (List String)) : chain gs = primary >>= rests gs := by
  induction gs with
  | nil =>
    rw [chain_nil]
    exact (bind_pure primary).symm
  | cons ops tighter ih => rw [chain_cons, ih, bind_assoc]; rfl

section

variable {ts us : List Token} {gs tighter : List (List String)} {ops : List String} {e : Expr}

theorem links_of_not (lhs : Expr) (h : (look ts).isOneOf ops = false) :
    links ops tighter lhs ts = .ok lhs ts := by
  rw [links_eq, peek_bind, if_neg (by simp [h])]
  rfl

theorem links_of_operator (lhs : Expr) (h : (look ts).isOneOf ops = true) :
    links ops tighter lhs ts =
      (chain tighter >>= fun rhs =>
        links ops tighter (.binary (look ts).lexeme lhs rhs (joinSpans lhs rhs))) ts.tail := by
  rw [links_eq, peek_bind, if_pos h, skip_bind]

theorem rests_of_loose (lhs : Expr) (h : Loose gs ts) : rests gs lhs ts = .ok lhs ts := by
  induction gs with
  | nil => rfl
  | cons ops tighter ih =>
    have htighter := ih fun o ho => h o (List.mem_cons_of_mem _ ho)
    rw [rests, bind_eq_ok htighter, links_of_not lhs (h ops List.mem_cons_self)]

theorem rests_length_le {lhs : Expr} (h : rests gs lhs ts = .ok e us) : us.length ≤ ts.length := by
  induction gs generalizing e us with
  | nil =>
    cases h
    exact Nat.le_refl _
  | cons ops tighter ih =>
    rw [rests] at h
    obtain ⟨inner, vs, hr, h⟩ := exists_of_bind_eq_ok h
    exact Nat.le_trans (links_length_le h) (ih hr)

theorem links_loose {lhs : Expr} (ih : ∀ {ts us e}, chain tighter ts = .ok e us → Loose tighter us)
    (hts : Loose tighter ts) (h : links ops tighter lhs ts = .ok e us) :
    Loose (ops :: tighter) us := by
  -- On the number of tokens, since each link takes some. Only the last step, which finds no
  -- operator to link, says anything about `us`.
  induction hn : ts.length using Nat.strongRecOn generalizing ts lhs with
  | ind n ihn =>
    by_cases hop : (look ts).isOneOf ops = true
    · rw [links_of_operator lhs hop] at h
      obtain ⟨rhs, vs, hc, h⟩ := exists_of_bind_eq_ok h
      have hlt := chain_length_lt hc
      have htail := length_tail_lt (Token.not_end_of_isOneOf hop)
      exact ihn vs.length (by omega) (ih hc) h rfl
    · rw [links_of_not lhs (by simpa using hop)] at h
      cases h
      exact List.forall_mem_cons.2 ⟨by simpa using hop, hts⟩

theorem chain_loose (h : chain gs ts = .ok e us) : Loose gs us := by
  induction gs generalizing ts us e with
  | nil => exact fun ops hops => absurd hops List.not_mem_nil
  | cons ops tighter ih =>
    rw [chain_cons] at h
    obtain ⟨lhs, vs, hc, h⟩ := exists_of_bind_eq_ok h
    exact links_loose ih (ih hc) h

/-- An operator of a layer takes an operand of the tighter layers on its right. Whatever else may
follow then follows the two operands linked by it. -/
theorem rests_of_operator (outer : List (List String)) (lhs : Expr)
    (hloose : Loose tighter ts) (hop : (look ts).isOneOf ops = true) :
    rests (outer ++ ops :: tighter) lhs ts =
      (chain tighter >>= fun rhs =>
        rests (outer ++ ops :: tighter) (.binary (look ts).lexeme lhs rhs (joinSpans lhs rhs)))
        ts.tail := by
  induction outer with
  | nil =>
    rw [List.nil_append, rests, bind_eq_ok (rests_of_loose lhs hloose), links_of_operator lhs hop]
    cases hc : chain tighter ts.tail with
    | error x vs => rw [bind_eq_error hc, bind_eq_error hc]
    | ok rhs vs =>
      rw [bind_eq_ok hc, bind_eq_ok hc, rests, bind_eq_ok (rests_of_loose _ (chain_loose hc))]
  | cons o outer ih =>
    have hbind (x : Reading Expr) (k : Expr → Reading Expr) (y : Reading Expr)
        (h : x ts = y ts.tail) : (x >>= k) ts = (y >>= k) ts.tail := by
      simp only [bind, EStateM.bind, h]
    -- The layers outside of this one come after it, so they see the operands already linked.
    rw [List.cons_append, rests, hbind _ _ _ ih, bind_assoc]
    rfl

end

/-! ### Layers and their precedences -/

def strength (ops : List String) : Int :=
  (ops.head?.bind fun op => operatorPrecedence.lookup op).getD notAnOperator

def layersFrom (least : Int) : List (List String) :=
  layers.filter fun ops => decide (least ≤ strength ops)

theorem mem_layers {ops : List String} (h : ops ∈ layers) :
    ops = ["<"] ∨ ops = ["+", "-"] ∨ ops = ["*"] := by
  simpa [layers] using h

theorem layersFrom_eq (least : Int) :
    layersFrom least = (if least ≤ 10 then [["<"]] else []) ++
      ((if least ≤ 20 then [["+", "-"]] else []) ++ if least ≤ 40 then [["*"]] else []) := by
  have hless : strength ["<"] = 10 := rfl
  have hplus : strength ["+", "-"] = 20 := rfl
  have htimes : strength ["*"] = 40 := rfl
  simp only [layersFrom, layers, List.filter_cons, List.filter_nil, hless, hplus, htimes,
    decide_eq_true_eq]
  split <;> split <;> split <;> rfl

theorem precedence_of_char {t : Token} (h : t.kind = .char) :
    t.precedence = if t.lexeme = "<" then 10 else if t.lexeme = "+" then 20
      else if t.lexeme = "-" then 20 else if t.lexeme = "*" then 40 else -1 := by
  simp only [Token.precedence, if_pos h, operatorPrecedence, List.lookup_cons, List.lookup_nil,
    notAnOperator]
  by_cases h1 : t.lexeme = "<"
  · simp [h1]
  by_cases h2 : t.lexeme = "+"
  · simp [h2]
  by_cases h3 : t.lexeme = "-"
  · simp [h3]
  by_cases h4 : t.lexeme = "*"
  · simp [h4]
  · simp [beq_false_of_ne h1, beq_false_of_ne h2, beq_false_of_ne h3, beq_false_of_ne h4, h1, h2,
      h3, h4]

theorem isOneOf_iff {t : Token} {ops : List String} (h : ops ∈ layers) :
    t.isOneOf ops = true ↔ t.precedence = strength ops := by
  have hless : strength ["<"] = 10 := rfl
  have hplus : strength ["+", "-"] = 20 := rfl
  have htimes : strength ["*"] = 40 := rfl
  by_cases hk : t.kind = .char
  · rw [precedence_of_char hk]
    obtain rfl | rfl | rfl := mem_layers h
    all_goals
      simp only [Token.isOneOf, hk, hless, hplus, htimes, List.contains_cons, List.contains_nil]
      grind
  · have hnot : t.precedence = -1 := if_neg hk
    rw [hnot]
    obtain rfl | rfl | rfl := mem_layers h <;> simp [Token.isOneOf, hk, hless, hplus, htimes]

theorem exists_layer {t : Token} (h : 0 ≤ t.precedence) :
    ∃ ops ∈ layers, t.isOneOf ops = true := by
  have hk : t.kind = .char := by
    by_contra hk
    rw [Token.precedence, if_neg hk] at h
    exact absurd h (by decide)
  have hof (ops : List String) (hmem : ops ∈ layers) (hop : t.lexeme ∈ ops) :
      ∃ ops ∈ layers, t.isOneOf ops = true :=
    ⟨ops, hmem, by simp [Token.isOneOf, hk, hop]⟩
  have hop : t.lexeme = "<" ∨ t.lexeme = "+" ∨ t.lexeme = "-" ∨ t.lexeme = "*" := by
    simpa [operatorPrecedence] using Parser.operator_of_precedence h
  obtain hop | hop | hop | hop := hop
  · exact hof ["<"] (by decide) (by simp [hop])
  · exact hof ["+", "-"] (by decide) (by simp [hop])
  · exact hof ["+", "-"] (by decide) (by simp [hop])
  · exact hof ["*"] (by decide) (by simp [hop])

section

variable {ts : List Token} {least : Int}

theorem loose_layersFrom (h : (look ts).precedence < least) : Loose (layersFrom least) ts := by
  intro ops hops
  obtain ⟨hlayer, hleast⟩ := List.mem_filter.1 hops
  have hle : least ≤ strength ops := by simpa using hleast
  by_contra hop
  have heq := (isOneOf_iff hlayer).1 (by simpa using hop)
  omega

theorem layersFrom_of_operator (h0 : 0 ≤ least) (h : least ≤ (look ts).precedence) :
    ∃ outer ops, layersFrom least = outer ++ ops :: layersFrom ((look ts).precedence + 1) ∧
      (look ts).isOneOf ops = true := by
  obtain ⟨ops, hlayer, hop⟩ := exists_layer (Int.le_trans h0 h)
  have hstrength := (isOneOf_iff hlayer).1 hop
  rw [hstrength] at h ⊢
  obtain rfl | rfl | rfl := mem_layers hlayer
  · have hle : least ≤ 10 := h
    have hbehind : layersFrom (strength ["<"] + 1) = [["+", "-"], ["*"]] := by decide
    refine ⟨[], ["<"], ?_, hop⟩
    rw [layersFrom_eq, hbehind, if_pos hle, if_pos (show least ≤ 20 by omega),
      if_pos (show least ≤ 40 by omega)]
    rfl
  · have hle : least ≤ 20 := h
    have hbehind : layersFrom (strength ["+", "-"] + 1) = [["*"]] := by decide
    refine ⟨if least ≤ 10 then [["<"]] else [], ["+", "-"], ?_, hop⟩
    rw [layersFrom_eq, hbehind, if_pos hle, if_pos (show least ≤ 40 by omega)]
    rfl
  · have hle : least ≤ 40 := h
    have hbehind : layersFrom (strength ["*"] + 1) = [] := by decide
    refine ⟨(if least ≤ 10 then [["<"]] else []) ++ if least ≤ 20 then [["+", "-"]] else [],
      ["*"], ?_, hop⟩
    rw [layersFrom_eq, hbehind, if_pos hle, List.append_assoc]

end

end Layered

theorem Token.not_end_of_precedence {t : Token} (h : 0 ≤ t.precedence) : t.kind ≠ .endOfInput := by
  obtain ⟨ops, -, hop⟩ := Layered.exists_layer h
  exact t.not_end_of_isOneOf hop

namespace Parser

open ExprCompiler.Layered (Reading comparison layersFrom rests)

/-- A parse gives what a reader of the tokens ahead gives, an expression or an error, and stops in
front of the same tokens. -/
inductive Agrees {α : Type} (p : Parser) :
    EStateM.Result ParseStop Parser α → EStateM.Result ParseError (List Token) α → Prop
  | ok {a : α} {q : Parser} {ts : List Token} (facing : q.Facing ts) (moved : Moved p q) :
    Agrees p (.ok a q) (.ok a ts)
  | error {e : ParseError} {q : Parser} {ts : List Token} (facing : q.Facing ts)
    (moved : Moved p q) : Agrees p (.error (.invalid e) q) (.error e ts)

section

variable {α β : Type} {p q : Parser} {ts us : List Token}

theorem Moved.agrees {r : EStateM.Result ParseStop Parser α}
    {s : EStateM.Result ParseError (List Token) α} (h : Moved p q) (k : Agrees q r s) :
    Agrees p r s := by
  cases k with
  | ok hfacing hmoved => exact .ok hfacing (h.trans hmoved)
  | error hfacing hmoved => exact .error hfacing (h.trans hmoved)

theorem Facing.agrees_pure (h : p.Facing ts) (a : α) :
    Agrees p ((pure a : ParserM α) p) ((pure a : Reading α) ts) :=
  .ok h (.refl p)

theorem Facing.agrees_reject (h : p.Facing ts) (e : ParseError) :
    Agrees p ((reject e : ParserM α) p) ((throw e : Reading α) ts) :=
  .error h (.refl p)

theorem Agrees.bind {x : ParserM α} {y : Reading α} {k : α → ParserM β} {l : α → Reading β}
    (h : Agrees p (x p) (y ts))
    (hk : ∀ a q us, q.Facing us → y ts = .ok a us → Agrees q (k a q) (l a us)) :
    Agrees p ((x >>= k) p) ((y >>= l) ts) := by
  generalize hx : x p = r at h
  generalize hy : y ts = s at h
  cases h with
  | ok hfacing hmoved =>
    rw [bind_eq_ok hx, bind_eq_ok hy]
    exact hmoved.agrees (hk _ _ _ hfacing hy)
  | error hfacing hmoved =>
    rw [bind_eq_error hx, bind_eq_error hy]
    exact .error hfacing hmoved

theorem Facing.agrees_current {k : Token → ParserM α} {l : Token → Reading α} (h : p.Facing ts)
    (hk : Agrees p (k (look ts) p) (l (look ts) ts)) :
    Agrees p ((current >>= k) p) ((Layered.peek >>= l) ts) := by
  rwa [h.current_bind, Layered.peek_bind]

theorem Facing.agrees_advance {k : Token → ParserM α} {l : Unit → Reading α} (h : p.Facing ts)
    (hend : (look ts).kind ≠ .endOfInput)
    (hk : ∀ q, q.Facing ts.tail → Agrees q (k (look ts.tail) q) (l () ts.tail)) :
    Agrees p ((advance >>= k) p) ((Layered.skip >>= l) ts) := by
  obtain ⟨q, hq, hmoved, hadvance⟩ := h.advance_bind hend
  rw [hadvance, Layered.skip_bind]
  exact hmoved.agrees (hk q hq)

end

/-! ### One production of the grammar after the other -/

def closing (x : ParserM (List Expr)) : ParserM (List Expr × Token) := do
  let args ← x
  let close ← current
  let _ ← advance
  return (args, close)

structure Climbs (n : Nat) : Prop where
  primary {p : Parser} {ts : List Token} (h : p.Facing ts) (hn : 2 * ts.length ≤ n + 1) :
    Agrees p (primaryAt n p) (Layered.primary ts)
  rest {p : Parser} {ts : List Token} {least : Int} (h0 : 0 ≤ least) (lhs : Expr)
    (h : p.Facing ts) (hn : 2 * ts.length ≤ n) :
    Agrees p (binaryRestAt n least lhs p) (rests (layersFrom least) lhs ts)
  expression {p : Parser} {ts : List Token} (h : p.Facing ts) (hn : 2 * ts.length ≤ n) :
    Agrees p (expressionAt n p) (comparison ts)
  arguments {p : Parser} {ts : List Token} (h : p.Facing ts) (hn : 2 * ts.length + 1 ≤ n) :
    Agrees p (closing (argumentsAt n) p) (Layered.list ts)

section

variable {p : Parser} {ts : List Token} {n : Nat}

theorem Facing.length_pos (h : p.Facing ts) : 0 < ts.length := List.length_pos_iff.2 h.ne_nil

theorem Climbs.zero : Climbs 0 where
  primary h hn := absurd h.length_pos (by omega)
  rest _ _ h hn := absurd h.length_pos (by omega)
  expression h hn := absurd h.length_pos (by omega)
  arguments h hn := absurd h.length_pos (by omega)

namespace Climbs

variable (ih : Climbs n)
include ih

theorem expression_succ (h : p.Facing ts) (hn : 2 * ts.length ≤ n + 1) :
    Agrees p (expressionAt (n + 1) p) (comparison ts) := by
  have hall : Layered.layers = layersFrom 0 := by decide
  rw [expressionAt, comparison, hall, Layered.chain_eq]
  refine (ih.primary h hn).bind fun lhs q us hq hus => ?_
  have hlt := Layered.primary_length_lt hus
  exact ih.rest (Int.le_refl 0) lhs hq (by omega)

theorem rest_succ {least : Int} (h0 : 0 ≤ least) (lhs : Expr) (h : p.Facing ts)
    (hn : 2 * ts.length ≤ n + 1) :
    Agrees p (binaryRestAt (n + 1) least lhs p) (rests (layersFrom least) lhs ts) := by
  rw [binaryRestAt, h.current_bind]
  by_cases hop : (look ts).precedence < least
  · rw [if_pos hop, Layered.rests_of_loose lhs (Layered.loose_layersFrom hop)]
    exact h.agrees_pure lhs
  have hle : least ≤ (look ts).precedence := Int.not_lt.1 hop
  have hend := Token.not_end_of_precedence (Int.le_trans h0 hle)
  have hlt := length_tail_lt hend
  obtain ⟨outer, ops, hlayers, hof⟩ := Layered.layersFrom_of_operator h0 hle
  obtain ⟨q, hq, hmoved, hadvance⟩ := h.advance_bind hend
  have hloose := Layered.loose_layersFrom (Int.lt_succ (look ts).precedence)
  rw [if_neg hop, hadvance, hlayers, Layered.rests_of_operator outer lhs hloose hof, ← hlayers,
    Layered.chain_eq, bind_assoc]
  refine hmoved.agrees ((ih.primary hq (by omega)).bind fun operand r us hr hus => ?_)
  have hus := Layered.primary_length_lt hus
  -- The loop goes on with the linked operands, and with the same least precedence.
  have hfold (rhs : Expr) (s : Parser) (vs : List Token) (hs : s.Facing vs)
      (hvs : rests (layersFrom ((look ts).precedence + 1)) operand us = .ok rhs vs) :=
    have hle := Layered.rests_length_le hvs
    ih.rest h0 (.binary (look ts).lexeme lhs rhs (joinSpans lhs rhs)) hs (by omega)
  rw [hr.current_bind]
  by_cases hfollowing : (look ts).precedence < (look us).precedence
  · rw [if_pos hfollowing]
    exact (ih.rest (by omega) operand hr (by omega)).bind hfold
  · -- The operator behind the operand binds no tighter, so nothing is folded into the operand.
    have hloose : Layered.Loose (layersFrom ((look ts).precedence + 1)) us :=
      Layered.loose_layersFrom (by omega)
    have hnone := Layered.rests_of_loose operand hloose
    rw [if_neg hfollowing]
    refine Agrees.bind ?_ hfold
    rw [hnone]
    exact hr.agrees_pure operand

theorem closing_arguments (h : p.Facing ts) (hn : 2 * ts.length + 1 ≤ n) :
    Agrees p (closing (if (look ts).isChar ")" then pure [] else argumentsAt n) p)
      (Layered.arguments ts) := by
  rw [Layered.arguments_eq, Layered.peek_bind]
  by_cases hclose : (look ts).isChar ")" = true
  · rw [if_pos hclose, if_pos hclose, closing, pure_bind, h.current_bind]
    exact h.agrees_advance (Token.not_end_of_isChar hclose) fun q hq => hq.agrees_pure _
  · rw [if_neg hclose, if_neg hclose]
    exact ih.arguments h hn

theorem primary_succ (h : p.Facing ts) (hn : 2 * ts.length ≤ n + 2) :
    Agrees p (primaryAt (n + 1) p) (Layered.primary ts) := by
  rw [primaryAt, h.current_bind, Layered.primary_eq, Layered.peek_bind]
  by_cases hnumber : (look ts).kind = .number
  · rw [if_pos hnumber, if_pos hnumber, number, h.current_bind]
    cases literal (tokenNumber (look ts)) with
    | error reason => exact h.agrees_reject _
    | ok v =>
      exact h.agrees_advance (Token.not_end_of_kind hnumber (by decide)) fun q hq =>
        hq.agrees_pure _
  rw [if_neg hnumber, if_neg hnumber]
  by_cases hname : (look ts).kind = .identifier
  · have hend := Token.not_end_of_kind hname (by decide)
    have hlt := length_tail_lt hend
    rw [if_pos hname, if_pos hname]
    refine h.agrees_advance hend fun q hq => ?_
    rw [Layered.peek_bind]
    by_cases hparen : (look ts.tail).isChar "(" = true
    · have hend := Token.not_end_of_isChar hparen
      have hlt' := length_tail_lt hend
      rw [if_pos hparen, if_pos hparen]
      refine hq.agrees_advance hend fun r hr => ?_
      have hcall := (ih.closing_arguments hr (by omega)).bind
        (k := fun a =>
          pure (Expr.call (look ts).lexeme a.1 (some ⟨(look ts).location, a.2.location⟩)))
        fun a s vs hs _ => hs.agrees_pure _
      cases hfirst : (look ts.tail.tail).isChar ")" <;>
        simpa [hfirst, closing] using hcall
    · rw [if_neg hparen, if_neg hparen]
      exact hq.agrees_pure _
  rw [if_neg hname, if_neg hname]
  by_cases hparen : (look ts).isChar "(" = true
  · have hend := Token.not_end_of_isChar hparen
    have hlt := length_tail_lt hend
    rw [if_pos hparen, if_pos hparen]
    refine h.agrees_advance hend fun q hq => ?_
    refine (ih.expression hq (by omega)).bind fun e r us hr hus => hr.agrees_current ?_
    by_cases hclose : (look us).isChar ")" = true
    · rw [if_pos hclose, if_pos hclose]
      exact hr.agrees_advance (Token.not_end_of_isChar hclose) fun s hs => hs.agrees_pure _
    · rw [if_neg hclose, if_neg hclose]
      exact hr.agrees_reject _
  · rw [if_neg hparen, if_neg hparen]
    exact h.agrees_reject _

theorem arguments_succ (h : p.Facing ts) (hn : 2 * ts.length ≤ n) :
    Agrees p (closing (argumentsAt (n + 1)) p) (Layered.list ts) := by
  rw [argumentsAt, closing, bind_assoc, Layered.list_eq]
  refine (ih.expression h hn).bind fun e q us hq hus => ?_
  have hlt := Layered.chain_length_lt hus
  rw [bind_assoc, hq.current_bind, Layered.peek_bind]
  by_cases hclose : (look us).isChar ")" = true
  · rw [if_pos hclose, if_pos hclose, pure_bind, hq.current_bind]
    exact hq.agrees_advance (Token.not_end_of_isChar hclose) fun r hr => hr.agrees_pure _
  rw [if_neg hclose, if_neg hclose]
  by_cases hcomma : (look us).isChar "," = true
  · have hend := Token.not_end_of_isChar hcomma
    have hlt' := length_tail_lt hend
    rw [if_pos hcomma, if_pos hcomma, bind_assoc]
    refine hq.agrees_advance hend fun r hr => ?_
    have hlist := (ih.arguments hr (by omega)).bind (k := fun a => pure (e :: a.1, a.2))
      fun a s vs hs _ => hs.agrees_pure _
    simpa only [closing, bind_assoc, pure_bind] using hlist
  · rw [if_neg hcomma, if_neg hcomma]
    exact hq.agrees_reject _

end Climbs

theorem climbs (n : Nat) : Climbs n := by
  -- All productions at once, since each calls others with a smaller bound.
  induction n with
  | zero => exact .zero
  | succ n ih =>
    exact {
      primary := fun h hn => ih.primary_succ h (by omega)
      rest := fun h0 lhs h hn => ih.rest_succ h0 lhs h hn
      expression := fun h hn => ih.expression_succ h hn
      arguments := fun h hn => ih.arguments_succ h (by omega) }

theorem Facing.expression_agrees (h : p.Facing ts) :
    Agrees p (expression p) (comparison ts) :=
  (climbs p.depthBound).expression h (by have := h.depth; omega)

end

theorem expressionAt_of_current {p q : Parser} {t : Token} (h : current p = .ok t q)
    (hq : current q = .ok t q) (n : Nat) : expressionAt (n + 2) p = expressionAt (n + 2) q := by
  have hprimary : primaryAt (n + 1) p = primaryAt (n + 1) q := by
    rw [primaryAt, bind_eq_ok h, bind_eq_ok hq]
  rw [expressionAt]
  simp only [bind, EStateM.bind, hprimary]

theorem expression_of_closed {p : Parser} (h : p.lexer.ending = .closed) :
    ∃ q, expression p = expressionAt p.depthBound q ∧ q.Facing p.tokens ∧ Moved p q ∧
      Agrees q (expressionAt p.depthBound q) (comparison p.tokens) := by
  obtain ⟨q, hq, hfacing, hmoved⟩ := current_of_closed h
  have hdepth := p.lt_depthBound
  obtain ⟨n, hn⟩ : ∃ n, p.depthBound = n + 2 := ⟨p.depthBound - 2, by omega⟩
  have hread : expression p = expressionAt p.depthBound q := by
    change expressionAt p.depthBound p = _
    rw [hn, expressionAt_of_current hq hfacing.current_eq]
  exact ⟨q, hread, hfacing, hmoved, (climbs _).expression hfacing (by omega)⟩

section

variable {p : Parser} {ts : List Token}

theorem expression_eq_ok {e : Expr} (h : p.lexer.ending = .closed)
    (he : comparison p.tokens = .ok e ts) : ∃ q, expression p = .ok e q ∧ q.Facing ts := by
  obtain ⟨r, hread, -, -, hagrees⟩ := expression_of_closed h
  rw [hread]
  rw [he] at hagrees
  generalize expressionAt p.depthBound r = result at hagrees
  cases hagrees with
  | ok hfacing => exact ⟨_, rfl, hfacing⟩

theorem expression_eq_error {x : ParseError} (h : p.lexer.ending = .closed)
    (hx : comparison p.tokens = .error x ts) :
    ∃ q, expression p = .error (.invalid x) q ∧ q.Facing ts := by
  obtain ⟨r, hread, -, -, hagrees⟩ := expression_of_closed h
  rw [hread]
  rw [hx] at hagrees
  generalize expressionAt p.depthBound r = result at hagrees
  cases hagrees with
  | error hfacing => exact ⟨_, rfl, hfacing⟩

end

/-- Folding in operators by their precedences reads what the layered grammar reads: from any
complete text, with any token as the lookahead or none, the same expression with the same tokens
left, or the same error about the same token. -/
theorem expression_eq_comparison (p : Parser) (h : p.lexer.ending = .closed) :
    Agrees p (expression p) (comparison p.tokens) := by
  obtain ⟨q, hread, -, hmoved, hagrees⟩ := expression_of_closed h
  rw [hread]
  exact hmoved.agrees hagrees

theorem expression_eq_comparison_mixed :
    (Parser.ofString "a < (1 + 2 * b(x, 3 < 4) * 5 - y) 7 * z" "input").lexer.ending = .closed ∧
      Agrees (.ofString "a < (1 + 2 * b(x, 3 < 4) * 5 - y) 7 * z" "input")
        (expression (.ofString "a < (1 + 2 * b(x, 3 < 4) * 5 - y) 7 * z" "input"))
        (comparison
          (Parser.ofString "a < (1 + 2 * b(x, 3 < 4) * 5 - y) 7 * z" "input").tokens) :=
  ⟨rfl, expression_eq_comparison _ rfl⟩

end Parser

end ExprCompiler
