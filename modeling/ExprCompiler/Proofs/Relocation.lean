import ExprCompiler.Proofs.Positions
import ExprCompiler.Proofs.UnitsAhead

/-!
# Reading the same tokens elsewhere

What is read off a row of tokens does not depend on where they stand, but for
the places it names. Nor does reading, behind the first token of a unit, go
over a keyword.
-/

namespace ExprCompiler

open ExprCompiler.Parser (literal tokenNumber joinSpans)

namespace Token

def isKeyword (t : Token) : Bool := t.kind == .defKeyword || t.kind == .externKeyword

variable {t u : Token}

theorem isKeyword_of_kind {k : TokenKind} (h : t.kind = k) (hd : k ≠ .defKeyword)
    (he : k ≠ .externKeyword) : t.isKeyword = false := by
  simp [isKeyword, h, hd, he]

theorem isKeyword_of_isChar {c : String} (h : t.isChar c = true) : t.isKeyword = false :=
  isKeyword_of_kind (kind_of_isChar h) (by decide) (by decide)

namespace Alike

variable (h : t.Alike u)
include h

theorem isChar (c : String) : u.isChar c = t.isChar c := by
  rw [Token.isChar, Token.isChar, h.kind, h.lexeme]

theorem isOneOf (ops : List String) : u.isOneOf ops = t.isOneOf ops := by
  rw [Token.isOneOf, Token.isOneOf, h.kind, h.lexeme]

theorem tokenNumber : tokenNumber u = tokenNumber t := by
  rw [Parser.tokenNumber, Parser.tokenNumber, h.value]

end Alike

end Token

inductive ParseError.Alike : ParseError → ParseError → Prop
  | unexpectedToken {t u : Token} (words : String) (h : t.Alike u) :
    Alike (.unexpectedToken words t) (.unexpectedToken words u)
  | invalidExpression {t u : Token} (h : t.Alike u) :
    Alike (.invalidExpression t) (.invalidExpression u)
  | invalidPrototype {t u : Token} (words : String) (h : t.Alike u) :
    Alike (.invalidPrototype words t) (.invalidPrototype words u)
  | unclosedParen {t u : Token} (l m : Location) (h : t.Alike u) :
    Alike (.unclosedParen t (some l)) (.unclosedParen u (some m))
  | invalidNumber {t u : Token} (reason : String) (h : t.Alike u) :
    Alike (.invalidNumber t reason) (.invalidNumber u reason)

namespace Layered

def Passed (ts us : List Token) : Prop := ∃ c, ts = c ++ us ∧ ∀ t ∈ c, t.isKeyword = false

namespace Passed

variable {ts us vs : List Token}

theorem refl (ts : List Token) : Passed ts ts := ⟨[], rfl, nofun⟩

theorem trans (h : Passed ts us) (k : Passed us vs) : Passed ts vs := by
  obtain ⟨c, rfl, hc⟩ := h
  obtain ⟨d, rfl, hd⟩ := k
  exact ⟨c ++ d, by rw [List.append_assoc], List.forall_mem_append.2 ⟨hc, hd⟩⟩

theorem suffix (h : Passed ts us) : us <:+ ts := by
  obtain ⟨c, rfl, -⟩ := h
  exact List.suffix_append c us

theorem tail (h : (look ts).isKeyword = false) : Passed ts ts.tail := by
  cases ts with
  | nil => exact .refl _
  | cons t ts => exact ⟨[t], rfl, List.forall_mem_singleton.2 h⟩

end Passed

/-- Two readings of rows of tokens give things that are related, or errors that are alike, pass no
keyword, and leave tokens that differ in where they stand at most. -/
inductive Twin {α β : Type} (R : α → β → Prop) (ts : List Token) :
    EStateM.Result ParseError (List Token) α → EStateM.Result ParseError (List Token) β → Prop
  | ok {a : α} {b : β} {ts' us' : List Token} (related : R a b) (passed : Passed ts ts')
    (same : Same ts' us') : Twin R ts (.ok a ts') (.ok b us')
  | error {e f : ParseError} {ts' us' : List Token} (alike : e.Alike f) (passed : Passed ts ts')
    (same : Same ts' us') : Twin R ts (.error e ts') (.error f us')

section

variable {α β γ δ : Type} {R : α → β → Prop} {S : γ → δ → Prop} {ts ts' us : List Token}

theorem Twin.passed {r : EStateM.Result ParseError (List Token) α}
    {s : EStateM.Result ParseError (List Token) β} (hp : Passed ts ts') (h : Twin R ts' r s) :
    Twin R ts r s := by
  cases h with
  | ok hrelated hpassed hsame => exact .ok hrelated (hp.trans hpassed) hsame
  | error halike hpassed hsame => exact .error halike (hp.trans hpassed) hsame

theorem Twin.pure {a : α} {b : β} (hr : R a b) (h : Same ts us) :
    Twin R ts ((Pure.pure a : Reading α) ts) ((Pure.pure b : Reading β) us) :=
  .ok hr (.refl ts) h

theorem Twin.fault {e f : ParseError} (he : e.Alike f) (h : Same ts us) :
    Twin R ts ((throw e : Reading α) ts) ((throw f : Reading β) us) :=
  .error he (.refl ts) h

theorem Twin.bind {x : Reading α} {y : Reading β} {k : α → Reading γ} {l : β → Reading δ}
    (h : Twin R ts (x ts) (y us))
    (hk : ∀ a b ts' us', R a b → x ts = .ok a ts' → Same ts' us' →
      Twin S ts' (k a ts') (l b us')) :
    Twin S ts ((x >>= k) ts) ((y >>= l) us) := by
  generalize hx : x ts = r at h
  generalize hy : y us = s at h
  cases h with
  | ok hrelated hpassed hsame =>
    rw [bind_eq_ok hx, bind_eq_ok hy]
    exact (hk _ _ _ _ hrelated hx hsame).passed hpassed
  | error halike hpassed hsame =>
    rw [bind_eq_error hx, bind_eq_error hy]
    exact .error halike hpassed hsame

theorem Twin.skip {k l : Unit → Reading α} {R : α → α → Prop}
    (hk : (look ts).isKeyword = false) (h : Twin R ts.tail (k () ts.tail) (l () us.tail)) :
    Twin R ts ((skip >>= k) ts) ((skip >>= l) us) := by
  rw [skip_bind, skip_bind]
  exact h.passed (.tail hk)

end

def ExprTwin (ts : List Token) (r s : EStateM.Result ParseError (List Token) Expr) : Prop :=
  Twin (fun e f => e.alike f = true) ts r s

def ArgumentsTwin (ts : List Token)
    (r s : EStateM.Result ParseError (List Token) (List Expr × Token)) : Prop :=
  Twin (fun a b => Expr.allAlike a.1 b.1 = true) ts r s

structure Twins (n : Nat) : Prop where
  chain (gs : List (List String)) {ts us : List Token} (h : Same ts us) (hn : ts.length < n) :
    ExprTwin ts (chain gs ts) (chain gs us)
  links (ops : List String) (tighter : List (List String)) {lhs lhs' : Expr}
    (hlhs : lhs.alike lhs' = true) {ts us : List Token} (h : Same ts us) (hn : ts.length < n) :
    ExprTwin ts (links ops tighter lhs ts) (links ops tighter lhs' us)
  list {ts us : List Token} (h : Same ts us) (hn : ts.length < n) :
    ArgumentsTwin ts (list ts) (list us)

theorem Twins.zero : Twins 0 where
  chain _ _ _ _ hn := absurd hn (Nat.not_lt_zero _)
  links _ _ _ _ _ _ _ _ hn := absurd hn (Nat.not_lt_zero _)
  list _ hn := absurd hn (Nat.not_lt_zero _)

namespace Twins

variable {n : Nat} (ih : Twins n) {ts us : List Token}
include ih

theorem arguments (h : Same ts us) (hn : ts.length < n) :
    ArgumentsTwin ts (Layered.arguments ts) (Layered.arguments us) := by
  rw [arguments_eq, peek_bind, peek_bind, h.look.isChar]
  by_cases hclose : (look ts).isChar ")" = true
  · rw [if_pos hclose, if_pos hclose]
    exact .skip (Token.isKeyword_of_isChar hclose) (.pure rfl h.tail)
  · rw [if_neg hclose, if_neg hclose]
    exact ih.list h hn

theorem primary_succ (h : Same ts us) (hn : ts.length < n + 1) :
    ExprTwin ts (Layered.primary ts) (Layered.primary us) := by
  rw [primary_eq, peek_bind, peek_bind, ← h.look.kind, h.look.tokenNumber, h.look.isChar,
    ← h.look.lexeme]
  by_cases hnumber : (look ts).kind = .number
  · rw [if_pos hnumber, if_pos hnumber]
    cases literal (tokenNumber (look ts)) with
    | ok v =>
      exact .skip (Token.isKeyword_of_kind hnumber (by decide) (by decide))
        (.pure (by simp [Expr.alike]) h.tail)
    | error reason => exact .fault (.invalidNumber reason h.look) h
  rw [if_neg hnumber, if_neg hnumber]
  by_cases hname : (look ts).kind = .identifier
  · have hlt := length_tail_lt (Token.not_end_of_kind hname (by decide))
    rw [if_pos hname, if_pos hname]
    refine .skip (Token.isKeyword_of_kind hname (by decide) (by decide)) ?_
    rw [peek_bind, peek_bind, h.tail.look.isChar]
    by_cases hparen : (look ts.tail).isChar "(" = true
    · have hlt' := length_tail_lt (Token.not_end_of_isChar hparen)
      rw [if_pos hparen, if_pos hparen]
      refine .skip (Token.isKeyword_of_isChar hparen) ?_
      refine (ih.arguments h.tail.tail (by omega)).bind fun a b vs ws hab _ hvs => ?_
      exact .pure (by simp [Expr.alike, hab]) hvs
    · rw [if_neg hparen, if_neg hparen]
      exact .pure (by simp [Expr.alike]) h.tail
  rw [if_neg hname, if_neg hname]
  by_cases hparen : (look ts).isChar "(" = true
  · have hlt := length_tail_lt (Token.not_end_of_isChar hparen)
    rw [if_pos hparen, if_pos hparen]
    refine .skip (Token.isKeyword_of_isChar hparen) ?_
    refine (ih.chain layers h.tail (by omega)).bind fun a b vs ws hab _ hvs => ?_
    rw [peek_bind, peek_bind, hvs.look.isChar]
    by_cases hclose : (look vs).isChar ")" = true
    · rw [if_pos hclose, if_pos hclose]
      exact .skip (Token.isKeyword_of_isChar hclose) (.pure hab hvs.tail)
    · rw [if_neg hclose, if_neg hclose]
      exact .fault (.unclosedParen _ _ hvs.look) hvs
  · rw [if_neg hparen, if_neg hparen]
    exact .fault (.invalidExpression h.look) h

theorem chain_succ (gs : List (List String)) (h : Same ts us) (hn : ts.length < n + 1) :
    ExprTwin ts (Layered.chain gs ts) (Layered.chain gs us) := by
  induction gs with
  | nil =>
    rw [chain_nil]
    exact ih.primary_succ h hn
  | cons ops tighter ihgs =>
    rw [chain_cons]
    refine ihgs.bind fun a b vs ws hab hvs hsame => ?_
    have hlt := chain_length_lt hvs
    exact ih.links ops tighter hab hsame (by omega)

theorem links_succ (ops : List String) (tighter : List (List String)) {lhs lhs' : Expr}
    (hlhs : lhs.alike lhs' = true) (h : Same ts us) (hn : ts.length < n + 1) :
    ExprTwin ts (Layered.links ops tighter lhs ts) (Layered.links ops tighter lhs' us) := by
  rw [links_eq, links_eq, peek_bind, peek_bind, h.look.isOneOf, ← h.look.lexeme]
  by_cases hop : (look ts).isOneOf ops = true
  · have hlt := length_tail_lt (Token.not_end_of_isOneOf hop)
    rw [if_pos hop, if_pos hop]
    refine .skip (Token.isKeyword_of_kind (Token.kind_of_isOneOf hop) (by decide) (by decide)) ?_
    refine (ih.chain tighter h.tail (by omega)).bind fun a b vs ws hab hvs hsame => ?_
    have hlt' := chain_length_lt hvs
    exact ih.links ops tighter (by simp [Expr.alike, hlhs, hab]) hsame (by omega)
  · rw [if_neg hop, if_neg hop]
    exact .pure hlhs h

theorem list_succ (h : Same ts us) (hn : ts.length < n + 1) :
    ArgumentsTwin ts (Layered.list ts) (Layered.list us) := by
  rw [list_eq]
  refine (ih.chain_succ layers h hn).bind fun a b vs ws hab hvs hsame => ?_
  have hlt := chain_length_lt hvs
  rw [peek_bind, peek_bind, hsame.look.isChar, hsame.look.isChar]
  by_cases hclose : (look vs).isChar ")" = true
  · rw [if_pos hclose, if_pos hclose]
    exact .skip (Token.isKeyword_of_isChar hclose)
      (.pure (by simp [Expr.allAlike, hab]) hsame.tail)
  rw [if_neg hclose, if_neg hclose]
  by_cases hcomma : (look vs).isChar "," = true
  · have hlt' := length_tail_lt (Token.not_end_of_isChar hcomma)
    rw [if_pos hcomma, if_pos hcomma]
    refine .skip (Token.isKeyword_of_isChar hcomma) ?_
    refine (ih.list hsame.tail (by omega)).bind fun c d xs ys hcd _ hsame' => ?_
    exact .pure (by simp [Expr.allAlike, hab, hcd]) hsame'
  · rw [if_neg hcomma, if_neg hcomma]
    exact .fault (.unexpectedToken _ hsame.look) hsame

end Twins

theorem twins (n : Nat) : Twins n := by
  induction n with
  | zero => exact .zero
  | succ n ih =>
    exact {
      chain := fun gs _ _ h hn => ih.chain_succ gs h hn
      links := fun ops tighter _ _ hlhs _ _ h hn => ih.links_succ ops tighter hlhs h hn
      list := fun h hn => ih.list_succ h hn }

/-! ### Units -/

section

variable {ts us : List Token}

theorem comparison_twin (h : Same ts us) : ExprTwin ts (comparison ts) (comparison us) :=
  (twins _).chain layers h (Nat.lt_succ_self _)

theorem parameters_twin (h : Same ts us) : Twin Eq ts (parameters ts) (parameters us) := by
  induction h with
  | nil => exact .ok rfl (.refl _) .nil
  | @cons t u ts us htu h ih =>
    rw [parameters_eq, peek_bind, peek_bind, look_cons, look_cons, ← htu.kind, ← htu.lexeme]
    by_cases hname : t.kind = .identifier
    · rw [if_pos hname]
      refine .skip (Token.isKeyword_of_kind hname (by decide) (by decide)) ?_
      refine ih.bind fun a b vs ws hab _ hvs => ?_
      exact .pure (congrArg _ hab) hvs
    · rw [if_neg hname]
      exact .pure rfl (.cons htu h)

theorem prototype_twin (h : Same ts us) :
    Twin (fun p q => p.alike q = true) ts (prototype ts) (prototype us) := by
  unfold prototype
  rw [peek_bind, peek_bind, ← h.look.kind, ← h.look.lexeme]
  by_cases hname : (look ts).kind = .identifier
  swap
  · rw [if_neg hname, if_neg hname]
    exact .fault (.invalidPrototype _ h.look) h
  rw [if_pos hname, if_pos hname]
  refine .skip (Token.isKeyword_of_kind hname (by decide) (by decide)) ?_
  rw [peek_bind, peek_bind, h.tail.look.isChar]
  by_cases hparen : (look ts.tail).isChar "(" = true
  swap
  · rw [if_neg hparen, if_neg hparen]
    exact .fault (.invalidPrototype _ h.tail.look) h.tail
  rw [if_pos hparen, if_pos hparen]
  refine .skip (Token.isKeyword_of_isChar hparen) ?_
  refine (parameters_twin h.tail.tail).bind fun a b vs ws hab _ hvs => ?_
  rw [peek_bind, peek_bind, hvs.look.isChar]
  by_cases hclose : (look vs).isChar ")" = true
  · rw [if_pos hclose, if_pos hclose]
    refine .skip (Token.isKeyword_of_isChar hclose) ?_
    rw [peek_bind, peek_bind]
    exact .pure (by simp [Prototype.alike, hab]) hvs.tail
  · rw [if_neg hclose, if_neg hclose]
    exact .fault (.invalidPrototype _ hvs.look) hvs

theorem expected_bind {α : Type} {kind : TokenKind} (h : (look ts).kind = kind) (words : String)
    (k : Token → Reading α) : (expected kind words >>= k) ts = k (look ts) ts.tail := by
  rw [expected, bind_assoc, peek_bind, if_pos h]
  rfl

/-- Behind its first word a definition is read alike wherever it stands, and no keyword is
passed. -/
theorem definition_twin (h : Same ts us) (hd : (look ts).kind = .defKeyword) :
    Twin (fun d e => d.alike e = true) ts.tail (definition ts) (definition us) := by
  rw [definition, expected_bind hd, expected_bind (h.look.kind ▸ hd)]
  refine (prototype_twin h.tail).bind fun p q vs ws hpq _ hvs => ?_
  refine (comparison_twin hvs).bind fun e f xs ys hef _ hxs => ?_
  rw [peek_bind, peek_bind]
  exact .pure (by simp [Definition.alike, hpq, hef]) hxs

theorem external_twin (h : Same ts us) (he : (look ts).kind = .externKeyword) :
    Twin (fun p q => p.alike q = true) ts.tail (external ts) (external us) := by
  rw [external, expected_bind he, expected_bind (h.look.kind ▸ he)]
  exact prototype_twin h.tail

theorem bareExpression_twin (h : Same ts us) (number : Nat) :
    Twin (fun d e => d.alike e = true) ts (bareExpression number ts)
      (bareExpression number us) := by
  unfold bareExpression
  rw [peek_bind, peek_bind]
  refine (comparison_twin h).bind fun e f vs ws hef _ hvs => ?_
  rw [peek_bind, peek_bind]
  exact .pure (by simp [Definition.alike, Prototype.alike, hef]) hvs

end

end Layered

end ExprCompiler
