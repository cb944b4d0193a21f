import ExprCompiler.Proofs.TokensAhead

/-!
# The layered grammar of expressions

The grammar of expressions without precedences, one layer for each binding
strength:

* `comparison ::= sum ('<' sum)*`
* `sum ::= product (('+' | '-') product)*`
* `product ::= primary ('*' primary)*`
* `primary ::= NUMBER | IDENT | IDENT '(' (comparison (',' comparison)*)? ')'
  | '(' comparison ')'`

Its productions are read off a row of tokens by recursive descent, without a
bound on the depth: whatever is read leaves fewer tokens.
-/

namespace ExprCompiler

def Token.isOneOf (t : Token) (ops : List String) : Bool := t.kind == .char && ops.contains t.lexeme

theorem Token.kind_of_isOneOf {t : Token} {ops : List String} (h : t.isOneOf ops = true) :
    t.kind = .char := by
  simp only [isOneOf, Bool.and_eq_true, beq_iff_eq] at h
  exact h.1

theorem Token.not_end_of_isOneOf {t : Token} {ops : List String} (h : t.isOneOf ops = true) :
    t.kind ≠ .endOfInput := t.not_end_of_kind (kind_of_isOneOf h) (by decide)

open ExprCompiler.Parser (literal tokenNumber joinSpans)

namespace Layered

/-- What is read off the front of some tokens: something that leaves fewer than `n` of them, or an
error and the tokens from where it was met. -/
inductive Front (α : Type) (n : Nat)
  | read (a : α) (rest : List Token) (h : rest.length < n)
  | fault (e : ParseError) (rest : List Token)

def Front.weaken {α : Type} {m n : Nat} (h : m ≤ n) : Front α m → Front α n
  | read a rest hr => .read a rest (Nat.lt_of_lt_of_le hr h)
  | fault e rest => .fault e rest

def layers : List (List String) := [["<"], ["+", "-"], ["*"]]

def argumentsExpected : String := "expected ')' or ',' in argument list"

mutual

def chainFront : List (List String) → (ts : List Token) → Front Expr ts.length
  | [], ts => primaryFront ts
  | ops :: tighter, ts =>
    match chainFront tighter ts with
    | .read lhs rest h => (linksFront ops tighter lhs rest).weaken h
    | .fault e rest => .fault e rest
termination_by gs ts => (ts.length, gs.length + 1)

def linksFront (ops : List String) (tighter : List (List String)) (lhs : Expr) (ts : List Token) :
    Front Expr (ts.length + 1) :=
  let op := look ts
  if hop : op.isOneOf ops then
    have hlt := length_tail_lt (op.not_end_of_isOneOf hop)
    match chainFront tighter ts.tail with
    | .read rhs rest h =>
      (linksFront ops tighter (.binary op.lexeme lhs rhs (joinSpans lhs rhs)) rest).weaken
        (by omega)
    | .fault e rest => .fault e rest
  else .read lhs ts (Nat.lt_succ_self _)
termination_by (ts.length, 0)

def primaryFront (ts : List Token) : Front Expr ts.length :=
  let t := look ts
  if hnumber : t.kind = .number then
    match literal (tokenNumber t) with
    | .ok v =>
      .read (.number v (some ⟨t.location, t.location⟩)) ts.tail
        (length_tail_lt (t.not_end_of_kind hnumber (by decide)))
    | .error reason => .fault (.invalidNumber t reason) ts
  else if hname : t.kind = .identifier then
    have hlt := length_tail_lt (t.not_end_of_kind hname (by decide))
    if hparen : (look ts.tail).isChar "(" then
      have hlt' := length_tail_lt (Token.not_end_of_isChar hparen)
      match argumentsFront ts.tail.tail with
      | .read (args, close) rest h =>
        .read (.call t.lexeme args (some ⟨t.location, close.location⟩)) rest (by omega)
      | .fault e rest => .fault e rest
    else .read (.var t.lexeme (some ⟨t.location, t.location⟩)) ts.tail hlt
  else if hparen : t.isChar "(" then
    have hlt := length_tail_lt (t.not_end_of_isChar hparen)
    match chainFront layers ts.tail with
    | .read e rest h =>
      let close := look rest
      if hclose : close.isChar ")" then
        have hlt' := length_tail_lt (close.not_end_of_isChar hclose)
        .read e rest.tail (by omega)
      else .fault (.unclosedParen close (some t.location)) rest
    | .fault e rest => .fault e rest
  else .fault (.invalidExpression t) ts
termination_by (ts.length, 0)

def argumentsFront (ts : List Token) : Front (List Expr × Token) ts.length :=
  let t := look ts
  if hclose : t.isChar ")" then .read ([], t) ts.tail (length_tail_lt (t.not_end_of_isChar hclose))
  else listFront ts
termination_by (ts.length, 6)

def listFront (ts : List Token) : Front (List Expr × Token) ts.length :=
  match chainFront layers ts with
  | .read e rest h =>
    let t := look rest
    if hclose : t.isChar ")" then
      have hlt := length_tail_lt (t.not_end_of_isChar hclose)
      .read ([e], t) rest.tail (by omega)
    else if hcomma : t.isChar "," then
      have hlt := length_tail_lt (t.not_end_of_isChar hcomma)
      match listFront rest.tail with
      | .read (es, close) last h' => .read (e :: es, close) last (by omega)
      | .fault e rest => .fault e rest
    else .fault (.unexpectedToken argumentsExpected t) rest
  | .fault e rest => .fault e rest
termination_by (ts.length, 5)
decreasing_by
  · exact .right _ (by decide)
  · exact .left _ _ (by omega)

end

/-! ### The grammar as a reader of tokens -/

abbrev Reading := EStateM ParseError (List Token)

def peek : Reading Token := fun ts => .ok (look ts) ts

def skip : Reading Unit := fun ts => .ok () ts.tail

def Front.result {α : Type} {n : Nat} : Front α n → EStateM.Result ParseError (List Token) α
  | read a rest _ => .ok a rest
  | fault e rest => .error e rest

@[simp] theorem Front.result_weaken {α : Type} {m n : Nat} (h : m ≤ n) (r : Front α m) :
    (r.weaken h).result = r.result := by
  cases r <;> rfl

theorem Front.lt_of_result {α : Type} {n : Nat} {r : Front α n} {a : α} {rest : List Token}
    (h : r.result = .ok a rest) : rest.length < n := by
  cases r with
  | read b us hu =>
    cases h
    exact hu
  | fault e us => cases h

def chain (gs : List (List String)) : Reading Expr := fun ts => (chainFront gs ts).result

def links (ops : List String) (tighter : List (List String)) (lhs : Expr) : Reading Expr :=
  fun ts => (linksFront ops tighter lhs ts).result

def primary : Reading Expr := fun ts => (primaryFront ts).result

def arguments : Reading (List Expr × Token) := fun ts => (argumentsFront ts).result

def list : Reading (List Expr × Token) := fun ts => (listFront ts).result

def comparison : Reading Expr := chain layers

@[simp] theorem peek_bind {α : Type} (k : Token → Reading α) (ts : List Token) :
    (peek >>= k) ts = k (look ts) ts := rfl

@[simp] theorem skip_bind {α : Type} (k : Unit → Reading α) (ts : List Token) :
    (skip >>= k) ts = k () ts.tail := rfl

def Front.andThen {α β : Type} {n : Nat} (k : α → Reading β) :
    Front α n → EStateM.Result ParseError (List Token) β
  | read a rest _ => k a rest
  | fault e rest => .error e rest

theorem front_bind {α β : Type} {n : Nat} {x : Reading α} {ts : List Token} {r : Front α n}
    (h : x ts = r.result) (k : α → Reading β) : (x >>= k) ts = r.andThen k := by
  cases r with
  | read a rest hr => exact bind_eq_ok h
  | fault e rest => exact bind_eq_error h

theorem chain_nil : chain [] = primary := by
  funext ts
  rw [chain, chainFront, primary]

theorem chain_cons (ops : List String) (tighter : List (List String)) :
    chain (ops :: tighter) = chain tighter >>= links ops tighter := by
  funext ts
  rw [front_bind (r := chainFront tighter ts) rfl, chain, chainFront]
  cases chainFront tighter ts with
  | read lhs rest h => exact Front.result_weaken _ _
  | fault e rest => rfl

theorem links_eq (ops : List String) (tighter : List (List String)) (lhs : Expr) :
    links ops tighter lhs = (do
      let op ← peek
      if op.isOneOf ops then
        skip
        let rhs ← chain tighter
        links ops tighter (.binary op.lexeme lhs rhs (joinSpans lhs rhs))
      else return lhs) := by
  funext ts
  rw [peek_bind, links, linksFront]
  by_cases hop : (look ts).isOneOf ops = true
  · rw [dif_pos hop, if_pos hop, skip_bind, front_bind (r := chainFront tighter ts.tail) rfl]
    cases chainFront tighter ts.tail with
    | read rhs rest h => exact Front.result_weaken _ _
    | fault e rest => rfl
  · rw [dif_neg hop, if_neg hop]
    rfl

theorem primary_eq :
    primary = (do
      let t ← peek
      if t.kind = .number then
        match literal (tokenNumber t) with
        | .ok v =>
          skip
          return .number v (some ⟨t.location, t.location⟩)
        | .error reason => throw (.invalidNumber t reason)
      else if t.kind = .identifier then
        skip
        if (← peek).isChar "(" then
          skip
          let (args, close) ← arguments
          return .call t.lexeme args (some ⟨t.location, close.location⟩)
        else return .var t.lexeme (some ⟨t.location, t.location⟩)
      else if t.isChar "(" then
        skip
        let e ← comparison
        let close ← peek
        if close.isChar ")" then
          skip
          return e
        else throw (.unclosedParen close (some t.location))
      else throw (.invalidExpression t)) := by
  funext ts
  rw [peek_bind, primary, primaryFront]
  by_cases hnumber : (look ts).kind = .number
  · rw [dif_pos hnumber, if_pos hnumber]
    cases literal (tokenNumber (look ts)) <;> rfl
  rw [dif_neg hnumber, if_neg hnumber]
  by_cases hname : (look ts).kind = .identifier
  · rw [dif_pos hname, if_pos hname, skip_bind, peek_bind]
    by_cases hparen : (look ts.tail).isChar "(" = true
    · rw [dif_pos hparen, if_pos hparen, skip_bind,
        front_bind (r := argumentsFront ts.tail.tail) rfl]
      cases argumentsFront ts.tail.tail <;> rfl
    · rw [dif_neg hparen, if_neg hparen]
      rfl
  rw [dif_neg hname, if_neg hname]
  by_cases hparen : (look ts).isChar "(" = true
  · rw [dif_pos hparen, if_pos hparen, skip_bind, front_bind (r := chainFront layers ts.tail) rfl]
    cases chainFront layers ts.tail with
    | read e rest h =>
      by_cases hclose : (look rest).isChar ")" = true
      · simp only [Front.andThen, peek_bind, hclose, dif_pos, if_true]
        rfl
      · simp only [Front.andThen, peek_bind, hclose, Bool.false_eq_true]
        rfl
    | fault e rest => rfl
  · rw [dif_neg hparen, if_neg hparen]
    rfl

theorem arguments_eq :
    arguments = (do
      let t ← peek
      if t.isChar ")" then
        skip
        return ([], t)
      else list) := by
  funext ts
  rw [peek_bind, arguments, argumentsFront]
  by_cases hclose : (look ts).isChar ")" = true
  · rw [dif_pos hclose, if_pos hclose]
    rfl
  · rw [dif_neg hclose, if_neg hclose]
    rfl

theorem list_eq :
    list = (do
      let e ← comparison
      let t ← peek
      if t.isChar ")" then
        skip
        return ([e], t)
      else if t.isChar "," then
        skip
        let (es, close) ← list
        return (e :: es, close)
      else throw (.unexpectedToken argumentsExpected t)) := by
  funext ts
  rw [front_bind (r := chainFront layers ts) rfl, list, listFront]
  cases chainFront layers ts with
  | fault e rest => rfl
  | read e rest h =>
    simp only [Front.andThen, peek_bind]
    by_cases hclose : (look rest).isChar ")" = true
    · simp only [hclose, dif_pos, if_true]
      rfl
    by_cases hcomma : (look rest).isChar "," = true
    · simp only [hclose, hcomma, dif_pos, if_true, Bool.false_eq_true, if_false, skip_bind]
      rw [front_bind (r := listFront rest.tail) rfl]
      cases listFront rest.tail <;> rfl
    · simp only [hclose, hcomma, Bool.false_eq_true, if_false]
      rfl

section

variable {ts rest : List Token} {e : Expr}

theorem chain_length_lt {gs : List (List String)} (h : chain gs ts = .ok e rest) :
    rest.length < ts.length :=
  Front.lt_of_result h

theorem links_length_le {ops : List String} {tighter : List (List String)} {lhs : Expr}
    (h : links ops tighter lhs ts = .ok e rest) : rest.length ≤ ts.length :=
  Nat.le_of_lt_succ (Front.lt_of_result h)

theorem primary_length_lt (h : primary ts = .ok e rest) : rest.length < ts.length :=
  Front.lt_of_result h

end

end Layered

end ExprCompiler
