import ExprCompiler.Parser.Basic

/-!
# Reading units

A program is a row of units and semicolons:

* `definition ::= 'def' prototype expression`
* `extern ::= 'extern' prototype`
* `prototype ::= IDENT '(' IDENT* ')'`
* `expression ::= primary (OPERATOR primary)*`
* `primary ::= NUMBER | IDENT | IDENT '(' (expression (',' expression)*)? ')'
  | '(' expression ')'`

Operators group by precedence, those of one precedence from the left. The
recursion takes a bound on its depth; the entry points choose one that the
tokens left cannot use up.
-/

namespace ExprCompiler.Parser

/-! ### Literals -/

def int32Min : Int := -2147483648

def int32Max : Int := 2147483647

def tooWide : String := "value does not fit in 32 bits"

def fractional : String := "fractional values are not supported"

def literal (value : Binary64) : Except String Int :=
  match value, value.toNat? with
  | .infinite, _ => .error tooWide
  | .finite _, none => .error fractional
  | .finite _, some n => if (n : Int) ≤ int32Max then .ok n else .error tooWide

def tokenNumber (t : Token) : Binary64 :=
  match t.value with
  | .number x => x
  | _ => .finite 0

/-! ### Expressions -/

def joinSpans (l r : Expr) : Option Span :=
  match l.span, r.span with
  | some a, some b => some ⟨a.start, b.stop⟩
  | _, _ => none

def number : ParserM Expr := do
  let t ← current
  match literal (tokenNumber t) with
  | .error reason => reject (.invalidNumber t reason)
  | .ok v =>
    let _ ← advance
    return .number v (some ⟨t.location, t.location⟩)

mutual

def expressionAt : Nat → ParserM Expr
  | 0 => throw .exhausted
  | depth + 1 => do
    let lhs ← primaryAt depth
    binaryRestAt depth 0 lhs

/-- Folds operators into `lhs` as long as they bind at least as tightly as `least`. An operator
that binds tighter than the one before it takes its left operand. -/
def binaryRestAt : Nat → Int → Expr → ParserM Expr
  | 0, _, _ => throw .exhausted
  | depth + 1, least, lhs => do
    let op ← current
    if op.precedence < least then return lhs
    let _ ← advance
    let operand ← primaryAt depth
    let following ← current
    let rhs ←
      if op.precedence < following.precedence then
        binaryRestAt depth (op.precedence + 1) operand
      else pure operand
    binaryRestAt depth least (.binary op.lexeme lhs rhs (joinSpans lhs rhs))

def primaryAt : Nat → ParserM Expr
  | 0 => throw .exhausted
  | depth + 1 => do
    let t ← current
    if t.kind = .number then number
    else if t.kind = .identifier then
      let paren ← advance
      if paren.isChar "(" then
        let first ← advance
        let args ← if first.isChar ")" then pure [] else argumentsAt depth
        let close ← current
        let _ ← advance
        return .call t.lexeme args (some ⟨t.location, close.location⟩)
      else return .var t.lexeme (some ⟨t.location, t.location⟩)
    else if t.isChar "(" then
      let _ ← advance
      let e ← expressionAt depth
      let close ← current
      if close.isChar ")" then
        let _ ← advance
        return e
      else reject (.unclosedParen close (some t.location))
    else reject (.invalidExpression t)

def argumentsAt : Nat → ParserM (List Expr)
  | 0 => throw .exhausted
  | depth + 1 => do
    let e ← expressionAt depth
    let t ← current
    if t.isChar ")" then return [e]
    else if t.isChar "," then
      let _ ← advance
      return e :: (← argumentsAt depth)
    else reject (.unexpectedToken "expected ')' or ',' in argument list" t)

end

def expression : ParserM Expr := do expressionAt (← get).depthBound

def primary : ParserM Expr := do primaryAt (← get).depthBound

def binaryRest (least : Int) (lhs : Expr) : ParserM Expr := do
  binaryRestAt (← get).depthBound least lhs

/-! ### Units -/

def spanFrom (start : Token) : ParserM Span := do
  return ⟨start.location, (← current).location⟩

/-- The identifiers before the closing parenthesis, which is left as the lookahead or what
stands in its place. -/
def parametersAt : Nat → ParserM (List String)
  | 0 => throw .exhausted
  | depth + 1 => do
    let t ← advance
    if t.kind = .identifier then return t.lexeme :: (← parametersAt depth)
    else return []

def prototype : ParserM Prototype := do
  let name ← current
  if name.kind ≠ .identifier then reject (.invalidPrototype "function name" name)
  let paren ← advance
  if !paren.isChar "(" then reject (.invalidPrototype "'('" paren)
  let params ← parametersAt (← get).depthBound
  let close ← current
  if !close.isChar ")" then reject (.invalidPrototype "')'" close)
  let _ ← advance
  return ⟨name.lexeme, params, some (← spanFrom name)⟩

def expect (kind : TokenKind) (expected : String) : ParserM Token := do
  let t ← current
  if t.kind ≠ kind then reject (.unexpectedToken expected t)
  let _ ← advance
  return t

def definition : ParserM Definition := do
  let start ← expect .defKeyword "expected 'def'"
  let proto ← prototype
  let body ← expression
  return ⟨proto, body, some (← spanFrom start)⟩

def external : ParserM Prototype := do
  let _ ← expect .externKeyword "expected 'extern'"
  prototype

def nextAnonymous : ParserM Nat :=
  modifyGet fun p => (p.anonymous, { p with anonymous := p.anonymous + 1 })

def bareExpression : ParserM Definition := do
  let start ← current
  let body ← expression
  let name := anonymousName (← nextAnonymous)
  let span ← spanFrom start
  return ⟨⟨name, [], some span⟩, body, some span⟩

def definition? : ParserM (Option Definition) := guarded definition

def external? : ParserM (Option Prototype) := guarded external

def bareExpression? : ParserM (Option Definition) := guarded bareExpression

def unit (first : Token) : ParserM TopLevel :=
  match first.kind with
  | .defKeyword => .definition <$> definition
  | .externKeyword => .external <$> external
  | _ => .definition <$> bareExpression

def unitsAt : Nat → ParserM (List TopLevel)
  | 0 => throw .exhausted
  | depth + 1 => do
    let t ← current
    if t.kind = .endOfInput then return []
    else if t.isChar ";" then
      let _ ← advance
      unitsAt depth
    else
      let u ← unit t
      return u :: (← unitsAt depth)

def units : ParserM (List TopLevel) := do unitsAt (← get).depthBound

def parseAll (s file : String) : Except ParseStop (List TopLevel) :=
  match units (.ofString s file) with
  | .ok us _ => .ok us
  | .error stop _ => .error stop

end ExprCompiler.Parser
