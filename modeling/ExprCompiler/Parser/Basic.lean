import ExprCompiler.Expr.Unit
import ExprCompiler.Parser.Error
import ExprCompiler.Token.Lexer

/-!
# The state of the parser

A lexer, one token of lookahead that is read when it is first looked at,
and the errors met so far. A parse that stops leaves the state where it
stopped. The stack is taken to be as deep as a text asks for: nothing stops a
parse because the text is nested deeply.
-/

namespace ExprCompiler

structure Parser where
  lexer : Lexer
  lookahead : Option Token
  anonymous : Nat
  errors : List ParseError
  deriving Repr, Inhabited

inductive ParseStop
  | invalid (e : ParseError)
  | unread (f : ReadFailure)
  /-- The bound on the depth of the recursion is used up. -/
  | exhausted
  deriving DecidableEq, Repr, Inhabited

abbrev ParserM := EStateM ParseStop Parser

namespace Parser

def ofLexer (l : Lexer) : Parser := ⟨l, none, 0, []⟩

def ofSource (s : Source) (file : String) : Parser := ofLexer (.ofSource s file)

def ofString (s file : String) : Parser := ofLexer (.ofString s file)

def weight (p : Parser) : Nat :=
  p.lexer.ahead.length +
    match p.lookahead with
    | some t => if t.kind = .endOfInput then 0 else 1
    | none => 0

/-- Every token opens two levels of recursion at most, so this bound is never reached. It stands for
no limit of a stack, which is taken to be deep enough. -/
def depthBound (p : Parser) : Nat := 2 * p.weight + 4

def advance : ParserM Token := fun p =>
  match p.lexer.next with
  | .ok (t, l) => .ok t { p with lexer := l, lookahead := some t }
  | .error f => .error (.unread f) p

def current : ParserM Token := fun p =>
  match p.lookahead with
  | some t => .ok t p
  | none => advance p

def reject {α : Type} (e : ParseError) : ParserM α := throw (.invalid e)

def guarded {α : Type} (parse : ParserM α) : ParserM (Option α) := fun p =>
  match parse p with
  | .ok a q => .ok (some a) q
  | .error (.invalid e) q => .ok none { q with errors := q.errors ++ [e] }
  | .error stop q => .error stop q

end Parser

end ExprCompiler
