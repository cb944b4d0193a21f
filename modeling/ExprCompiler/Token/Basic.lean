import ExprCompiler.Number.Shortest
import ExprCompiler.Token.Location

/-!
# Tokens

Two keywords, identifiers, numbers, and single characters for everything
else. Four of the characters are binary operators with a binding strength.
-/

namespace ExprCompiler

inductive TokenKind
  | endOfInput
  | defKeyword
  | externKeyword
  | identifier
  | number
  | char
  deriving DecidableEq, Repr, Inhabited

def TokenKind.name : TokenKind → String
  | endOfInput => "EOF"
  | defKeyword => "DEF"
  | externKeyword => "EXTERN"
  | identifier => "IDENTIFIER"
  | number => "NUMBER"
  | char => "CHAR"

inductive TokenValue
  | absent
  | name (text : String)
  | number (value : Binary64)
  deriving DecidableEq, Repr, Inhabited

def TokenValue.debugText : TokenValue → String
  | absent => "None"
  | name text => Text.quoted text
  | number value => value.toText .plain

structure Token where
  kind : TokenKind
  lexeme : String
  value : TokenValue
  location : Location
  deriving DecidableEq, Repr, Inhabited

def keywords : List (String × TokenKind) :=
  [("def", .defKeyword), ("extern", .externKeyword)]

def operatorPrecedence : List (String × Int) :=
  [("<", 10), ("+", 20), ("-", 20), ("*", 40)]

def notAnOperator : Int := -1

namespace Token

def text (t : Token) : String :=
  match t.kind with
  | .endOfInput => "end of input"
  | .char => Text.quoted t.lexeme
  | k => k.name.toLower ++ " " ++ Text.quoted t.lexeme

def debugText (t : Token) : String :=
  "Token(" ++ ", ".intercalate
    [t.kind.name, Text.quoted t.lexeme, t.value.debugText, t.location.debugText] ++ ")"

def isChar (t : Token) (c : String) : Bool := t.kind == .char && t.lexeme == c

/-- A keyword or the end of the input can only begin a new unit. -/
def startsUnit (t : Token) : Bool :=
  t.kind == .defKeyword || t.kind == .externKeyword || t.kind == .endOfInput

def precedence (t : Token) : Int :=
  if t.kind = .char then (operatorPrecedence.lookup t.lexeme).getD notAnOperator
  else notAnOperator

end Token

end ExprCompiler
