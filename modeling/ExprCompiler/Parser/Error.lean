import ExprCompiler.Diagnostic
import ExprCompiler.Token.Basic

/-!
# Errors of the grammar

Each names the token that cannot stand where it was found.
-/

namespace ExprCompiler

inductive ParseError
  | unexpectedToken (expected : String) (found : Token)
  | invalidExpression (found : Token)
  | invalidPrototype (expected : String) (found : Token)
  | unclosedParen (found : Token) (opened : Option Location)
  | invalidNumber (found : Token) (reason : String)
  deriving DecidableEq, Repr, Inhabited

namespace ParseError

def token : ParseError → Token
  | unexpectedToken _ t => t
  | invalidExpression t => t
  | invalidPrototype _ t => t
  | unclosedParen t _ => t
  | invalidNumber t _ => t

def message : ParseError → String
  | unexpectedToken expected t => expected ++ ", found " ++ t.text
  | invalidExpression t =>
    "unexpected token when expecting an expression, found " ++ t.text
  | invalidPrototype expected t =>
    "expected " ++ expected ++ " in prototype, found " ++ t.text
  | unclosedParen t _ => "expected ')', found " ++ t.text
  | invalidNumber t reason => "invalid numeric literal '" ++ t.lexeme ++ "': " ++ reason

def code : ParseError → String
  | unexpectedToken _ t => if t.kind = .endOfInput then "P010" else "P001"
  | invalidExpression _ => "P005"
  | invalidPrototype .. => "P008"
  | unclosedParen .. => "P012"
  | invalidNumber .. => "P013"

def help : ParseError → Option String
  | unexpectedToken .. => none
  | invalidExpression _ =>
    some "An expression starts with a number, an identifier or '('."
  | invalidPrototype .. => some "A prototype looks like: name(arg1 arg2 ...)"
  | unclosedParen _ opened =>
    opened.map fun l => "The opening '(' at " ++ l.text ++ " was never closed."
  | invalidNumber .. => some "ToyC numbers are 32-bit signed integers."

def suggestions : ParseError → Option (List String)
  | unclosedParen .. => some ["Add a closing parenthesis ')'"]
  | _ => none

def location (e : ParseError) : Location := e.token.location

def diagnostic (e : ParseError) : Diagnostic :=
  ⟨e.message, some e.location, Diagnostic.errorSeverity, some e.code, e.help, e.suggestions⟩

end ParseError

end ExprCompiler
