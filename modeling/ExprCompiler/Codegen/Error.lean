import ExprCompiler.Backend.Error
import ExprCompiler.Expr.Unit
import ExprCompiler.Parser.Error
import ExprCompiler.Text.Similarity

/-!
# Errors of meaning

A unit that the grammar accepts may still name what is not there, pass the
wrong number of arguments, use an operator without an instruction, or
contradict an earlier unit.
-/

namespace ExprCompiler

inductive SemanticError
  | unknownVariable (name : String) (span : Option Span) (known : List String)
  | unknownFunction (callee : String) (args : List Expr) (span : Option Span)
  | arityMismatch (callee : String) (args : List Expr) (span : Option Span) (expected : Nat)
  | invalidOperator (operator : String) (left right : Expr) (span : Option Span)
  | redefinition (p : Prototype)
  | arityRedefinition (p : Prototype) (existing : Nat)
  | duplicateParameter (p : Prototype) (name : String)
  deriving Repr, Inhabited

namespace SemanticError

def node : SemanticError → Node
  | unknownVariable n s _ => .expr (.var n s)
  | unknownFunction f args s => .expr (.call f args s)
  | arityMismatch f args s _ => .expr (.call f args s)
  | invalidOperator op l r s => .expr (.binary op l r s)
  | redefinition p => .unit (.external p)
  | arityRedefinition p _ => .unit (.external p)
  | duplicateParameter p _ => .unit (.external p)

def message : SemanticError → String
  | unknownVariable n _ _ => "unknown variable name '" ++ n ++ "'"
  | unknownFunction f _ _ => "unknown function referenced '" ++ f ++ "'"
  | arityMismatch f args _ expected =>
    "incorrect number of arguments passed to '" ++ f ++ "': expected " ++ toString expected ++
      ", found " ++ toString args.length
  | invalidOperator op _ _ _ => "invalid binary operator '" ++ op ++ "'"
  | redefinition p => "function cannot be redefined: '" ++ p.name ++ "'"
  | arityRedefinition p existing =>
    "redefinition of function with different number of arguments: '" ++ p.name ++
      "' was declared with " ++ toString existing ++ ", found " ++ toString p.arity
  | duplicateParameter p n => "duplicate parameter name '" ++ n ++ "' in '" ++ p.name ++ "'"

def code : SemanticError → String
  | unknownVariable .. => "S010"
  | redefinition .. => "S011"
  | unknownFunction .. => "S012"
  | arityMismatch .. => "S050"
  | duplicateParameter .. => "S052"
  | arityRedefinition .. => "S055"
  | invalidOperator .. => "S080"

def help : SemanticError → Option String
  | unknownVariable .. => some "Only the parameters of the enclosing function are in scope."
  | unknownFunction f _ _ =>
    some ("Declare it first with 'extern " ++ f ++ "(...)' or define it with 'def'.")
  | _ => none

def didYouMean (name : String) (known : List String) : List String :=
  (Text.Similarity.closeMatches name known).map fun m => "Did you mean '" ++ m ++ "'?"

def suggestions : SemanticError → Option (List String)
  | unknownVariable n _ known =>
    match didYouMean n known with
    | [] => none
    | ss => some ss
  | duplicateParameter .. => some ["Give every parameter a distinct name"]
  | _ => none

def diagnostic (e : SemanticError) : Diagnostic :=
  ⟨e.message, e.node.start, Diagnostic.errorSeverity, some e.code, e.help, e.suggestions⟩

end SemanticError

inductive CompileError
  | grammar (e : ParseError)
  | semantic (e : SemanticError)
  | backend (e : BackendError)
  deriving Repr, Inhabited

def CompileError.diagnostic : CompileError → Diagnostic
  | grammar e => e.diagnostic
  | semantic e => e.diagnostic
  | backend e => e.diagnostic

end ExprCompiler
