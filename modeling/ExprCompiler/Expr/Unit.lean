import ExprCompiler.Expr.Basic

/-!
# Units of a program

A program is a row of definitions, external prototypes and bare
expressions. A bare expression becomes the body of a function with a
reserved name and no parameters.
-/

namespace ExprCompiler

structure Prototype where
  name : String
  params : List String
  span : Option Span
  deriving DecidableEq, Repr, Inhabited

/-- The front of the names of bare expressions; no identifier starts so. -/
def anonymousFront : String := "__anon_expr"

def anonymousName (n : Nat) : String := anonymousFront ++ "." ++ toString n

namespace Prototype

def arity (p : Prototype) : Nat := p.params.length

def isAnonymous (p : Prototype) : Bool := anonymousFront.toList.isPrefixOf p.name.toList

def text (p : Prototype) : String := p.name ++ "(" ++ " ".intercalate p.params ++ ")"

def debugText (p : Prototype) : String :=
  "Prototype(name=" ++ Text.quoted p.name ++ ", params=" ++
    Text.tuple (p.params.map Text.quoted) ++ ")"

def alike (p q : Prototype) : Bool := p.name == q.name && p.params == q.params

end Prototype

structure Definition where
  prototype : Prototype
  body : Expr
  span : Option Span
  deriving Repr, Inhabited

namespace Definition

def name (d : Definition) : String := d.prototype.name

def text (d : Definition) : String := "def " ++ d.prototype.text ++ " " ++ d.body.text

def debugText (d : Definition) : String :=
  "FunctionDef(prototype=" ++ d.prototype.debugText ++ ", body=" ++ d.body.debugText ++ ")"

def alike (d e : Definition) : Bool := d.prototype.alike e.prototype && d.body.alike e.body

end Definition

inductive TopLevel
  | definition (d : Definition)
  | external (p : Prototype)
  deriving Repr, Inhabited

namespace TopLevel

def prototype : TopLevel → Prototype
  | definition d => d.prototype
  | external p => p

def span : TopLevel → Option Span
  | definition d => d.span
  | external p => p.span

def text : TopLevel → String
  | definition d => d.text
  | external p => p.text

def debugText : TopLevel → String
  | definition d => d.debugText
  | external p => p.debugText

def alike : TopLevel → TopLevel → Bool
  | definition d, definition e => d.alike e
  | external p, external q => p.alike q
  | _, _ => false

def asStray (u : TopLevel) : Stray := ⟨u.text, u.debugText⟩

end TopLevel

inductive Node
  | expr (e : Expr)
  | unit (u : TopLevel)
  deriving Repr, Inhabited

namespace Node

def span : Node → Option Span
  | expr e => e.span
  | unit u => u.span

def text : Node → String
  | expr e => e.text
  | unit u => u.text

def debugText : Node → String
  | expr e => e.debugText
  | unit u => u.debugText

def alike : Node → Node → Bool
  | expr d, expr e => d.alike e
  | unit u, unit v => u.alike v
  | _, _ => false

def start (n : Node) : Option Location := n.span.map Span.start

end Node

end ExprCompiler
