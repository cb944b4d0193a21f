import ExprCompiler.Token.Location

/-!
# Expressions

Literals, variables, binary operations and calls. A span says where an
expression was read; it is no part of the expression's meaning, and two
expressions are alike when they differ in spans only.
-/

namespace ExprCompiler

/-- A declaration where an expression belongs, known by its two printed forms. The parser
builds none. -/
structure Stray where
  text : String
  debugText : String
  deriving DecidableEq, Repr

inductive Expr
  | number (value : Int) (span : Option Span)
  | var (name : String) (span : Option Span)
  | binary (operator : String) (left right : Expr) (span : Option Span)
  | call (callee : String) (args : List Expr) (span : Option Span)
  | stray (declaration : Stray)
  deriving Repr, Inhabited

namespace Expr

def span : Expr → Option Span
  | number _ s => s
  | var _ s => s
  | binary _ _ _ s => s
  | call _ _ s => s
  | stray _ => none

def children : Expr → List Expr
  | binary _ l r _ => [l, r]
  | call _ args _ => args
  | _ => []

def debugName : Expr → String
  | number .. => "NumberLiteral"
  | var .. => "VariableRef"
  | binary .. => "BinaryOp"
  | call .. => "Call"
  | stray d => d.debugText

def callText (callee : String) (args : List String) : String :=
  let rendered := " ".intercalate args
  "(call " ++ callee ++ (if rendered = "" then "" else " " ++ rendered) ++ ")"

mutual

def text : Expr → String
  | number v _ => toString v
  | var n _ => n
  | binary op l r _ => "(" ++ op ++ " " ++ l.text ++ " " ++ r.text ++ ")"
  | call callee args _ => callText callee (texts args)
  | stray d => d.text

def texts : List Expr → List String
  | [] => []
  | e :: es => e.text :: texts es

end

mutual

def debugText : Expr → String
  | number v _ => "NumberLiteral(value=" ++ toString v ++ ")"
  | var n _ => "VariableRef(name=" ++ Text.quoted n ++ ")"
  | binary op l r _ =>
    "BinaryOp(operator=" ++ Text.quoted op ++ ", left=" ++ l.debugText ++ ", right=" ++
      r.debugText ++ ")"
  | call callee args _ =>
    "Call(callee=" ++ Text.quoted callee ++ ", args=" ++ Text.tuple (debugTexts args) ++ ")"
  | stray d => d.debugText

def debugTexts : List Expr → List String
  | [] => []
  | e :: es => e.debugText :: debugTexts es

end

mutual

def alike : Expr → Expr → Bool
  | number v _, number w _ => v == w
  | var m _, var n _ => m == n
  | binary o l r _, binary p m s _ => o == p && l.alike m && r.alike s
  | call c as _, call d bs _ => c == d && allAlike as bs
  | stray d, stray e => d == e
  | _, _ => false

def allAlike : List Expr → List Expr → Bool
  | [], [] => true
  | a :: as, b :: bs => a.alike b && allAlike as bs
  | _, _ => false

end

mutual

def size : Expr → Nat
  | binary _ l r _ => l.size + r.size + 1
  | call _ args _ => sizes args + 1
  | _ => 1

def sizes : List Expr → Nat
  | [] => 0
  | e :: es => e.size + sizes es

end

theorem sizes_append (as bs : List Expr) : sizes (as ++ bs) = sizes as + sizes bs := by
  induction as with
  | nil => simp [sizes]
  | cons a as ih => simp [sizes, ih, Nat.add_assoc]

theorem size_eq (e : Expr) : e.size = sizes e.children + 1 := by
  cases e <;> simp [size, sizes, children]

/-- The nodes below a stack of expressions: the one on top, and then those below its children,
which take its place on the stack. -/
def walkFrom : List Expr → List Expr
  | [] => []
  | e :: stack => e :: walkFrom (e.children ++ stack)
termination_by stack => sizes stack
decreasing_by
  rw [sizes_append]
  simp only [sizes, size_eq e]
  omega

def walk (e : Expr) : List Expr := walkFrom [e]

end Expr

end ExprCompiler
