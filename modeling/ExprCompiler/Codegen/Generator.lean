import ExprCompiler.Backend.Run
import ExprCompiler.Codegen.Error

/-!
# Generating code

A unit becomes a function of the module: an external prototype a
declaration, a definition a body. A definition that fails is taken back: the
function loses the body again if it had been declared before, and is erased
if it had not. The recursion goes as deep as the tree of the body, for which the
stack is taken to be deep enough.
-/

namespace ExprCompiler

open IR (Operand Arith FunctionId)

structure Generator where
  backend : Backend
  scope : List (String × Operand)
  current : Option FunctionId
  errors : List CompileError
  verifier : Verifier

inductive GeneratorStop
  | failed (e : CompileError)
  | refused (e : Misuse)
  | notAnExpression (d : Stray)
  | notAUnit (e : Expr)
  deriving Repr, Inhabited

def GeneratorStop.message : GeneratorStop → String
  | failed e => e.diagnostic.message
  | refused e => e.message
  | notAnExpression d => "unknown expression node: " ++ d.debugText
  | notAUnit e => "not a top-level unit: " ++ e.debugText

abbrev GeneratorM := EStateM GeneratorStop Generator

namespace Generator

def ofBackend (b : Backend) (v : Verifier) : Generator := ⟨b, [], none, [], v⟩

def onBackend {α : Type} (x : BackendM α) : GeneratorM α := fun g =>
  match x g.backend with
  | .ok a b => .ok a { g with backend := b }
  | .error e b => .error (.refused e) { g with backend := b }

def semanticError {α : Type} (e : SemanticError) : GeneratorM α := throw (.failed (.semantic e))

/-! ### Expressions -/

def scopeNames (g : Generator) : List String := (g.scope.map Prod.fst).reverse

def arithmetic : List (String × Arith) := [("+", .add), ("-", .sub), ("*", .mul)]

def parameter (name : String) (span : Option Span) : GeneratorM Operand := do
  let g ← get
  match g.scope.lookup name with
  | some x => return x
  | none => semanticError (.unknownVariable name span g.scopeNames)

mutual

def expression : Expr → GeneratorM Operand
  | .number v _ => onBackend (Backend.constant v)
  | .var n s => parameter n s
  | .binary op l r s => do
    let a ← expression l
    let b ← expression r
    match arithmetic.lookup op with
    | some i => onBackend (Backend.arith i a b)
    | none =>
      if op = "<" then
        let bit ← onBackend (Backend.less a b)
        onBackend (Backend.widen bit)
      else semanticError (.invalidOperator op l r s)
  | .call callee args s => do
    match ← onBackend (Backend.lookup callee) with
    | none => semanticError (.unknownFunction callee args s)
    | some f =>
      let expected ← onBackend (Backend.arity f)
      if expected ≠ args.length then semanticError (.arityMismatch callee args s expected)
      let xs ← expressions args
      onBackend (Backend.call f xs)
  | .stray d => throw (.notAnExpression d)

def expressions : List Expr → GeneratorM (List Operand)
  | [] => return []
  | e :: es => do
    let x ← expression e
    return x :: (← expressions es)

end

/-! ### Declarations -/

def firstDuplicate : List String → List String → Option String
  | _, [] => none
  | seen, n :: ns => if seen.contains n then some n else firstDuplicate (n :: seen) ns

/-- Uses the function of this name if there is one. A function with a body keeps the names
that its body was written with. -/
def prototype (p : Prototype) : GeneratorM FunctionId := do
  if let some n := firstDuplicate [] p.params then semanticError (.duplicateParameter p n)
  let f ←
    match ← onBackend (Backend.lookup p.name) with
    | none => onBackend (Backend.declare p.name p.arity)
    | some f =>
      let existing ← onBackend (Backend.arity f)
      if existing ≠ p.arity then semanticError (.arityRedefinition p existing)
      pure f
  if !(← onBackend (Backend.hasBody f)) then onBackend (Backend.setParams f p.params)
  return f

def within {α : Type} (f : FunctionId) (x : GeneratorM α) : GeneratorM α := fun g =>
  match x { g with scope := [], current := some f } with
  | .ok a g => .ok a { g with scope := [], current := none }
  | .error e g => .error e { g with scope := [], current := none }

def bind (name : String) (x : Operand) : GeneratorM Unit :=
  modify fun g => { g with scope := (name, x) :: g.scope }

/-- The error of a rejected function: the latest of the backend, which is removed there, or a
new one if the backend has none. -/
def takeError (name : String) : GeneratorM BackendError := do
  let g ← get
  match g.backend.errors.getLast? with
  | some e =>
    set { g with backend := { g.backend with errors := g.backend.errors.dropLast } }
    return e
  | none => return .verification name (.words "")

def body (f : FunctionId) (d : Definition) : GeneratorM Unit :=
  within f do
    let params ← onBackend (Backend.parameters f)
    (d.prototype.params.zip params).forM fun p => bind p.1 p.2
    let _ ← onBackend (Backend.enter f)
    let x ← expression d.body
    onBackend (Backend.ret x)
    let v := (← get).verifier
    if !(← onBackend (Backend.verify v f)) then
      throw (.failed (.backend (← takeError d.name)))

def onFailure {α : Type} (x : GeneratorM α) (undo : GeneratorM Unit) : GeneratorM α := fun g =>
  match x g with
  | .error (.failed e) g =>
    match undo g with
    | .ok _ g => .error (.failed e) g
    | .error stop g => .error stop g
  | r => r

def definition (d : Definition) : GeneratorM FunctionId := do
  let existing ← onBackend (Backend.lookup d.name)
  if let some f := existing then
    if ← onBackend (Backend.hasBody f) then semanticError (.redefinition d.prototype)
  let f ← prototype d.prototype
  onFailure (body f d) <|
    if existing.isSome then onBackend (Backend.clear f) else onBackend (Backend.erase f)
  onBackend (Backend.note (.generated d.name))
  return f

def topLevel : TopLevel → GeneratorM FunctionId
  | .definition d => definition d
  | .external p => prototype p

def recorded {α : Type} (x : GeneratorM α) : GeneratorM (Option α) := fun g =>
  match x g with
  | .ok a g => .ok (some a) g
  | .error (.failed e) g =>
    match onBackend (Backend.note (.generationFailed e.diagnostic.message)) g with
    | .ok _ g => .ok none { g with errors := g.errors ++ [e] }
    | .error stop g => .error stop g
  | .error stop g => .error stop g

def generate (u : TopLevel) : GeneratorM (Option FunctionId) := recorded (topLevel u)

def generateNode : Node → GeneratorM (Option FunctionId)
  | .unit u => generate u
  | .expr e => throw (.notAUnit e)

end Generator

end ExprCompiler
