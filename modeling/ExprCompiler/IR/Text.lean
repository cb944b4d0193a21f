import ExprCompiler.IR.Module

/-!
# The text of a module

Names stand between double quotes. The text of an instruction never changes
after it has been written once: sealing a function replaces its references
to parameters by the names that the parameters have at that time.
-/

namespace ExprCompiler.IR

/-- The data layout of a target is not modelled; a placeholder stands in its line. -/
def layoutPlaceholder : String := "<layout>"

def escapeNameChar (c : Char) : List Char :=
  if c = '\\' then ['\\', '5', 'c'] else if c = '"' then ['\\', '2', '2'] else [c]

def escapeName (s : String) : String := String.ofList (s.toList.flatMap escapeNameChar)

def localReference (name : String) : String := "%\"" ++ escapeName name ++ "\""

def globalReference (name : String) : String := "@\"" ++ escapeName name ++ "\""

namespace Module

def paramName (m : Module) (f : FunctionId) (i : Nat) : String := (m.get f).params[i]?.getD ""

def reference (m : Module) : Operand → String
  | .const v => toString v
  | .param f i => localReference (m.paramName f i)
  | .named n _ => localReference n

def functionReference (m : Module) (f : FunctionId) : String := globalReference (m.get f).name

def sealOperand (m : Module) : Operand → Operand
  | .param f i => .named (m.paramName f i) .i32
  | x => x

def sealFunction (m : Module) (f : FunctionId) : Module :=
  m.modify f fun g =>
    { g with blocks := g.blocks.map fun b =>
        { b with instructions := b.instructions.map (·.mapOperands m.sealOperand) } }

def sealAll (m : Module) (fs : List FunctionId) : Module := fs.foldl sealFunction m

def typedReference (m : Module) (x : Operand) : String := x.type.text ++ " " ++ m.reference x

def resultText (name body : String) : String := localReference name ++ " = " ++ body

def instructionText (m : Module) : Instruction → String
  | .arith op r a b =>
    resultText r (op.mnemonic ++ " " ++ m.typedReference a ++ ", " ++ m.reference b)
  | .less r a b => resultText r ("icmp ult " ++ m.typedReference a ++ ", " ++ m.reference b)
  | .widen r a => resultText r ("zext " ++ m.typedReference a ++ " to i32")
  | .call r f args =>
    resultText r ("call i32 " ++ m.functionReference f ++ "(" ++
      ", ".intercalate (args.map m.typedReference) ++ ")")
  | .ret a => "ret " ++ m.typedReference a

def blockText (m : Module) (b : Block) : String :=
  b.label ++ ":\n" ++ String.join (b.instructions.map fun i => "  " ++ m.instructionText i ++ "\n")

def headerText (f : Function) : String :=
  "i32 " ++ globalReference f.name ++ "(" ++
    ", ".intercalate (f.params.map fun p => "i32 " ++ localReference p) ++ ")\n"

def functionText (m : Module) (f : FunctionId) : String :=
  let g := m.get f
  if g.hasBody then
    "define " ++ headerText g ++ "\x7b\n" ++ String.join (g.blocks.map m.blockText) ++ "\x7d\n"
  else "declare " ++ headerText g

def textOf (m : Module) (fs : List FunctionId) : String :=
  "\n".intercalate <|
    ["; ModuleID = \"" ++ m.name ++ "\"", "target triple = \"" ++ m.triple ++ "\"",
      "target datalayout = \"" ++ layoutPlaceholder ++ "\"", ""] ++ fs.map m.functionText

def text (m : Module) : String := m.textOf m.registered

end Module

end ExprCompiler.IR
