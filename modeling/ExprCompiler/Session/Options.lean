/-!
# Options of a session

What a session is told before it starts. A target or a text path without a
text counts as not given, but an object file cannot do without a path.
-/

namespace ExprCompiler

def defaultModuleName : String := "my cool jit"

def standardInputName : String := "<stdin>"

inductive OptionValue
  | text (s : String)
  /-- The value was a lone `--`, which is dropped; nothing is in its place. -/
  | dropped
  deriving DecidableEq, Repr, Inhabited

def OptionValue.text? : OptionValue → Option String
  | text s => some s
  | dropped => none

def defaultOutputPath : OptionValue := .text "output.o"

structure Options where
  outputPath : OptionValue := defaultOutputPath
  moduleName : String := defaultModuleName
  target : Option OptionValue := none
  evaluate : Bool := true
  showCode : Bool := true
  textPath : Option OptionValue := none
  interactive : Bool := false
  file : String := standardInputName
  deriving DecidableEq, Repr, Inhabited

end ExprCompiler
