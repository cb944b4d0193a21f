import ExprCompiler.Text.UpperCase
import ExprCompiler.Token.Location

/-!
# Diagnostics

What every stage of the compiler reports a problem with: a message, perhaps
with a place, a code, a hint and suggestions.
-/

namespace ExprCompiler

structure Diagnostic where
  message : String
  location : Option Location
  severity : String
  code : Option String
  help : Option String
  suggestions : Option (List String)
  deriving DecidableEq, Repr, Inhabited

namespace Diagnostic

def errorSeverity : String := "error"

def warningSeverity : String := "warning"

def error (message : String) : Diagnostic := ⟨message, none, errorSeverity, none, none, none⟩

def codeText (d : Diagnostic) : String :=
  match d.code with
  | some c => if c = "" then "" else " [" ++ c ++ "]"
  | none => ""

def locationText (d : Diagnostic) : String :=
  match d.location with
  | some l => "  --> " ++ l.text ++ "\n"
  | none => ""

def helpText (d : Diagnostic) : String :=
  match d.help with
  | some h => if h = "" then "" else "  help: " ++ h ++ "\n"
  | none => ""

def suggestionsText (d : Diagnostic) : String :=
  match d.suggestions with
  | some (s :: ss) =>
    "  suggestions:\n" ++ String.join ((s :: ss).map fun s => "    - " ++ s ++ "\n")
  | _ => ""

def text (d : Diagnostic) : String :=
  Text.upperCase d.severity ++ ": " ++ d.message ++ d.codeText ++ "\n" ++ d.locationText ++
    d.helpText ++ d.suggestionsText

end Diagnostic

end ExprCompiler
