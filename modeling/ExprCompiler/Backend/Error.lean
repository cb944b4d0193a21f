import ExprCompiler.Diagnostic
import ExprCompiler.IR.Check
import ExprCompiler.Text.Blank

/-!
# Errors of the backend

Problems with generated code, with files and with targets, each with a
detail that becomes the hint of its diagnostic.
-/

namespace ExprCompiler

inductive Detail
  | words (text : String)
  | fault (f : IR.Fault)
  deriving DecidableEq, Repr, Inhabited

def Detail.text : Detail → String
  | words t => t
  | fault f => f.text

def Detail.help (d : Detail) : Option String :=
  let s := Text.strip d.text
  if s = "" then none else some s

inductive BackendError
  | verification (function : String) (detail : Detail)
  | emission (path : String) (detail : Detail)
  | evaluation (function : String) (detail : Detail)
  | textWrite (path : String) (detail : Detail)
  | target (triple : String) (detail : Detail)
  | reported (diagnostic : Diagnostic)
  deriving DecidableEq, Repr, Inhabited

namespace BackendError

def diagnostic : BackendError → Diagnostic
  | verification f d =>
    ⟨"generated code for '" ++ f ++ "' failed verification", none, Diagnostic.errorSeverity,
      some "B001", d.help, none⟩
  | emission path d =>
    ⟨"could not emit object file '" ++ path ++ "'", none, Diagnostic.errorSeverity,
      some "B002", d.help, none⟩
  | evaluation f d =>
    ⟨"could not evaluate '" ++ f ++ "'", none, Diagnostic.warningSeverity, some "B003", d.help,
      none⟩
  | textWrite path d =>
    ⟨"could not write textual IR to '" ++ path ++ "'", none, Diagnostic.errorSeverity,
      some "B004", d.help, none⟩
  | target triple d =>
    ⟨"unsupported target '" ++ triple ++ "'", none, Diagnostic.errorSeverity, some "B005",
      d.help, none⟩
  | reported d => d

def fault? : BackendError → Option IR.Fault
  | verification _ (.fault f) => some f
  | emission _ (.fault f) => some f
  | evaluation _ (.fault f) => some f
  | textWrite _ (.fault f) => some f
  | target _ (.fault f) => some f
  | _ => none

end BackendError

end ExprCompiler
