import ExprCompiler.Text.Quoted

/-!
# Places in a source text

Lines and columns count from one, offsets from zero, all in characters.
-/

namespace ExprCompiler

structure Location where
  file : String
  line : Nat
  column : Nat
  offset : Nat
  deriving DecidableEq, Repr, Inhabited

namespace Location

def text (l : Location) : String :=
  l.file ++ ":" ++ toString l.line ++ ":" ++ toString l.column

def debugText (l : Location) : String :=
  "SourceLocation(" ++ ", ".intercalate
    [Text.quoted l.file, toString l.line, toString l.column, toString l.offset] ++ ")"

end Location

/-- A stretch of source text, from the start of its first token to the start of its last. -/
structure Span where
  start : Location
  stop : Location
  deriving DecidableEq, Repr

def Span.text (s : Span) : String :=
  if s.start.file = s.stop.file then
    s.start.text ++ "-" ++ toString s.stop.line ++ ":" ++ toString s.stop.column
  else s.start.text ++ "-" ++ s.stop.text

end ExprCompiler
