import ExprCompiler.CommandLine.Arguments
import ExprCompiler.CommandLine.Usage
import ExprCompiler.Session.Basic
import ExprCompiler.Text.FileText

/-!
# The command

Reads the arguments, starts a session, and compiles a file or the standard
input. Everything shown goes to one of two streams.
-/

namespace ExprCompiler.CommandLine

structure StandardInput where
  source : Source
  terminal : Bool
  deriving Repr, Inhabited

inductive Result
  | status (n : Nat)
  | exit (n : Nat)
  | raised (s : SessionStop)
  deriving Repr, Inhabited

structure Outcome where
  result : Result
  /-- The earliest event comes first. -/
  events : List Event
  files : FileTree
  deriving Repr, Inhabited

def sourceOfBytes (bytes : List UInt8) : Source :=
  match Text.Utf8.decode bytes with
  | none => ⟨[], .undecodable⟩
  | some d =>
    if d.truncated then ⟨Text.unifyLineEnds (Text.dropFinalReturn d.chars), .undecodable⟩
    else ⟨Text.unifyLineEnds d.chars, .closed⟩

/-- What can be read in front of a failure. A return at the end of it is not given, since a
newline might have followed. -/
def sourceOfFront (bytes : List UInt8) (reason : String) : Source :=
  match Text.Utf8.decode bytes with
  | none => ⟨[], .undecodable⟩
  | some d => ⟨Text.unifyLineEnds (Text.dropFinalReturn d.chars), .failed reason⟩

def sourceOfContent : FileContent → Source
  | .bytes bs => sourceOfBytes bs
  | .text s => sourceOfBytes s.toUTF8.toList
  | .object code => sourceOfBytes code.toUTF8.toList
  | .broken bs error => sourceOfFront bs error.reason

def endingEvent : Ending → Event × Nat
  | .help => (.out help, 0)
  | .version => (.out versionLine, 0)
  | .mistake message => (.err (errorText message), 2)

def cannotRead (path reason : String) : String :=
  programName ++ ": cannot read '" ++ path ++ "': " ++ reason ++ "\n"

def Arguments.sourceName (a : Arguments) : String := a.source.getD "None"

def interruptedStatus : Nat := 130

def visibleEvents (verbose : Bool) (events : List Event) : List Event :=
  events.filter fun e =>
    match e with
    | .log _ => verbose
    | _ => true

def findSource (a : Arguments) (files : FileTree) (input : StandardInput) :
    Except FileError Source :=
  match a.source with
  | none => .ok input.source
  | some path => (files.read path).map sourceOfContent

/-- The session ends with a status; being interrupted is one way to end, and failing to read on
another. -/
def finishRun (a : Arguments) : EStateM.Result SessionStop Session Bool → Outcome
  | .ok ok s => ⟨.status (Session.exitStatus ok), visibleEvents a.verbose s.events.reverse, s.files⟩
  | .error (.unread .interrupted) s =>
    ⟨.status interruptedStatus,
      visibleEvents a.verbose s.events.reverse ++ [.err "\nInterrupted\n"], s.files⟩
  | .error (.unread (.failed reason)) s =>
    ⟨.status 1,
      visibleEvents a.verbose s.events.reverse ++ [.err (cannotRead a.sourceName reason)], s.files⟩
  | .error stop s => ⟨.raised stop, visibleEvents a.verbose s.events.reverse, s.files⟩

/-- Compiles what the arguments name. The target is looked at before the source. -/
def compile (a : Arguments) (files : FileTree) (input : StandardInput) : Outcome :=
  let interactive := a.source.isNone && input.terminal
  match Session.start (a.options interactive) files .checking with
  | .error e => ⟨.status 1, [.err e.diagnostic.text], files⟩
  | .ok s =>
    match findSource a files input with
    | .ok source => finishRun a (Session.run source s)
    | .error .nullInPath =>
      ⟨.raised (.generator (.refused .nullInPath)), visibleEvents a.verbose s.events.reverse,
        files⟩
    | .error e =>
      ⟨.status 1,
        visibleEvents a.verbose s.events.reverse ++ [.err (cannotRead a.sourceName e.reason)],
        files⟩

def runCommand (argv : List String) (files : FileTree) (input : StandardInput) : Outcome :=
  match readArguments argv with
  | .error e => ⟨.exit (endingEvent e).2, [(endingEvent e).1], files⟩
  | .ok a => compile a files input

end ExprCompiler.CommandLine
