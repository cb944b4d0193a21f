import ExprCompiler.CommandLine.Run
import ExprCompiler.Session.Interactive

/-!
# The program

Reads files and lines, shows events, and writes files.
-/

namespace ExprCompiler

open CommandLine

def showEvent (verbose : Bool) : Event → IO Unit
  | .out s => do
    let h ← IO.getStdout
    h.putStr s
    h.flush
  | .err s => do
    let h ← IO.getStderr
    h.putStr s
    h.flush
  | .log n => do if verbose then (← IO.getStderr).putStr n.line

def showEvents (verbose : Bool) (s : Session) : IO Session := do
  for e in s.events.reverse do showEvent verbose e
  return { s with events := [] }

def parentPath (path : String) : String :=
  String.ofList (path.toList.reverse.dropWhile (· != '/')).reverse

/-- Reading a directory as a file fails in a way of its own. -/
def directoryExists (path : String) : IO Bool := do
  try
    let _ ← IO.FS.readBinFile path
    return false
  catch e =>
    match e with
    | .inappropriateType .. => return true
    | _ => return false

def filesAround (paths : List String) (source : Option String) : IO FileTree := do
  let mut t := FileTree.empty
  for path in paths do
    for dir in [parentPath path, path] do
      if dir ≠ "" then
        if ← directoryExists dir then
          let parts := (FileTree.splitPath dir).foldl FileTree.stepInto []
          t := { t with directories := parts :: t.directories }
  if let some path := source then
    try
      let bytes ← IO.FS.readBinFile path
      t := t.insert path (.bytes bytes.toList)
    catch e =>
      if let .permissionDenied _ code reason := e then
        let parts := (FileTree.splitPath path).foldl FileTree.stepInto []
        t := { t with unreadable := (parts, ⟨code.toNat, reason⟩) :: t.unreadable }
  return t

def writeFiles (files : FileTree) (paths : List String) : IO Unit := do
  for path in paths do
    match files.lookup ((FileTree.splitPath path).foldl FileTree.stepInto []) with
    | some (.text s) => IO.FS.writeFile path s
    | some (.object code) => IO.FS.writeFile path code
    | _ => pure ()

def showOutcome (o : Outcome) (paths : List String) : IO UInt32 := do
  for e in o.events do showEvent true e
  writeFiles o.files paths
  match o.result with
  | .status n => return n.toUInt32
  | .exit n => return n.toUInt32
  | .raised _ => return 1

partial def converse (verbose : Bool) (s : Session) (prompted : Bool) : IO Session := do
  let s ←
    if prompted then pure s
    else
      match Session.prompt s with
      | .ok _ s => showEvents verbose s
      | .error _ s => pure s
  match s.attempt with
  | .done s => converse verbose (← showEvents verbose s) false
  | .ended s => showEvents verbose s
  | .stopped _ s => showEvents verbose s
  | .needsMore => converse verbose (s.receive (← (← IO.getStdin).getLine)) true

def runTerminal (a : Arguments) (files : FileTree) (paths : List String) : IO UInt32 := do
  match Session.start (a.options true) files .checking with
  | .error e =>
    showEvent true (.err e.diagnostic.text)
    return 1
  | .ok s =>
    let s ← converse a.verbose (← showEvents a.verbose s).awaiting false
    match Session.finish s with
    | .ok ok s =>
      let s ← showEvents a.verbose s
      writeFiles s.files paths
      return (Session.exitStatus ok).toUInt32
    | .error _ s =>
      let _ ← showEvents a.verbose s
      return 1

partial def readLines (h : IO.FS.Stream) (text : String) : IO String := do
  let line ← h.getLine
  if line = "" then return text else readLines h (text ++ line)

def runProgram (argv : List String) : IO UInt32 := do
  let stdin ← IO.getStdin
  let terminal ← stdin.isTty
  match readArguments argv with
  | .error _ => showOutcome (runCommand argv .empty ⟨.ofString "", false⟩) []
  | .ok a =>
    let paths := (some a.output :: [a.textPath]).filterMap fun v => v.bind OptionValue.text?
    let files ← filesAround (paths ++ a.source.toList) a.source
    if a.source.isNone && terminal then runTerminal a files paths
    else
      let text ← if a.source.isNone then readLines stdin "" else pure ""
      showOutcome (runCommand argv files ⟨.ofString text, false⟩) paths

end ExprCompiler

def main (argv : List String) : IO UInt32 := ExprCompiler.runProgram argv
