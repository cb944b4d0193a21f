import ExprCompiler.Codegen.Generator
import ExprCompiler.Parser.Grammar
import ExprCompiler.Session.Options

/-!
# Sessions

A session compiles the units of one source after another into one module.
It shows what it does as a row of events, counts the units that failed, and
sees a tree of files.
-/

namespace ExprCompiler

inductive Event
  | out (text : String)
  | err (text : String)
  | log (n : Note)
  deriving DecidableEq, Repr, Inhabited

structure Session where
  options : Options
  generator : Generator
  parser : Parser
  failures : Nat
  files : FileTree
  /-- The latest event comes first. -/
  events : List Event

inductive SessionStop
  | unread (f : ReadFailure)
  | generator (g : GeneratorStop)
  | exhausted
  deriving Repr, Inhabited

abbrev SessionM := EStateM SessionStop Session

namespace Session

def emptyParser (o : Options) : Parser := .ofString "" o.file

def loggedEvents (journal : List JournalEntry) : List Event :=
  (journal.filterMap JournalEntry.note?).map .log

def flushJournal (s : Session) : Session :=
  let b := s.generator.backend
  { s with
    events := loggedEvents b.journal ++ s.events
    generator := { s.generator with backend := { b with journal := [] } } }

def start (o : Options) (files : FileTree) (v : Verifier) : Except BackendError Session := do
  let triple ← Target.ofTriple? (o.target.bind OptionValue.text?)
  let g := Generator.ofBackend (.ofTarget o.moduleName triple) v
  return flushJournal ⟨o, g, emptyParser o, 0, files, []⟩

def tell (e : Event) : SessionM Unit := modify fun s => { s with events := e :: s.events }

def log (n : Note) : SessionM Unit := tell (.log n)

def print (line : String) : SessionM Unit := tell (.out (line ++ "\n"))

def onParser {α : Type} (x : ParserM α) : SessionM α := fun s =>
  match x s.parser with
  | .ok a p => .ok a { s with parser := p }
  | .error (.unread f) p => .error (.unread f) { s with parser := p }
  | .error _ p => .error .exhausted { s with parser := p }

def onGenerator {α : Type} (x : GeneratorM α) : SessionM α := fun s =>
  match x s.generator with
  | .ok a g => .ok a (flushJournal { s with generator := g })
  | .error e g => .error (.generator e) (flushJournal { s with generator := g })

def onBackend {α : Type} (x : BackendM α) : SessionM α := onGenerator (Generator.onBackend x)

/-! ### Reports -/

def report (d : Diagnostic) : SessionM Unit := tell (.err d.text)

/-- Discards the lookahead, unless the next unit begins with it or it ends the input. -/
def skipToken : SessionM Unit := do
  if !(← onParser Parser.current).startsUnit then
    let _ ← onParser Parser.advance

def failUnit (e : CompileError) : SessionM Unit := do
  modify fun s => { s with failures := s.failures + 1 }
  report e.diagnostic
  skipToken

def failParse : SessionM Unit := do
  match (← get).parser.errors.getLast? with
  | some e =>
    log (.parseFailed e.location e.message)
    failUnit (.grammar e)
  | none => return

def failGeneration : SessionM Unit := do
  match (← get).generator.errors.getLast? with
  | some e => failUnit e
  | none => return

def reportBackend : SessionM Unit := do
  match (← get).generator.backend.errors.getLast? with
  | some e => report e.diagnostic
  | none => return

def summarize (header : String) (f : IR.FunctionId) : SessionM Unit := do
  print header
  if (← get).options.showCode then print (← onBackend (Backend.functionText f))

/-! ### Units -/

def handleDefinition : SessionM Unit := do
  match ← onParser Parser.definition? with
  | none => failParse
  | some d =>
    match ← onGenerator (Generator.generate (.definition d)) with
    | none => failGeneration
    | some f =>
      log (.compiledDefinition d.name)
      summarize "Read function definition:" f

def handleExternal : SessionM Unit := do
  match ← onParser Parser.external? with
  | none => failParse
  | some p =>
    match ← onGenerator (Generator.generate (.external p)) with
    | none => failGeneration
    | some f =>
      log (.compiledExtern p.name)
      summarize "Read extern:" f

def evaluate (f : IR.FunctionId) : SessionM Unit := do
  match ← onBackend (Backend.evaluate f) with
  | none => reportBackend
  | some v => print ("Evaluated to " ++ toString v)

def handleExpression : SessionM Unit := do
  match ← onParser Parser.bareExpression? with
  | none => failParse
  | some d =>
    match ← onGenerator (Generator.generate (.definition d)) with
    | none => failGeneration
    | some f =>
      summarize "Read top-level expression:" f
      if (← get).options.evaluate then evaluate f
      onBackend (Backend.erase f)

def promptText : String := "ready> "

def prompt : SessionM Unit := do
  if (← get).options.interactive then tell (.err promptText)

/-- Reads and compiles one unit or semicolon; gives whether there was one. -/
def handleNext : SessionM Bool := do
  let t ← onParser Parser.current
  if t.kind = .endOfInput then return false
  if t.isChar ";" then
    let _ ← onParser Parser.advance
  else
    match t.kind with
    | .defKeyword => handleDefinition
    | .externKeyword => handleExternal
    | _ => handleExpression
  return true

def loopAt : Nat → SessionM Unit
  | 0 => throw .exhausted
  | n + 1 => do
    prompt
    if ← handleNext then loopAt n

def loop : SessionM Unit := do loopAt ((← get).parser.weight + 1)

/-! ### The end -/

def writeText (path : String) : SessionM Unit := do
  match (← get).files.openForWriting path with
  | .error .nullInPath => throw (.generator (.refused .nullInPath))
  | .error e =>
    report (BackendError.textWrite path (.words (e.text path))).diagnostic
    modify fun s => { s with failures := s.failures + 1 }
  | .ok _ =>
    let text ← onBackend Backend.moduleText
    modify fun s =>
      match s.files.write path (.text text) with
      | .ok files => { s with files := files }
      | .error _ => s

def outputPath : SessionM String := do
  match (← get).options.outputPath with
  | .text path => return path
  | .dropped => throw (.generator (.refused .noPath))

/-- Writes what is asked for. All is well if the object file is written and no unit failed. -/
def finish : SessionM Bool := do
  if let some path := (← get).options.textPath.bind OptionValue.text? then
    if path ≠ "" then writeText path
  let path ← outputPath
  let written ← onBackend (Backend.emit path (← get).files)
  match written with
  | some files =>
    modify fun s => { s with files := files }
    print ("Wrote " ++ path)
  | none => reportBackend
  let failures := (← get).failures
  log (.finished failures)
  return written.isSome && failures == 0

def run (source : Source) : SessionM Bool := do
  modify fun s => { s with parser := .ofSource source s.options.file }
  loop
  finish

def exitStatus (ok : Bool) : Nat := if ok then 0 else 1

def compile (source : Source) (o : Options) (files : FileTree) :
    Except BackendError (EStateM.Result SessionStop Session Bool) := do
  return run source (← start o files .checking)

end Session

end ExprCompiler
