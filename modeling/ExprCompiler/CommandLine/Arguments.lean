import ExprCompiler.Session.Options
import ExprCompiler.Text.DecimalDigit
import ExprCompiler.Text.Quoted

/-!
# Arguments of the command line

A word that starts with a dash is an option, unless it is a lone dash, a
negative number, or holds a space; after `--` all words are arguments. A
long option may be cut short as long as it stays the only one with that
front, and its value may follow an equals sign. Short options may be
written together, the last of them with its value, and an equals sign is
part of that value unless it follows the first of them. A lone `--` joined
to an option leaves it without a value. All words are told apart before any
of them takes effect.
-/

namespace ExprCompiler.CommandLine

inductive Flag
  | help
  | output
  | textPath
  | target
  | noEvaluation
  | quiet
  | verbose
  | version
  deriving DecidableEq, Repr, Inhabited

def Flag.all : List Flag :=
  [.help, .output, .textPath, .target, .noEvaluation, .quiet, .verbose, .version]

def Flag.names : Flag → List String
  | help => ["-h", "--help"]
  | output => ["-o", "--output"]
  | textPath => ["--emit-llvm"]
  | target => ["--target"]
  | noEvaluation => ["--no-eval"]
  | quiet => ["--quiet-ir"]
  | verbose => ["-v", "--verbose"]
  | version => ["--version"]

def Flag.takesValue : Flag → Bool
  | output | textPath | target => true
  | _ => false

def optionNames : List (String × Flag) :=
  Flag.all.flatMap fun f => f.names.map fun n => (n, f)

inductive Word
  | argument (text : String)
  | terminator
  | unknownOption (text : String)
  | option (flag : Flag) (name : String) (joined : Option (List Char))
  deriving Repr

def splitEquals (cs : List Char) : List Char × Option (List Char) :=
  match cs.dropWhile (· != '=') with
  | [] => (cs, none)
  | _ :: value => (cs.takeWhile (· != '='), some value)

structure Reading where
  name : String
  flag : Flag
  joined : Option (List Char)

def longReadings (cs : List Char) : List Reading :=
  let (front, value) := splitEquals cs
  (optionNames.filter fun o => front.isPrefixOf o.1.toList).map fun o =>
    ⟨o.1, o.2, value⟩

/-- The options that a word with one dash may be: a short one with the rest of the word joined to
it, or one whose name starts like the word. -/
def shortReadings (cs : List Char) : List Reading :=
  optionNames.filterMap fun o =>
    if o.1.toList = cs.take 2 then some ⟨o.1, o.2, some (cs.drop 2)⟩
    else if cs.isPrefixOf o.1.toList then some ⟨o.1, o.2, none⟩
    else none

/-- Digits after a dash, with at most one point among them and a digit after it. A line end
behind them does no harm. -/
def looksNegative (cs : List Char) : Bool :=
  match cs with
  | '-' :: ds =>
    let ds := if ds.getLast? = some '\n' then ds.dropLast else ds
    let fraction := ds.dropWhile Text.isDecimalDigit
    match fraction with
    | [] => !ds.isEmpty
    | '.' :: rest => !rest.isEmpty && rest.all Text.isDecimalDigit
    | _ => false
  | _ => false

def readWord (word : String) : Except String Word :=
  let cs := word.toList
  match optionNames.lookup word, cs with
  | _, [] => .ok (.argument word)
  | some f, _ => .ok (.option f word none)
  | none, [_] => .ok (.argument word)
  | none, c :: d :: _ =>
    if c ≠ '-' then .ok (.argument word)
    else
      match splitEquals cs with
      | (front, some value) =>
        match optionNames.lookup (String.ofList front) with
        | some f => .ok (.option f (String.ofList front) (some value))
        | none => choose (if d = '-' then longReadings cs else shortReadings cs) cs
      | (_, none) => choose (if d = '-' then longReadings cs else shortReadings cs) cs
where
  choose (readings : List Reading) (cs : List Char) : Except String Word :=
    match readings with
    | [r] => .ok (.option r.flag r.name r.joined)
    | [] =>
      if looksNegative cs || cs.contains ' ' then .ok (.argument word)
      else .ok (.unknownOption word)
    | rs =>
      .error ("ambiguous option: " ++ word ++ " could match " ++
        ", ".intercalate (rs.map Reading.name))

def readWords : List String → Except String (List Word)
  | [] => .ok []
  | "--" :: ws => .ok (.terminator :: ws.map .argument)
  | w :: ws => do
    let x ← readWord w
    return x :: (← readWords ws)

structure Arguments where
  source : Option String := none
  output : OptionValue := defaultOutputPath
  textPath : Option OptionValue := none
  target : Option OptionValue := none
  noEvaluation : Bool := false
  quiet : Bool := false
  verbose : Bool := false
  deriving DecidableEq, Repr, Inhabited

inductive Ending
  | help
  | version
  | mistake (message : String)
  deriving DecidableEq, Repr, Inhabited

def mistakeAbout {α : Type} (f : Flag) (message : String) : Except Ending α :=
  .error (.mistake ("argument " ++ "/".intercalate f.names ++ ": " ++ message))

abbrev Uses := List (Flag × Option OptionValue)

def useBare (f : Flag) (rest : List Word) : Except Ending (Uses × List Word) :=
  if f.takesValue then
    match rest with
    | .argument v :: rest => .ok ([(f, some (.text v))], rest)
    | _ => mistakeAbout f "expected one argument"
  else .ok ([(f, none)], rest)

def joinedValue (cs : List Char) : OptionValue :=
  if cs = ['-', '-'] then .dropped else .text (String.ofList cs)

def ignoredText (f : Flag) (cs : List Char) : Except Ending (Uses × List Word) :=
  mistakeAbout f ("ignored explicit argument " ++ Text.quoted (String.ofList cs))

def useJoined (f : Flag) (long : Bool) (rest : List Word) :
    List Char → Except Ending (Uses × List Word)
  | [] => if f.takesValue then .ok ([(f, some (joinedValue []))], rest) else ignoredText f []
  | c :: cs =>
    if f.takesValue then .ok ([(f, some (joinedValue (c :: cs)))], rest)
    else if long then ignoredText f (c :: cs)
    else
      match optionNames.lookup (String.ofList ['-', c]) with
      | none => ignoredText f (c :: cs)
      | some g => do
        let (us, rest) ← if cs.isEmpty then useBare g rest else useJoined g false rest cs
        return ((f, none) :: us, rest)

def useOption (f : Flag) (name : String) (joined : Option (List Char)) (rest : List Word) :
    Except Ending (Uses × List Word) :=
  match joined with
  | none => useBare f rest
  | some cs => useJoined f ("--".toList.isPrefixOf name.toList) rest cs

def setFlag (a : Arguments) (f : Flag) (value : Option OptionValue) : Except Ending Arguments :=
  match f, value with
  | .help, _ => .error .help
  | .version, _ => .error .version
  | .output, some v => .ok { a with output := v }
  | .textPath, some v => .ok { a with textPath := some v }
  | .target, some v => .ok { a with target := some v }
  | .noEvaluation, _ => .ok { a with noEvaluation := true }
  | .quiet, _ => .ok { a with quiet := true }
  | .verbose, _ => .ok { a with verbose := true }
  | _, none => .ok a

structure Progress where
  arguments : Arguments
  sourceSeen : Bool
  extra : List String

def Progress.withSource (p : Progress) (source : Option String) : Progress :=
  { p with arguments := { p.arguments with source := source }, sourceSeen := true }

def Progress.leave (p : Progress) (word : String) : Progress := { p with extra := p.extra ++ [word] }

/-- Goes through the words; `fuel` bounds their number. The first argument is the source, and a
`--` at its side belongs to it. -/
def takeWords : Nat → List Word → Progress → Except Ending Progress
  | 0, _, p => .ok p
  | _, [], p => .ok p
  | fuel + 1, .argument x :: rest, p =>
    if p.sourceSeen then takeWords fuel rest (p.leave x)
    else
      let rest :=
        match rest with
        | .terminator :: r => r
        | r => r
      takeWords fuel rest (p.withSource (some x))
  | fuel + 1, .terminator :: rest, p =>
    if p.sourceSeen then takeWords fuel rest (p.leave "--")
    else
      match rest with
      | .argument x :: r => takeWords fuel r (p.withSource (some x))
      | r => takeWords fuel r (p.withSource none)
  | fuel + 1, .unknownOption x :: rest, p => takeWords fuel rest (p.leave x)
  | fuel + 1, .option f name joined :: rest, p => do
    let (us, rest) ← useOption f name joined rest
    let a ← us.foldlM (fun a u => setFlag a u.1 u.2) p.arguments
    takeWords fuel rest { p with arguments := a }

def readArguments (argv : List String) : Except Ending Arguments := do
  match readWords argv with
  | .error message => throw (.mistake message)
  | .ok words =>
    let p ← takeWords words.length words ⟨{}, false, []⟩
    if p.extra ≠ [] then
      throw (.mistake ("unrecognized arguments: " ++ " ".intercalate p.extra))
    return p.arguments

def Arguments.options (a : Arguments) (interactive : Bool) : Options where
  outputPath := a.output
  target := a.target
  evaluate := !a.noEvaluation
  showCode := !a.quiet
  textPath := a.textPath
  interactive := interactive
  file :=
    match a.source with
    | some s => if s = "" then standardInputName else s
    | none => standardInputName

end ExprCompiler.CommandLine
