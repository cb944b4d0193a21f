import ExprCompiler.Text.Quoted

/-!
# Files

The part of a file system that a compilation can see: files with their
contents, and directories, named by paths from the working directory. What
the system refuses to open is part of the tree, with the error it gives.
-/

namespace ExprCompiler

structure SystemError where
  number : Nat
  reason : String
  deriving DecidableEq, Repr, Inhabited

inductive FileContent
  | bytes (content : List UInt8)
  | text (content : String)
  | object (code : String)
  /-- Reading fails behind these bytes. -/
  | broken (content : List UInt8) (error : SystemError)
  deriving DecidableEq, Repr, Inhabited

inductive FileError
  | notFound
  | notADirectory
  | isADirectory
  | nameTooLong
  | nullInPath
  | refused (error : SystemError)
  deriving DecidableEq, Repr, Inhabited

namespace FileError

def number : FileError → Nat
  | notFound => 2
  | notADirectory => 20
  | isADirectory => 21
  | nameTooLong => 36
  | nullInPath => 22
  | refused error => error.number

def reason : FileError → String
  | notFound => "No such file or directory"
  | notADirectory => "Not a directory"
  | isADirectory => "Is a directory"
  | nameTooLong => "File name too long"
  | nullInPath => "embedded null byte"
  | refused error => error.reason

def text (e : FileError) (path : String) : String :=
  "[Errno " ++ toString e.number ++ "] " ++ e.reason ++ ": " ++ Text.quoted path

end FileError

structure FileTree where
  files : List (List String × FileContent)
  directories : List (List String)
  unreadable : List (List String × SystemError) := []
  unwritable : List (List String × SystemError) := []
  deriving Repr, Inhabited

namespace FileTree

def empty : FileTree := { files := [], directories := [] }

def root : String := "/"

/-- The parts of a path between slashes. A slash at the front stands for the root, those at the
end are dropped. -/
def splitPath (path : String) : List String :=
  let parts := ((path.toList.splitOn '/').map String.ofList).reverse.dropWhile (· = "")
  if path.toList.head? = some '/' then root :: parts.reverse else parts.reverse

def endsInSlash (path : String) : Bool := path.toList.getLast? == some '/'

def stepInto (dir : List String) (part : String) : List String :=
  if part = "" ∨ part = "." then dir
  else if part = ".." ∧ dir ≠ [] ∧ dir.getLast? ≠ some ".." then dir.dropLast
  else dir ++ [part]

def isDirectory (t : FileTree) (parts : List String) : Bool :=
  parts.all (· == "..") || parts == [root] || t.directories.contains parts

def lookup (t : FileTree) (parts : List String) : Option FileContent := t.files.lookup parts

def maxPartBytes : Nat := 255

def maxPathBytes : Nat := 4095

def follow (t : FileTree) : List String → List String → Except FileError (List String)
  | dir, [] => .ok dir
  | dir, [part] =>
    if maxPartBytes < part.utf8ByteSize then .error .nameTooLong else .ok (stepInto dir part)
  | dir, part :: parts =>
    if maxPartBytes < part.utf8ByteSize then .error .nameTooLong
    else
      let next := stepInto dir part
      if t.isDirectory next then t.follow next parts
      else if (t.lookup next).isSome then .error .notADirectory
      else .error .notFound

def resolve (t : FileTree) (path : String) : Except FileError (List String) :=
  if path.toList.contains '\x00' then .error .nullInPath
  else if path = "" then .error .notFound
  else if maxPathBytes < path.utf8ByteSize then .error .nameTooLong
  else t.follow [] (splitPath path)

def permit (refused : List (List String × SystemError)) (parts : List String) :
    Except FileError Unit :=
  match refused.lookup parts with
  | some error => .error (.refused error)
  | none => .ok ()

def read (t : FileTree) (path : String) : Except FileError FileContent := do
  let parts ← t.resolve path
  permit t.unreadable parts
  if t.isDirectory parts then throw .isADirectory
  match t.lookup parts with
  | some c => if endsInSlash path then throw .notADirectory else return c
  | none => throw .notFound

def openForWriting (t : FileTree) (path : String) : Except FileError (List String) := do
  let parts ← t.resolve path
  permit t.unwritable parts
  if t.isDirectory parts || endsInSlash path then throw .isADirectory
  return parts

def write (t : FileTree) (path : String) (c : FileContent) : Except FileError FileTree := do
  let parts ← t.openForWriting path
  return { t with files := (parts, c) :: t.files.filter (·.1 != parts) }

def insert (t : FileTree) (path : String) (c : FileContent) : FileTree :=
  let parts := (splitPath path).foldl stepInto []
  let parents := (List.range parts.length).map parts.take
  { t with
    files := (parts, c) :: t.files.filter (·.1 != parts)
    directories := t.directories ++ parents.filter (· ≠ []) }

def pathText (parts : List String) : String := "/".intercalate parts

end FileTree

end ExprCompiler
