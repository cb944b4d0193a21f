import ExprCompiler.IR.Instruction
import ExprCompiler.Token.Location

/-!
# The journal

What the backend was asked to do, with the references that operands and
functions had at that time, and what there is to log.
-/

namespace ExprCompiler

inductive Request
  | constant (value : Int)
  | arith (op : IR.Arith) (a b : String)
  | less (a b : String)
  | widen (a : String)
  | call (callee : String) (args : List String)
  | ret (a : String)
  | declare (name : String) (arity : Nat)
  | setParams (function : String) (names : List String)
  | enter (function : String)
  | verify (function : String)
  | erase (function : String)
  | clear (function : String)
  deriving DecidableEq, Repr, Inhabited

inductive Note
  | ready (triple : String)
  | declared (name : String) (arity : Nat)
  | erased (name : String)
  | cleared (name : String)
  | unverified (name reason : String)
  | evaluated (name : String) (value : Int)
  | wrote (bytes : Nat) (path : String)
  | parseFailed (location : Location) (message : String)
  | generated (name : String)
  | generationFailed (message : String)
  | compiledDefinition (name : String)
  | compiledExtern (name : String)
  | finished (failures : Nat)
  deriving DecidableEq, Repr, Inhabited

namespace Note

def logger : Note → String
  | parseFailed .. => "toyc.parser.parser"
  | generated _ | generationFailed _ => "toyc.codegen.code_generator"
  | compiledDefinition _ | compiledExtern _ | finished _ => "toyc.driver"
  | _ => "toyc.backend.llvm_backend"

def message : Note → String
  | ready t => "LLVM backend ready for " ++ t
  | declared n a => "declared " ++ n ++ "/" ++ toString a
  | erased n => "erased " ++ n
  | cleared n => "cleared body of " ++ n
  | unverified n reason => "verification of " ++ n ++ " failed: " ++ reason
  | evaluated n v => n ++ " evaluated to " ++ toString v
  | wrote bytes path => "wrote " ++ toString bytes ++ " bytes to " ++ path
  | parseFailed l m => "parse failed at " ++ l.text ++ ": " ++ m
  | generated n => "generated " ++ n
  | generationFailed m => "codegen failed: " ++ m
  | compiledDefinition n => "compiled definition " ++ n
  | compiledExtern n => "compiled extern " ++ n
  | finished n => "finished with " ++ toString n ++ " failed unit(s)"

def line (n : Note) : String := n.logger ++ ": " ++ n.message ++ "\n"

end Note

inductive JournalEntry
  | request (r : Request)
  | note (n : Note)
  deriving DecidableEq, Repr, Inhabited

def JournalEntry.request? : JournalEntry → Option Request
  | request r => some r
  | note _ => none

def JournalEntry.note? : JournalEntry → Option Note
  | request _ => none
  | note n => some n

end ExprCompiler
