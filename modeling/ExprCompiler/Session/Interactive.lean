import ExprCompiler.Session.Basic

/-!
# Sessions at a terminal

The text of a terminal comes a line at a time. A unit that needs more text
than there is leaves the session as it was, and is tried again when there is
more.
-/

namespace ExprCompiler.Session

inductive Attempt
  | done (s : Session)
  | ended (s : Session)
  | needsMore
  | stopped (stop : SessionStop) (s : Session)

def attempt (s : Session) : Attempt :=
  match handleNext s with
  | .ok true s => .done s
  | .ok false s => .ended s
  | .error (.unread .pending) _ => .needsMore
  | .error stop s => .stopped stop s

def awaiting (s : Session) : Session :=
  { s with parser := .ofSource ⟨[], .pending⟩ s.options.file }

def receive (s : Session) (line : String) : Session :=
  let more : Source := ⟨line.toList, if line = "" then .closed else .pending⟩
  { s with parser := { s.parser with lexer := s.parser.lexer.extend more } }

end ExprCompiler.Session
