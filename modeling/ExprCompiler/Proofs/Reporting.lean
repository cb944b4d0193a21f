import ExprCompiler.Proofs.Using
import ExprCompiler.Session.Interactive

/-!
# What passes through every report

A property of actions of a session that its single actions have, and that an
action has when its parts have it, is a property of the summary of a unit, of
an evaluation and of a prompt, and where it goes over tokens and counts, of the
reports of failures.
-/

namespace ExprCompiler.Session

open IR (FunctionId)

structure Reporting (P : {α : Type} → SessionM α → Prop) : Prop where
  pure {α : Type} (a : α) : P (Pure.pure a : SessionM α)
  bind {α β : Type} {x : SessionM α} {k : α → SessionM β} (hx : P x) (hk : ∀ a, P (k a)) :
    P (x >>= k)
  state {β : Type} {k : Session → SessionM β} (hk : ∀ s, P (k s))
    (hsame : ∀ s l, k { s with parser := { s.parser with lexer := l } } = k s) : P (get >>= k)
  tell (e : Event) : P (Session.tell e)
  functionText (f : FunctionId) : P (onBackend (Backend.functionText f))
  evaluation (f : FunctionId) : P (onBackend (Backend.evaluate f))

structure Compositional (P : {α : Type} → SessionM α → Prop) : Prop extends Reporting P where
  current : P (onParser Parser.current)
  advance : P (onParser Parser.advance)
  count : P (modify fun s => { s with failures := s.failures + 1 } : SessionM Unit)

section

variable {P : {α : Type} → SessionM α → Prop}

namespace Reporting

variable (h : Reporting P)

include h

theorem reportBackend : P reportBackend := by
  refine h.state (fun s => ?_) fun _ _ => rfl
  cases s.generator.backend.errors.getLast? with
  | some e => exact h.tell _
  | none => exact h.pure _

theorem summarize (header : String) (f : FunctionId) : P (summarize header f) := by
  refine h.bind (h.tell _) fun _ => h.state (fun s => ?_) fun _ _ => rfl
  split
  · exact h.bind (h.functionText f) fun text => h.tell _
  · exact h.pure _

theorem evaluate (f : FunctionId) : P (evaluate f) := by
  refine h.bind (h.evaluation f) fun r => ?_
  cases r with
  | none => exact h.reportBackend
  | some v => exact h.tell _

theorem prompt : P prompt := by
  refine h.state (fun s => ?_) fun _ _ => rfl
  split
  · exact h.tell _
  · exact h.pure _

end Reporting

namespace Compositional

variable (h : Compositional P)

include h

theorem skipToken : P skipToken := by
  refine h.bind h.current fun t => ?_
  split
  · exact h.bind h.advance fun _ => h.pure _
  · exact h.pure _

theorem failUnit (e : CompileError) : P (failUnit e) :=
  h.bind h.count fun _ => h.bind (h.tell _) fun _ => h.skipToken

theorem failParse : P failParse := by
  refine h.state (fun s => ?_) fun _ _ => rfl
  cases s.parser.errors.getLast? with
  | some e => exact h.bind (h.tell _) fun _ => h.failUnit _
  | none => exact h.pure _

theorem failGeneration : P failGeneration := by
  refine h.state (fun s => ?_) fun _ _ => rfl
  cases s.generator.errors.getLast? with
  | some e => exact h.failUnit _
  | none => exact h.pure _

end Compositional

end

end ExprCompiler.Session
