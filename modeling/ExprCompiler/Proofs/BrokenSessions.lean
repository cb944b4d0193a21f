import ExprCompiler.Proofs.BrokenTexts
import ExprCompiler.Proofs.Rounds

/-!
# Sessions over texts that break off

A session takes a text as far as it goes, unit by unit, in the way it takes
the same text where it ends. It never takes the place where the text breaks
off for its end, so it ends by failing to read on.
-/

namespace ExprCompiler

open ExprCompiler.Parser (Continues)

theorem Parser.tracks_guarded {α : Type} {x : ParserM α} {p : Parser}
    (hx : Tracks p (x p) (x p.closed)) : Tracks p (guarded x p) (guarded x p.closed) := by
  unfold guarded
  generalize x p = r at hx
  generalize x p.closed = r' at hx
  cases hx with
  | ok h => exact .ok h
  | @error stop q h =>
    cases stop with
    | invalid e => exact .ok ⟨h.ending, h.unfinished⟩
    | unread f => exact .error h
    | exhausted => exact .error h
  | unread hf => exact .unread hf

namespace Session

def closed (s : Session) : Session := { s with parser := s.parser.closed }

def Tracks {α : Type} (x : SessionM α) : Prop :=
  ∀ s, Follows Session.parser closed .unread s (x s) (x s.closed)

namespace Tracks

variable {α β : Type}

theorem pure (a : α) : Tracks (Pure.pure a : SessionM α) := fun s => .ok (.refl s.parser)

theorem stop (e : SessionStop) : Tracks (throw e : SessionM α) := fun s => .error (.refl s.parser)

theorem bind {x : SessionM α} {k : α → SessionM β} (hx : Tracks x) (hk : ∀ a, Tracks (k a)) :
    Tracks (x >>= k) :=
  fun s => .bind (hx s) fun a s' _ => hk a s'

theorem state {k : Session → SessionM β} (hk : ∀ s, Tracks (k s)) (hsame : ∀ s, k s.closed = k s) :
    Tracks (get >>= k) := by
  intro s
  have hclosed : (get >>= k) s.closed = k s s.closed := by
    rw [bind_eq_ok (get_eq_ok s.closed), hsame]
  rw [hclosed]
  exact hk s s

theorem ite {c : Prop} [Decidable c] {x y : SessionM α} (hx : Tracks x) (hy : Tracks y) :
    Tracks (if c then x else y) := by
  split
  · exact hx
  · exact hy

theorem tell (e : Event) : Tracks (tell e) := fun s => .ok (.refl s.parser)

theorem onParser {x : ParserM α} (hx : ∀ p, Parser.Tracks p (x p) (x p.closed)) :
    Tracks (onParser x) := by
  intro s
  have hrun := hx s.parser
  have hparser : s.closed.parser = s.parser.closed := rfl
  unfold Session.onParser
  rw [hparser]
  generalize x s.parser = r at hrun
  generalize x s.parser.closed = r' at hrun
  cases hrun with
  | ok h => exact .ok h
  | @error stop q h => cases stop <;> exact .error h
  | unread hf => exact .unread hf

theorem onGenerator (x : GeneratorM α) : Tracks (onGenerator x) := by
  intro s
  have hgenerator : s.closed.generator = s.generator := rfl
  unfold Session.onGenerator
  rw [hgenerator]
  cases x s.generator with
  | ok a g => exact .ok (.refl s.parser)
  | error e g => exact .error (.refl s.parser)

theorem onBackend (x : BackendM α) : Tracks (onBackend x) := onGenerator _

theorem compositional : Compositional Tracks where
  pure := .pure
  bind := .bind
  state hk hsame := .state hk fun s => hsame s s.parser.lexer.closed
  tell := tell
  count s := .ok (.refl s.parser)
  current := onParser Parser.tracks_current
  advance := onParser Parser.tracks_advance
  functionText _ := onBackend _
  evaluation _ := onBackend _

/-! ### Units -/

theorem compileWith {α : Type} {parse : ParserM α} {toUnit : α → TopLevel}
    {follow : α → IR.FunctionId → SessionM Unit}
    (hparse : ∀ p, Parser.Tracks p (parse p) (parse p.closed))
    (hfollow : ∀ a f, Tracks (follow a f)) : Tracks (compileWith parse toUnit follow) := by
  refine (onParser fun p => Parser.tracks_guarded (hparse p)).bind fun r => ?_
  cases r with
  | none => exact compositional.failParse
  | some a =>
    refine (onGenerator _).bind fun r => ?_
    cases r with
    | none => exact compositional.failGeneration
    | some f => exact hfollow a f

theorem handleDefinition : Tracks handleDefinition := by
  rw [handleDefinition_eq]
  exact compileWith Parser.tracks_definition fun d f =>
    (tell _).bind fun _ => compositional.summarize _ f

theorem handleExternal : Tracks handleExternal := by
  rw [handleExternal_eq]
  exact compileWith Parser.tracks_external fun d f =>
    (tell _).bind fun _ => compositional.summarize _ f

theorem handleExpression : Tracks handleExpression := by
  rw [handleExpression_eq]
  refine compileWith Parser.tracks_bareExpression fun d f =>
    (compositional.summarize _ f).bind fun _ => ?_
  refine .state (fun s => ?_) fun _ => rfl
  split
  · exact (compositional.evaluate f).bind fun _ => onBackend _
  · exact onBackend _

theorem handleNext : Tracks handleNext := by
  refine (onParser Parser.tracks_current).bind fun t => .ite (.pure _) (.ite ?_ ?_)
  · exact (onParser Parser.tracks_advance).bind fun _ => .pure _
  · cases t.kind with
    | defKeyword => exact handleDefinition.bind fun _ => .pure _
    | externKeyword => exact handleExternal.bind fun _ => .pure _
    | _ => exact handleExpression.bind fun _ => .pure _

theorem loopAt (n : Nat) : Tracks (loopAt n) := by
  induction n with
  | zero => exact .stop _
  | succ n ih =>
    exact compositional.prompt.bind fun _ => handleNext.bind fun more => .ite ih (.pure _)

theorem loop : Tracks loop := fun s => loopAt (s.parser.weight + 1) s

end Tracks

theorem lookahead_of_loopAt {n : Nat} {s s' : Session} (h : loopAt n s = .ok () s') :
    ∃ t ∈ s'.parser.lookahead, t.kind = .endOfInput := by
  induction n generalizing s with
  | zero => cases h
  | succ n ih =>
    obtain ⟨_, s₁, -, hturn⟩ := exists_of_bind_eq_ok h
    obtain ⟨more, s₂, hnext, hrest⟩ := exists_of_bind_eq_ok hturn
    cases more with
    | true => exact ih hrest
    | false =>
      cases hrest
      obtain ⟨t, q, hq, hend, rfl⟩ := handleNext_eq_false hnext
      exact ⟨t, Parser.sees_some.1 (Parser.sees_of_current hq), hend⟩

/-- Where a text breaks off, a session that would come to its end there fails to read on. -/
theorem loop_unread {s s₁ : Session} {f : ReadFailure}
    (hf : s.parser.lexer.ending.failure? = some f) (hu : s.parser.Unfinished)
    (h : loop s.closed = .ok () s₁) : ∃ s', loop s = .error (.unread f) s' := by
  have htracks := Tracks.loop s
  rw [h] at htracks
  generalize hr : loop s = r at htracks
  cases htracks with
  | unread hf' =>
    obtain rfl := Option.some.inj (hf.symm.trans hf')
    exact ⟨_, rfl⟩
  | @ok _ s' hcontinues =>
    -- It has found the end of a text that has none.
    obtain ⟨t, ht, hend⟩ := lookahead_of_loopAt (n := s.parser.weight + 1) hr
    have hbroken : s'.parser.lexer.ending ≠ .closed := by
      rw [hcontinues.ending, ne_eq, ← Lexer.failure?_eq_none, hf]
      exact Option.some_ne_none f
    exact absurd hend (hcontinues.unfinished hu hbroken t ht)

end Session

end ExprCompiler
