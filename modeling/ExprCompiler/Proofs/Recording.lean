import ExprCompiler.Proofs.Productions

/-!
# Where the errors of a parse go

A parse records nothing. It leaves with its error, and only then is the error
put behind those met so far.
-/

namespace ExprCompiler.Parser

def Silent {α : Type} (x : ParserM α) : Prop := ∀ p, (ended (x p)).errors = p.errors

theorem Silent.advance : Silent Parser.advance := by
  intro p
  obtain ⟨t, l, -, h⟩ | ⟨f, -, h⟩ := p.advance_cases
  · rw [h]
    rfl
  · rw [h]
    rfl

theorem Silent.current : Silent Parser.current := by
  intro p
  cases h : p.lookahead with
  | some t => rw [current_of_some h]; rfl
  | none => rw [current_of_none h, advance p]

theorem stepwise_silent : Stepwise fun p r => (ended r).errors = p.errors where
  refl _ _ := rfl
  exhausted _ := rfl
  reject _ := rfl
  advance _ := Silent.advance _
  count _ := rfl
  trans h hr := hr.trans h
  stop h := h

theorem silent_definition : Silent definition :=
  fun p => stepwise_silent.compositional.definition p p.sees_none

theorem silent_external : Silent external :=
  fun p => stepwise_silent.compositional.external p p.sees_none

theorem silent_bareExpression : Silent bareExpression :=
  fun p => stepwise_silent.compositional.bareExpression p p.sees_none

/-- A parse that is guarded gives a unit and records nothing, or records its error and gives
none. If it gives neither, it records nothing. -/
theorem Silent.guarded {α : Type} {x : ParserM α} (hx : Silent x) (p : Parser) :
    (∃ a q, x p = .ok a q ∧ guarded x p = .ok (some a) q ∧ q.errors = p.errors) ∨
      (∃ e q, guarded x p = .ok none q ∧ q.errors = p.errors ++ [e]) ∨
        ∃ stop q, guarded x p = .error stop q ∧ q.errors = p.errors := by
  have hrun := hx p
  unfold Parser.guarded
  cases hxp : x p with
  | ok a q =>
    rw [hxp] at hrun
    exact .inl ⟨a, q, rfl, rfl, hrun⟩
  | error stop q =>
    rw [hxp] at hrun
    have hq : q.errors = p.errors := hrun
    cases stop with
    | invalid e => exact .inr (.inl ⟨e, _, rfl, by simp only [hq]⟩)
    | unread f => exact .inr (.inr ⟨_, q, rfl, hq⟩)
    | exhausted => exact .inr (.inr ⟨_, q, rfl, hq⟩)

end ExprCompiler.Parser
