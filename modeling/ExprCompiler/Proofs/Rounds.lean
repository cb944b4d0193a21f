import ExprCompiler.Proofs.Turns

/-!
# Rounds of the loop

The loop over a text that is all there ends, and each of its turns takes one
token and then no keyword more. So the turns begin at tokens further and
further ahead.
-/

namespace ExprCompiler

namespace Layered

open ExprCompiler.Session (beyond)

section

variable {ts us : List Token} {number : Nat}

theorem Passed.length_le (h : Passed ts us) : us.length ≤ ts.length := h.suffix.length_le

theorem Passed.of_lt (h : Passed ts us) (hlt : us.length < ts.length) : Passed ts.tail us := by
  obtain ⟨c, rfl, hc⟩ := h
  cases c with
  | nil => exact absurd hlt (Nat.lt_irrefl _)
  | cons t c => exact ⟨c, rfl, (List.forall_mem_cons.1 hc).2⟩

theorem Passed.eq_of_le (h : Passed ts us) (hle : ts.length ≤ us.length) : us = ts := by
  obtain ⟨c, rfl, -⟩ := h
  cases c with
  | nil => rfl
  | cons t c =>
    simp only [List.cons_append, List.length_cons, List.length_append] at hle
    omega

theorem isKeyword_of_startsUnit {t : Token} (h : t.startsUnit = false) : t.isKeyword = false := by
  simp only [Token.startsUnit, Bool.or_eq_false_iff] at h
  simp [Token.isKeyword, h.1.1, h.1.2]

theorem passed_beyond (ts : List Token) : Passed ts (beyond ts) := by
  unfold beyond
  split
  · exact .refl ts
  · rename_i h
    exact .tail (isKeyword_of_startsUnit (by simpa using h))

theorem Twin.passed_ok {α β : Type} {R : α → β → Prop} {a : α}
    {s : EStateM.Result ParseError (List Token) β} (h : Twin R ts (.ok a us) s) : Passed ts us := by
  cases h with
  | ok _ hpassed _ => exact hpassed

theorem Twin.passed_error {α β : Type} {R : α → β → Prop} {e : ParseError}
    {s : EStateM.Result ParseError (List Token) β} (h : Twin R ts (.error e us) s) :
    Passed ts us := by
  cases h with
  | error _ hpassed _ => exact hpassed

theorem bind_pure_eq_ok {α β : Type} {x : Reading α} {k : α → β} {b : β}
    (h : (x >>= fun a => pure (k a)) ts = .ok b us) : ∃ a, x ts = .ok a us ∧ k a = b := by
  obtain ⟨a, vs, hx, hpure⟩ := exists_of_bind_eq_ok h
  cases hpure
  exact ⟨a, hx, rfl⟩

theorem bind_pure_eq_error {α β : Type} {x : Reading α} {k : α → β} {e : ParseError}
    (h : (x >>= fun a => pure (k a)) ts = .error e us) : x ts = .error e us := by
  cases hx : x ts with
  | ok a vs =>
    rw [bind_eq_ok hx] at h
    cases h
  | error e vs =>
    rw [bind_eq_error hx] at h
    cases h
    rfl

theorem bareExpression_length_lt {d : Definition} (h : bareExpression number ts = .ok d us) :
    us.length < ts.length := by
  rw [bareExpression, peek_bind] at h
  obtain ⟨e, vs, hc, hpure⟩ := exists_of_bind_eq_ok h
  cases hpure
  exact chain_length_lt hc

theorem unit_passed {u : TopLevel} (h : unit number ts = .ok u us) : Passed ts.tail us := by
  by_cases hd : (look ts).kind = .defKeyword
  · rw [Parser.unit_of_definition hd] at h
    obtain ⟨d, hread, -⟩ := bind_pure_eq_ok h
    exact (hread ▸ definition_twin (.refl ts) hd).passed_ok
  by_cases he : (look ts).kind = .externKeyword
  · rw [Parser.unit_of_external he] at h
    obtain ⟨p, hread, -⟩ := bind_pure_eq_ok h
    exact (hread ▸ external_twin (.refl ts) he).passed_ok
  · -- No keyword stands in front of a bare expression, but it leaves fewer tokens than there were.
    rw [Parser.unit_of_bareExpression hd he] at h
    obtain ⟨d, hread, -⟩ := bind_pure_eq_ok h
    have hpassed := (hread ▸ bareExpression_twin (.refl ts) number).passed_ok
    exact hpassed.of_lt (bareExpression_length_lt hread)

theorem unit_fault_passed {e : ParseError} (hend : (look ts).kind ≠ .endOfInput)
    (h : unit number ts = .error e us) : Passed ts.tail (beyond us) := by
  by_cases hd : (look ts).kind = .defKeyword
  · rw [Parser.unit_of_definition hd] at h
    have hread := bind_pure_eq_error h
    exact (hread ▸ definition_twin (.refl ts) hd).passed_error.trans (passed_beyond us)
  by_cases he : (look ts).kind = .externKeyword
  · rw [Parser.unit_of_external he] at h
    have hread := bind_pure_eq_error h
    exact (hread ▸ external_twin (.refl ts) he).passed_error.trans (passed_beyond us)
  · rw [Parser.unit_of_bareExpression hd he] at h
    have hread := bind_pure_eq_error h
    have hpassed := (hread ▸ bareExpression_twin (.refl ts) number).passed_error
    by_cases hlt : us.length < ts.length
    · exact (hpassed.of_lt hlt).trans (passed_beyond us)
    · -- The error is about the first token, which no unit begins with.
      obtain rfl := hpassed.eq_of_le (Nat.not_lt.1 hlt)
      have hstarts : (look us).startsUnit = false := by simp [Token.startsUnit, hd, he, hend]
      rw [beyond, hstarts]
      exact .refl _

end

end Layered

namespace Session

/-! ### Rounds of the loop -/

/-- The loop from a session to its end: where each turn begins and ends. -/
inductive Rounds : Session → List (Session × Session) → Session → Prop
  | last {s s₁ s' : Session} (hp : prompt s = .ok () s₁) (ht : handleNext s₁ = .ok false s') :
    Rounds s [] s'
  | round {s s₁ s₂ s' : Session} {rows : List (Session × Session)} (hp : prompt s = .ok () s₁)
    (ht : handleNext s₁ = .ok true s₂) (h : Rounds s₂ rows s') : Rounds s ((s₁, s₂) :: rows) s'

theorem Rounds.loopAt {s s' : Session} {rows : List (Session × Session)} (h : Rounds s rows s')
    {n : Nat} (hn : rows.length < n) : loopAt n s = .ok () s' := by
  induction h generalizing n with
  | last hp ht =>
    obtain ⟨n, rfl⟩ := Nat.exists_eq_succ_of_ne_zero (Nat.ne_zero_of_lt hn)
    rw [Session.loopAt, bind_eq_ok hp, bind_eq_ok ht]
    rfl
  | round hp ht h ih =>
    obtain ⟨n, rfl⟩ := Nat.exists_eq_succ_of_ne_zero (Nat.ne_zero_of_lt hn)
    rw [Session.loopAt, bind_eq_ok hp, bind_eq_ok ht]
    exact ih (Nat.lt_of_succ_lt_succ hn)

/-! ### What a round takes -/

open ExprCompiler.Layered (Passed)

section

variable {v : Verifier} {us : List TopLevel} {s s' : Session} {ts : List Token}

theorem Turn.passed (h : Turn s ts s') (hend : (look ts).kind ≠ .endOfInput) :
    ∃ us, s'.parser.Facing us ∧ Passed ts.tail us := by
  cases h with
  | semicolon h facing _ _ => exact ⟨_, facing, .refl _⟩
  | faulty h read failed => exact ⟨_, failed.facing, Layered.unit_fault_passed hend read⟩
  | refused h read generated latest failed =>
    exact ⟨_, failed.facing, (Layered.unit_passed read).trans (Layered.passed_beyond _)⟩
  | compiled h read generated succeeded =>
    exact ⟨_, succeeded.facing, Layered.unit_passed read⟩

theorem onParser_of_eq_ok {α : Type} {x : ParserM α} {a : α} (h : onParser x s = .ok a s') :
    ∃ q, x s.parser = .ok a q ∧ s' = { s with parser := q } := by
  unfold onParser at h
  cases hx : x s.parser with
  | ok b q =>
    rw [hx] at h
    cases h
    exact ⟨q, rfl, rfl⟩
  | error stop q =>
    rw [hx] at h
    cases stop <;> cases h

theorem handleNext_eq_false (ht : handleNext s = .ok false s') :
    ∃ t q, Parser.current s.parser = .ok t q ∧ t.kind = .endOfInput ∧
      s' = { s with parser := q } := by
  obtain ⟨t, s₁, hcurrent, hrest⟩ := exists_of_bind_eq_ok ht
  obtain ⟨q, hq, rfl⟩ := onParser_of_eq_ok hcurrent
  by_cases hend : t.kind = .endOfInput
  · rw [if_pos hend] at hrest
    cases hrest
    exact ⟨t, q, hq, hend, rfl⟩
  have hnot {α : Type} {x : SessionM α} {s₁ : Session} :
      (x >>= fun _ => pure true) s₁ ≠ .ok false s' := by
    intro h
    obtain ⟨a, s₂, -, hpure⟩ := exists_of_bind_eq_ok h
    cases hpure
  rw [if_neg hend] at hrest
  by_cases hsemicolon : t.isChar ";" = true
  · rw [if_pos hsemicolon] at hrest
    exact absurd hrest hnot
  · rw [if_neg hsemicolon] at hrest
    generalize t.kind = kind at hrest
    cases kind <;> exact absurd hrest hnot

theorem end_of_false (hc : s.parser.lexer.ending = .closed) (ht : handleNext s = .ok false s') :
    (look s.parser.tokens).kind = .endOfInput := by
  obtain ⟨t, q, hq, hend, -⟩ := handleNext_eq_false ht
  obtain ⟨q', hq', -, -⟩ := Parser.current_of_closed hc
  rw [hq'] at hq
  cases hq
  exact hend

/-- A turn of the loop takes its first token, and no keyword behind that. -/
theorem Traced.step (h : Traced v us s) (hc : s.parser.lexer.ending = .closed)
    (ht : handleNext s = .ok true s') :
    s'.parser.lexer.ending = .closed ∧ (look s.parser.tokens).kind ≠ .endOfInput ∧
      Turn s s.parser.tokens s' ∧ Passed s.parser.tokens.tail s'.parser.tokens ∧
      ((look s.parser.tokens).kind = .defKeyword → HandledBy handleDefinition s s') ∧
      ((look s.parser.tokens).kind = .externKeyword → HandledBy handleExternal s s') := by
  have hend : (look s.parser.tokens).kind ≠ .endOfInput := by
    intro hend
    obtain ⟨q, hq, -, -⟩ := Parser.current_of_closed hc
    rw [handleNext_of_end hq hend] at ht
    cases ht
  obtain ⟨s₁, hs₁, hturn, hdefinition, hexternal⟩ := h.handleNext_turn hc hend
  rw [ht] at hs₁
  cases hs₁
  obtain ⟨us, hfacing, hpassed⟩ := hturn.passed hend
  exact ⟨hfacing.closed, hend, hturn, hfacing.tokens ▸ hpassed, hdefinition, hexternal⟩

theorem parser_of_prompt (h : prompt s = .ok () s') : s'.parser = s.parser := by
  obtain ⟨a, new, s₁, hs₁, htells⟩ := reporting_quiet.prompt s
  rw [h] at hs₁
  cases hs₁
  exact htells.parser

theorem closed_of_prompt (h : prompt s = .ok () s') (hc : s.parser.lexer.ending = .closed) :
    s'.parser.lexer.ending = .closed := by
  rwa [parser_of_prompt h]

theorem History.prompted (h : History v us s) (hp : Session.prompt s = .ok () s') :
    History v us s' := by
  have hprompt := h.prompt
  rwa [hp] at hprompt

theorem History.turned (h : History v us s) {b : Bool} (ht : handleNext s = .ok b s') :
    History v (tally us s) s' := by
  have hturn := h.turn
  rwa [ht] at hturn

theorem length_lt_of_passed {ts us : List Token} (hend : (look ts).kind ≠ .endOfInput)
    (h : Passed ts.tail us) : us.length < ts.length :=
  Nat.lt_of_le_of_lt h.length_le (length_tail_lt hend)

theorem History.exists_rounds (h : History v us s) (hc : s.parser.lexer.ending = .closed) :
    ∃ rows s', Rounds s rows s' ∧ rows.length < s.parser.tokens.length := by
  -- On the number of tokens ahead: a turn takes at least its first one.
  induction hn : s.parser.tokens.length using Nat.strongRecOn generalizing us s with
  | ind n ih =>
    obtain ⟨_, new, s₁, hp, -⟩ := reporting_quiet.prompt s
    have hparser := parser_of_prompt hp
    have hc₁ := closed_of_prompt hp hc
    have hpos : 0 < n := hn ▸ List.length_pos_iff.2 s.parser.tokens_ne_nil
    by_cases hend : (look s₁.parser.tokens).kind = .endOfInput
    · obtain ⟨q, hq, -, -⟩ := Parser.current_of_closed hc₁
      exact ⟨[], _, .last hp (handleNext_of_end hq hend), hpos⟩
    · obtain ⟨s₂, hs₂, -⟩ := (h.prompted hp).traced.handleNext_turn hc₁ hend
      obtain ⟨hc₂, -, -, hpassed, -⟩ := (h.prompted hp).traced.step hc₁ hs₂
      have hlt := length_lt_of_passed hend hpassed
      rw [hparser, hn] at hlt
      obtain ⟨rows, s', hrounds, hrows⟩ := ih _ hlt ((h.prompted hp).turned hs₂) hc₂ rfl
      refine ⟨_, s', .round hp hs₂ hrounds, ?_⟩
      rw [List.length_cons]
      omega

theorem Rounds.loop {rows : List (Session × Session)} (h : Rounds s rows s')
    (hlt : rows.length < s.parser.tokens.length) : Session.loop s = .ok () s' := by
  have hloop : Session.loop s = Session.loopAt (s.parser.weight + 1) s := rfl
  have hle := s.parser.length_tokens_le
  have hn : rows.length < s.parser.weight + 1 := by omega
  rw [hloop, h.loopAt hn]

theorem Rounds.row {rows : List (Session × Session)} (hr : Rounds s rows s') (h : History v us s)
    (hc : s.parser.lexer.ending = .closed) :
    ∀ r ∈ rows, (∃ us, History v us r.1) ∧ r.1.parser.lexer.ending = .closed ∧
      handleNext r.1 = .ok true r.2 := by
  induction hr generalizing us with
  | last hp ht => exact fun r hr => absurd hr List.not_mem_nil
  | round hp ht hr ih =>
    have hc₁ := closed_of_prompt hp hc
    have hprompted := h.prompted hp
    obtain ⟨hc₂, -⟩ := hprompted.traced.step hc₁ ht
    exact List.forall_mem_cons.2 ⟨⟨⟨_, hprompted⟩, hc₁, ht⟩, ih (hprompted.turned ht) hc₂⟩

end

end Session

end ExprCompiler
