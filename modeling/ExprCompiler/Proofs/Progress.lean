import ExprCompiler.Proofs.Rounds
import ExprCompiler.Proofs.Tokenization

/-!
# Progress of the loop

A unit that fails may leave the token where it failed, and a parse may fail in
front of its first token. Still each turn consumes a token at least, whatever
the parser, the generator and the verifier make of it. So the loop has no more
turns than there are tokens, and it hands each token to one turn.
-/

namespace ExprCompiler.Session

open ExprCompiler.Layered (Passed)

variable {v : Verifier} {us : List TopLevel} {s s' : Session} {rows : List (Session × Session)}

def taken (s s' : Session) : List Token :=
  s.parser.tokens.take (s.parser.tokens.length - s'.parser.tokens.length)

structure Advances (s s' : Session) : Prop where
  started : (look s.parser.tokens).kind ≠ .endOfInput
  consumed : s.parser.tokens = taken s s' ++ s'.parser.tokens
  nonempty : taken s s' ≠ []

structure AtEnd (s : Session) (e : Token) : Prop where
  ends : e.kind = .endOfInput
  lookahead : s.parser.lookahead = some e
  tokens : s.parser.tokens = [e]

theorem advances_of_passed (hend : (look s.parser.tokens).kind ≠ .endOfInput)
    (h : Passed s.parser.tokens.tail s'.parser.tokens) : Advances s s' := by
  obtain ⟨c, hc, -⟩ := h
  obtain ⟨t, ts, hts⟩ := List.exists_cons_of_ne_nil s.parser.tokens_ne_nil
  rw [hts, List.tail_cons] at hc
  have htaken : taken s s' = t :: c := by
    rw [taken, hts, hc, ← List.cons_append, List.length_append, Nat.add_sub_cancel, List.take_left]
  refine ⟨hend, ?_, ?_⟩
  · rw [htaken, hts, hc, List.cons_append]
  · rw [htaken]
    exact List.cons_ne_nil _ _

theorem Traced.advances (h : Traced v us s) (hc : s.parser.lexer.ending = .closed)
    (ht : handleNext s = .ok true s') : Advances s s' := by
  obtain ⟨-, hend, -, hpassed, -⟩ := h.step hc ht
  exact advances_of_passed hend hpassed

theorem atEnd_of_false (hc : s.parser.lexer.ending = .closed) (ht : handleNext s = .ok false s') :
    AtEnd s' (look s.parser.tokens) ∧ s.parser.tokens = [look s.parser.tokens] := by
  obtain ⟨t, q, hq, hend, rfl⟩ := handleNext_eq_false ht
  obtain ⟨q', hq', hfacing, -⟩ := Parser.current_of_closed hc
  cases hq'.symm.trans hq
  have hsingle := Parser.tokens_of_end hend
  exact ⟨⟨hend, hfacing.lookahead, hfacing.tokens.trans hsingle⟩, hsingle⟩

/-- The turns of the loop consume one after the other all tokens up to the end of the input. -/
theorem Rounds.consumes (hr : Rounds s rows s') (h : History v us s)
    (hc : s.parser.lexer.ending = .closed) :
    (∀ r ∈ rows, Advances r.1 r.2) ∧
      ∃ e, AtEnd s' e ∧ s.parser.tokens = rows.flatMap (fun r => taken r.1 r.2) ++ [e] := by
  induction hr generalizing us with
  | @last s s₁ s' hp ht =>
    obtain ⟨hend, hsingle⟩ := atEnd_of_false (closed_of_prompt hp hc) ht
    rw [parser_of_prompt hp] at hsingle hend
    exact ⟨List.forall_mem_nil _, _, hend, hsingle⟩
  | @round s s₁ s₂ s' rows hp ht hr ih =>
    have hc₁ := closed_of_prompt hp hc
    have hprompted := h.prompted hp
    have hadvances := hprompted.traced.advances hc₁ ht
    obtain ⟨hc₂, -⟩ := hprompted.traced.step hc₁ ht
    obtain ⟨hrows, e, hend, htokens⟩ := ih (hprompted.turned ht) hc₂
    refine ⟨List.forall_mem_cons.2 ⟨hadvances, hrows⟩, e, hend, ?_⟩
    rw [← parser_of_prompt hp, hadvances.consumed, htokens, List.flatMap_cons, List.append_assoc]

theorem length_le_of_advances (h : ∀ r ∈ rows, Advances r.1 r.2) :
    rows.length ≤ (rows.flatMap fun r => taken r.1 r.2).length := by
  induction rows with
  | nil => exact Nat.le_refl _
  | cons r rows ih =>
    obtain ⟨hr, hrows⟩ := List.forall_mem_cons.1 h
    have hpos := List.length_pos_iff.2 hr.nonempty
    have hle := ih hrows
    rw [List.flatMap_cons, List.length_append, List.length_cons]
    omega

theorem countP_tokenize {text file : String} {ts : List Token} {e : Token}
    (h : tokenize text file = ts ++ [e]) :
    (tokenize text file).countP (fun t => t.kind != .endOfInput) = ts.length ∧
      ∀ t ∈ ts, t.kind ≠ .endOfInput := by
  obtain ⟨before, e', hsplit, hbefore, hend, -⟩ := (Lexer.placed_ofString text file).tokens.ending
  have hsame : ts ++ [e] = before ++ [e'] := h.symm.trans hsplit
  obtain ⟨rfl, hlast⟩ := List.append_inj' hsame rfl
  obtain rfl := List.singleton_inj.1 hlast
  have hcount : ts.countP (fun t => t.kind != .endOfInput) = ts.length :=
    List.countP_eq_length.2 fun t ht => by simpa using hbefore t ht
  rw [h, List.countP_append, hcount, List.countP_singleton, hend]
  exact ⟨rfl, hbefore⟩

/-- The loop over a text ends in front of the end of the input, whatever its units are like and
whatever becomes of them. Each turn begins in front of another token and consumes one at least, so
that there are no more turns than tokens; and each token is consumed once, in one of the turns. -/
theorem loop_progress (h : History v us s) (text : String) :
    ∃ (rows : List (Session × Session)) (s' : Session) (e : Token),
      loop { s with parser := .ofString text s.options.file } = .ok () s' ∧
      Rounds { s with parser := .ofString text s.options.file } rows s' ∧
      (∀ r ∈ rows, Advances r.1 r.2 ∧ ∀ t ∈ taken r.1 r.2, t.kind ≠ .endOfInput) ∧
      rows.length ≤ (tokenize text s.options.file).countP (fun t => t.kind != .endOfInput) ∧
      tokenize text s.options.file = rows.flatMap (fun r => taken r.1 r.2) ++ [e] ∧
      AtEnd s' e := by
  have hsource := h.source (.ofString text)
  have hc : (Parser.ofString text s.options.file).lexer.ending = .closed := rfl
  obtain ⟨rows, s', hrounds, hlength⟩ := hsource.exists_rounds hc
  obtain ⟨hadvances, e, hend, htokens⟩ := hrounds.consumes hsource hc
  have htext : tokenize text s.options.file =
      rows.flatMap (fun r => taken r.1 r.2) ++ [e] := htokens
  obtain ⟨hcount, hmore⟩ := countP_tokenize htext
  refine ⟨rows, s', e, hrounds.loop hlength, hrounds, fun r hr => ⟨hadvances r hr, fun t ht => ?_⟩,
    ?_, htext, hend⟩
  · exact hmore t (List.mem_flatMap.2 ⟨r, hr, ht⟩)
  · rw [hcount]
    exact length_le_of_advances hadvances

/-- Units that fail at their first token, at a keyword, at the end of the input and when they are
generated, under a verifier that rejects every function. -/
theorem loop_progress_rejected : ∃ s, History (fun _ _ => .rejected none) [] s ∧
    ∃ (rows : List (Session × Session)) (s' : Session) (e : Token),
      loop { s with parser := .ofString ") def f(x def h() 1 ; 1.5 x < extern" s.options.file } =
        .ok () s' ∧
      Rounds { s with parser := .ofString ") def f(x def h() 1 ; 1.5 x < extern" s.options.file }
        rows s' ∧
      (∀ r ∈ rows, Advances r.1 r.2 ∧ ∀ t ∈ taken r.1 r.2, t.kind ≠ .endOfInput) ∧
      rows.length ≤ (tokenize ") def f(x def h() 1 ; 1.5 x < extern" s.options.file).countP
        (fun t => t.kind != .endOfInput) ∧
      tokenize ") def f(x def h() 1 ; 1.5 x < extern" s.options.file =
        rows.flatMap (fun r => taken r.1 r.2) ++ [e] ∧
      AtEnd s' e := by
  have h : History (fun _ _ => .rejected none) [] _ :=
    .start (rfl : start { interactive := true } .empty (fun _ _ => .rejected none) = .ok _)
  exact ⟨_, h, loop_progress h ") def f(x def h() 1 ; 1.5 x < extern"⟩

end ExprCompiler.Session
