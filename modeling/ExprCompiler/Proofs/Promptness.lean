import ExprCompiler.Proofs.Keywords
import ExprCompiler.Proofs.Onward
import ExprCompiler.Proofs.Recording
import ExprCompiler.Proofs.UnitCompletions

/-!
# Errors at the earliest token

A unit is rejected at the first token with which it cannot go on: that token
is the lookahead and the last that the lexer has given, and what has been
consumed in front of it begins a unit that is read.
-/

namespace ExprCompiler

open ExprCompiler.Layered (Completable Reading)

theorem Lexer.tokens_closed (l : Lexer) : l.closed.tokens = l.tokens := by
  induction l using scan_induction with
  | ends l h =>
    have h' : l.closed.scan.1.kind = .endOfInput := by rw [scan_closed]; exact h
    rw [tokens_of_end h', tokens_of_end h, scan_closed]
  | goesOn l h ih =>
    have h' : l.closed.scan.1.kind ≠ .endOfInput := by rw [scan_closed]; exact h
    rw [tokens_of_more h', tokens_of_more h, scan_closed, ih]

namespace Parser

theorem tokens_closed (p : Parser) : p.closed.tokens = p.tokens := by
  have hlexer : p.closed.lexer.tokens = p.lexer.tokens := p.lexer.tokens_closed
  have hlook : p.closed.lookahead = p.lookahead := rfl
  rw [tokens, tokens, hlook, hlexer]

theorem ends_of_end {t : Token} (h : t.kind = .endOfInput) : Expr.Ends [t] := by
  simp [Expr.Ends, Token.precedence, Token.isChar, h, notAnOperator]

/-! ### What a parse promises -/

def Begins {α : Type} (parse : ParserM (Option α)) (ts : List Token) : Prop :=
  ∃ (r r' : Parser) (tail : List Token) (a : α), r.lexer.ending = .closed ∧
    r.tokens = ts ++ tail ∧ parse r = .ok (some a) r'

/-- A parse that comes to no end has met the place where the text breaks off. One that gives
something records nothing. One that gives nothing records one error, about its lookahead: that is
the last token it has asked for, and those consumed before it begin what could be parsed. -/
structure Prompt {α : Type} (parse : ParserM (Option α)) (p : Parser) : Prop where
  returns : ∀ stop q, parse p = .error stop q →
    ∃ f, p.lexer.ending.failure? = some f ∧ stop = .unread f
  silent : ∀ a q, parse p = .ok (some a) q → q.errors = p.errors
  earliest : ∀ q, parse p = .ok none q → ∃ e consumed asked, q.errors = p.errors ++ [e] ∧
    q.lookahead = some e.token ∧ e.location = e.token.location ∧ Asks p asked q ∧
    p.lookahead.toList ++ asked = consumed ++ [e.token] ∧ Begins parse consumed

inductive ReadsAs {α : Type} (x : ParserM α) (y : Reading α) (p : Parser) : Prop
  | ok {a : α} {q : Parser} {us : List Token} (run : x p = .ok a q) (read : y p.tokens = .ok a us)
  | error {e : ParseError} {q : Parser} (run : x p = .error (.invalid e) q)
    (read : y p.tokens = .error e q.tokens)

section

variable {α : Type} {x : ParserM α} {p q : Parser}

theorem Agrees.readsAs {y : Reading α} (h : Agrees p (x p) (y p.tokens)) : ReadsAs x y p := by
  generalize hx : x p = r at h
  generalize hy : y p.tokens = s at h
  cases h with
  | ok hfacing hmoved => exact .ok hx hy
  | error hfacing hmoved => exact .error hx (hfacing.tokens ▸ hy)

theorem looks_bareExpression : Looks bareExpression := ⟨_, rfl⟩

theorem bareExpression_readsAs (h : p.lexer.ending = .closed) :
    ReadsAs bareExpression (Layered.bareExpression p.anonymous) p := by
  obtain ⟨q, hfacing, hmoved, hsame⟩ := looks_bareExpression.exists_facing h
  obtain ⟨d, r, us, hrun, hread, -⟩ | ⟨e, r, us, hrun, hread, hr, -⟩ := hfacing.bareExpression_agrees
  · rw [hmoved.anonymous] at hread
    exact .ok (hsame.trans hrun) hread
  · rw [hmoved.anonymous] at hread
    exact .error (hsame.trans hrun) (hr.tokens ▸ hread)

theorem Asks.begun {asked : List Token} {t : Token} (h : Asks p asked q)
    (hq : q.lookahead = some t) {ws : List String} (hws : ∀ w ∈ ws, ∃ l, Word w l) :
    ∃ (consumed : List Token) (r : Parser) (us vs : List Token),
      p.lookahead.toList ++ asked = consumed ++ [t] ∧ r.lexer.ending = .closed ∧
      r.anonymous = p.anonymous ∧ r.tokens = consumed ++ (us ++ vs) ∧ us.Forall₂ Token.Spells ws ∧ Expr.Ends vs := by
  by_cases hasked : asked = []
  · -- Nothing has been consumed, so any text will do.
    subst hasked
    obtain ⟨us, e, htokens, hus, he⟩ :=
      Lexer.tokens_of_spaced (l := p.lexer.onward (ws.flatMap fun w => ' ' :: w.toList)) hws rfl
    cases h with
    | nothing _ hlook =>
      refine ⟨[], { p with lexer := p.lexer.onward _, lookahead := none }, us, [e], ?_, rfl, rfl,
        htokens, hus, ends_of_end he⟩
      rw [← hlook, hq]
      rfl
  · obtain ⟨consumed, hseen, cs, l, -, honward⟩ := h.onward hasked hq
    obtain ⟨us, e, htokens, hus, he⟩ :=
      Lexer.tokens_of_spaced (l := l.onward (ws.flatMap fun w => ' ' :: w.toList)) hws rfl
    refine ⟨consumed, p.onward (cs ++ ws.flatMap fun w => ' ' :: w.toList), us, [e], hseen, rfl, rfl,
      ?_, hus, ends_of_end he⟩
    rw [honward _ (Lexer.apart_spaced ws), htokens]

theorem guarded_eq_ok_none (h : guarded x p = .ok none q) :
    ∃ e r, x p = .error (.invalid e) r ∧ q = { r with errors := r.errors ++ [e] } := by
  unfold guarded at h
  cases hx : x p with
  | ok a r =>
    rw [hx] at h
    cases h
  | error stop r =>
    rw [hx] at h
    cases stop with
    | invalid e => cases h; exact ⟨e, r, rfl, rfl⟩
    | unread f => cases h
    | exhausted => cases h

theorem guarded_eq_ok_some {a : α} (h : guarded x p = .ok (some a) q) : x p = .ok a q := by
  unfold guarded at h
  cases hx : x p with
  | ok b r =>
    rw [hx] at h
    cases h
    rfl
  | error stop r =>
    rw [hx] at h
    cases stop <;> cases h

theorem guarded_eq_error {stop : ParseStop} (h : guarded x p = .error stop q) :
    x p = .error stop q ∧ ∀ e, stop ≠ .invalid e := by
  unfold guarded at h
  cases hx : x p with
  | ok a r =>
    rw [hx] at h
    cases h
  | error stop' r =>
    rw [hx] at h
    cases stop' with
    | invalid e => cases h
    | unread f => cases h; exact ⟨rfl, fun _ he => by cases he⟩
    | exhausted => cases h; exact ⟨rfl, fun _ he => by cases he⟩

/-- A parse that reads as a reader does whose errors can be completed. -/
theorem prompt_of_readsAs {y : Nat → Reading α} (hsilent : Silent x)
    (hprompted : ∀ p, Prompted p (x p)) (htracks : ∀ p, Tracks p (x p) (x p.closed))
    (hreads : ∀ p : Parser, p.lexer.ending = .closed → ReadsAs x (y p.anonymous) p)
    (hcompletable : ∀ n ts, Completable (y n) ts) (p : Parser) : Prompt (guarded x) p where
  returns stop q h := by
    obtain ⟨hrun, hinvalid⟩ := guarded_eq_error h
    have htrack := htracks p
    rw [hrun] at htrack
    generalize hrun' : x p.closed = r at htrack
    cases htrack with
    | error =>
      cases hreads p.closed rfl with
      | ok hok => rw [hok] at hrun'; cases hrun'
      | error herror => rw [herror] at hrun'; cases hrun'; exact absurd rfl (hinvalid _)
    | unread hf => exact ⟨_, hf, rfl⟩
  silent a q h := by
    have hrun := hsilent p
    unfold guarded at h
    cases hx : x p with
    | ok b r => rw [hx] at h hrun; cases h; exact hrun
    | error stop r => rw [hx] at h; cases stop <;> cases h
  earliest q h := by
    obtain ⟨e, r, hrun, rfl⟩ := guarded_eq_ok_none h
    have herrors := hsilent p
    have hasks := hprompted p
    have htrack := htracks p
    rw [hrun] at herrors hasks htrack
    obtain ⟨⟨asked, hasked⟩, hlookahead⟩ := hasks
    have hlook := hlookahead e rfl
    -- The same error is met in the text that ends here.
    have hread : y p.anonymous p.tokens = .error e r.tokens := by
      generalize hrun' : x p.closed = r' at htrack
      cases htrack with
      | error =>
        cases hreads p.closed rfl with
        | ok hok => rw [hok] at hrun'; cases hrun'
        | error herror hread =>
          rw [herror] at hrun'
          cases hrun'
          rwa [tokens_closed, tokens_closed] at hread
    obtain ⟨c, hsplit, -, ws, hws, hcompletes⟩ := hcompletable _ _ e _ hread
    obtain ⟨consumed, s, us, vs, hseen, hclosed, hnumber, htokens, hus, hvs⟩ := hasked.begun hlook hws
    have hconsumed : consumed = c := by
      obtain ⟨consumed', hseen', htokens'⟩ := hasked.consumed hlook
      rw [hseen, List.append_left_inj] at hseen'
      rw [hseen']
      exact List.append_cancel_right (htokens'.symm.trans hsplit)
    subst hconsumed
    refine ⟨e, consumed, asked, ?_, hlook, rfl, ?_, hseen, ?_⟩
    · exact congrArg (· ++ [e]) herrors
    · have hsame : Asks r [] { r with errors := r.errors ++ [e] } := .nothing rfl rfl
      simpa using hasked.trans hsame
    · obtain ⟨-, a, ha⟩ := hcompletes us vs hus hvs
      rw [← htokens, ← hnumber] at ha
      cases hreads s hclosed with
      | @ok b s' _ hok hread =>
        refine ⟨s, s', us ++ vs, b, hclosed, htokens, ?_⟩
        unfold guarded
        rw [hok]
      | error herror hread => rw [ha] at hread; cases hread

end

/-- A unit that is asked for is given, or it is rejected at the first token with which what has
been consumed cannot go on. -/
theorem units_prompt (p : Parser) :
    Prompt definition? p ∧ Prompt external? p ∧ Prompt bareExpression? p := by
  refine ⟨?_, ?_, ?_⟩
  · exact prompt_of_readsAs silent_definition prompted_definition tracks_definition
      (fun _ hc => (looks_definition.agrees (fun _ hq => hq.definition_agrees) hc).readsAs)
      (fun _ => Layered.definition_completable) p
  · exact prompt_of_readsAs silent_external prompted_external tracks_external
      (fun _ hc => (looks_external.agrees (fun _ hq => hq.external_agrees) hc).readsAs)
      (fun _ => Layered.external_completable) p
  · exact prompt_of_readsAs silent_bareExpression prompted_bareExpression tracks_bareExpression
      (fun _ hc => bareExpression_readsAs hc) Layered.bareExpression_completable p

end Parser

end ExprCompiler
