import ExprCompiler.Proofs.Productions

/-!
# Texts that break off

A text may break off instead of coming to an end. Up to there it is read as
the same text that ends where it breaks off, and whoever reads on fails. So a
run over it fails to read, or it is the run over the text that ends.
-/

namespace ExprCompiler

namespace Lexer

def onward (l : Lexer) (cs : List Char) : Lexer := { l with ahead := cs, ending := .closed }

def closed (l : Lexer) : Lexer := l.onward l.ahead

@[simp] theorem ending_onward (l : Lexer) (cs : List Char) : (l.onward cs).ending = .closed := rfl

@[simp] theorem ending_closed (l : Lexer) : l.closed.ending = .closed := rfl

theorem begin_onward (l : Lexer) (cs : List Char) : (l.onward cs).begin = l.begin.onward cs := by
  unfold begin
  change (if l.reads = 0 then _ else _) = _
  split <;> rfl

theorem advanceBy_onward {n : Nat} {l : Lexer} {cs : List Char} (h : cs.take n = l.ahead.take n) :
    (l.onward cs).advanceBy n = (l.advanceBy n).onward (cs.drop n) := by
  induction n generalizing l cs with
  | zero => rfl
  | succ n ih =>
    cases hahead : l.ahead with
    | nil =>
      obtain rfl : cs = [] := by simpa [hahead] using h
      rw [advanceBy, advanceBy, advance_of_nil hahead, advance_of_nil rfl, ih (by simp [hahead]), List.drop_nil,
        List.drop_nil]
    | cons c ds =>
      obtain ⟨es, rfl, hes⟩ : ∃ es, cs = c :: es ∧ es.take n = ds.take n := by
        cases cs with
        | nil => simp [hahead] at h
        | cons d es =>
          rw [hahead, List.take_succ_cons, List.take_succ_cons, List.cons.injEq] at h
          exact ⟨es, by rw [h.1], h.2⟩
      have hstep : (l.onward (c :: es)).advance = l.advance.onward es := by
        rw [advance, advance, hahead]
        rfl
      have hnext : l.advance.ahead = ds := by rw [ahead_advance, hahead]; rfl
      rw [advanceBy, hstep, ih (hnext ▸ hes), List.drop_succ_cons, advanceBy]

theorem scan_closed (l : Lexer) : l.closed.scan = (l.scan.1, l.scan.2.closed) := by
  have hadvance (n : Nat) (l : Lexer) : l.closed.advanceBy n = (l.advanceBy n).closed := by
    rw [closed, advanceBy_onward rfl, closed, ahead_advanceBy]
  have hbegin : l.closed.begin = l.begin.closed := by
    rw [closed, begin_onward, closed, ahead_begin]
  have hcut (l : Lexer) : l.closed.cut = (l.cut.1, l.cut.2.closed) := by
    have hahead : l.closed.ahead = l.ahead := rfl
    unfold cut
    rw [hahead]
    cases l.ahead with
    | nil => rfl
    | cons c cs => exact congrArg _ (hadvance _ l)
  have hskip (l : Lexer) : l.closed.skipBlanks = l.skipBlanks.closed := hadvance _ l
  rw [scan, hbegin, hskip, hcut, scan]

theorem failure?_eq_none {e : Ending} : e.failure? = none ↔ e = .closed := by
  cases e <;> simp [Ending.failure?]

theorem ahead_of_end {l : Lexer} (h : l.scan.1.kind = .endOfInput) : l.scan.2.ahead = [] := by
  unfold scan cut at h ⊢
  cases hahead : l.begin.skipBlanks.ahead with
  | nil => simp only [hahead]
  | cons c cs =>
    rw [hahead] at h
    exact absurd h (Lexeme.kind_ofFront_ne_endOfInput c cs)

/-- The lexer gives the next token or fails. Where the text breaks off, it never gives its end. -/
theorem next_cases (l : Lexer) :
    (l.next = .ok l.scan ∧ (l.ending ≠ .closed → l.scan.1.kind ≠ .endOfInput)) ∨
      ∃ f, l.ending.failure? = some f ∧ l.next = .error f := by
  by_cases hc : l.ending = .closed
  · exact .inl ⟨next_of_closed hc, fun h => absurd hc h⟩
  obtain ⟨f, hf⟩ := Option.ne_none_iff_exists'.1 (mt failure?_eq_none.1 hc)
  cases hahead : l.scan.2.ahead with
  | nil => exact .inr ⟨f, hf, by simp only [next, hahead, hf]⟩
  | cons c cs =>
    refine .inl ⟨by simp only [next, hahead, hf], fun _ hend => ?_⟩
    rw [ahead_of_end hend] at hahead
    cases hahead

theorem next_closed (l : Lexer) : l.closed.next = .ok (l.scan.1, l.scan.2.closed) := by
  rw [next_of_closed l.ending_closed, scan_closed]

end Lexer

/-! ### Runs side by side -/

namespace Parser

def closed (p : Parser) : Parser := { p with lexer := p.lexer.closed }

def Unfinished (p : Parser) : Prop :=
  p.lexer.ending ≠ .closed → ∀ t ∈ p.lookahead, t.kind ≠ .endOfInput

structure Continues (p q : Parser) : Prop where
  ending : q.lexer.ending = p.lexer.ending
  unfinished : p.Unfinished → q.Unfinished

theorem Continues.refl (p : Parser) : Continues p p := ⟨rfl, id⟩

theorem Continues.trans {p q r : Parser} (h : Continues p q) (k : Continues q r) :
    Continues p r :=
  ⟨k.ending.trans h.ending, k.unfinished ∘ h.unfinished⟩

end Parser

open ExprCompiler.Parser (Continues)

section

variable {σ ε : Type} (view : σ → Parser) (closed : σ → σ) (unread : ReadFailure → ε)

/-- What a run comes to over a text that may break off, beside what it comes to over the same text
where it ends. -/
inductive Follows {α : Type} (s : σ) : EStateM.Result ε σ α → EStateM.Result ε σ α → Prop
  | ok {a : α} {s' : σ} (h : Continues (view s) (view s')) : Follows s (.ok a s') (.ok a (closed s'))
  | error {e : ε} {s' : σ} (h : Continues (view s) (view s')) :
    Follows s (.error e s') (.error e (closed s'))
  | unread {f : ReadFailure} {s' : σ} {r : EStateM.Result ε σ α}
    (h : (view s).lexer.ending.failure? = some f) : Follows s (.error (unread f) s') r

variable {view closed unread} {α β : Type} {s : σ}

theorem Follows.after {s' : σ} {r r' : EStateM.Result ε σ α} (h : Continues (view s) (view s'))
    (hr : Follows view closed unread s' r r') : Follows view closed unread s r r' := by
  cases hr with
  | ok h' => exact .ok (h.trans h')
  | error h' => exact .error (h.trans h')
  | unread hf => exact .unread (h.ending ▸ hf)

theorem Follows.bind {x : EStateM ε σ α} {k : α → EStateM ε σ β}
    (hx : Follows view closed unread s (x s) (x (closed s)))
    (hk : ∀ a s', x s = .ok a s' → Follows view closed unread s' (k a s') (k a (closed s'))) :
    Follows view closed unread s ((x >>= k) s) ((x >>= k) (closed s)) := by
  generalize hr : x s = r at hx
  generalize hr' : x (closed s) = r' at hx
  cases hx with
  | ok h =>
    rw [bind_eq_ok hr, bind_eq_ok hr']
    exact .after h (hk _ _ hr)
  | error h =>
    rw [bind_eq_error hr, bind_eq_error hr']
    exact .error h
  | unread h =>
    rw [bind_eq_error hr]
    exact .unread h

end

/-! ### Parses -/

namespace Parser

variable {α : Type}

abbrev Tracks (p : Parser) (r r' : EStateM.Result ParseStop Parser α) : Prop :=
  Follows id closed .unread p r r'

theorem tracks_advance (p : Parser) : Tracks p (advance p) (advance p.closed) := by
  have hclosed : advance p.closed = .ok p.lexer.scan.1
      { p with lexer := p.lexer.scan.2.closed, lookahead := some p.lexer.scan.1 } := by
    have hnext : p.closed.lexer.next = .ok (p.lexer.scan.1, p.lexer.scan.2.closed) :=
      p.lexer.next_closed
    simp only [advance, hnext]
    rfl
  obtain ⟨hnext, hmore⟩ | ⟨f, hf, hnext⟩ := p.lexer.next_cases
  · have hrun : advance p = .ok p.lexer.scan.1
        { p with lexer := p.lexer.scan.2, lookahead := some p.lexer.scan.1 } := by
      simp only [advance, hnext]
    rw [hrun, hclosed]
    refine .ok ⟨p.lexer.ending_scan, fun _ hending t ht => ?_⟩
    obtain rfl := Option.some.inj ht
    exact hmore (p.lexer.ending_scan ▸ hending)
  · have hrun : advance p = .error (.unread f) p := by
      simp only [advance, hnext]
    rw [hrun]
    exact .unread hf

theorem tracks_current (p : Parser) : Tracks p (current p) (current p.closed) := by
  cases h : p.lookahead with
  | some t =>
    have h' : p.closed.lookahead = some t := h
    rw [current_of_some h, current_of_some h']
    exact .ok (.refl p)
  | none =>
    have h' : p.closed.lookahead = none := h
    rw [current_of_none h, current_of_none h']
    exact tracks_advance p

theorem compositional_tracks : Compositional fun o x =>
    ∀ p : Parser, p.Sees o → Tracks p (x p) (x p.closed) where
  pure _ _ p _ := .ok (.refl p)
  exhausted _ p _ := .error (.refl p)
  reject _ p _ := .error (.refl p)
  bind hx hk p hp := .bind (hx p hp) fun a q _ => hk a q q.sees_none
  forget hx _ p _ := hx p p.sees_none
  current hk p _ := .bind (tracks_current p) fun t q hq => hk t q (sees_of_current hq)
  seen hk p hp := by
    have hp' : p.closed.lookahead = some _ := sees_some.1 hp
    rw [bind_eq_ok (current_of_some (sees_some.1 hp)), bind_eq_ok (current_of_some hp')]
    exact hk p hp
  advance _ hk p _ := .bind (tracks_advance p) fun u q hq => hk u q (sees_of_advance hq)
  depth hk p hp := hk p.depthBound p hp
  count _ _ := .ok ⟨rfl, id⟩

theorem tracks_definition (p : Parser) : Tracks p (definition p) (definition p.closed) :=
  compositional_tracks.definition p p.sees_none

theorem tracks_external (p : Parser) : Tracks p (external p) (external p.closed) :=
  compositional_tracks.external p p.sees_none

theorem tracks_bareExpression (p : Parser) :
    Tracks p (bareExpression p) (bareExpression p.closed) :=
  compositional_tracks.bareExpression p p.sees_none

end Parser

end ExprCompiler
