import ExprCompiler.Proofs.Asking
import ExprCompiler.Proofs.BrokenTexts
import ExprCompiler.Proofs.Operations
import ExprCompiler.Proofs.Tokenization

/-!
# Reading on demand

Nothing is read before the first token is asked for. A token makes the lexer
read one character more than the token goes over, and at the end of the text
nothing is read again. Whatever a parser is asked for, its lookahead is the
last token that the lexer has given.
-/

namespace ExprCompiler

namespace Lexer

variable {file : String} {cs : List Char} {l m k : Lexer} {t : Token}

inductive Leads (l : Lexer) : Lexer → Prop
  | nothing : Leads l l
  | call {m k : Lexer} {t : Token} (h : Leads l m) (hn : m.next = .ok (t, k)) : Leads l k

/-- At a place of this text, with one character read beyond it, or with nothing read at all. -/
structure Pulled (file : String) (cs : List Char) (l : Lexer) : Prop extends Placed file cs l where
  reads : l.reads = l.cursor.offset + 1 ∨ l.reads = 0 ∧ l.cursor.offset = 0

theorem pulled_ofSource (s : Source) (file : String) : Pulled file s.chars (.ofSource s file) :=
  ⟨⟨⟨rfl⟩, Nat.zero_le _, rfl⟩, .inr ⟨rfl, rfl⟩⟩

theorem Pulled.reads_begin (h : Pulled file cs l) :
    l.begin.reads = l.begin.cursor.offset + 1 := by
  rw [offset_begin, begin]
  obtain hreads | ⟨hreads, hoffset⟩ := h.reads
  · rw [if_neg (by omega), hreads]
  · rw [if_pos hreads, hoffset]

theorem reads_advanceBy (h : l.reads = l.cursor.offset + 1) (n : Nat) :
    (l.advanceBy n).reads = (l.advanceBy n).cursor.offset + 1 := by
  induction n generalizing l with
  | zero => exact h
  | succ n ih =>
    refine ih ?_
    cases hl : l.ahead with
    | nil =>
      rwa [advance_of_nil hl]
    | cons c ds =>
      rw [offset_advance hl, advance_of_cons hl, h]

theorem reads_cut (h : l.reads = l.cursor.offset + 1) :
    l.cut.2.reads = l.cut.2.cursor.offset + 1 := by
  unfold cut
  split
  · exact h
  · exact reads_advanceBy h _

theorem Pulled.scan (h : Pulled file cs l) :
    Pulled file cs l.scan.2 ∧ l.scan.2.cursor.offset = l.scan.1.stop ∧
      l.scan.2.reads = l.scan.1.stop + 1 := by
  obtain ⟨-, hplaced, hstop⟩ := h.toPlaced.scan
  have hreads : l.scan.2.reads = l.scan.2.cursor.offset + 1 :=
    reads_cut (reads_advanceBy h.reads_begin _)
  exact ⟨⟨hplaced, .inl hreads⟩, hstop, hstop ▸ hreads⟩

theorem Pulled.next (h : Pulled file cs l) (hn : l.next = .ok (t, m)) :
    Pulled file cs m ∧ m.cursor.offset = t.stop ∧ m.reads = t.stop + 1 := by
  have hscan := h.scan
  rwa [scan_of_next hn] at hscan

theorem Pulled.next_end (h : Pulled file cs l) (hn : l.next = .ok (t, m))
    (hend : t.kind = .endOfInput) : t.stop = cs.length := by
  have hscan := h.toPlaced.scan.1
  have hempty : m.ahead = [] := by
    have hahead := ahead_of_end (l := l)
    rw [scan_of_next hn] at hahead
    exact hahead hend
  obtain ⟨hpulled, hstop, -⟩ := h.next hn
  have hinside := hpulled.inside
  have hdrop := hpulled.ahead
  rw [hempty, eq_comm, List.drop_eq_nil_iff] at hdrop
  omega

theorem begin_of_reads (h : l.reads ≠ 0) : l.begin = l := if_neg h

theorem next_again (hn : l.next = .ok (t, m)) (hend : t.kind = .endOfInput) (hm : m.reads ≠ 0) :
    m.next = .ok (t, m) := by
  have hscan := scan_of_next hn
  have hskip : l.begin.skipBlanks.ahead = [] ∧ t = ⟨.endOfInput, "", .absent, m.location⟩ ∧
      m = l.begin.skipBlanks := by
    unfold scan cut at hscan
    cases hahead : l.begin.skipBlanks.ahead with
    | nil =>
      rw [hahead] at hscan
      cases hscan
      exact ⟨rfl, rfl, rfl⟩
    | cons c ds =>
      rw [hahead] at hscan
      cases hscan
      exact absurd hend (Lexeme.kind_ofFront_ne_endOfInput c ds)
  obtain ⟨hahead, ht, hsame⟩ := hskip
  rw [← hsame] at hahead
  have hclosed : m.ending = .closed := by
    by_contra hopen
    obtain ⟨-, hmore⟩ | ⟨f, -, hf⟩ := l.next_cases
    · have hending : l.ending ≠ .closed := by
        rw [← l.ending_scan, hscan]
        exact hopen
      have hkind := hmore hending
      rw [hscan] at hkind
      exact hkind hend
    · rw [hf] at hn
      cases hn
  have hblank : m.skipBlanks = m := by
    rw [skipBlanks, hahead]
    rfl
  have hcut : m.cut = (⟨.endOfInput, "", .absent, m.location⟩, m) := by rw [cut, hahead]
  rw [next_of_closed hclosed, scan, begin_of_reads hm, hblank, hcut, ht]

section

variable {s : Source}

theorem Leads.pulled (h : Leads (.ofSource s file) l) : Pulled file s.chars l := by
  induction h with
  | nothing => exact pulled_ofSource s file
  | call _ hn ih => exact (ih.next hn).1

theorem Leads.ending (h : Leads l m) : m.ending = l.ending := by
  induction h with
  | nothing => rfl
  | @call k m t _ hn ih =>
    have hscan := k.ending_scan
    rw [scan_of_next hn] at hscan
    exact hscan.trans ih

theorem Leads.stays (h : Leads l m) (hl : l.next = .ok (t, l)) : m = l := by
  induction h with
  | nothing => rfl
  | call _ hn ih =>
    rw [ih, hl] at hn
    cases hn
    rfl

end

end Lexer

/-! ### What a parser is asked for -/

namespace Parser

inductive Action
  | definition
  | external
  | bareExpression
  | prototype
  | expression
  | primary
  | binaryRest (least : Int) (lhs : Expr)
  | current
  | advance
  deriving Repr, Inhabited

def Action.run : Action → ParserM Unit
  | definition => discard definition?
  | external => discard external?
  | bareExpression => discard bareExpression?
  | prototype => discard Parser.prototype
  | expression => discard Parser.expression
  | primary => discard Parser.primary
  | binaryRest least lhs => discard (Parser.binaryRest least lhs)
  | current => discard Parser.current
  | advance => discard Parser.advance

inductive Leads (p : Parser) : Parser → Prop
  | nothing : Leads p p
  | returned {q r : Parser} {o : Action} (h : Leads p q) (hr : o.run q = .ok () r) : Leads p r
  | failed {q r : Parser} {o : Action} {e : ParseError} (h : Leads p q)
    (hr : o.run q = .error (.invalid e) r) : Leads p r

structure Fed (l : Lexer) (p : Parser) : Prop where
  unread : p.lookahead = none → p.lexer = l
  given : ∀ t ∈ p.lookahead, ∃ m, l.Leads m ∧ m.next = .ok (t, p.lexer)

def Feeds (l : Lexer) {α : Type} (p : Parser) (r : EStateM.Result ParseStop Parser α) : Prop :=
  p.Fed l → (ended r).Fed l

section

variable {l : Lexer} {p q : Parser}

theorem Fed.leads (h : p.Fed l) : l.Leads p.lexer := by
  cases hp : p.lookahead with
  | none => exact h.unread hp ▸ .nothing
  | some t =>
    obtain ⟨m, hm, hnext⟩ := h.given t hp
    exact hm.call hnext

theorem feeds_advance (p : Parser) : Feeds l p (advance p) := by
  intro h
  obtain ⟨t, m, hnext, hrun⟩ | ⟨f, -, hrun⟩ := p.advance_cases
  · rw [hrun]
    refine ⟨nofun, fun u hu => ?_⟩
    obtain rfl := Option.some.inj hu
    exact ⟨p.lexer, h.leads, hnext⟩
  · rw [hrun]
    exact h

theorem stepwise_feeds (l : Lexer) : Stepwise (Feeds l) where
  refl _ _ h := h
  exhausted _ h := h
  reject _ h := h
  advance {p} _ := feeds_advance p
  count _ h := ⟨h.unread, h.given⟩
  trans h hr hp := hr (h hp)
  stop h := h

theorem feeds_current (p : Parser) : Feeds l p (current p) := by
  cases hp : p.lookahead with
  | none => exact current_of_none hp ▸ feeds_advance p
  | some t => exact current_of_some hp ▸ id

theorem feeds_binaryRestAt (n : Nat) (least : Int) (lhs : Expr) (p : Parser) :
    Feeds l p (binaryRestAt n least lhs p) := by
  have hs := stepwise_feeds l
  induction n generalizing least lhs p with
  | zero => exact hs.exhausted p
  | succ n ih =>
    unfold binaryRestAt
    refine hs.bind (feeds_current p) fun op q _ => ?_
    split
    · exact hs.refl q lhs
    refine hs.bind (feeds_advance q) fun first q _ => ?_
    refine hs.bind ((hs.compositional.expressions n).primary q q.sees_none) fun operand q _ => ?_
    refine hs.bind (feeds_current q) fun following q _ => ?_
    split
    · exact hs.bind (ih _ operand q) fun rhs q _ => ih least _ q
    · exact hs.bind (hs.refl q operand) fun rhs q _ => ih least _ q

theorem Feeds.guarded {α : Type} {x : ParserM α} (hx : Feeds l p (x p)) :
    Feeds l p (guarded x p) := by
  intro h
  have hrun := hx h
  unfold Parser.guarded
  cases hxp : x p with
  | ok a q =>
    rw [hxp] at hrun
    exact hrun
  | error stop q =>
    rw [hxp] at hrun
    cases stop with
    | invalid e => exact ⟨hrun.unread, hrun.given⟩
    | unread f => exact hrun
    | exhausted => exact hrun

theorem Action.feeds (o : Action) (p : Parser) : Feeds l p (o.run p) := by
  have hc := (stepwise_feeds l).compositional
  have hdiscard {α : Type} {x : ParserM α} (hx : Feeds l p (x p)) : Feeds l p (discard x p) := by
    intro h
    rw [(discard_run x p).2]
    exact hx h
  cases o with
  | definition => exact hdiscard (Feeds.guarded (hc.definition p p.sees_none))
  | external => exact hdiscard (Feeds.guarded (hc.external p p.sees_none))
  | bareExpression => exact hdiscard (Feeds.guarded (hc.bareExpression p p.sees_none))
  | prototype => exact hdiscard (hc.prototype p p.sees_none)
  | expression => exact hdiscard (hc.expression p p.sees_none)
  | primary => exact hdiscard ((hc.expressions p.depthBound).primary p p.sees_none)
  | binaryRest least lhs => exact hdiscard (feeds_binaryRestAt p.depthBound least lhs p)
  | current => exact hdiscard (feeds_current p)
  | advance => exact hdiscard (feeds_advance p)

/-- Whatever a parser is asked for, the lexer has given no token beyond its lookahead. -/
theorem Leads.fed (h : Leads p q) (hp : p.Fed l) : q.Fed l := by
  induction h with
  | nothing => exact hp
  | @returned q r o _ hr ih =>
    have hrun := o.feeds q ih
    rwa [hr] at hrun
  | @failed q r o e _ hr ih =>
    have hrun := o.feeds q ih
    rwa [hr] at hrun

theorem fed_ofSource (s : Source) (file : String) : (ofSource s file).Fed (.ofSource s file) :=
  ⟨fun _ => rfl, nofun⟩

end

end Parser

/-- The text is read on demand. A lexer and a parser begin with nothing read. When a token is given,
the reads are the characters up to the end of the token and one more; when the end is given, all
characters and one more, and no later call reads again. Where the text comes to an end, each call
gives a token. After any actions of a parser the lexer is at the end of the lookahead, and where it
is at the start there is no lookahead yet. -/
theorem read_on_demand (s : Source) (file : String) :
    ((Lexer.ofSource s file).reads = 0 ∧ (Parser.ofSource s file).lexer.reads = 0) ∧
      (∀ l t m, (Lexer.ofSource s file).Leads l → l.next = .ok (t, m) →
        (t.kind ≠ .endOfInput → m.reads = t.location.offset + t.lexeme.length + 1) ∧
          (t.kind = .endOfInput →
            m.reads = s.chars.length + 1 ∧ ∀ k, m.Leads k → k.reads = m.reads)) ∧
        (∀ l, (Lexer.ofSource s file).Leads l → s.ending = .closed →
          ∃ t m, l.next = .ok (t, m)) ∧
          ∀ p, (Parser.ofSource s file).Leads p →
            (p.lookahead = none → p.lexer = Lexer.ofSource s file) ∧
              ∀ t, p.lookahead = some t →
                p.lexer.cursor.offset = t.location.offset + t.lexeme.length ∧
                  p.lexer.reads = t.location.offset + t.lexeme.length + 1 := by
  refine ⟨⟨rfl, rfl⟩, fun l t m hl hn => ?_, fun l hl hclosed => ?_, fun p hp => ?_⟩
  · obtain ⟨hpulled, hstop, hreads⟩ := hl.pulled.next hn
    refine ⟨fun _ => hreads, fun hend => ⟨?_, fun k hk => ?_⟩⟩
    · rw [hreads, hl.pulled.next_end hn hend]
    · rw [hk.stays (Lexer.next_again hn hend (by omega))]
  · exact ⟨_, _, Lexer.next_of_closed (hl.ending.trans hclosed)⟩
  · have hfed := hp.fed (Parser.fed_ofSource s file)
    refine ⟨hfed.unread, fun t ht => ?_⟩
    obtain ⟨m, hm, hnext⟩ := hfed.given t ht
    exact (hm.pulled.next hnext).2

/-- A comment that the text ends in, and a prototype that meets the end where a parenthesis is
expected. -/
theorem read_on_demand_comment :
    let s : Source := .ofString "x # y"
    (∃ t m u k, (Lexer.ofSource s "input").next = .ok (t, m) ∧ t.kind ≠ .endOfInput ∧
        m.reads = t.location.offset + t.lexeme.length + 1 ∧ m.next = .ok (u, k) ∧
          u.kind = .endOfInput ∧ k.reads = 6 ∧ ∀ j, k.Leads j → j.reads = k.reads) ∧
      ∃ e p t, Parser.Action.prototype.run (.ofSource s "input") = .error (.invalid e) p ∧
        p.lookahead = some t ∧ p.lexer.cursor.offset = t.location.offset + t.lexeme.length := by
  intro s
  obtain ⟨-, hgiven, htotal, hparser⟩ := read_on_demand s "input"
  constructor
  · obtain ⟨t, m, hfirst⟩ := htotal _ .nothing rfl
    have hm : (Lexer.ofSource s "input").Leads m := .call .nothing hfirst
    obtain ⟨u, k, hsecond⟩ := htotal m hm rfl
    have hmore : (Lexer.ofSource s "input").scan.1.kind ≠ .endOfInput := by decide +kernel
    have hend : (Lexer.ofSource s "input").scan.2.scan.1.kind = .endOfInput := by decide +kernel
    rw [Lexer.scan_of_next hfirst] at hmore hend
    rw [Lexer.scan_of_next hsecond] at hend
    have hreads := (hgiven _ t m .nothing hfirst).1 hmore
    obtain ⟨hall, hagain⟩ := (hgiven m u k hm hsecond).2 hend
    exact ⟨t, m, u, k, hfirst, hmore, hreads, hsecond, hend, hall, hagain⟩
  · have hfails : (Parser.guarded Parser.Action.prototype.run).run' (.ofSource s "input") =
        some none := by decide +kernel
    have hseen : (ended (Parser.Action.prototype.run
        (.ofSource s "input"))).lookahead.isSome = true := by decide +kernel
    unfold EStateM.run' EStateM.run Parser.guarded at hfails
    cases hrun : Parser.Action.prototype.run (.ofSource s "input") with
    | ok _ p =>
      rw [hrun] at hfails
      cases hfails
    | error stop p =>
      rw [hrun] at hfails hseen
      cases stop with
      | unread f => cases hfails
      | exhausted => cases hfails
      | invalid e =>
        obtain ⟨t, ht⟩ := Option.isSome_iff_exists.1 hseen
        exact ⟨e, p, t, rfl, ht, ((hparser p (.failed .nothing hrun)).2 t ht).1⟩

end ExprCompiler
