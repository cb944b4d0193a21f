import ExprCompiler.Proofs.Rounds

/-!
# Programs read off tokens

The tokens of a program are a row of units and semicolons. A whole text is
read as such a row, and a turn of a session reads the unit that comes next in
it.
-/

namespace ExprCompiler

namespace Layered

open ExprCompiler.Parser (numberAfter)
open ExprCompiler.Session (beyond)

inductive Program : Nat → List Token → List TopLevel → Prop
  | last {number : Nat} {t : Token} (h : t.kind = .endOfInput) : Program number [t] []
  | semicolon {number : Nat} {t : Token} {ts : List Token} {us : List TopLevel}
    (h : t.isChar ";" = true) (rest : Program number ts us) : Program number (t :: ts) us
  | unit {number : Nat} {t : Token} {ts vs : List Token} {u : TopLevel} {us : List TopLevel}
    (hend : t.kind ≠ .endOfInput) (h : t.isChar ";" = false)
    (read : unit number (t :: ts) = .ok u vs) (rest : Program (numberAfter number u) vs us) :
    Program number (t :: ts) (u :: us)

section

variable {α β : Type} {number : Nat} {ts us : List Token}

theorem Program.ne_nil {vs : List TopLevel} (h : Program number ts vs) : ts ≠ [] := by
  cases h <;> exact List.cons_ne_nil _ _

theorem Program.eq_nil {vs : List TopLevel} (h : Program number ts vs)
    (hend : (look ts).kind = .endOfInput) : vs = [] := by
  cases h with
  | last _ => rfl
  | semicolon hsemicolon _ => exact absurd hend (Token.not_end_of_isChar hsemicolon)
  | unit hmore _ _ _ => exact absurd hend hmore

theorem Program.of_semicolon {t : Token} {vs : List TopLevel} (h : Program number (t :: ts) vs)
    (ht : t.isChar ";" = true) : Program number ts vs := by
  cases h with
  | last hend => exact absurd hend (Token.not_end_of_isChar ht)
  | semicolon _ rest => exact rest
  | unit _ hnot _ _ => simp [ht] at hnot

theorem Program.exists_unit {t : Token} {vs : List TopLevel} (h : Program number (t :: ts) vs)
    (hend : t.kind ≠ .endOfInput) (ht : t.isChar ";" = false) :
    ∃ u us ws, vs = u :: ws ∧ Layered.unit number (t :: ts) = .ok u us ∧
      Program (numberAfter number u) us ws := by
  cases h with
  | last hlast => exact absurd hlast hend
  | semicolon hsemicolon _ => simp [hsemicolon] at ht
  | unit _ _ read rest => exact ⟨_, _, _, rfl, read, rest⟩

theorem Program.beyond {vs : List TopLevel} (h : Program number ts vs)
    (hts : (look ts).isChar ";" = true ∨ (look ts).startsUnit = true) :
    Program number (beyond ts) vs := by
  unfold Session.beyond
  split
  · exact h
  · rename_i hstarts
    have hsemicolon := hts.resolve_right hstarts
    cases h with
    | last hend => simp [Token.isChar, hend] at hsemicolon
    | semicolon _ rest => exact rest
    | unit _ hnot _ _ => simp [hnot] at hsemicolon

/-! ### Where units end -/

theorem span_of_prototype {p : Prototype} (h : prototype ts = .ok p us) :
    p.span = some ⟨(look ts).location, (look us).location⟩ := by
  rw [prototype, peek_bind] at h
  split at h
  · rw [skip_bind, peek_bind] at h
    split at h
    · rw [skip_bind] at h
      obtain ⟨params, vs, -, h⟩ := exists_of_bind_eq_ok h
      rw [peek_bind] at h
      split at h
      · rw [skip_bind, peek_bind] at h
        cases h
        rfl
      · cases h
    · cases h
  · cases h

theorem stop_of_unit {u : TopLevel} (h : unit number ts = .ok u us) :
    u.span.map Span.stop = some (look us).location := by
  by_cases hd : (look ts).kind = .defKeyword
  · rw [Parser.unit_of_definition hd] at h
    obtain ⟨d, hread, rfl⟩ := bind_pure_eq_ok h
    obtain ⟨start, vs, -, hread⟩ := exists_of_bind_eq_ok hread
    obtain ⟨p, ws, -, hread⟩ := exists_of_bind_eq_ok hread
    obtain ⟨body, xs, -, hread⟩ := exists_of_bind_eq_ok hread
    cases hread
    rfl
  by_cases he : (look ts).kind = .externKeyword
  · rw [Parser.unit_of_external he] at h
    obtain ⟨p, hread, rfl⟩ := bind_pure_eq_ok h
    obtain ⟨start, vs, -, hread⟩ := exists_of_bind_eq_ok hread
    exact congrArg (Option.map Span.stop) (span_of_prototype hread)
  · rw [Parser.unit_of_bareExpression hd he] at h
    obtain ⟨d, hread, rfl⟩ := bind_pure_eq_ok h
    rw [bareExpression, peek_bind] at hread
    obtain ⟨body, vs, -, hread⟩ := exists_of_bind_eq_ok hread
    cases hread
    rfl

end

end Layered

/-! ### Whole texts -/

namespace Parser

open ExprCompiler.Layered (Program)

section

variable {p : Parser} {ts : List Token}

theorem ReadsUnit.map {α : Type} {parse : ParserM α} {toUnit : α → TopLevel} {bare : Bool}
    (h : ReadsUnit parse toUnit bare p ts) : ReadsUnit (toUnit <$> parse) id bare p ts := by
  rw [map_eq_pure_bind]
  cases h with
  | ok run read facing anonymous named grammatical =>
    refine .ok ?_ read facing anonymous named grammatical
    rw [bind_eq_ok run]
    rfl
  | error run read facing anonymous => exact .error (bind_eq_error run) read facing anonymous

theorem Facing.readsUnit (h : p.Facing ts) (hp : p.Lexed) :
    ∃ bare, ReadsUnit (unit (look ts)) id bare p ts := by
  cases hk : (look ts).kind <;> simp only [unit, hk]
  case defKeyword => exact ⟨_, (h.readsUnit_definition hp hk).map⟩
  case externKeyword => exact ⟨_, (h.readsUnit_external hp hk).map⟩
  all_goals exact ⟨_, (h.readsUnit_bareExpression hp (by simp [hk]) (by simp [hk])).map⟩

/-- The units of a program are read up to the end of the input. Tokens that are no program have a
syntax error. -/
theorem Facing.unitsAt_cases {n : Nat} (h : p.Facing ts) (hp : p.Lexed) (hn : ts.length ≤ n) :
    (∃ us q, unitsAt n p = .ok us q ∧ Program p.anonymous ts us) ∨
      ∃ e q, unitsAt n p = .error (.invalid e) q ∧ ¬ ∃ us, Program p.anonymous ts us := by
  induction n generalizing p ts with
  | zero => exact absurd h.length_pos (by omega)
  | succ n ih =>
    obtain ⟨t, rest, rfl⟩ := List.exists_cons_of_ne_nil h.ne_nil
    rw [List.length_cons] at hn
    rw [unitsAt, h.current_bind, look_cons]
    by_cases hend : t.kind = .endOfInput
    · have hlast : (look p.tokens).kind = .endOfInput := by rwa [h.tokens]
      have htokens := tokens_of_end hlast
      rw [h.tokens] at htokens
      rw [if_pos hend, htokens]
      exact .inl ⟨[], p, rfl, .last hend⟩
    rw [if_neg hend]
    by_cases hsemicolon : t.isChar ";" = true
    · obtain ⟨r, hr, hfacing, hmoved⟩ := h.advance_eq hend
      have hcases := ih hfacing (Reads.advance.lexed hp hr) (by simpa using hn)
      rw [hmoved.anonymous] at hcases
      rw [if_pos hsemicolon, bind_eq_ok hr]
      obtain ⟨us, q, hrun, hus⟩ | ⟨e, q, hrun, hnone⟩ := hcases
      · exact .inl ⟨us, q, hrun, .semicolon hsemicolon hus⟩
      · refine .inr ⟨e, q, hrun, ?_⟩
        rintro ⟨us, hus⟩
        exact hnone ⟨us, hus.of_semicolon hsemicolon⟩
    have hnot : t.isChar ";" = false := by simpa using hsemicolon
    obtain ⟨_, hreads⟩ := h.readsUnit hp
    rw [look_cons] at hreads
    rw [if_neg hsemicolon]
    cases hreads with
    | @error e q _ run read _ _ =>
      refine .inr ⟨e, q, bind_eq_error run, ?_⟩
      rintro ⟨us, hus⟩
      obtain ⟨_, _, _, -, read', -⟩ := hus.exists_unit hend hnot
      cases read.symm.trans read'
    | @ok u r vs run read hfacing hanonymous _ _ =>
      have hle : vs.length ≤ rest.length := (Layered.unit_passed read).length_le
      have hcases := ih hfacing ((unit_reads t).lexed hp run) (by omega)
      rw [hanonymous] at hcases
      rw [bind_eq_ok run]
      obtain ⟨us, q, hrun, hus⟩ | ⟨e, q, hrun, hnone⟩ := hcases
      · rw [bind_eq_ok hrun]
        exact .inl ⟨u :: us, q, rfl, .unit hend hnot read hus⟩
      · refine .inr ⟨e, q, bind_eq_error hrun, ?_⟩
        rintro ⟨us, hus⟩
        obtain ⟨_, _, ws, -, read', hws⟩ := hus.exists_unit hend hnot
        cases read.symm.trans read'
        exact hnone ⟨ws, hws⟩

end

theorem parseAll_eq_unitsOf {s file : String} (h : (parseAll s file).isOk = true) :
    parseAll s file = .ok (unitsOf s file) := by
  unfold unitsOf
  cases hs : parseAll s file with
  | ok us => rfl
  | error stop =>
    rw [hs] at h
    cases h

theorem parseAll_cases (s file : String) :
    (∃ us, parseAll s file = .ok us ∧ Program 0 (tokenize s file) us) ∨
      ∃ e, parseAll s file = .error (.invalid e) ∧ ¬ ∃ us, Program 0 (tokenize s file) us := by
  have hlexed : (Parser.ofString s file).Lexed := by
    intro t ht
    cases ht
  obtain ⟨q, hq, hfacing, hmoved⟩ := current_of_closed (p := Parser.ofString s file) rfl
  have hsame (n : Nat) : unitsAt (n + 1) (.ofString s file) = unitsAt (n + 1) q := by
    rw [unitsAt, bind_eq_ok hq, hfacing.current_bind]
  have hunits : units (.ofString s file) = unitsAt (Parser.ofString s file).depthBound q := hsame _
  have hdepth := (Parser.ofString s file).lt_depthBound
  have hcases := hfacing.unitsAt_cases (Reads.current.lexed hlexed hq)
    (show _ ≤ (Parser.ofString s file).depthBound by omega)
  rw [hmoved.anonymous, ← hunits] at hcases
  unfold parseAll
  obtain ⟨us, r, hrun, hus⟩ | ⟨e, r, hrun, hnone⟩ := hcases
  · rw [hrun]
    exact .inl ⟨us, rfl, hus⟩
  · rw [hrun]
    exact .inr ⟨e, rfl, hnone⟩

theorem program_of_parseAll {s file : String} {us : List TopLevel}
    (h : parseAll s file = .ok us) : Program 0 (tokenize s file) us := by
  obtain ⟨vs, hvs, hprogram⟩ | ⟨e, he, -⟩ := parseAll_cases s file
  · cases h.symm.trans hvs
    exact hprogram
  · cases h.symm.trans he

end Parser

/-! ### The unit that is next -/

namespace Session

open ExprCompiler.Parser (ReadsUnit)

section

variable {p q : Parser} {u : TopLevel} {us : List Token}

theorem nextUnit?_eq_none (hc : p.lexer.ending = .closed)
    (h : (look p.tokens).kind = .endOfInput ∨ (look p.tokens).isChar ";" = true) :
    nextUnit? p = none := by
  obtain ⟨q, hq, -, -⟩ := Parser.current_of_closed hc
  simp only [nextUnit?, hq, h, if_true]

theorem parsed?_of_read {α : Type} {parse : ParserM α} {toUnit : α → TopLevel} {bare : Bool}
    {ts : List Token} (h : ReadsUnit parse toUnit bare q ts)
    (read : Layered.unit q.anonymous ts = .ok u us) :
    parsed? (Parser.guarded parse) toUnit q = some u := by
  cases h with
  | ok run read' _ _ _ _ =>
    cases read.symm.trans read'
    simp [parsed?, Parser.guarded, run]
  | error _ read' _ _ => cases read.symm.trans read'

theorem nextUnit?_of_read (hc : p.lexer.ending = .closed) (hp : p.Lexed)
    (hend : (look p.tokens).kind ≠ .endOfInput) (h : (look p.tokens).isChar ";" = false)
    (read : Layered.unit p.anonymous p.tokens = .ok u us) : nextUnit? p = some u := by
  obtain ⟨q, hq, hfacing, hmoved⟩ := Parser.current_of_closed hc
  have hlexed : q.Lexed := Parser.Reads.current.lexed hp hq
  rw [← hmoved.anonymous] at read
  simp only [nextUnit?, hq, hend, h, Bool.false_eq_true, or_self, if_false]
  split
  · exact parsed?_of_read (hfacing.readsUnit_definition hlexed ‹_›) read
  · exact parsed?_of_read (hfacing.readsUnit_external hlexed ‹_›) read
  · exact parsed?_of_read (hfacing.readsUnit_bareExpression hlexed ‹_› ‹_›) read

end

end Session

end ExprCompiler
