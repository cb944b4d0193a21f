import ExprCompiler.Proofs.Demand
import ExprCompiler.Proofs.Extents
import ExprCompiler.Proofs.Promptness

/-!
# The extents of units

A unit goes up to the token behind it. It begins at its keyword or, if it has
none, at the first token of its expression, and its span holds the spans of
its prototype and of its body. So it is for every unit that is read in a text,
whatever the parser has met before.
-/

namespace ExprCompiler

inductive Prototype.Over : Prototype → List Token → Token → Prop
  | intro {name paren close next : Token} {params : List Token} (hname : name.kind = .identifier)
    (hparen : paren.isChar "(" = true) (hparams : ∀ t ∈ params, t.kind = .identifier)
    (hclose : close.isChar ")" = true) :
    Over ⟨name.lexeme, params.map Token.lexeme, some ⟨name.location, next.location⟩⟩
      (name :: paren :: (params ++ [close])) next

namespace TopLevel

inductive Over : TopLevel → List Token → Token → Prop
  | definition {start first next : Token} {ts rest : List Token} {p : Prototype} {e : Expr}
    (hstart : start.kind = .defKeyword) (hp : p.Over ts first) (he : e.Over (first :: rest)) :
    Over (.definition ⟨p, e, some ⟨start.location, next.location⟩⟩)
      (start :: (ts ++ first :: rest)) next
  | external {start next : Token} {ts : List Token} {p : Prototype}
    (hstart : start.kind = .externKeyword) (hp : p.Over ts next) :
    Over (.external p) (start :: ts) next
  | expression {first next : Token} {rest : List Token} {e : Expr} (number : Nat)
    (he : e.Over (first :: rest)) :
    Over (.definition ⟨⟨anonymousName number, [], some ⟨first.location, next.location⟩⟩, e,
      some ⟨first.location, next.location⟩⟩) (first :: rest) next

/-- A unit that is read in a text, with all the others or by a parser that has come there in some
way. -/
inductive ReadIn (s file : String) : TopLevel → Prop
  | definition {p q : Parser} {d : Definition} (hp : (Parser.ofString s file).Leads p)
    (h : Parser.definition? p = .ok (some d) q) : ReadIn s file (.definition d)
  | external {p q : Parser} {x : Prototype} (hp : (Parser.ofString s file).Leads p)
    (h : Parser.external? p = .ok (some x) q) : ReadIn s file (.external x)
  | bareExpression {p q : Parser} {d : Definition} (hp : (Parser.ofString s file).Leads p)
    (h : Parser.bareExpression? p = .ok (some d) q) : ReadIn s file (.definition d)
  | program {us : List TopLevel} {u : TopLevel} (h : Parser.parseAll s file = .ok us)
    (hu : u ∈ us) : ReadIn s file u

section

variable {d : Definition} {own : List Token} {next : Token}

theorem Over.body (h : (TopLevel.definition d).Over own next) :
    ∃ ts, ts <:+: own ∧ d.body.Over ts := by
  cases h with
  | @definition start first _ ts rest p e _ _ he =>
    exact ⟨_, ((List.suffix_append ts _).trans (List.suffix_cons start _)).isInfix, he⟩
  | expression _ he => exact ⟨_, List.infix_refl _, he⟩

theorem Over.holds (h : (TopLevel.definition d).Over own next) (hown : Rising (own ++ [next])) :
    ∃ s j k, d.span = some s ∧ d.prototype.span = some j ∧ d.body.span = some k ∧
      j.Within s ∧ k.Within s := by
  obtain ⟨hrising, -, hnext⟩ := List.pairwise_append.1 hown
  have hstop : ∀ t ∈ own, t.location.offset ≤ next.location.offset := fun t ht =>
    Nat.le_of_lt (hnext t ht next List.mem_cons_self)
  have hstart : ∀ t ∈ own, (look own).location.offset ≤ t.location.offset := by
    cases hrising with
    | nil => exact nofun
    | cons hall _ =>
      exact List.forall_mem_cons.2 ⟨Nat.le_refl _, fun t ht => Nat.le_of_lt (hall t ht)⟩
  obtain ⟨ts, hts, hover⟩ := h.body
  obtain ⟨t, ht, u, hu, hspan⟩ := hover.ends
  have hbody := And.intro (hstart t (hts.subset ht)) (hstop u (hts.subset hu))
  cases h with
  | @definition start first _ _ rest _ e _ hp _ =>
    cases hp with
    | @intro name paren close _ params =>
      exact ⟨_, _, _, rfl, rfl, hspan, ⟨hstart name (by simp), hstop first (by simp)⟩, hbody⟩
  | expression _ _ =>
    exact ⟨_, _, _, rfl, rfl, hspan, ⟨Nat.le_refl _, Nat.le_refl _⟩, hbody⟩

end

end TopLevel

/-! ### Units read off tokens -/

namespace Layered

variable {number : Nat} {ts us : List Token}

theorem over_of_prototype {p : Prototype} (h : prototype ts = .ok p us) :
    ∃ own, ts = own ++ us ∧ p.Over own (look us) := by
  have hspan := span_of_prototype h
  cases signature_of_prototype h with
  | @intro name paren close params _ s hname hparen hparams hclose =>
    rw [look_cons] at hspan
    cases hspan
    exact ⟨name :: paren :: (params ++ [close]), by simp, .intro hname hparen hparams hclose⟩

theorem exists_over_of_comparison {e : Expr} (h : comparison ts = .ok e us) :
    ∃ rest, ts = look ts :: rest ++ us ∧ e.Over (look ts :: rest) := by
  obtain ⟨own, rfl, hover⟩ := over_of_comparison h
  obtain ⟨t, ht, -⟩ := hover.ends
  cases own with
  | nil => cases ht
  | cons t own => exact ⟨own, rfl, hover⟩

/-- A unit that is read goes over the tokens that have been taken, up to the next one. -/
theorem over_of_unit {u : TopLevel} (h : unit number ts = .ok u us) :
    ∃ own, ts = own ++ us ∧ u.Over own (look us) := by
  by_cases hd : (look ts).kind = .defKeyword
  · cases ts with
    | nil => cases hd
    | cons t ts =>
      obtain ⟨p, e, vs, hp, he, rfl⟩ := (unit_definition_iff number hd).1 h
      obtain ⟨front, rfl, hfront⟩ := over_of_prototype hp
      obtain ⟨rest, hvs, hrest⟩ := exists_over_of_comparison he
      refine ⟨t :: (front ++ look vs :: rest), ?_, .definition hd hfront hrest⟩
      rw [hvs]
      simp
  by_cases hx : (look ts).kind = .externKeyword
  · cases ts with
    | nil => cases hx
    | cons t ts =>
      obtain ⟨p, hp, rfl⟩ := (unit_external_iff number hx).1 h
      obtain ⟨own, rfl, hover⟩ := over_of_prototype hp
      exact ⟨t :: own, rfl, .external hx hover⟩
  · obtain ⟨e, he, rfl⟩ := (unit_expression_iff number hd hx).1 h
    obtain ⟨rest, hts, hrest⟩ := exists_over_of_comparison he
    exact ⟨_, hts, .expression number hrest⟩

theorem kind_of_expected {α : Type} {kind : TokenKind} {words : String} {k : Token → Reading α}
    {a : α} (h : (expected kind words >>= k) ts = .ok a us) : (look ts).kind = kind := by
  by_contra hkind
  rw [expected, bind_assoc, peek_bind, if_neg hkind] at h
  cases h

theorem unit_of_definition_eq_ok {d : Definition} (h : definition ts = .ok d us) :
    unit number ts = .ok (.definition d) us := by
  rw [Parser.unit_of_definition (kind_of_expected h), bind_eq_ok h]
  rfl

theorem unit_of_external_eq_ok {p : Prototype} (h : external ts = .ok p us) :
    unit number ts = .ok (.external p) us := by
  rw [Parser.unit_of_external (kind_of_expected h), bind_eq_ok h]
  rfl

theorem unit_of_bareExpression_eq_ok {d : Definition} (h : bareExpression number ts = .ok d us) :
    unit number ts = .ok (.definition d) us := by
  have hread := h
  rw [bareExpression, peek_bind] at hread
  obtain ⟨e, vs, he, -⟩ := exists_of_bind_eq_ok hread
  obtain ⟨hd, hx, -⟩ := not_other_of_comparison he
  rw [Parser.unit_of_bareExpression hd hx, bind_eq_ok h]
  rfl

end Layered

/-! ### Units read in a text -/

theorem Lexer.Leads.tokens_suffix {s : Source} {file : String} {l : Lexer}
    (h : (Lexer.ofSource s file).Leads l) : l.tokens <:+ (Lexer.ofSource s file).tokens := by
  induction h with
  | nothing => exact List.suffix_refl _
  | @call m k t hm hn ih =>
    have hscan := Lexer.scan_of_next hn
    refine List.IsSuffix.trans ?_ ih
    by_cases hend : t.kind = .endOfInput
    · -- The end of the input is given again.
      obtain ⟨-, -, hreads⟩ := hm.pulled.next hn
      have hagain := Lexer.scan_of_next (Lexer.next_again hn hend (by omega))
      have hsame : m.tokens = k.tokens := by rw [k.tokens_eq, m.tokens_eq, hscan, hagain]
      exact hsame ▸ List.suffix_refl k.tokens
    · rw [Lexer.tokens_of_more (l := m) (by rwa [hscan]), hscan]
      exact List.suffix_cons _ _

namespace Parser

variable {s file : String} {p q : Parser}

theorem Leads.tokens_suffix (h : (ofString s file).Leads p) : p.tokens <:+ tokenize s file := by
  have hfed := h.fed (fed_ofSource (.ofString s) file)
  cases hp : p.lookahead with
  | none =>
    have htokens : p.tokens = p.lexer.tokens := by rw [tokens, hp]
    rw [htokens, hfed.unread hp]
    exact List.suffix_refl _
  | some t =>
    obtain ⟨m, hm, hn⟩ := hfed.given t hp
    rw [← tokens_of_given hn hp]
    exact hm.tokens_suffix

theorem Leads.closed (h : (ofString s file).Leads p) : p.lexer.ending = .closed :=
  (h.fed (fed_ofSource (.ofString s) file)).leads.ending

theorem Agrees.exists_read {α : Type} {x : ParserM α} {y : Layered.Reading α} {ts : List Token}
    {a : α} (h : Agrees p (x p) (y ts)) (hx : x p = .ok a q) :
    ∃ us, y ts = .ok a us ∧ us ≠ [] := by
  rw [hx] at h
  generalize hy : y ts = r at h
  cases h with
  | ok hfacing _ => exact ⟨_, rfl, hfacing.ne_nil⟩

theorem exists_bareExpression {d : Definition} (hp : p.lexer.ending = .closed)
    (hx : bareExpression p = .ok d q) :
    ∃ us, Layered.bareExpression p.anonymous p.tokens = .ok d us ∧ us ≠ [] := by
  obtain ⟨r, hfacing, hmoved, hsame⟩ := looks_bareExpression.exists_facing hp
  rw [hsame] at hx
  obtain ⟨e, _, us, hrun, hread, hq, -⟩ | ⟨e, _, us, hrun, -⟩ := hfacing.bareExpression_agrees
  · cases hx.symm.trans hrun
    exact ⟨us, hmoved.anonymous ▸ hread, hq.ne_nil⟩
  · cases hx.symm.trans hrun

end Parser

theorem Layered.Program.exists_read {number : Nat} {ts : List Token} {vs : List TopLevel}
    (h : Layered.Program number ts vs) {u : TopLevel} (hu : u ∈ vs) :
    ∃ number ts' us, ts' <:+ ts ∧ Layered.unit number ts' = .ok u us ∧ us ≠ [] := by
  induction h with
  | last _ => cases hu
  | semicolon _ _ ih =>
    obtain ⟨number, ts', us, hsuffix, hread, hne⟩ := ih hu
    exact ⟨number, ts', us, hsuffix.trans (List.suffix_cons _ _), hread, hne⟩
  | @unit number t ts ws v vs _ _ read rest ih =>
    obtain rfl | hu := List.mem_cons.1 hu
    · exact ⟨number, t :: ts, ws, List.suffix_refl _, read, rest.ne_nil⟩
    · obtain ⟨number', ts', us, hsuffix, hread, hne⟩ := ih hu
      have hrest : ws <:+ ts := (Layered.unit_passed read).suffix
      exact ⟨number', ts', us, (hsuffix.trans hrest).trans (List.suffix_cons _ _), hread, hne⟩

namespace TopLevel

variable {s file : String} {u : TopLevel}

theorem ReadIn.exists_read (h : u.ReadIn s file) :
    ∃ number ts us, ts <:+ tokenize s file ∧ Layered.unit number ts = .ok u us ∧ us ≠ [] := by
  cases h with
  | @definition p q d hp h =>
    obtain ⟨us, hread, hne⟩ := (Parser.looks_definition.agrees (fun _ hq => hq.definition_agrees)
      hp.closed).exists_read (Parser.guarded_eq_ok_some h)
    exact ⟨0, _, us, hp.tokens_suffix, Layered.unit_of_definition_eq_ok hread, hne⟩
  | @external p q x hp h =>
    obtain ⟨us, hread, hne⟩ := (Parser.looks_external.agrees (fun _ hq => hq.external_agrees)
      hp.closed).exists_read (Parser.guarded_eq_ok_some h)
    exact ⟨0, _, us, hp.tokens_suffix, Layered.unit_of_external_eq_ok hread, hne⟩
  | @bareExpression p q d hp h =>
    obtain ⟨us, hread, hne⟩ :=
      Parser.exists_bareExpression hp.closed (Parser.guarded_eq_ok_some h)
    exact ⟨_, _, us, hp.tokens_suffix, Layered.unit_of_bareExpression_eq_ok hread, hne⟩
  | program h hu => exact (Parser.program_of_parseAll h).exists_read hu

end TopLevel

/-- The spans of a unit that is read in a text follow its tokens and its tree. Its tokens stand
somewhere in the text and are derived exactly: a definition begins at its keyword, a bare expression
at its first token. The span of a definition holds those of its prototype and its body. Whatever
lies in the body goes over a stretch of the tokens, and its span holds those right below it, which
stand one behind the other. -/
theorem spans_follow_tree {s file : String} {u : TopLevel} (h : u.ReadIn s file) :
    ∃ before own next after, tokenize s file = before ++ (own ++ next :: after) ∧ u.Over own next ∧
      ∀ d, u = .definition d →
        (∃ i j k, d.span = some i ∧ d.prototype.span = some j ∧ d.body.span = some k ∧
          j.Within i ∧ k.Within i) ∧
        ∀ e : Expr, e.Part d.body → (∃ ts, ts <:+: own ∧ e.Over ts) ∧ e.Framed := by
  obtain ⟨number, ts, us, ⟨before, hbefore⟩, hread, hne⟩ := h.exists_read
  obtain ⟨own, rfl, hover⟩ := Layered.over_of_unit hread
  obtain ⟨next, after, rfl⟩ := List.exists_cons_of_ne_nil hne
  rw [look_cons] at hover
  have hrising : Rising (tokenize s file) := (Lexer.ofString s file).tokens_increase
  rw [← hbefore] at hrising
  have hown : Rising (own ++ [next]) := hrising.sublist (by simp)
  refine ⟨before, own, next, after, hbefore.symm, hover, ?_⟩
  rintro d rfl
  refine ⟨hover.holds hown, fun e he => ?_⟩
  obtain ⟨vs, hvs, hbody⟩ := hover.body
  obtain ⟨ts, hts, hpart⟩ := hbody.part he
  have hin : ts <:+: own := hts.trans hvs
  have hts : Rising ts := hown.sublist (hin.sublist.trans (List.sublist_append_left own [next]))
  exact ⟨⟨ts, hin, hpart⟩, hpart.framed hts⟩

theorem spans_follow_tree_regrouped :
    let s := "def f(x) x+(x)*g(1,(2+x));"
    ∃ d, (TopLevel.definition d).ReadIn s "input" ∧ ∃ before own next after,
      tokenize s "input" = before ++ (own ++ next :: after) ∧
        (TopLevel.definition d).Over own next ∧ d.body.Framed := by
  intro s
  have hgives : (Parser.definition?.run' (.ofString s "input")).join.isSome = true := by
    decide +kernel
  unfold EStateM.run' EStateM.run at hgives
  cases hrun : Parser.definition? (.ofString s "input") with
  | error stop q =>
    rw [hrun] at hgives
    cases hgives
  | ok gives q =>
    rw [hrun] at hgives
    obtain ⟨d, rfl⟩ := Option.isSome_iff_exists.1 hgives
    have hin : (TopLevel.definition d).ReadIn s "input" := .definition .nothing hrun
    obtain ⟨before, own, next, after, htokens, hover, hspans⟩ := spans_follow_tree hin
    exact ⟨d, hin, before, own, next, after, htokens, hover, ((hspans d rfl).2 _ .whole).2⟩

end ExprCompiler
