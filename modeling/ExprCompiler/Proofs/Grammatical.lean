import Mathlib.Data.List.TakeWhile
import ExprCompiler.Parser.Grammar
import ExprCompiler.Proofs.Building

/-!
# What the parser reads

The units of a source are grammatical: the names in them are identifiers,
their literals fit into 32 bits, and their operators are the four that have a
precedence.
-/

namespace ExprCompiler

def Identifier (n : String) : Prop :=
  ∃ c cs, n.toList = c :: cs ∧ isLetter c = true ∧ ∀ d ∈ cs, isWordChar d = true

theorem Identifier.ne_empty {n : String} (h : Identifier n) : n ≠ "" := by
  rintro rfl
  obtain ⟨c, cs, hn, -⟩ := h
  simp at hn

theorem Identifier.not_anonymous {p : Prototype} (h : Identifier p.name) :
    p.isAnonymous = false := by
  obtain ⟨c, cs, hn, hc, -⟩ := h
  have hne : c ≠ '_' := by
    rintro rfl
    exact absurd hc (by decide)
  have hfront : anonymousFront.toList = '_' :: "_anon_expr".toList := by decide
  rw [Prototype.isAnonymous, hn, hfront, List.isPrefixOf_cons_cons]
  simp [Ne.symm hne]

theorem isAnonymous_of_name {p : Prototype} {k : Nat} (h : p.name = anonymousName k) :
    p.isAnonymous = true := by
  rw [Prototype.isAnonymous, h, List.isPrefixOf_iff_prefix, anonymousName, String.append_assoc,
    String.toList_append]
  exact List.prefix_append _ _

theorem Identifier.ne_anonymous {n : String} (h : Identifier n) (k : Nat) :
    n ≠ anonymousName k := by
  intro hk
  have hp : Identifier (⟨n, [], none⟩ : Prototype).name := h
  have := isAnonymous_of_name (p := ⟨n, [], none⟩) hk
  rw [hp.not_anonymous] at this
  cases this

mutual

def Expr.Grammatical : Expr → Prop
  | .number v _ => 0 ≤ v ∧ v ≤ Parser.int32Max
  | .var n _ => Identifier n
  | .binary op l r _ => op ∈ operatorPrecedence.map Prod.fst ∧ l.Grammatical ∧ r.Grammatical
  | .call callee args _ => Identifier callee ∧ Expr.AllGrammatical args
  | .stray _ => False

def Expr.AllGrammatical : List Expr → Prop
  | [] => True
  | e :: es => e.Grammatical ∧ Expr.AllGrammatical es

end

structure TopLevel.Grammatical (u : TopLevel) : Prop where
  name : Identifier u.prototype.name ∨
    ∃ k d, u = .definition d ∧ d.name = anonymousName k ∧ d.prototype.params = []
  params : ∀ n ∈ u.prototype.params, Identifier n
  body : ∀ d, u = .definition d → d.body.Grammatical

/-! ### Tokens -/

def Token.Proper (t : Token) : Prop := t.kind = .identifier → Identifier t.lexeme

theorem Lexeme.proper_ofFront (c : Char) (cs : List Char) (l : Location) :
    ((Lexeme.ofFront c cs).token l).Proper := by
  intro hk
  have hword {ds : List Char} : ((Lexeme.ofWord ds).token l).lexeme = String.ofList ds := by
    rw [Lexeme.token, Lexeme.chars_ofWord]
  unfold Lexeme.ofFront at hk ⊢
  split at hk
  · rename_i hc
    rw [if_pos hc, hword]
    refine ⟨c, cs.takeWhile isWordChar, String.toList_ofList, hc, fun d hd => ?_⟩
    exact List.mem_takeWhile_imp hd
  · split at hk
    · unfold Lexeme.ofNumeral at hk
      split at hk <;> cases hk
    · cases hk

theorem Lexer.proper_scan (l : Lexer) : l.scan.1.Proper := by
  have hcut (l : Lexer) : l.cut.1.Proper := by
    unfold Lexer.cut
    split
    · rintro ⟨⟩
    · exact Lexeme.proper_ofFront _ _ _
  exact hcut _

theorem Lexer.proper_next {l l' : Lexer} {t : Token} (h : l.next = .ok (t, l')) : t.Proper := by
  have hscan := l.proper_scan
  unfold Lexer.next at h
  simp only at h
  split at h
  · cases h
  · rw [Except.ok.injEq] at h
    rwa [h] at hscan

namespace Parser

def Lexed (p : Parser) : Prop := ∀ t, p.lookahead = some t → t.Proper

def Reads {α : Type} (x : ParserM α) (Q : α → Prop) : Prop :=
  ∀ p, p.Lexed →
    match x p with
    | .ok a q => q.Lexed ∧ Q a
    | .error _ q => q.Lexed

namespace Reads

variable {α β : Type} {Q : α → Prop} {R : β → Prop}

theorem pure {a : α} (h : Q a) : Reads (Pure.pure a) Q := fun _ hp => ⟨hp, h⟩

theorem stop (e : ParseStop) : Reads (throw e : ParserM α) Q := fun _ hp => hp

theorem bind {x : ParserM α} {k : α → ParserM β} (hx : Reads x Q)
    (hk : ∀ a, Q a → Reads (k a) R) : Reads (x >>= k) R := by
  intro p hp
  have hrun := hx p hp
  cases hxp : x p with
  | ok a q =>
    rw [hxp] at hrun
    rw [bind_eq_ok hxp]
    exact hk a hrun.2 q hrun.1
  | error stop q =>
    rw [hxp] at hrun
    rw [bind_eq_error hxp]
    exact hrun

theorem state {k : Parser → ParserM β} (hk : ∀ p, Reads (k p) R) : Reads (get >>= k) R :=
  fun p hp => hk p p hp

theorem ite {c : Prop} [Decidable c] {x y : ParserM α} (hx : c → Reads x Q) (hy : ¬ c → Reads y Q) :
    Reads (if c then x else y) Q := by
  by_cases hc : c
  · rw [if_pos hc]
    exact hx hc
  · rw [if_neg hc]
    exact hy hc

theorem mono {Q' : α → Prop} {x : ParserM α} (hx : Reads x Q) (hq : ∀ a, Q a → Q' a) :
    Reads x Q' := by
  intro p hp
  have hrun := hx p hp
  cases hxp : x p with
  | ok a q =>
    rw [hxp] at hrun
    exact ⟨hrun.1, hq a hrun.2⟩
  | error stop q =>
    rw [hxp] at hrun
    exact hrun

theorem lexed {x : ParserM α} (hx : Reads x Q) {p q : Parser} {a : α} (hp : p.Lexed)
    (h : x p = .ok a q) : q.Lexed := by
  have hrun := hx p hp
  rw [h] at hrun
  exact hrun.1

theorem advance : Reads Parser.advance Token.Proper := by
  intro p hp
  unfold Parser.advance
  cases hn : p.lexer.next with
  | error f => exact hp
  | ok q =>
    obtain ⟨t, l⟩ := q
    have ht := Lexer.proper_next hn
    refine ⟨fun t' h => ?_, ht⟩
    cases h
    exact ht

theorem current : Reads Parser.current Token.Proper := by
  intro p hp
  unfold Parser.current
  cases hl : p.lookahead with
  | some t => exact ⟨hp, hp t hl⟩
  | none => exact advance p hp

theorem guarded {x : ParserM α} (hx : Reads x Q) :
    Reads (Parser.guarded x) fun r => ∀ a, r = some a → Q a := by
  intro p hp
  have hrun := hx p hp
  unfold Parser.guarded
  cases hxp : x p with
  | ok a q =>
    rw [hxp] at hrun
    refine ⟨hrun.1, fun b hb => ?_⟩
    cases hb
    exact hrun.2
  | error stop q =>
    rw [hxp] at hrun
    cases stop with
    | invalid e => exact ⟨hrun, fun b hb => by cases hb⟩
    | unread f => exact hrun
    | exhausted => exact hrun

end Reads

/-! ### Expressions -/

theorem literal_range {x : Binary64} {v : Int} (h : literal x = .ok v) : 0 ≤ v ∧ v ≤ int32Max := by
  unfold literal at h
  split at h
  · cases h
  · cases h
  · split at h
    · cases h
      exact ⟨Int.natCast_nonneg _, ‹_›⟩
    · cases h

theorem number_reads : Reads number Expr.Grammatical := by
  unfold number
  refine Reads.current.bind fun t ht => ?_
  cases hl : literal (tokenNumber t) with
  | error reason => exact .stop _
  | ok v => exact Reads.advance.bind fun _ _ => .pure (literal_range hl)

theorem operator_of_precedence {t : Token} (h : 0 ≤ t.precedence) :
    t.lexeme ∈ operatorPrecedence.map Prod.fst := by
  unfold Token.precedence at h
  split at h
  · cases hl : operatorPrecedence.lookup t.lexeme with
    | some k =>
      obtain ⟨l₁, l₂, he, -⟩ := List.lookup_eq_some_iff.1 hl
      rw [he]
      simp
    | none =>
      rw [hl] at h
      exact absurd h (by decide)
  · exact absurd h (by decide)

theorem argumentsGrammatical_reads {n : Nat} (he : Reads (expressionAt n) Expr.Grammatical)
    (ha : Reads (argumentsAt n) Expr.AllGrammatical) :
    Reads (argumentsAt (n + 1)) Expr.AllGrammatical := by
  unfold argumentsAt
  refine he.bind fun e he => Reads.current.bind fun t ht => ?_
  refine .ite (fun _ => .pure ⟨he, trivial⟩) fun _ => ?_
  refine .ite (fun _ => ?_) fun _ => .stop _
  exact Reads.advance.bind fun _ _ => ha.bind fun es hes => .pure ⟨he, hes⟩

theorem primary_reads {n : Nat} (he : Reads (expressionAt n) Expr.Grammatical)
    (ha : Reads (argumentsAt n) Expr.AllGrammatical) :
    Reads (primaryAt (n + 1)) Expr.Grammatical := by
  unfold primaryAt
  refine Reads.current.bind fun t ht => ?_
  refine .ite (fun _ => number_reads) fun _ => ?_
  refine .ite (fun hk => ?_) fun _ => ?_
  · refine Reads.advance.bind fun paren hparen => ?_
    refine .ite (fun _ => ?_) fun _ => .pure (ht hk)
    have hrest (args : List Expr) (hargs : Expr.AllGrammatical args) : Reads (do
        let close ← current
        let _ ← advance
        return Expr.call t.lexeme args (some ⟨t.location, close.location⟩)) Expr.Grammatical :=
      Reads.current.bind fun _ _ => Reads.advance.bind fun _ _ => .pure ⟨ht hk, hargs⟩
    refine Reads.advance.bind fun first hfirst => ?_
    exact .ite (fun _ => (Reads.pure trivial).bind hrest) fun _ => ha.bind hrest
  · refine .ite (fun _ => ?_) fun _ => .stop _
    refine Reads.advance.bind fun _ _ => he.bind fun e he => ?_
    refine Reads.current.bind fun close hclose => ?_
    exact .ite (fun _ => Reads.advance.bind fun _ _ => .pure he) fun _ => .stop _

theorem binaryRest_reads {n : Nat} (hp : Reads (primaryAt n) Expr.Grammatical)
    (hb : ∀ least e, 0 ≤ least → e.Grammatical → Reads (binaryRestAt n least e) Expr.Grammatical)
    {least : Int} {lhs : Expr} (hleast : 0 ≤ least) (hl : lhs.Grammatical) :
    Reads (binaryRestAt (n + 1) least lhs) Expr.Grammatical := by
  unfold binaryRestAt
  refine Reads.current.bind fun op hop => ?_
  refine .ite (fun _ => .pure hl) fun hlt => ?_
  have hprec : 0 ≤ op.precedence := by omega
  refine Reads.advance.bind fun _ _ => hp.bind fun operand ho => ?_
  refine Reads.current.bind fun following hfollowing => ?_
  have hrest (rhs : Expr) (hr : rhs.Grammatical) : Reads
      (binaryRestAt n least (.binary op.lexeme lhs rhs (joinSpans lhs rhs))) Expr.Grammatical :=
    hb _ _ hleast ⟨operator_of_precedence hprec, hl, hr⟩
  exact .ite (fun _ => (hb _ _ (by omega) ho).bind hrest) fun _ => (Reads.pure ho).bind hrest

theorem expressionAt_reads (n : Nat) :
    Reads (expressionAt n) Expr.Grammatical ∧
      (∀ least e, 0 ≤ least → e.Grammatical → Reads (binaryRestAt n least e) Expr.Grammatical) ∧
      Reads (primaryAt n) Expr.Grammatical ∧ Reads (argumentsAt n) Expr.AllGrammatical := by
  -- On the bound of the depth, for all four parses at once.
  induction n with
  | zero =>
    refine ⟨?_, fun least e _ _ => ?_, ?_, ?_⟩
    · exact .stop _
    · exact .stop _
    · exact .stop _
    · exact .stop _
  | succ n ih =>
    obtain ⟨he, hb, hp, ha⟩ := ih
    refine ⟨?_, fun least e hleast hl => binaryRest_reads hp hb hleast hl, primary_reads he ha,
      argumentsGrammatical_reads he ha⟩
    unfold expressionAt
    exact hp.bind fun lhs hl => hb 0 lhs (by omega) hl

theorem expression_reads : Reads expression Expr.Grammatical :=
  .state fun p => (expressionAt_reads p.depthBound).1

/-! ### Units -/

theorem spanFrom_reads (t : Token) : Reads (spanFrom t) fun _ => True :=
  Reads.current.bind fun _ _ => .pure trivial

theorem parametersAt_reads (n : Nat) :
    Reads (parametersAt n) fun ns => ∀ k ∈ ns, Identifier k := by
  induction n with
  | zero => exact .stop _
  | succ n ih =>
    unfold parametersAt
    refine Reads.advance.bind fun t ht => ?_
    refine .ite (fun hk => ?_) fun _ => .pure (by simp)
    refine ih.bind fun ns hns => .pure ?_
    intro k hk'
    rcases List.mem_cons.1 hk' with rfl | hk'
    · exact ht hk
    · exact hns k hk'

theorem prototype_reads :
    Reads prototype fun p => Identifier p.name ∧ ∀ n ∈ p.params, Identifier n := by
  unfold prototype
  refine Reads.current.bind fun name hname => ?_
  refine .ite (fun _ => .stop _) fun hk => ?_
  refine Reads.advance.bind fun paren hparen => ?_
  refine .ite (fun _ => .stop _) fun _ => ?_
  refine .state fun p => (parametersAt_reads _).bind fun params hparams => ?_
  refine Reads.current.bind fun close hclose => ?_
  refine .ite (fun _ => .stop _) fun _ => ?_
  refine Reads.advance.bind fun _ _ => (spanFrom_reads name).bind fun span _ => ?_
  exact .pure ⟨hname (not_not.1 hk), hparams⟩

theorem expect_reads (k : TokenKind) (expected : String) :
    Reads (expect k expected) fun _ => True := by
  unfold expect
  refine Reads.current.bind fun t ht => ?_
  refine .ite (fun _ => .stop _) fun _ => ?_
  exact Reads.advance.bind fun _ _ => .pure trivial

theorem definition_reads :
    Reads definition fun d => (TopLevel.definition d).Grammatical ∧ Identifier d.name := by
  unfold definition
  refine (expect_reads _ _).bind fun start _ => prototype_reads.bind fun proto hproto => ?_
  refine expression_reads.bind fun body hbody => (spanFrom_reads start).bind fun span _ => ?_
  refine .pure ⟨⟨Or.inl hproto.1, hproto.2, fun d hd => ?_⟩, hproto.1⟩
  cases hd
  exact hbody

theorem external_reads :
    Reads external fun p => (TopLevel.external p).Grammatical ∧ Identifier p.name := by
  unfold external
  refine (expect_reads _ _).bind fun _ _ => prototype_reads.mono fun p hp => ?_
  exact ⟨⟨Or.inl hp.1, hp.2, fun d hd => by cases hd⟩, hp.1⟩

theorem nextAnonymous_reads : Reads nextAnonymous fun _ => True := fun _ hp => ⟨hp, trivial⟩

theorem bareExpression_reads :
    Reads bareExpression fun d =>
      (TopLevel.definition d).Grammatical ∧ ∃ k, d.name = anonymousName k := by
  unfold bareExpression
  refine Reads.current.bind fun start _ => expression_reads.bind fun body hbody => ?_
  refine nextAnonymous_reads.bind fun k _ => (spanFrom_reads start).bind fun span _ => ?_
  refine .pure ⟨⟨Or.inr ⟨k, _, rfl, rfl, rfl⟩, by simp [TopLevel.prototype], fun d hd => ?_⟩,
    k, rfl⟩
  cases hd
  exact hbody

theorem unit_reads (t : Token) : Reads (unit t) TopLevel.Grammatical := by
  have hmap {α : Type} {x : ParserM α} {Q : α → Prop} (hx : Reads x Q) (f : α → TopLevel)
      (hf : ∀ a, Q a → (f a).Grammatical) : Reads (f <$> x) TopLevel.Grammatical := by
    rw [map_eq_pure_bind]
    exact hx.bind fun a ha => .pure (hf a ha)
  unfold unit
  split
  · exact hmap definition_reads _ fun d hd => hd.1
  · exact hmap external_reads _ fun p hp => hp.1
  · exact hmap bareExpression_reads _ fun d hd => hd.1

theorem unitsAt_reads {Q : TopLevel → Prop} (hQ : ∀ t, Reads (unit t) Q) (n : Nat) :
    Reads (unitsAt n) fun us => ∀ u ∈ us, Q u := by
  induction n with
  | zero => exact .stop _
  | succ n ih =>
    unfold unitsAt
    refine Reads.current.bind fun t ht => ?_
    refine .ite (fun _ => .pure (by simp)) fun _ => ?_
    refine .ite (fun _ => Reads.advance.bind fun _ _ => ih) fun _ => ?_
    refine (hQ t).bind fun u hu => ih.bind fun us hus => .pure ?_
    intro w hw
    rcases List.mem_cons.1 hw with rfl | hw
    · exact hu
    · exact hus w hw

end Parser

/-- A unit that the parser reads somewhere in a source. -/
def TopLevel.Parsed (u : TopLevel) : Prop :=
  ∃ (t : Token) (p q : Parser), p.Lexed ∧ Parser.unit t p = .ok u q

theorem TopLevel.Parsed.grammatical {u : TopLevel} (h : u.Parsed) : u.Grammatical := by
  obtain ⟨t, p, q, hp, hu⟩ := h
  have hread := Parser.unit_reads t p hp
  rw [hu] at hread
  exact hread.2

namespace Parser

def unitsOf (s file : String) : List TopLevel := (parseAll s file).toOption.getD []

theorem parsed_of_parseAll {s file : String} {us : List TopLevel} (h : parseAll s file = .ok us) :
    ∀ u ∈ us, u.Parsed := by
  have hunit (t : Token) : Reads (unit t) TopLevel.Parsed := by
    intro p hp
    have hread := unit_reads t p hp
    cases hu : unit t p with
    | ok u q =>
      rw [hu] at hread
      exact ⟨hread.1, t, p, q, hp, hu⟩
    | error stop q =>
      rw [hu] at hread
      exact hread
  have hreads : Reads units fun us => ∀ u ∈ us, u.Parsed := .state fun p => unitsAt_reads hunit _
  have hrun := hreads (.ofString s file) (by rintro t ⟨⟩)
  unfold parseAll at h
  cases hu : units (.ofString s file) with
  | ok vs q =>
    rw [hu] at h hrun
    cases h
    exact hrun.2
  | error stop q =>
    rw [hu] at h
    cases h

theorem parsed_of_mem_unitsOf {s file : String} : ∀ u ∈ unitsOf s file, u.Parsed := by
  intro u hu
  unfold unitsOf at hu
  cases h : parseAll s file with
  | ok us =>
    rw [h] at hu
    exact parsed_of_parseAll h u hu
  | error stop =>
    rw [h] at hu
    cases hu

end Parser

end ExprCompiler
