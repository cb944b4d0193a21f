import ExprCompiler.Proofs.Programs
import ExprCompiler.Proofs.RoundTrip

/-!
# Derivations

The grammar of programs, as derivations of units from tokens. It does not say
where an expression ends: an operator behind it may be left, for all it says,
to what comes next, and a name in front of a parenthesis may stand for itself.
A derivation is greedy when it never does so. What a parser reads has greedy
derivations, and those have nothing else.
-/

namespace ExprCompiler

namespace Grammar

open ExprCompiler.Layered (layers)
open ExprCompiler.Parser (int32Min int32Max tokenNumber)

mutual

/-- `primary ::= NUMBER | IDENT | IDENT '(' arguments | '(' expression ')'`, in front of other
tokens. -/
inductive Primary (greedy : Bool) : List Token → Expr → List Token → Prop
  | number {t : Token} {ts : List Token} {n : Nat} {s : Option Span} (ht : t.kind = .number)
    (hn : (tokenNumber t).toNat? = some n) (hrange : int32Min ≤ n ∧ n ≤ int32Max) :
    Primary greedy (t :: ts) (.number n s) ts
  | var {t : Token} {ts : List Token} {s : Option Span} (ht : t.kind = .identifier)
    (hgreedy : greedy = true → (look ts).isChar "(" = false) :
    Primary greedy (t :: ts) (.var t.lexeme s) ts
  | call {t paren : Token} {ts us : List Token} {args : List Expr} {s : Option Span}
    (ht : t.kind = .identifier) (hparen : paren.isChar "(" = true)
    (hargs : Arguments greedy ts args us) :
    Primary greedy (t :: paren :: ts) (.call t.lexeme args s) us
  | parenthesized {paren close : Token} {ts us : List Token} {e : Expr}
    (hparen : paren.isChar "(" = true) (he : Chain greedy layers ts e (close :: us))
    (hclose : close.isChar ")" = true) : Primary greedy (paren :: ts) e us

inductive Chain (greedy : Bool) : List (List String) → List Token → Expr → List Token → Prop
  | operand {ts us : List Token} {e : Expr} (h : Primary greedy ts e us) : Chain greedy [] ts e us
  | layer {ops : List String} {tighter : List (List String)} {ts us vs : List Token}
    {lhs e : Expr} (hlhs : Chain greedy tighter ts lhs us)
    (h : Links greedy ops tighter lhs us e vs) : Chain greedy (ops :: tighter) ts e vs

inductive Links (greedy : Bool) : List String → List (List String) → Expr → List Token → Expr →
    List Token → Prop
  | stop {ops : List String} {tighter : List (List String)} {lhs : Expr} {ts : List Token}
    (hgreedy : greedy = true → (look ts).isOneOf ops = false) :
    Links greedy ops tighter lhs ts lhs ts
  | link {ops : List String} {tighter : List (List String)} {t : Token} {ts us vs : List Token}
    {lhs rhs e : Expr} {s : Option Span} (ht : t.isOneOf ops = true)
    (hrhs : Chain greedy tighter ts rhs us)
    (h : Links greedy ops tighter (.binary t.lexeme lhs rhs s) us e vs) :
    Links greedy ops tighter lhs (t :: ts) e vs

inductive Arguments (greedy : Bool) : List Token → List Expr → List Token → Prop
  | none {close : Token} {ts : List Token} (hclose : close.isChar ")" = true) :
    Arguments greedy (close :: ts) [] ts
  | some {ts us : List Token} {es : List Expr} (h : Items greedy ts es us) :
    Arguments greedy ts es us

inductive Items (greedy : Bool) : List Token → List Expr → List Token → Prop
  | last {close : Token} {ts us : List Token} {e : Expr}
    (he : Chain greedy layers ts e (close :: us)) (hclose : close.isChar ")" = true) :
    Items greedy ts [e] us
  | more {comma : Token} {ts us vs : List Token} {e : Expr} {es : List Expr}
    (he : Chain greedy layers ts e (comma :: us)) (hcomma : comma.isChar "," = true)
    (h : Items greedy us es vs) : Items greedy ts (e :: es) vs

end

abbrev Expression (greedy : Bool) : List Token → Expr → List Token → Prop := Chain greedy layers

inductive Signature : List Token → Prototype → List Token → Prop
  | intro {name paren close : Token} {params ts : List Token} {s : Option Span}
    (hname : name.kind = .identifier) (hparen : paren.isChar "(" = true)
    (hparams : ∀ t ∈ params, t.kind = .identifier) (hclose : close.isChar ")" = true) :
    Signature (name :: paren :: (params ++ close :: ts))
      ⟨name.lexeme, params.map Token.lexeme, s⟩ ts

/-- `program ::= ('def' prototype expression | 'extern' prototype | expression | ';')* EOF`. So many
bare expressions have come before. -/
inductive Program (greedy : Bool) : Nat → List Token → List TopLevel → Prop
  | last {number : Nat} {t : Token} (ht : t.kind = .endOfInput) : Program greedy number [t] []
  | semicolon {number : Nat} {t : Token} {ts : List Token} {us : List TopLevel}
    (ht : t.isChar ";" = true) (rest : Program greedy number ts us) :
    Program greedy number (t :: ts) us
  | definition {number : Nat} {t : Token} {ts vs ws : List Token} {p : Prototype} {e : Expr}
    {s : Option Span} {us : List TopLevel} (ht : t.kind = .defKeyword) (hp : Signature ts p vs)
    (he : Expression greedy vs e ws) (rest : Program greedy number ws us) :
    Program greedy number (t :: ts) (.definition ⟨p, e, s⟩ :: us)
  | external {number : Nat} {t : Token} {ts vs : List Token} {p : Prototype} {us : List TopLevel}
    (ht : t.kind = .externKeyword) (hp : Signature ts p vs) (rest : Program greedy number vs us) :
    Program greedy number (t :: ts) (.external p :: us)
  | expression {number : Nat} {ts vs : List Token} {e : Expr} {s r : Option Span}
    {us : List TopLevel} (he : Expression greedy ts e vs)
    (rest : Program greedy (number + 1) vs us) :
    Program greedy number ts (.definition ⟨⟨anonymousName number, [], s⟩, e, r⟩ :: us)

end Grammar

namespace Layered

open ExprCompiler.Grammar (Arguments Chain Items Links Primary Signature)
open ExprCompiler.Parser (int32Min int32Max literal numberAfter tokenNumber joinSpans)

theorem literal_eq_ok {x : Binary64} {v : Int} :
    literal x = .ok v ↔ ∃ n : Nat, x.toNat? = some n ∧ (int32Min ≤ n ∧ n ≤ int32Max) ∧ v = n := by
  have hmin (n : Nat) : int32Min ≤ n := by
    unfold int32Min
    omega
  unfold literal
  cases x with
  | infinite => simp [Binary64.toNat?]
  | finite units =>
    cases hn : Binary64.toNat? (.finite units) with
    | none => simp
    | some n =>
      by_cases hle : (n : Int) ≤ int32Max
      · simp [hle, hmin, eq_comm]
      · simp [hle]

theorem exists_cons_of_isChar {ts : List Token} {c : String} (h : (look ts).isChar c = true) :
    ∃ t us, ts = t :: us ∧ t.isChar c = true := by
  cases ts with
  | nil =>
    have hkind := Token.kind_of_isChar h
    cases hkind
  | cons t us => exact ⟨t, us, rfl, h⟩

/-! ### What is read, production by production -/

/-- Relations of tokens, what is read off them and the tokens that are left, which hold along each
production: of a chain of a layer, of what the operators of a layer link to an operand, of
arguments, and of a list of them, each with the parenthesis that closes it. -/
structure Productionwise (C : List (List String) → List Token → Expr → List Token → Prop)
    (L : List String → List (List String) → Expr → List Token → Expr → List Token → Prop)
    (A I : List Token → List Expr × Token → List Token → Prop) : Prop where
  number {t : Token} {ts : List Token} {v : Int} (ht : t.kind = .number)
    (hv : literal (tokenNumber t) = .ok v) :
    C [] (t :: ts) (.number v (some ⟨t.location, t.location⟩)) ts
  var {t : Token} {ts : List Token} (ht : t.kind = .identifier)
    (hnot : (look ts).isChar "(" = false) :
    C [] (t :: ts) (.var t.lexeme (some ⟨t.location, t.location⟩)) ts
  call {t paren : Token} {ts us : List Token} {a : List Expr × Token} (ht : t.kind = .identifier)
    (hparen : paren.isChar "(" = true) (hargs : A ts a us) :
    C [] (t :: paren :: ts) (.call t.lexeme a.1 (some ⟨t.location, a.2.location⟩)) us
  parenthesized {paren close : Token} {ts us : List Token} {e : Expr}
    (hparen : paren.isChar "(" = true) (he : C layers ts e (close :: us))
    (hclose : close.isChar ")" = true) : C [] (paren :: ts) e us
  layer {ops : List String} {tighter : List (List String)} {ts us vs : List Token} {lhs e : Expr}
    (hlhs : C tighter ts lhs us) (h : L ops tighter lhs us e vs) : C (ops :: tighter) ts e vs
  stop {ops : List String} {tighter : List (List String)} {lhs : Expr} {ts : List Token}
    (hnot : (look ts).isOneOf ops = false) : L ops tighter lhs ts lhs ts
  link {ops : List String} {tighter : List (List String)} {t : Token} {ts us vs : List Token}
    {lhs rhs e : Expr} (ht : t.isOneOf ops = true) (hrhs : C tighter ts rhs us)
    (h : L ops tighter (.binary t.lexeme lhs rhs (joinSpans lhs rhs)) us e vs) :
    L ops tighter lhs (t :: ts) e vs
  none {close : Token} {ts : List Token} (hclose : close.isChar ")" = true) :
    A (close :: ts) ([], close) ts
  some {ts us : List Token} {a : List Expr × Token} (h : I ts a us) : A ts a us
  last {close : Token} {ts us : List Token} {e : Expr} (he : C layers ts e (close :: us))
    (hclose : close.isChar ")" = true) : I ts ([e], close) us
  more {comma : Token} {ts us vs : List Token} {e : Expr} {a : List Expr × Token}
    (he : C layers ts e (comma :: us)) (hcomma : comma.isChar "," = true) (h : I us a vs) :
    I ts (e :: a.1, a.2) vs

section

variable {C : List (List String) → List Token → Expr → List Token → Prop}
  {L : List String → List (List String) → Expr → List Token → Expr → List Token → Prop}
  {A I : List Token → List Expr × Token → List Token → Prop}

structure Holds (C : List (List String) → List Token → Expr → List Token → Prop)
    (L : List String → List (List String) → Expr → List Token → Expr → List Token → Prop)
    (I : List Token → List Expr × Token → List Token → Prop) (n : Nat) : Prop where
  chain {gs : List (List String)} {ts us : List Token} {e : Expr} (hn : ts.length < n)
    (h : chain gs ts = .ok e us) : C gs ts e us
  links {ops : List String} {tighter : List (List String)} {lhs e : Expr} {ts us : List Token}
    (hn : ts.length < n) (h : links ops tighter lhs ts = .ok e us) : L ops tighter lhs ts e us
  list {ts us : List Token} {a : List Expr × Token} (hn : ts.length < n)
    (h : list ts = .ok a us) : I ts a us

namespace Productionwise

variable {n : Nat} (hp : Productionwise C L A I) (ih : Holds C L I n) {ts us : List Token} {e : Expr}
include hp ih

theorem arguments {a : List Expr × Token} (hn : ts.length < n)
    (h : Layered.arguments ts = .ok a us) : A ts a us := by
  rw [arguments_eq, peek_bind] at h
  by_cases hclose : (look ts).isChar ")" = true
  · rw [if_pos hclose, skip_bind] at h
    cases h
    obtain ⟨close, ts, rfl, hclose⟩ := exists_cons_of_isChar hclose
    exact hp.none hclose
  · rw [if_neg hclose] at h
    exact hp.some (ih.list hn h)

theorem primary_succ (hn : ts.length < n + 1) (h : Layered.primary ts = .ok e us) :
    C [] ts e us := by
  cases ts with
  | nil => exact absurd (primary_length_lt h) (Nat.not_lt_zero _)
  | cons t ts =>
    rw [List.length_cons] at hn
    rw [primary_eq, peek_bind, look_cons] at h
    by_cases hnumber : t.kind = .number
    · rw [if_pos hnumber] at h
      cases hv : literal (tokenNumber t) with
      | error reason =>
        rw [hv] at h
        cases h
      | ok v =>
        rw [hv] at h
        cases h
        exact hp.number hnumber hv
    rw [if_neg hnumber] at h
    by_cases hname : t.kind = .identifier
    · rw [if_pos hname, skip_bind, List.tail_cons, peek_bind] at h
      by_cases hparen : (look ts).isChar "(" = true
      · rw [if_pos hparen, skip_bind] at h
        obtain ⟨paren, ts, rfl, hparen⟩ := exists_cons_of_isChar hparen
        rw [List.length_cons] at hn
        obtain ⟨a, vs, hargs, hpure⟩ := exists_of_bind_eq_ok h
        cases hpure
        exact hp.call hname hparen (hp.arguments ih (by omega) hargs)
      · rw [if_neg hparen] at h
        cases h
        exact hp.var hname (by simpa using hparen)
    rw [if_neg hname] at h
    by_cases hparen : t.isChar "(" = true
    · rw [if_pos hparen, skip_bind, List.tail_cons] at h
      obtain ⟨inner, vs, hinner, h⟩ := exists_of_bind_eq_ok h
      rw [peek_bind] at h
      by_cases hclose : (look vs).isChar ")" = true
      · rw [if_pos hclose, skip_bind] at h
        cases h
        obtain ⟨close, vs, rfl, hclose⟩ := exists_cons_of_isChar hclose
        exact hp.parenthesized hparen (ih.chain (by omega) hinner) hclose
      · rw [if_neg hclose] at h
        cases h
    · rw [if_neg hparen] at h
      cases h

theorem chain_succ {gs : List (List String)} (hn : ts.length < n + 1)
    (h : Layered.chain gs ts = .ok e us) : C gs ts e us := by
  induction gs generalizing us e with
  | nil =>
    rw [chain_nil] at h
    exact hp.primary_succ ih hn h
  | cons ops tighter ihgs =>
    rw [chain_cons] at h
    obtain ⟨lhs, vs, hlhs, h⟩ := exists_of_bind_eq_ok h
    have hlt := chain_length_lt hlhs
    exact hp.layer (ihgs hlhs) (ih.links (by omega) h)

theorem links_succ {ops : List String} {tighter : List (List String)} {lhs : Expr}
    (hn : ts.length < n + 1) (h : Layered.links ops tighter lhs ts = .ok e us) :
    L ops tighter lhs ts e us := by
  rw [links_eq, peek_bind] at h
  by_cases hop : (look ts).isOneOf ops = true
  · rw [if_pos hop, skip_bind] at h
    cases ts with
    | nil => cases Token.kind_of_isOneOf hop
    | cons t ts =>
      rw [List.length_cons] at hn
      obtain ⟨rhs, vs, hrhs, h⟩ := exists_of_bind_eq_ok h
      have hlt : vs.length < ts.length := chain_length_lt hrhs
      exact hp.link hop (ih.chain (by omega) hrhs) (ih.links (by omega) h)
  · rw [if_neg hop] at h
    cases h
    exact hp.stop (by simpa using hop)

theorem list_succ {a : List Expr × Token} (hn : ts.length < n + 1)
    (h : Layered.list ts = .ok a us) : I ts a us := by
  rw [list_eq] at h
  obtain ⟨e, vs, he, h⟩ := exists_of_bind_eq_ok h
  have hlt := chain_length_lt he
  have hchain := hp.chain_succ ih hn he
  rw [peek_bind] at h
  by_cases hclose : (look vs).isChar ")" = true
  · rw [if_pos hclose, skip_bind] at h
    cases h
    obtain ⟨close, vs, rfl, hclose⟩ := exists_cons_of_isChar hclose
    exact hp.last hchain hclose
  rw [if_neg hclose] at h
  by_cases hcomma : (look vs).isChar "," = true
  · rw [if_pos hcomma, skip_bind] at h
    obtain ⟨comma, vs, rfl, hcomma⟩ := exists_cons_of_isChar hcomma
    rw [List.length_cons] at hlt
    obtain ⟨b, ws, hrest, hpure⟩ := exists_of_bind_eq_ok h
    cases hpure
    exact hp.more hchain hcomma (ih.list (by omega) hrest)
  · rw [if_neg hcomma] at h
    cases h

end Productionwise

/-- What each production keeps holds of all that is read. -/
theorem Productionwise.holds (hp : Productionwise C L A I) (n : Nat) : Holds C L I n := by
  induction n with
  | zero =>
    exact {
      chain := fun hn => absurd hn (Nat.not_lt_zero _)
      links := fun hn => absurd hn (Nat.not_lt_zero _)
      list := fun hn => absurd hn (Nat.not_lt_zero _) }
  | succ n ih =>
    exact {
      chain := fun hn h => hp.chain_succ ih hn h
      links := fun hn h => hp.links_succ ih hn h
      list := fun hn h => hp.list_succ ih hn h }

end

theorem productionwise_grammar (greedy : Bool) :
    Productionwise (Chain greedy) (Links greedy) (fun ts a us => Arguments greedy ts a.1 us)
      fun ts a us => Items greedy ts a.1 us where
  number ht hv := by
    obtain ⟨k, hk, hrange, rfl⟩ := literal_eq_ok.1 hv
    exact .operand (.number ht hk hrange)
  var ht hnot := .operand (.var ht fun _ => hnot)
  call ht hparen hargs := .operand (.call ht hparen hargs)
  parenthesized hparen he hclose := .operand (.parenthesized hparen he hclose)
  layer hlhs h := .layer hlhs h
  stop hnot := .stop fun _ => hnot
  link ht hrhs h := .link ht hrhs h
  none hclose := .none hclose
  some h := .some h
  last he hclose := .last he hclose
  more he hcomma h := .more he hcomma h

structure Derived (greedy : Bool) (n : Nat) : Prop where
  chain {gs : List (List String)} {ts us : List Token} {e : Expr} (hn : ts.length < n)
    (h : chain gs ts = .ok e us) : Chain greedy gs ts e us
  links {ops : List String} {tighter : List (List String)} {lhs e : Expr} {ts us : List Token}
    (hn : ts.length < n) (h : links ops tighter lhs ts = .ok e us) :
    Links greedy ops tighter lhs ts e us
  list {ts us : List Token} {a : List Expr × Token} (hn : ts.length < n)
    (h : list ts = .ok a us) : Items greedy ts a.1 us

theorem derived (greedy : Bool) (n : Nat) : Derived greedy n :=
  have h := (productionwise_grammar greedy).holds n
  ⟨h.chain, h.links, h.list⟩

/-! ### Greedy derivations are what is read -/

structure Followed (n : Nat) : Prop where
  chain {gs : List (List String)} {ts us : List Token} {e : Expr} (hn : ts.length < n)
    (h : Chain true gs ts e us) : ∃ e', chain gs ts = .ok e' us ∧ e'.alike e = true
  links {ops : List String} {tighter : List (List String)} {lhs lhs' e : Expr}
    {ts us : List Token} (hn : ts.length < n) (h : Links true ops tighter lhs ts e us)
    (hlhs : lhs'.alike lhs = true) :
    ∃ e', links ops tighter lhs' ts = .ok e' us ∧ e'.alike e = true
  list {ts us : List Token} {es : List Expr} (hn : ts.length < n) (h : Items true ts es us) :
    ∃ es' close, list ts = .ok (es', close) us ∧ Expr.allAlike es' es = true

namespace Followed

variable {n : Nat} (ih : Followed n) {ts us : List Token} {e : Expr}
include ih

theorem arguments {es : List Expr} (hn : ts.length < n) (h : Arguments true ts es us) :
    ∃ es' close, Layered.arguments ts = .ok (es', close) us ∧ Expr.allAlike es' es = true := by
  cases h with
  | @none close _ hclose =>
    refine ⟨[], close, ?_, rfl⟩
    rw [arguments_eq, peek_bind, look_cons, if_pos hclose]
    rfl
  | some h =>
    obtain ⟨es', close, hread, halike⟩ := ih.list hn h
    exact ⟨es', close, arguments_of_list hread, halike⟩

theorem primary_succ (hn : ts.length < n + 1) (h : Primary true ts e us) :
    ∃ e', Layered.primary ts = .ok e' us ∧ e'.alike e = true := by
  cases h with
  | @number t _ k s ht hk hrange =>
    have hv : literal (tokenNumber t) = .ok k := literal_eq_ok.2 ⟨k, hk, hrange, rfl⟩
    refine ⟨.number k (some ⟨t.location, t.location⟩), ?_, by simp [Expr.alike]⟩
    rw [primary_eq, peek_bind, look_cons, if_pos ht, hv]
    rfl
  | @var t _ s ht hgreedy =>
    refine ⟨.var t.lexeme (some ⟨t.location, t.location⟩), ?_, by simp [Expr.alike]⟩
    rw [primary_eq, peek_bind, look_cons, if_neg (by simp [ht]), if_pos ht, skip_bind,
      List.tail_cons, peek_bind, if_neg (by simp [hgreedy])]
    rfl
  | @call t paren _ _ args s ht hparen hargs =>
    rw [List.length_cons, List.length_cons] at hn
    obtain ⟨args', close, hread, halike⟩ := ih.arguments (by omega) hargs
    refine ⟨.call t.lexeme args' (some ⟨t.location, close.location⟩), ?_,
      by simp [Expr.alike, halike]⟩
    rw [primary_eq, peek_bind, look_cons, if_neg (by simp [ht]), if_pos ht, skip_bind,
      List.tail_cons, peek_bind, look_cons, if_pos hparen, skip_bind, List.tail_cons,
      bind_eq_ok hread]
    rfl
  | @parenthesized paren close _ _ e hparen he hclose =>
    rw [List.length_cons] at hn
    obtain ⟨e', hread, halike⟩ := ih.chain (by omega) he
    have hkind := Token.kind_of_isChar hparen
    refine ⟨e', ?_, halike⟩
    rw [primary_eq, peek_bind, look_cons, if_neg (by simp [hkind]), if_neg (by simp [hkind]),
      if_pos hparen, skip_bind, List.tail_cons, comparison, bind_eq_ok hread, peek_bind, look_cons,
      if_pos hclose]
    rfl

theorem chain_succ {gs : List (List String)} (hn : ts.length < n + 1) (h : Chain true gs ts e us) :
    ∃ e', Layered.chain gs ts = .ok e' us ∧ e'.alike e = true := by
  induction gs generalizing us e with
  | nil =>
    cases h with
    | operand h =>
      rw [chain_nil]
      exact ih.primary_succ hn h
  | cons ops tighter ihgs =>
    cases h with
    | layer hlhs h =>
      obtain ⟨lhs', hread, halike⟩ := ihgs hlhs
      have hlt := chain_length_lt hread
      rw [chain_cons, bind_eq_ok hread]
      exact ih.links (by omega) h halike

theorem links_succ {ops : List String} {tighter : List (List String)} {lhs lhs' : Expr}
    (hn : ts.length < n + 1) (h : Links true ops tighter lhs ts e us)
    (hlhs : lhs'.alike lhs = true) :
    ∃ e', Layered.links ops tighter lhs' ts = .ok e' us ∧ e'.alike e = true := by
  cases h with
  | stop hgreedy =>
    refine ⟨lhs', ?_, hlhs⟩
    rw [links_eq, peek_bind, if_neg (by simp [hgreedy])]
    rfl
  | @link _ _ t _ _ _ _ rhs _ s ht hrhs h =>
    rw [List.length_cons] at hn
    obtain ⟨rhs', hread, halike⟩ := ih.chain (by omega) hrhs
    have hlt := chain_length_lt hread
    have hbinary : (Expr.binary t.lexeme lhs' rhs' (joinSpans lhs' rhs')).alike
        (.binary t.lexeme lhs rhs s) = true := by
      simp [Expr.alike, hlhs, halike]
    rw [links_eq, peek_bind, look_cons, if_pos ht, skip_bind, List.tail_cons, bind_eq_ok hread]
    exact ih.links (by omega) h hbinary

theorem list_succ {es : List Expr} (hn : ts.length < n + 1) (h : Items true ts es us) :
    ∃ es' close, Layered.list ts = .ok (es', close) us ∧ Expr.allAlike es' es = true := by
  cases h with
  | @last close _ _ e he hclose =>
    obtain ⟨e', hread, halike⟩ := ih.chain_succ hn he
    refine ⟨[e'], close, ?_, by simp [Expr.allAlike, halike]⟩
    rw [list_eq, comparison, bind_eq_ok hread, peek_bind, look_cons, if_pos hclose]
    rfl
  | @more comma _ _ _ e es he hcomma h =>
    obtain ⟨e', hread, halike⟩ := ih.chain_succ hn he
    have hlt := chain_length_lt hread
    rw [List.length_cons] at hlt
    obtain ⟨es', close, hrest, hall⟩ := ih.list (by omega) h
    have hnot : comma.isChar ")" = false := Token.not_isChar_of_ne hcomma (by decide)
    refine ⟨e' :: es', close, ?_, by simp [Expr.allAlike, halike, hall]⟩
    rw [list_eq, comparison, bind_eq_ok hread, peek_bind, look_cons, if_neg (by simp [hnot]),
      if_pos hcomma, skip_bind, List.tail_cons, bind_eq_ok hrest]
    rfl

end Followed

theorem followed (n : Nat) : Followed n := by
  induction n with
  | zero =>
    exact {
      chain := fun hn => absurd hn (Nat.not_lt_zero _)
      links := fun hn => absurd hn (Nat.not_lt_zero _)
      list := fun hn => absurd hn (Nat.not_lt_zero _) }
  | succ n ih =>
    exact {
      chain := fun hn h => ih.chain_succ hn h
      links := fun hn h hlhs => ih.links_succ hn h hlhs
      list := fun hn h => ih.list_succ hn h }

/-! ### Units -/

section

variable {number : Nat} {t : Token} {ts us : List Token} {u : TopLevel} {p : Prototype}

theorem unit_definition_iff (number : Nat) (ht : t.kind = .defKeyword) :
    unit number (t :: ts) = .ok u us ↔ ∃ p e vs, prototype ts = .ok p vs ∧
      comparison vs = .ok e us ∧
      u = .definition ⟨p, e, some ⟨t.location, (look us).location⟩⟩ := by
  have hlook : (look (t :: ts)).kind = .defKeyword := ht
  rw [Parser.unit_of_definition hlook]
  constructor
  · intro h
    obtain ⟨d, hd, rfl⟩ := bind_pure_eq_ok h
    rw [definition, expected_bind hlook] at hd
    obtain ⟨p, vs, hp, hd⟩ := exists_of_bind_eq_ok hd
    obtain ⟨e, ws, he, hd⟩ := exists_of_bind_eq_ok hd
    rw [peek_bind] at hd
    cases hd
    exact ⟨p, e, vs, hp, he, rfl⟩
  · rintro ⟨p, e, vs, hp, he, rfl⟩
    have hd : definition (t :: ts) = .ok ⟨p, e, some ⟨t.location, (look us).location⟩⟩ us := by
      rw [definition, expected_bind hlook, look_cons, List.tail_cons, bind_eq_ok hp, bind_eq_ok he]
      rfl
    rw [bind_eq_ok hd]
    rfl

theorem unit_external_iff (number : Nat) (ht : t.kind = .externKeyword) :
    unit number (t :: ts) = .ok u us ↔ ∃ p, prototype ts = .ok p us ∧ u = .external p := by
  have hlook : (look (t :: ts)).kind = .externKeyword := ht
  have hread : external (t :: ts) = prototype ts := by
    rw [external, expected_bind hlook, List.tail_cons]
  rw [Parser.unit_of_external hlook]
  constructor
  · intro h
    obtain ⟨p, hp, rfl⟩ := bind_pure_eq_ok h
    exact ⟨p, hread.symm.trans hp, rfl⟩
  · rintro ⟨p, hp, rfl⟩
    rw [bind_eq_ok (hread.trans hp)]
    rfl

theorem unit_expression_iff (number : Nat) (hd : (look ts).kind ≠ .defKeyword)
    (he : (look ts).kind ≠ .externKeyword) :
    unit number ts = .ok u us ↔ ∃ e, comparison ts = .ok e us ∧
      u = .definition ⟨⟨anonymousName number, [], some ⟨(look ts).location, (look us).location⟩⟩, e,
        some ⟨(look ts).location, (look us).location⟩⟩ := by
  rw [Parser.unit_of_bareExpression hd he]
  constructor
  · intro h
    obtain ⟨d, hread, rfl⟩ := bind_pure_eq_ok h
    rw [bareExpression, peek_bind] at hread
    obtain ⟨e, vs, hc, hread⟩ := exists_of_bind_eq_ok hread
    rw [peek_bind] at hread
    cases hread
    exact ⟨e, hc, rfl⟩
  · rintro ⟨e, hc, rfl⟩
    have hread : bareExpression number ts = .ok ⟨⟨anonymousName number, [],
        some ⟨(look ts).location, (look us).location⟩⟩, e,
        some ⟨(look ts).location, (look us).location⟩⟩ us := by
      rw [bareExpression, peek_bind, bind_eq_ok hc]
      rfl
    rw [bind_eq_ok hread]
    rfl

theorem exists_of_parameters {params : List String} (h : parameters ts = .ok params us) :
    ∃ names, ts = names ++ us ∧ (∀ t ∈ names, t.kind = .identifier) ∧
      names.map Token.lexeme = params := by
  have hread : parameters ts =
      .ok ((ts.takeWhile isName).map Token.lexeme) (ts.dropWhile isName) := rfl
  rw [hread, EStateM.Result.ok.injEq] at h
  obtain ⟨rfl, rfl⟩ := h
  refine ⟨ts.takeWhile isName, List.takeWhile_append_dropWhile.symm, fun t ht => ?_, rfl⟩
  simpa [isName] using List.mem_takeWhile_imp ht

theorem parameters_append {names : List Token} (hnames : ∀ t ∈ names, t.kind = .identifier)
    (ht : isName t = false) :
    parameters (names ++ t :: ts) = .ok (names.map Token.lexeme) (t :: ts) := by
  have hall : ∀ t ∈ names, isName t = true := fun t ht => by simp [isName, hnames t ht]
  have hnot : ¬ isName t = true := by simp [ht]
  rw [parameters, List.takeWhile_append_of_pos hall, List.dropWhile_append_of_pos hall,
    List.takeWhile_cons_of_neg hnot, List.dropWhile_cons_of_neg hnot, List.append_nil]

theorem signature_of_prototype (h : prototype ts = .ok p us) : Signature ts p us := by
  rw [prototype, peek_bind] at h
  by_cases hname : (look ts).kind = .identifier
  swap
  · rw [if_neg hname] at h
    cases h
  rw [if_pos hname, skip_bind, peek_bind] at h
  by_cases hparen : (look ts.tail).isChar "(" = true
  swap
  · rw [if_neg hparen] at h
    cases h
  rw [if_pos hparen, skip_bind] at h
  obtain ⟨params, vs, hparams, h⟩ := exists_of_bind_eq_ok h
  rw [peek_bind] at h
  by_cases hclose : (look vs).isChar ")" = true
  swap
  · rw [if_neg hclose] at h
    cases h
  rw [if_pos hclose, skip_bind, peek_bind] at h
  cases h
  cases ts with
  | nil => cases hname
  | cons name ts =>
    rw [List.tail_cons] at hparen hparams
    obtain ⟨paren, ts, rfl, hparen⟩ := exists_cons_of_isChar hparen
    obtain ⟨close, vs, rfl, hclose⟩ := exists_cons_of_isChar hclose
    obtain ⟨names, rfl, hnames, rfl⟩ := exists_of_parameters hparams
    exact .intro hname hparen hnames hclose

theorem prototype_of_signature (h : Signature ts p us) :
    ∃ p', prototype ts = .ok p' us ∧ p'.alike p = true := by
  cases h with
  | @intro name paren close params _ s hname hparen hparams hclose =>
    have hread : parameters (params ++ close :: us) =
        .ok (params.map Token.lexeme) (close :: us) :=
      parameters_append hparams (by simp [isName, Token.kind_of_isChar hclose])
    refine ⟨⟨name.lexeme, params.map Token.lexeme, some ⟨name.location, (look us).location⟩⟩, ?_,
      by simp [Prototype.alike]⟩
    rw [prototype, peek_bind, look_cons, if_pos hname, skip_bind, List.tail_cons, peek_bind,
      look_cons, if_pos hparen, skip_bind, List.tail_cons, bind_eq_ok hread, peek_bind, look_cons,
      if_pos hclose, skip_bind, List.tail_cons, peek_bind]
    rfl

end

/-! ### Programs -/

section

variable {number : Nat} {ts us : List Token} {p : Prototype} {vs : List TopLevel}

theorem not_anonymous_of_signature (h : Signature ts p us) (hproper : ∀ t ∈ ts, t.Proper) :
    p.isAnonymous = false := by
  cases h with
  | intro hname _ _ _ => exact Identifier.not_anonymous (hproper _ List.mem_cons_self hname)

theorem numberAfter_definition (h : p.isAnonymous = false) (e : Expr) (s : Option Span) :
    numberAfter number (.definition ⟨p, e, s⟩) = number := by
  rw [numberAfter, TopLevel.prototype, h]
  rfl

theorem numberAfter_external (h : p.isAnonymous = false) :
    numberAfter number (.external p) = number := by
  rw [numberAfter, TopLevel.prototype, h]
  rfl

theorem numberAfter_expression (s r : Option Span) (e : Expr) :
    numberAfter number (.definition ⟨⟨anonymousName number, [], s⟩, e, r⟩) = number + 1 := by
  have hname : Prototype.isAnonymous ⟨anonymousName number, [], s⟩ = true := isAnonymous_of_name rfl
  rw [numberAfter, TopLevel.prototype, hname]
  rfl

theorem proper_rest {u : TopLevel} {t : Token} (hread : unit number (t :: ts) = .ok u us)
    (hproper : ∀ w ∈ t :: ts, w.Proper) : ∀ w ∈ us, w.Proper :=
  fun w hw => hproper w (List.mem_cons_of_mem _ ((unit_passed hread).suffix.subset hw))

theorem Program.derivation (greedy : Bool) (h : Program number ts vs)
    (hproper : ∀ t ∈ ts, t.Proper) : Grammar.Program greedy number ts vs := by
  induction h with
  | last ht => exact .last ht
  | semicolon ht _ ih => exact .semicolon ht (ih fun w hw => hproper w (List.mem_cons_of_mem _ hw))
  | @unit number t ts ws u vs hend hsemicolon read rest ih =>
    have hrest := ih (proper_rest read hproper)
    by_cases hd : t.kind = .defKeyword
    · obtain ⟨p, e, xs, hp, he, rfl⟩ := (unit_definition_iff _ hd).1 read
      have hsignature := signature_of_prototype hp
      have hnot := not_anonymous_of_signature hsignature fun w hw =>
        hproper w (List.mem_cons_of_mem _ hw)
      rw [numberAfter_definition hnot] at hrest
      exact .definition hd hsignature ((derived greedy _).chain (Nat.lt_succ_self _) he) hrest
    by_cases hx : t.kind = .externKeyword
    · obtain ⟨p, hp, rfl⟩ := (unit_external_iff _ hx).1 read
      have hsignature := signature_of_prototype hp
      have hnot := not_anonymous_of_signature hsignature fun w hw =>
        hproper w (List.mem_cons_of_mem _ hw)
      rw [numberAfter_external hnot] at hrest
      exact .external hx hsignature hrest
    · have hd' : (look (t :: ts)).kind ≠ .defKeyword := hd
      have hx' : (look (t :: ts)).kind ≠ .externKeyword := hx
      obtain ⟨e, he, rfl⟩ := (unit_expression_iff _ hd' hx').1 read
      rw [numberAfter_expression] at hrest
      exact .expression ((derived greedy _).chain (Nat.lt_succ_self _) he) hrest

theorem not_other_of_comparison {e : Expr} (h : comparison ts = .ok e us) :
    (look ts).kind ≠ .defKeyword ∧ (look ts).kind ≠ .externKeyword ∧
      (look ts).kind ≠ .endOfInput ∧ (look ts).isChar ";" = false := by
  obtain hk | hk | hparen := front_of_comparison h
  · simp [Token.isChar, hk]
  · simp [Token.isChar, hk]
  · have hsemicolon : (look ts).isChar ";" = false := Token.not_isChar_of_ne hparen (by decide)
    simp [Token.kind_of_isChar hparen, hsemicolon]

/-- A program with a greedy derivation is read, and as the derivation has it. -/
theorem exists_program_of_greedy (h : Grammar.Program true number ts vs)
    (hproper : ∀ t ∈ ts, t.Proper) :
    ∃ us, Program number ts us ∧ us.Forall₂ (fun u v => u.alike v = true) vs := by
  induction h with
  | last ht => exact ⟨[], .last ht, .nil⟩
  | semicolon ht _ ih =>
    obtain ⟨us, hus, halike⟩ := ih fun w hw => hproper w (List.mem_cons_of_mem _ hw)
    exact ⟨us, .semicolon ht hus, halike⟩
  | @definition number t ts ws xs p e s vs ht hp he rest ih =>
    obtain ⟨p', hp', hpalike⟩ := prototype_of_signature hp
    obtain ⟨e', he', healike⟩ := (followed _).chain (Nat.lt_succ_self _) he
    have hread := (unit_definition_iff number ht).2 ⟨p', e', ws, hp', he', rfl⟩
    obtain ⟨us, hus, halike⟩ := ih (proper_rest hread hproper)
    have hnot := not_anonymous_of_signature (signature_of_prototype hp') fun w hw =>
      hproper w (List.mem_cons_of_mem _ hw)
    have hrest : Program (numberAfter number (.definition ⟨p', e',
        some ⟨t.location, (look xs).location⟩⟩)) xs us := by
      rwa [numberAfter_definition hnot]
    refine ⟨_, .unit (by simp [ht]) (by simp [Token.isChar, ht]) hread hrest, ?_⟩
    exact .cons (by simp [TopLevel.alike, Definition.alike, hpalike, healike]) halike
  | @external number t ts ws p vs ht hp rest ih =>
    obtain ⟨p', hp', hpalike⟩ := prototype_of_signature hp
    have hread := (unit_external_iff number ht).2 ⟨p', hp', rfl⟩
    obtain ⟨us, hus, halike⟩ := ih (proper_rest hread hproper)
    have hnot := not_anonymous_of_signature (signature_of_prototype hp') fun w hw =>
      hproper w (List.mem_cons_of_mem _ hw)
    have hrest : Program (numberAfter number (.external p')) ws us := by
      rwa [numberAfter_external hnot]
    refine ⟨_, .unit (by simp [ht]) (by simp [Token.isChar, ht]) hread hrest, ?_⟩
    exact .cons (by simp [TopLevel.alike, hpalike]) halike
  | @expression number ts ws e s r vs he rest ih =>
    obtain ⟨e', he', healike⟩ := (followed _).chain (Nat.lt_succ_self _) he
    obtain ⟨hd, hx, hend, hsemicolon⟩ := not_other_of_comparison he'
    have hread := (unit_expression_iff number hd hx).2 ⟨e', he', rfl⟩
    cases ts with
    | nil => exact absurd rfl hend
    | cons t ts =>
      obtain ⟨us, hus, halike⟩ := ih (proper_rest hread hproper)
      rw [← numberAfter_expression] at hus
      refine ⟨_, .unit hend hsemicolon hread hus, ?_⟩
      exact .cons (by simp [TopLevel.alike, Definition.alike, Prototype.alike, healike]) halike

end

end Layered

end ExprCompiler
