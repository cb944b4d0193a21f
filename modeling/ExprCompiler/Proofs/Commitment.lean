import ExprCompiler.Proofs.Derivations

/-!
# Commitment

Where the grammar leaves a choice the readers commit themselves: an operator
always goes on with the expression, and a parenthesis behind a name always
calls it. No program is lost by that. No unit begins with an operator, and a
unit that begins with a parenthesis is an expression in parentheses, whose
tokens are those of an argument as well.

Derivations are followed along the tokens, with the parentheses that are open
at each of them, up to the end of the input: whether a reader may commit
itself depends on what comes behind the expression.
-/

namespace ExprCompiler

namespace Layered

open ExprCompiler.Grammar (Chain Signature)
open ExprCompiler.Parser (literal tokenNumber numberAfter)

inductive Bracket
  | group
  | call

/-- What is to come next, inside of some parentheses. The innermost one comes first. -/
inductive Place
  | unit
  | operand (within : List Bracket)
  | arguments (within : List Bracket)
  | behind (within : List Bracket)

/-- These tokens go on from a place to the end of the input. -/
inductive Continues : Place → List Token → Prop
  | last {t : Token} (ht : t.kind = .endOfInput) : Continues .unit [t]
  | semicolon {t : Token} {ts : List Token} (ht : t.isChar ";" = true)
    (rest : Continues .unit ts) : Continues .unit (t :: ts)
  | definition {t : Token} {ts us : List Token} {p : Prototype} (ht : t.kind = .defKeyword)
    (hp : Signature ts p us) (rest : Continues (.operand []) us) : Continues .unit (t :: ts)
  | external {t : Token} {ts us : List Token} {p : Prototype} (ht : t.kind = .externKeyword)
    (hp : Signature ts p us) (rest : Continues .unit us) : Continues .unit (t :: ts)
  | expression {ts : List Token} (rest : Continues (.operand []) ts) : Continues .unit ts
  | number {bs : List Bracket} {t : Token} {ts : List Token} {v : Int} (ht : t.kind = .number)
    (hv : literal (tokenNumber t) = .ok v) (rest : Continues (.behind bs) ts) :
    Continues (.operand bs) (t :: ts)
  | var {bs : List Bracket} {t : Token} {ts : List Token} (ht : t.kind = .identifier)
    (rest : Continues (.behind bs) ts) : Continues (.operand bs) (t :: ts)
  | call {bs : List Bracket} {t paren : Token} {ts : List Token} (ht : t.kind = .identifier)
    (hparen : paren.isChar "(" = true) (rest : Continues (.arguments bs) ts) :
    Continues (.operand bs) (t :: paren :: ts)
  | parenthesized {bs : List Bracket} {paren : Token} {ts : List Token}
    (hparen : paren.isChar "(" = true) (rest : Continues (.operand (.group :: bs)) ts) :
    Continues (.operand bs) (paren :: ts)
  | none {bs : List Bracket} {close : Token} {ts : List Token} (hclose : close.isChar ")" = true)
    (rest : Continues (.behind bs) ts) : Continues (.arguments bs) (close :: ts)
  | some {bs : List Bracket} {ts : List Token} (rest : Continues (.operand (.call :: bs)) ts) :
    Continues (.arguments bs) ts
  | operator {bs : List Bracket} {ops : List String} {t : Token} {ts : List Token}
    (hops : ops ∈ layers) (ht : t.isOneOf ops = true) (rest : Continues (.operand bs) ts) :
    Continues (.behind bs) (t :: ts)
  | close {b : Bracket} {bs : List Bracket} {close : Token} {ts : List Token}
    (hclose : close.isChar ")" = true) (rest : Continues (.behind bs) ts) :
    Continues (.behind (b :: bs)) (close :: ts)
  | comma {bs : List Bracket} {comma : Token} {ts : List Token} (hcomma : comma.isChar "," = true)
    (rest : Continues (.operand (.call :: bs)) ts) : Continues (.behind (.call :: bs)) (comma :: ts)
  | finished {ts : List Token} (rest : Continues .unit ts) : Continues (.behind []) ts

/-! ### Derivations along the tokens -/

section

variable {greedy : Bool} {number : Nat} {gs : List (List String)} {ts us : List Token} {e : Expr}
  {vs : List TopLevel}

theorem Continues.chain (h : Chain greedy gs ts e us) (hgs : ∀ ops ∈ gs, ops ∈ layers) :
    ∀ bs, Continues (.behind bs) us → Continues (.operand bs) ts := by
  revert hgs
  refine @Chain.rec greedy
    (fun ts _ us _ => ∀ bs, Continues (.behind bs) us → Continues (.operand bs) ts)
    (fun gs ts _ us _ => (∀ ops ∈ gs, ops ∈ layers) →
      ∀ bs, Continues (.behind bs) us → Continues (.operand bs) ts)
    (fun ops tighter _ ts _ us _ => (∀ o ∈ ops :: tighter, o ∈ layers) →
      ∀ bs, Continues (.behind bs) us → Continues (.behind bs) ts)
    (fun ts _ us _ => ∀ bs, Continues (.behind bs) us → Continues (.arguments bs) ts)
    (fun ts _ us _ => ∀ bs, Continues (.behind bs) us → Continues (.operand (.call :: bs)) ts)
    ?number ?var ?call ?parenthesized ?operand ?layer ?stop ?link ?none ?some ?last ?more
    gs ts e us h
  case number =>
    intro t ts n s ht hn hrange bs hrest
    exact .number ht (literal_eq_ok.2 ⟨n, hn, hrange, rfl⟩) hrest
  case var =>
    intro t ts s ht _ bs hrest
    exact .var ht hrest
  case call =>
    intro t paren ts us args s ht hparen _ ih bs hrest
    exact .call ht hparen (ih bs hrest)
  case parenthesized =>
    intro paren close ts us e hparen _ hclose ih bs hrest
    exact .parenthesized hparen (ih (fun _ h => h) (.group :: bs) (.close hclose hrest))
  case operand =>
    intro ts us e _ ih _ bs hrest
    exact ih bs hrest
  case layer =>
    intro ops tighter ts us vs lhs e _ _ ihlhs ih hgs bs hrest
    exact ihlhs (fun o ho => hgs o (List.mem_cons_of_mem _ ho)) bs (ih hgs bs hrest)
  case stop =>
    intro ops tighter lhs ts _ _ bs hrest
    exact hrest
  case link =>
    intro ops tighter t ts us vs lhs rhs e s ht _ _ ihrhs ih hgs bs hrest
    have hright := ihrhs (fun o ho => hgs o (List.mem_cons_of_mem _ ho)) bs (ih hgs bs hrest)
    exact .operator (hgs ops List.mem_cons_self) ht hright
  case none =>
    intro close ts hclose bs hrest
    exact .none hclose hrest
  case some =>
    intro ts us es _ ih bs hrest
    exact .some (ih bs hrest)
  case last =>
    intro close ts us e _ hclose ih bs hrest
    exact ih (fun _ h => h) (.call :: bs) (.close hclose hrest)
  case more =>
    intro comma ts us vs e es _ hcomma _ ih ihrest bs hrest
    exact ih (fun _ h => h) (.call :: bs) (.comma hcomma (ihrest bs hrest))

theorem Continues.program (h : Grammar.Program greedy number ts vs) : Continues .unit ts := by
  induction h with
  | last ht => exact .last ht
  | semicolon ht _ ih => exact .semicolon ht ih
  | definition ht hp he _ ih => exact .definition ht hp (.chain he (fun _ h => h) [] (.finished ih))
  | external ht hp _ ih => exact .external ht hp ih
  | expression he _ ih => exact .expression (.chain he (fun _ h => h) [] (.finished ih))

end

/-! ### What commits a reader -/

section

variable {bs : List Bracket} {t : Token} {ts : List Token}

theorem not_isChar_of_operator {ops : List String} {c : String} (hops : ops ∈ layers)
    (h : t.isOneOf ops = true) (hc : c ∈ ["(", ")", ",", ";"]) : t.isChar c = false := by
  have hnone : ∀ ops ∈ layers, ∀ c ∈ ["(", ")", ",", ";"], c ∉ ops := by decide
  have hmem : t.lexeme ∈ ops := by
    simp only [Token.isOneOf, Bool.and_eq_true, List.contains_iff_mem] at h
    exact h.2
  have hne : t.lexeme ≠ c := fun heq => hnone ops hops c hc (heq ▸ hmem)
  simp [Token.isChar, hne]

theorem Continues.group_of_unit (h : Continues .unit (t :: ts)) (hkind : t.kind = .char)
    (hsemicolon : t.isChar ";" = false) :
    t.isChar "(" = true ∧ Continues (.operand [.group]) ts := by
  cases h with
  | last ht => simp [hkind] at ht
  | semicolon ht _ => simp [hsemicolon] at ht
  | definition ht _ _ => simp [hkind] at ht
  | external ht _ _ => simp [hkind] at ht
  | expression rest =>
    cases rest with
    | number ht _ _ => simp [hkind] at ht
    | var ht _ => simp [hkind] at ht
    | call ht _ _ => simp [hkind] at ht
    | parenthesized hparen rest => exact ⟨hparen, rest⟩

theorem Continues.operand_of_operator {ops : List String} (h : Continues (.behind bs) (t :: ts))
    (hops : ops ∈ layers) (ht : t.isOneOf ops = true) : Continues (.operand bs) ts := by
  cases h with
  | operator _ _ rest => exact rest
  | close hclose _ => simp [not_isChar_of_operator hops ht] at hclose
  | comma hcomma _ => simp [not_isChar_of_operator hops ht] at hcomma
  | finished rest =>
    have hsemicolon : t.isChar ";" = false := not_isChar_of_operator hops ht (by decide)
    obtain ⟨hparen, -⟩ := rest.group_of_unit (Token.kind_of_isOneOf ht) hsemicolon
    simp [not_isChar_of_operator hops ht] at hparen

theorem Continues.group_of_behind (h : Continues (.behind bs) (t :: ts))
    (ht : t.isChar "(" = true) : bs = [] ∧ Continues (.operand [.group]) ts := by
  cases h with
  | operator hops hop _ => simp [not_isChar_of_operator hops hop] at ht
  | close hclose _ => simp [Token.not_isChar_of_ne ht] at hclose
  | comma hcomma _ => simp [Token.not_isChar_of_ne ht] at hcomma
  | finished rest =>
    have hsemicolon : t.isChar ";" = false := Token.not_isChar_of_ne ht (by decide)
    exact ⟨rfl, (rest.group_of_unit (Token.kind_of_isChar ht) hsemicolon).2⟩

abbrev Wider : List Bracket → List Bracket → Prop := List.Forall₂ fun b c => b = .call → c = .call

inductive Place.Wider : Place → Place → Prop
  | unit : Place.Wider .unit .unit
  | operand {bs cs : List Bracket} (h : Layered.Wider bs cs) :
    Place.Wider (.operand bs) (.operand cs)
  | arguments {bs cs : List Bracket} (h : Layered.Wider bs cs) :
    Place.Wider (.arguments bs) (.arguments cs)
  | behind {bs cs : List Bracket} (h : Layered.Wider bs cs) : Place.Wider (.behind bs) (.behind cs)

theorem Continues.wider {place wide : Place} (h : Continues place ts) (hwide : place.Wider wide) :
    Continues wide ts := by
  induction h generalizing wide with
  | last ht =>
    cases hwide
    exact .last ht
  | semicolon ht _ ih =>
    cases hwide
    exact .semicolon ht (ih .unit)
  | definition ht hp _ ih =>
    cases hwide
    exact .definition ht hp (ih (.operand .nil))
  | external ht hp _ ih =>
    cases hwide
    exact .external ht hp (ih .unit)
  | expression _ ih =>
    cases hwide
    exact .expression (ih (.operand .nil))
  | number ht hv _ ih =>
    cases hwide with
    | operand hbs => exact .number ht hv (ih (.behind hbs))
  | var ht _ ih =>
    cases hwide with
    | operand hbs => exact .var ht (ih (.behind hbs))
  | call ht hparen _ ih =>
    cases hwide with
    | operand hbs => exact .call ht hparen (ih (.arguments hbs))
  | parenthesized hparen _ ih =>
    cases hwide with
    | operand hbs => exact .parenthesized hparen (ih (.operand (.cons id hbs)))
  | none hclose _ ih =>
    cases hwide with
    | arguments hbs => exact .none hclose (ih (.behind hbs))
  | some _ ih =>
    cases hwide with
    | arguments hbs => exact .some (ih (.operand (.cons id hbs)))
  | operator hops ht _ ih =>
    cases hwide with
    | behind hbs => exact .operator hops ht (ih (.operand hbs))
  | close hclose _ ih =>
    cases hwide with
    | behind hbs =>
      cases hbs with
      | cons _ hbs => exact .close hclose (ih (.behind hbs))
  | comma hcomma _ ih =>
    cases hwide with
    | behind hbs =>
      cases hbs with
      | cons hb hbs =>
        obtain rfl := hb rfl
        exact .comma hcomma (ih (.operand (.cons id hbs)))
  | finished _ ih =>
    cases hwide with
    | behind hbs =>
      cases hbs
      exact .finished (ih .unit)

theorem Continues.arguments_of_name {paren : Token}
    (h : Continues (.operand bs) (t :: paren :: ts)) (ht : t.kind = .identifier)
    (hparen : paren.isChar "(" = true) : Continues (.arguments bs) ts := by
  cases h with
  | number hnumber _ _ => simp [ht] at hnumber
  | var _ rest =>
    obtain ⟨rfl, hgroup⟩ := rest.group_of_behind hparen
    exact .some (hgroup.wider (.operand (.cons (fun _ => rfl) .nil)))
  | call _ _ rest => exact rest
  | parenthesized hopen _ => simp [ht, Token.isChar] at hopen

end

/-! ### Nothing is refused -/

structure Accepted (n : Nat) : Prop where
  chain {gs : List (List String)} {bs : List Bracket} {ts : List Token} (hn : ts.length < n)
    (hgs : ∀ ops ∈ gs, ops ∈ layers) (h : Continues (.operand bs) ts) :
    ∃ e us, chain gs ts = .ok e us ∧ Continues (.behind bs) us
  links {ops : List String} {tighter : List (List String)} {bs : List Bracket} {ts : List Token}
    (lhs : Expr) (hn : ts.length < n) (hgs : ∀ o ∈ ops :: tighter, o ∈ layers)
    (h : Continues (.behind bs) ts) :
    ∃ e us, links ops tighter lhs ts = .ok e us ∧ Continues (.behind bs) us
  list {bs : List Bracket} {ts : List Token} (hn : ts.length < n)
    (h : Continues (.operand (.call :: bs)) ts) :
    ∃ a us, list ts = .ok a us ∧ Continues (.behind bs) us

theorem Continues.of_loose {b : Bracket} {bs : List Bracket} {ts : List Token}
    (h : Continues (.behind (b :: bs)) ts) (hloose : Loose layers ts) :
    ∃ t us, ts = t :: us ∧ (t.isChar ")" = true ∧ Continues (.behind bs) us ∨
      t.isChar "," = true ∧ b = .call ∧ Continues (.operand (.call :: bs)) us) := by
  cases h with
  | operator hops ht _ =>
    have hnot := hloose _ hops
    rw [look_cons, ht] at hnot
    cases hnot
  | close hclose rest => exact ⟨_, _, rfl, .inl ⟨hclose, rest⟩⟩
  | comma hcomma rest => exact ⟨_, _, rfl, .inr ⟨hcomma, rfl, rest⟩⟩

theorem Continues.unit_of_loose {ts : List Token} (h : Continues (.behind []) ts)
    (hloose : Loose layers ts) : Continues .unit ts := by
  cases h with
  | operator hops ht _ =>
    have hnot := hloose _ hops
    rw [look_cons, ht] at hnot
    cases hnot
  | finished rest => exact rest

namespace Accepted

variable {n : Nat} (ih : Accepted n) {bs : List Bracket} {ts : List Token}
include ih

theorem comparison (hn : ts.length < n) (h : Continues (.operand bs) ts) :
    ∃ e us, Layered.comparison ts = .ok e us ∧ Loose layers us ∧ Continues (.behind bs) us := by
  obtain ⟨e, us, hread, hrest⟩ := ih.chain hn (fun _ h => h) h
  exact ⟨e, us, hread, chain_loose hread, hrest⟩

theorem arguments (hn : ts.length < n) (h : Continues (.arguments bs) ts) :
    ∃ a us, Layered.arguments ts = .ok a us ∧ Continues (.behind bs) us := by
  cases h with
  | @none _ close us hclose rest =>
    refine ⟨([], close), us, ?_, rest⟩
    rw [arguments_eq, peek_bind, look_cons, if_pos hclose]
    rfl
  | some rest =>
    obtain ⟨a, us, hread, hrest⟩ := ih.list hn rest
    exact ⟨a, us, arguments_of_list hread, hrest⟩

theorem name_succ {t : Token} (hn : ts.length < n) (ht : t.kind = .identifier)
    (h : Continues (.operand bs) (t :: ts)) :
    ∃ e us, primary (t :: ts) = .ok e us ∧ Continues (.behind bs) us := by
  have hnumber : t.kind ≠ .number := by simp [ht]
  rw [primary_eq, peek_bind, look_cons, if_neg hnumber, if_pos ht, skip_bind, List.tail_cons,
    peek_bind]
  by_cases hparen : (look ts).isChar "(" = true
  · obtain ⟨paren, ts, rfl, hopen⟩ := exists_cons_of_isChar hparen
    rw [List.length_cons] at hn
    obtain ⟨a, us, hread, hrest⟩ := ih.arguments (by omega) (h.arguments_of_name ht hopen)
    rw [if_pos hparen, skip_bind, List.tail_cons, bind_eq_ok hread]
    exact ⟨_, _, rfl, hrest⟩
  · rw [if_neg hparen]
    cases h with
    | number hkind _ _ => exact absurd hkind hnumber
    | var _ rest => exact ⟨_, _, rfl, rest⟩
    | call _ hopen _ => exact absurd hopen hparen
    | parenthesized hopen _ => simp [Token.isChar, ht] at hopen

theorem primary_succ (hn : ts.length < n + 1) (h : Continues (.operand bs) ts) :
    ∃ e us, primary ts = .ok e us ∧ Continues (.behind bs) us := by
  cases h with
  | number ht hv rest =>
    rw [primary_eq, peek_bind, look_cons, if_pos ht, hv]
    exact ⟨_, _, rfl, rest⟩
  | var ht rest => exact ih.name_succ (Nat.lt_of_succ_lt_succ hn) ht (.var ht rest)
  | call ht hparen rest => exact ih.name_succ (Nat.lt_of_succ_lt_succ hn) ht (.call ht hparen rest)
  | @parenthesized _ paren ts hparen rest =>
    have hkind := Token.kind_of_isChar hparen
    obtain ⟨e, us, hread, hloose, hrest⟩ := ih.comparison (Nat.lt_of_succ_lt_succ hn) rest
    obtain ⟨close, us, rfl, ⟨hclose, hrest⟩ | ⟨-, hb, -⟩⟩ := hrest.of_loose hloose
    · rw [primary_eq, peek_bind, look_cons, if_neg (by simp [hkind]), if_neg (by simp [hkind]),
        if_pos hparen, skip_bind, List.tail_cons, bind_eq_ok hread, peek_bind, look_cons,
        if_pos hclose]
      exact ⟨_, _, rfl, hrest⟩
    · cases hb

theorem chain_succ {gs : List (List String)} (hn : ts.length < n + 1)
    (hgs : ∀ ops ∈ gs, ops ∈ layers) (h : Continues (.operand bs) ts) :
    ∃ e us, Layered.chain gs ts = .ok e us ∧ Continues (.behind bs) us := by
  induction gs with
  | nil =>
    rw [chain_nil]
    exact ih.primary_succ hn h
  | cons ops tighter ihgs =>
    obtain ⟨lhs, us, hread, hrest⟩ := ihgs fun o ho => hgs o (List.mem_cons_of_mem _ ho)
    have hlt := chain_length_lt hread
    rw [chain_cons, bind_eq_ok hread]
    exact ih.links lhs (by omega) hgs hrest

theorem links_succ {ops : List String} {tighter : List (List String)} (lhs : Expr)
    (hn : ts.length < n + 1) (hgs : ∀ o ∈ ops :: tighter, o ∈ layers)
    (h : Continues (.behind bs) ts) :
    ∃ e us, Layered.links ops tighter lhs ts = .ok e us ∧ Continues (.behind bs) us := by
  rw [links_eq, peek_bind]
  by_cases hop : (look ts).isOneOf ops = true
  · cases ts with
    | nil => cases Token.kind_of_isOneOf hop
    | cons t ts =>
      rw [List.length_cons] at hn
      have hright := h.operand_of_operator (hgs ops List.mem_cons_self) hop
      obtain ⟨rhs, us, hread, hrest⟩ :=
        ih.chain (by omega) (fun o ho => hgs o (List.mem_cons_of_mem _ ho)) hright
      have hlt := chain_length_lt hread
      rw [if_pos hop, skip_bind, List.tail_cons, bind_eq_ok hread]
      exact ih.links _ (by omega) hgs hrest
  · rw [if_neg hop]
    exact ⟨_, _, rfl, h⟩

theorem list_succ (hn : ts.length < n + 1) (h : Continues (.operand (.call :: bs)) ts) :
    ∃ a us, Layered.list ts = .ok a us ∧ Continues (.behind bs) us := by
  obtain ⟨e, us, hread, hrest⟩ := ih.chain_succ hn (fun _ h => h) h
  have hlt := chain_length_lt hread
  rw [list_eq, Layered.comparison, bind_eq_ok hread, peek_bind]
  obtain ⟨t, us, rfl, ⟨hclose, hrest⟩ | ⟨hcomma, -, hrest⟩⟩ := hrest.of_loose (chain_loose hread)
  · rw [look_cons, if_pos hclose]
    exact ⟨_, _, rfl, hrest⟩
  · have hclose : t.isChar ")" = false := Token.not_isChar_of_ne hcomma (by decide)
    rw [List.length_cons] at hlt
    obtain ⟨a, vs, hlist, hrest⟩ := ih.list (by omega) hrest
    rw [look_cons, if_neg (by simp [hclose]), if_pos hcomma, skip_bind, List.tail_cons,
      bind_eq_ok hlist]
    exact ⟨_, _, rfl, hrest⟩

end Accepted

theorem accepted (n : Nat) : Accepted n := by
  induction n with
  | zero =>
    exact {
      chain := fun hn => absurd hn (Nat.not_lt_zero _)
      links := fun _ hn => absurd hn (Nat.not_lt_zero _)
      list := fun hn => absurd hn (Nat.not_lt_zero _) }
  | succ n ih =>
    exact {
      chain := fun hn hgs h => ih.chain_succ hn hgs h
      links := fun lhs hn hgs h => ih.links_succ lhs hn hgs h
      list := fun hn h => ih.list_succ hn h }

theorem Continues.comparison {ts : List Token} (h : Continues (.operand []) ts) :
    ∃ e us, Layered.comparison ts = .ok e us ∧ Continues .unit us := by
  obtain ⟨e, us, hread, hloose, hrest⟩ := (accepted _).comparison (Nat.lt_succ_self _) h
  exact ⟨e, us, hread, hrest.unit_of_loose hloose⟩

/-- The input is at its end, or a semicolon is next, or a unit that can be read. -/
theorem Continues.unit_cases {ts : List Token} (h : Continues .unit ts) (number : Nat) :
    (∃ t, ts = [t] ∧ t.kind = .endOfInput) ∨
      (∃ t us, ts = t :: us ∧ t.isChar ";" = true ∧ Continues .unit us) ∨
      ∃ t us u vs, ts = t :: us ∧ t.kind ≠ .endOfInput ∧ t.isChar ";" = false ∧
        unit number ts = .ok u vs ∧ Continues .unit vs := by
  cases h with
  | @last t ht => exact .inl ⟨t, rfl, ht⟩
  | @semicolon t us ht rest => exact .inr (.inl ⟨t, us, rfl, ht, rest⟩)
  | @definition t us vs p ht hp rest =>
    obtain ⟨p, hp, -⟩ := prototype_of_signature hp
    obtain ⟨e, ws, he, hrest⟩ := rest.comparison
    exact .inr (.inr ⟨t, us, _, ws, rfl, by simp [ht], by simp [Token.isChar, ht],
      (unit_definition_iff number ht).2 ⟨p, e, vs, hp, he, rfl⟩, hrest⟩)
  | @external t us vs p ht hp rest =>
    obtain ⟨p, hp, -⟩ := prototype_of_signature hp
    exact .inr (.inr ⟨t, us, _, vs, rfl, by simp [ht], by simp [Token.isChar, ht],
      (unit_external_iff number ht).2 ⟨p, hp, rfl⟩, rest⟩)
  | expression rest =>
    obtain ⟨e, vs, he, hrest⟩ := rest.comparison
    obtain ⟨hd, hx, hend, hsemicolon⟩ := not_other_of_comparison he
    have hread := (unit_expression_iff number hd hx).2 ⟨e, he, rfl⟩
    cases ts with
    | nil => exact absurd rfl hend
    | cons t us => exact .inr (.inr ⟨t, us, _, vs, rfl, hend, hsemicolon, hread, hrest⟩)

theorem Continues.exists_program {ts : List Token} (h : Continues .unit ts) (number : Nat) :
    ∃ us, Program number ts us := by
  -- On the number of tokens: what is left behind a unit that is read need not be what is left of it
  -- where the grammar ends it.
  induction hn : ts.length using Nat.strongRecOn generalizing ts number with
  | ind n ih =>
    subst hn
    rcases h.unit_cases number with ⟨t, rfl, ht⟩ | ⟨t, us, rfl, ht, rest⟩ |
      ⟨t, us, u, vs, rfl, hend, hsemicolon, hread, rest⟩
    · exact ⟨[], .last ht⟩
    · obtain ⟨ws, hws⟩ := ih _ (Nat.lt_succ_self _) rest number rfl
      exact ⟨ws, .semicolon ht hws⟩
    · have hlt : vs.length < (t :: us).length := Nat.lt_succ_of_le (unit_passed hread).length_le
      obtain ⟨ws, hws⟩ := ih _ hlt rest (numberAfter number u) rfl
      exact ⟨u :: ws, .unit hend hsemicolon hread hws⟩

/-- Whatever derivation a program has, it is read. -/
theorem exists_program_of_derivation {greedy : Bool} {number : Nat} {ts : List Token}
    {vs : List TopLevel} (h : Grammar.Program greedy number ts vs) :
    ∃ us, Program number ts us :=
  (Continues.program h).exists_program number

end Layered

end ExprCompiler
