import ExprCompiler.Proofs.Derivations
import ExprCompiler.Proofs.Positions

/-!
# The extents of expressions

An expression is read off its tokens, and its span says from where to where.
What lies below an expression has tokens of its own, one part behind the
other. As tokens stand one behind the other, so do the spans of the parts,
inside the span of the whole.
-/

namespace ExprCompiler

open ExprCompiler.Parser (joinSpans literal tokenNumber)

abbrev Rising (ts : List Token) : Prop :=
  ts.Pairwise fun t u => t.location.offset < u.location.offset

inductive CommaSeparated : List (List Token) → List Token → Prop
  | none : CommaSeparated [] []
  | one (ts : List Token) : CommaSeparated [ts] ts
  | more {ts us rest : List Token} {rows : List (List Token)} {comma : Token}
    (hcomma : comma.isChar "," = true) (h : CommaSeparated (us :: rows) rest) :
    CommaSeparated (ts :: us :: rows) (ts ++ comma :: rest)

theorem CommaSeparated.flatten_sublist {rows : List (List Token)} {ts : List Token}
    (h : CommaSeparated rows ts) : rows.flatten.Sublist ts := by
  induction h with
  | none => exact .slnil
  | one ts => simp
  | more _ _ ih =>
    rw [List.flatten_cons]
    exact (List.Sublist.refl _).append (ih.cons _)

theorem CommaSeparated.isInfix {rows : List (List Token)} {ts : List Token}
    (h : CommaSeparated rows ts) : ∀ row ∈ rows, row <:+: ts := by
  induction h with
  | none => exact nofun
  | one ts => exact List.forall_mem_singleton.2 (List.infix_refl ts)
  | @more ts us rest rows comma _ _ ih =>
    have hrest : rest <:+: ts ++ comma :: rest :=
      ((List.suffix_cons comma rest).trans (List.suffix_append ts _)).isInfix
    exact List.forall_mem_cons.2
      ⟨(List.prefix_append ts _).isInfix, fun row hrow => (ih row hrow).trans hrest⟩

namespace Span

def Within (j s : Span) : Prop := s.start.offset ≤ j.start.offset ∧ j.stop.offset ≤ s.stop.offset

def Before (j k : Span) : Prop := j.stop.offset < k.start.offset

end Span

namespace Expr

/-- An expression over all its tokens. A literal and a variable have the span of their one token, a
call that from its name to its parenthesis, an operation that from its left operand to its right
one. Parentheses around an expression are no part of its span. -/
inductive Over : Expr → List Token → Prop
  | number {t : Token} {v : Int} (ht : t.kind = .number) (hv : literal (tokenNumber t) = .ok v) :
    Over (.number v (some ⟨t.location, t.location⟩)) [t]
  | var {t : Token} (ht : t.kind = .identifier) :
    Over (.var t.lexeme (some ⟨t.location, t.location⟩)) [t]
  | binary {l r : Expr} {ls rs : List Token} {op : Token} {j k : Span} (hl : Over l ls)
    (hop : op.kind = .char) (hr : Over r rs) (hj : l.span = some j) (hk : r.span = some k) :
    Over (.binary op.lexeme l r (some ⟨j.start, k.stop⟩)) (ls ++ op :: rs)
  | call {name paren close : Token} {items : List (Expr × List Token)} {ts : List Token}
    (hname : name.kind = .identifier) (hparen : paren.isChar "(" = true)
    (hitems : ∀ i ∈ items, Over i.1 i.2) (hts : CommaSeparated (items.map Prod.snd) ts)
    (hclose : close.isChar ")" = true) :
    Over (.call name.lexeme (items.map Prod.fst) (some ⟨name.location, close.location⟩))
      (name :: paren :: (ts ++ [close]))
  | parenthesized {e : Expr} {ts : List Token} {paren close : Token}
    (hparen : paren.isChar "(" = true) (he : Over e ts) (hclose : close.isChar ")" = true) :
    Over e (paren :: (ts ++ [close]))

inductive Part (d : Expr) : Expr → Prop
  | whole : Part d d
  | inside {c e : Expr} (hc : c ∈ e.children) (h : Part d c) : Part d e

/-- The span of an expression holds the spans of those right below it, which stand one behind the
other. That of an operation goes from its left operand to its right one. -/
structure Framed (e : Expr) : Prop where
  joined : ∀ op l r s, e = .binary op l r s →
    ∃ j k, l.span = some j ∧ r.span = some k ∧ s = some ⟨j.start, k.stop⟩
  inside : ∃ s, e.span = some s ∧ ∀ c ∈ e.children, ∃ j, c.span = some j ∧ j.Within s
  ordered : e.children.Pairwise fun c d => ∀ j ∈ c.span, ∀ k ∈ d.span, j.Before k

section

variable {d e : Expr} {ts : List Token}

theorem Over.ends (h : e.Over ts) :
    ∃ t ∈ ts, ∃ u ∈ ts, e.span = some ⟨t.location, u.location⟩ := by
  induction h with
  | number => exact ⟨_, List.mem_cons_self, _, List.mem_cons_self, rfl⟩
  | var => exact ⟨_, List.mem_cons_self, _, List.mem_cons_self, rfl⟩
  | @binary l r ls rs op j k _ _ _ hj hk ihl ihr =>
    obtain ⟨t, ht, u, -, hl⟩ := ihl
    obtain ⟨v, -, w, hw, hr⟩ := ihr
    obtain rfl := Option.some.inj (hj.symm.trans hl)
    obtain rfl := Option.some.inj (hk.symm.trans hr)
    have hright := List.mem_append_right ls (List.mem_cons_of_mem op hw)
    exact ⟨t, List.mem_append_left _ ht, w, hright, rfl⟩
  | call => exact ⟨_, List.mem_cons_self, _, by simp, rfl⟩
  | parenthesized _ _ _ ih =>
    obtain ⟨t, ht, u, hu, hspan⟩ := ih
    exact ⟨t, by simp [ht], u, by simp [hu], hspan⟩

theorem Over.children (h : e.Over ts) :
    ∃ items : List (Expr × List Token), items.map Prod.fst = e.children ∧
      (∀ i ∈ items, i.1.Over i.2 ∧ i.2 <:+: ts) ∧ (items.map Prod.snd).flatten.Sublist ts := by
  induction h with
  | number => exact ⟨[], rfl, nofun, List.nil_sublist _⟩
  | var => exact ⟨[], rfl, nofun, List.nil_sublist _⟩
  | @binary l r ls rs op j k hl _ hr =>
    have hleft : ls <:+: ls ++ op :: rs := (List.prefix_append ls _).isInfix
    have hright : rs <:+: ls ++ op :: rs :=
      ((List.suffix_cons op rs).trans (List.suffix_append ls _)).isInfix
    refine ⟨[(l, ls), (r, rs)], rfl, ?_, ?_⟩
    · exact List.forall_mem_cons.2 ⟨⟨hl, hleft⟩, List.forall_mem_singleton.2 ⟨hr, hright⟩⟩
    · simp
  | @call name paren close items ts _ _ hitems hts =>
    have hmiddle : ts <:+: name :: paren :: (ts ++ [close]) := ⟨[name, paren], [close], by simp⟩
    refine ⟨items, rfl, fun i hi => ⟨hitems i hi, ?_⟩, hts.flatten_sublist.trans hmiddle.sublist⟩
    exact (hts.isInfix _ (List.mem_map_of_mem hi)).trans hmiddle
  | @parenthesized e ts paren close _ _ _ ih =>
    obtain ⟨items, hchildren, hitems, hsublist⟩ := ih
    have hmiddle : ts <:+: paren :: (ts ++ [close]) := ⟨[paren], [close], by simp⟩
    exact ⟨items, hchildren, fun i hi => ⟨(hitems i hi).1, (hitems i hi).2.trans hmiddle⟩,
      hsublist.trans hmiddle.sublist⟩

theorem Over.part (h : e.Over ts) (hd : d.Part e) : ∃ us, us <:+: ts ∧ d.Over us := by
  induction hd generalizing ts with
  | whole => exact ⟨ts, List.infix_refl ts, h⟩
  | @inside c e hc _ ih =>
    obtain ⟨items, hchildren, hitems, -⟩ := h.children
    rw [← hchildren] at hc
    obtain ⟨i, hi, rfl⟩ := List.mem_map.1 hc
    obtain ⟨hover, hin⟩ := hitems i hi
    obtain ⟨us, hus, hpart⟩ := ih hover
    exact ⟨us, hus.trans hin, hpart⟩

theorem Over.operation {l r : Expr} {ls rs : List Token} {op : Token} (hl : l.Over ls)
    (hop : op.kind = .char) (hr : r.Over rs) :
    (Expr.binary op.lexeme l r (joinSpans l r)).Over (ls ++ op :: rs) := by
  obtain ⟨t, -, u, -, hj⟩ := hl.ends
  obtain ⟨v, -, w, -, hk⟩ := hr.ends
  have hspan : joinSpans l r = some ⟨t.location, w.location⟩ := by simp only [joinSpans, hj, hk]
  rw [hspan]
  exact .binary hl hop hr hj hk

/-! ### Spans of tokens in their order -/

theorem Over.joined (h : e.Over ts) {op : String} {l r : Expr} {s : Option Span}
    (he : e = .binary op l r s) :
    ∃ j k, l.span = some j ∧ r.span = some k ∧ s = some ⟨j.start, k.stop⟩ := by
  induction h with
  | number => cases he
  | var => cases he
  | binary _ _ _ hj hk =>
    cases he
    exact ⟨_, _, hj, hk, rfl⟩
  | call => cases he
  | parenthesized _ _ _ ih => exact ih he

theorem Over.inside (h : e.Over ts) (hts : Rising ts) :
    ∃ s, e.span = some s ∧ ∀ c ∈ e.children, ∃ j, c.span = some j ∧ j.Within s := by
  induction h with
  | number => exact ⟨_, rfl, nofun⟩
  | var => exact ⟨_, rfl, nofun⟩
  | @binary l r ls rs op j k hl _ hr hj hk =>
    obtain ⟨t, ht, u, hu, hleft⟩ := hl.ends
    obtain ⟨v, hv, w, hw, hright⟩ := hr.ends
    obtain rfl := Option.some.inj (hj.symm.trans hleft)
    obtain rfl := Option.some.inj (hk.symm.trans hright)
    have hacross := (List.pairwise_append.1 hts).2.2
    have hstop := hacross u hu w (List.mem_cons_of_mem _ hw)
    have hstart := hacross t ht v (List.mem_cons_of_mem _ hv)
    refine ⟨_, rfl, List.forall_mem_cons.2 ⟨⟨_, hj, ?_⟩, List.forall_mem_singleton.2 ⟨_, hk, ?_⟩⟩⟩
    · exact ⟨Nat.le_refl _, Nat.le_of_lt hstop⟩
    · exact ⟨Nat.le_of_lt hstart, Nat.le_refl _⟩
  | @call name paren close items ts _ _ hitems hrows _ =>
    refine ⟨_, rfl, fun c hc => ?_⟩
    obtain ⟨i, hi, rfl⟩ := List.mem_map.1 hc
    obtain ⟨t, ht, u, hu, hspan⟩ := (hitems i hi).ends
    have hrow : i.2 <:+: ts := hrows.isInfix _ (List.mem_map_of_mem hi)
    obtain ⟨hname, hrest⟩ := List.pairwise_cons.1 hts
    have hclose := (List.pairwise_append.1 (List.pairwise_cons.1 hrest).2).2.2
    have hstart := hname t (List.mem_cons_of_mem _ (List.mem_append_left _ (hrow.subset ht)))
    have hstop := hclose u (hrow.subset hu) close List.mem_cons_self
    exact ⟨_, hspan, Nat.le_of_lt hstart, Nat.le_of_lt hstop⟩
  | parenthesized _ _ _ ih =>
    exact ih (List.pairwise_append.1 (List.pairwise_cons.1 hts).2).1

theorem Over.ordered (h : e.Over ts) (hts : Rising ts) :
    e.children.Pairwise fun c d => ∀ j ∈ c.span, ∀ k ∈ d.span, j.Before k := by
  obtain ⟨items, hchildren, hitems, hsublist⟩ := h.children
  have hrows := (List.pairwise_flatten.1 (hts.sublist hsublist)).2
  rw [← hchildren, List.pairwise_map]
  refine (List.pairwise_map.1 hrows).imp_of_mem fun {a b} ha hb hab j hj k hk => ?_
  obtain ⟨_, _, u, hu, hleft⟩ := (hitems a ha).1.ends
  obtain ⟨v, hv, _, _, hright⟩ := (hitems b hb).1.ends
  rw [hleft] at hj
  rw [hright] at hk
  obtain rfl := Option.some.inj hj
  obtain rfl := Option.some.inj hk
  exact hab u hu v hv

theorem Over.framed (h : e.Over ts) (hts : Rising ts) : e.Framed where
  joined _ _ _ _ := h.joined
  inside := h.inside hts
  ordered := h.ordered hts

end

end Expr

/-! ### What is read goes over its tokens -/

namespace Layered

def Listed (es : List Expr) (ts : List Token) : Prop :=
  ∃ items : List (Expr × List Token), items.map Prod.fst = es ∧ (∀ i ∈ items, i.1.Over i.2) ∧
    CommaSeparated (items.map Prod.snd) ts

theorem listed_singleton {e : Expr} {ts : List Token} (h : e.Over ts) : Listed [e] ts :=
  ⟨[(e, ts)], rfl, List.forall_mem_singleton.2 h, .one ts⟩

theorem Listed.cons {e : Expr} {es : List Expr} {ts us : List Token} {comma : Token}
    (he : e.Over ts) (hcomma : comma.isChar "," = true) (hne : es ≠ []) (h : Listed es us) :
    Listed (e :: es) (ts ++ comma :: us) := by
  obtain ⟨items, rfl, hitems, hrows⟩ := h
  cases items with
  | nil => exact absurd rfl hne
  | cons i items =>
    exact ⟨(e, ts) :: i :: items, rfl, List.forall_mem_cons.2 ⟨he, hitems⟩, .more hcomma hrows⟩

/-- Expressions go over the tokens that have been taken, and what operators link to an operand goes
over those of the operand, too. The parenthesis behind arguments is theirs. -/
theorem productionwise_over :
    Productionwise (fun _ ts e us => ∃ own, ts = own ++ us ∧ e.Over own)
      (fun _ _ lhs ts e us =>
        ∀ front, lhs.Over front → ∃ own, ts = own ++ us ∧ e.Over (front ++ own))
      (fun ts a us => ∃ own, ts = own ++ a.2 :: us ∧ Listed a.1 own ∧ a.2.isChar ")" = true)
      fun ts a us =>
        ∃ own, ts = own ++ a.2 :: us ∧ a.1 ≠ [] ∧ Listed a.1 own ∧ a.2.isChar ")" = true where
  number ht hv := ⟨_, rfl, .number ht hv⟩
  var ht _ := ⟨_, rfl, .var ht⟩
  call {t paren _ us a} ht hparen hargs := by
    obtain ⟨own, rfl, ⟨items, hitems, hover, hrows⟩, hclose⟩ := hargs
    refine ⟨t :: paren :: (own ++ [a.2]), by simp, ?_⟩
    rw [← hitems]
    exact .call ht hparen hover hrows hclose
  parenthesized {paren close _ us _} hparen he hclose := by
    obtain ⟨own, rfl, hover⟩ := he
    exact ⟨paren :: (own ++ [close]), by simp, .parenthesized hparen hover hclose⟩
  layer hlhs h := by
    obtain ⟨front, rfl, hfront⟩ := hlhs
    obtain ⟨own, rfl, hover⟩ := h front hfront
    exact ⟨front ++ own, (List.append_assoc _ _ _).symm, hover⟩
  stop _ := fun front hfront => ⟨[], rfl, by rwa [List.append_nil]⟩
  link {_ _ op _ _ _ _ _ _} ht hrhs h := fun front hfront => by
    obtain ⟨right, rfl, hright⟩ := hrhs
    obtain ⟨own, rfl, hover⟩ := h _ (hfront.operation (Token.kind_of_isOneOf ht) hright)
    exact ⟨op :: (right ++ own), by simp, by simpa using hover⟩
  none hclose := ⟨[], rfl, ⟨[], rfl, nofun, .none⟩, hclose⟩
  some h := by
    obtain ⟨own, hown, -, hlisted, hclose⟩ := h
    exact ⟨own, hown, hlisted, hclose⟩
  last he hclose := by
    obtain ⟨own, rfl, hover⟩ := he
    exact ⟨own, rfl, List.cons_ne_nil _ _, listed_singleton hover, hclose⟩
  more {comma _ _ _ _ _} he hcomma h := by
    obtain ⟨front, rfl, hfront⟩ := he
    obtain ⟨own, rfl, hne, hlisted, hclose⟩ := h
    exact ⟨front ++ comma :: own, by simp, List.cons_ne_nil _ _,
      .cons hfront hcomma hne hlisted, hclose⟩

theorem over_of_comparison {ts us : List Token} {e : Expr} (h : comparison ts = .ok e us) :
    ∃ own, ts = own ++ us ∧ e.Over own :=
  (productionwise_over.holds _).chain (Nat.lt_succ_self _) h

end Layered

end ExprCompiler
