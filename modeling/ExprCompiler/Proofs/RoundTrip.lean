import ExprCompiler.Proofs.Climbing
import ExprCompiler.Proofs.LiteralValues
import ExprCompiler.Proofs.Words

/-!
# Writing expressions and reading them back

An expression is written with its operators between their operands and with
parentheses where the precedences call for them, and is read back as it was.
-/

namespace ExprCompiler

open ExprCompiler.Layered (comparison primary chain rests layersFrom)

/-! ### Writing -/

namespace Expr

def strengthOf (op : String) : Int := (operatorPrecedence.lookup op).getD notAnOperator

def binding : Expr → Int
  | binary op _ _ _ => strengthOf op
  | _ => 100

def enclosed (inParentheses : Bool) (ws : List String) : List String :=
  if inParentheses then "(" :: (ws ++ [")"]) else ws

mutual

/-- A left operand stands in parentheses if it is looser than the operator, a right operand also if
it is just as loose. -/
def words : Expr → List String
  | number v _ => [toString v]
  | var n _ => [n]
  | binary op l r _ =>
    enclosed (l.binding < strengthOf op) l.words ++
      op :: enclosed (r.binding ≤ strengthOf op) r.words
  | call callee args _ => callee :: "(" :: (argumentWords args ++ [")"])
  | stray d => [d.text]

def argumentWords : List Expr → List String
  | [] => []
  | [e] => e.words
  | e :: es => e.words ++ "," :: argumentWords es

end

def source (e : Expr) : String := " ".intercalate e.words

/-- The literals fit, the names are identifiers and no keywords, and the operators are those that
have a precedence. -/
inductive Writable : Expr → Prop
  | number {v : Int} {s : Option Span} (h0 : 0 ≤ v) (h : v ≤ Parser.int32Max) :
    Writable (number v s)
  | var {n : String} {s : Option Span} (h : Identifier n) (hk : keywords.lookup n = none) :
    Writable (var n s)
  | binary {op : String} {l r : Expr} {s : Option Span}
    (h : op ∈ operatorPrecedence.map Prod.fst) (hl : Writable l) (hr : Writable r) :
    Writable (binary op l r s)
  | call {c : String} {args : List Expr} {s : Option Span} (h : Identifier c)
    (hk : keywords.lookup c = none) (hargs : ∀ e ∈ args, Writable e) : Writable (call c args s)

end Expr

/-! ### Words of expressions -/

def signs : List String := ["<", "+", "-", "*", "(", ")", ","]

theorem word_of_mem_signs {w : String} (h : w ∈ signs) : Word w ⟨.char, w.toList, .absent⟩ := by
  simp only [signs, List.mem_cons, List.not_mem_nil, or_false] at h
  obtain rfl | rfl | rfl | rfl | rfl | rfl | rfl := h
  · exact word_of_isSign (c := '<') (by decide)
  · exact word_of_isSign (c := '+') (by decide)
  · exact word_of_isSign (c := '-') (by decide)
  · exact word_of_isSign (c := '*') (by decide)
  · exact word_of_isSign (c := '(') (by decide)
  · exact word_of_isSign (c := ')') (by decide)
  · exact word_of_isSign (c := ',') (by decide)

theorem mem_signs_of_operator {op : String} (h : op ∈ operatorPrecedence.map Prod.fst) :
    op ∈ signs := by
  revert op
  decide

namespace Token

variable {t : Token}

theorem Spells.sign {w : String} (h : t.Spells w) (hw : w ∈ signs) :
    t.kind = .char ∧ t.lexeme = w := by
  have ht := (word_of_mem_signs hw).eq_of_spells h
  rw [ht]
  exact ⟨rfl, String.ofList_toList⟩

theorem Spells.isChar {w : String} (h : t.Spells w) (hw : w ∈ signs) : t.isChar w = true := by
  obtain ⟨hkind, hlexeme⟩ := h.sign hw
  simp [Token.isChar, hkind, hlexeme]

theorem Spells.not_isChar {v w : String} (h : t.Spells w) (hw : w ∈ signs) (hne : w ≠ v) :
    t.isChar v = false := by
  obtain ⟨-, hlexeme⟩ := h.sign hw
  simp [Token.isChar, hlexeme, hne]

theorem Spells.precedence {w : String} (h : t.Spells w) (hw : w ∈ signs) :
    t.precedence = Expr.strengthOf w := by
  obtain ⟨hkind, hlexeme⟩ := h.sign hw
  rw [Token.precedence, if_pos hkind, hlexeme]
  rfl

theorem Spells.name {n : String} (h : t.Spells n) (hn : Identifier n)
    (hk : keywords.lookup n = none) : t.kind = .identifier ∧ t.lexeme = n := by
  have ht := (hn.word hk).eq_of_spells h
  rw [ht]
  exact ⟨rfl, String.ofList_toList⟩

theorem tokenNumber_of_lexeme (cs : List Char) (x : Binary64) (l : Location) :
    Parser.tokenNumber ((⟨.number, cs, .number x⟩ : Lexeme).token l) = x := rfl

theorem Spells.numeral {n : Nat} (h : t.Spells (toString n)) (hn : (n : Int) ≤ Parser.int32Max) :
    t.kind = .number ∧ Parser.literal (Parser.tokenNumber t) = .ok n := by
  have ht := (word_numeral n).eq_of_spells h
  rw [ht, tokenNumber_of_lexeme]
  exact ⟨rfl, literal_of_numeral hn⟩

end Token

theorem exists_of_spells_append {ts : List Token} {vs ws : List String}
    (h : ts.Forall₂ Token.Spells (vs ++ ws)) :
    ∃ as bs, ts = as ++ bs ∧ as.Forall₂ Token.Spells vs ∧ bs.Forall₂ Token.Spells ws :=
  ⟨_, _, (List.take_append_drop vs.length ts).symm, List.forall₂_take_append ts vs ws h,
    List.forall₂_drop_append ts vs ws h⟩

/-! ### Reading -/

theorem Layered.front_of_comparison {ts us : List Token} {e : Expr}
    (h : comparison ts = .ok e us) :
    (look ts).kind = .number ∨ (look ts).kind = .identifier ∨ (look ts).isChar "(" = true := by
  by_contra hnone
  rw [not_or, not_or] at hnone
  have hfault : primary ts = .error (.invalidExpression (look ts)) ts := by
    rw [primary_eq, peek_bind, if_neg hnone.1, if_neg hnone.2.1, if_neg hnone.2.2]
    rfl
  rw [comparison, chain_eq, bind_eq_error hfault] at h
  cases h

theorem Layered.not_close_of_comparison {ts us : List Token} {e : Expr}
    (h : comparison ts = .ok e us) : (look ts).isChar ")" = false := by
  obtain hk | hk | hparen := front_of_comparison h
  · simp [Token.isChar, hk]
  · simp [Token.isChar, hk]
  · exact Token.not_isChar_of_ne hparen (by decide)

theorem Layered.arguments_of_list {ts us : List Token} {a : List Expr × Token}
    (h : list ts = .ok a us) : arguments ts = .ok a us := by
  have hnot : (look ts).isChar ")" = false := by
    rw [list_eq] at h
    cases hc : comparison ts with
    | ok e vs => exact not_close_of_comparison hc
    | error e vs =>
      rw [bind_eq_error hc] at h
      cases h
  rw [arguments_eq, peek_bind, if_neg (by simp [hnot]), h]

namespace Expr

variable {e : Expr} {ts us : List Token} {least : Int}

def ReadBack (e : Expr) : Prop :=
  ∀ {ts us : List Token} {least : Int}, ts.Forall₂ Token.Spells e.words → 0 ≤ least →
    least ≤ e.binding → (look us).precedence ≤ e.binding → (look us).isChar "(" = false →
    ∃ e', e.alike e' = true ∧
      chain (layersFrom least) (ts ++ us) = rests (layersFrom least) e' us

def Ends (us : List Token) : Prop :=
  (look us).precedence < 0 ∧ (look us).isChar "(" = false

theorem ends_of_close {t : Token} (h : t.Spells ")") (us : List Token) : Ends (t :: us) := by
  refine ⟨?_, h.not_isChar (by decide) (by decide)⟩
  rw [look_cons, h.precedence (by decide)]
  decide

theorem ends_of_comma {t : Token} (h : t.Spells ",") (us : List Token) : Ends (t :: us) := by
  refine ⟨?_, h.not_isChar (by decide) (by decide)⟩
  rw [look_cons, h.precedence (by decide)]
  decide

theorem chain_of_primary {e' : Expr} (h : primary ts = .ok e' us) (gs : List (List String)) :
    chain gs ts = rests gs e' us := by
  rw [Layered.chain_eq, bind_eq_ok h]

theorem ReadBack.comparison (h : e.ReadBack) (h0 : 0 ≤ e.binding)
    (hts : ts.Forall₂ Token.Spells e.words) (hus : Ends us) :
    ∃ e', e.alike e' = true ∧ Layered.comparison (ts ++ us) = .ok e' us := by
  have hall : Layered.layers = layersFrom 0 := by decide
  have hle : (look us).precedence ≤ e.binding := Int.le_trans (Int.le_of_lt hus.1) h0
  obtain ⟨e', halike, hread⟩ := h hts (Int.le_refl 0) h0 hle hus.2
  refine ⟨e', halike, ?_⟩
  rw [Layered.comparison, hall, hread, Layered.rests_of_loose e' (Layered.loose_layersFrom hus.1)]

theorem ReadBack.parenthesized (h : e.ReadBack) (h0 : 0 ≤ e.binding)
    (hts : ts.Forall₂ Token.Spells (enclosed true e.words)) (us : List Token) :
    ∃ e', e.alike e' = true ∧ primary (ts ++ us) = .ok e' us := by
  obtain ⟨opening, rest, hopening, hrest, rfl⟩ := List.forall₂_cons_right_iff.1 hts
  obtain ⟨inner, last, rfl, hinner, hlast⟩ := exists_of_spells_append hrest
  obtain ⟨closing, nothing, hclosing, hnothing, rfl⟩ := List.forall₂_cons_right_iff.1 hlast
  obtain rfl := List.forall₂_nil_right_iff.1 hnothing
  obtain ⟨hkind, -⟩ := hopening.sign (by decide)
  have hparen := hopening.isChar (by decide)
  have hclose := hclosing.isChar (by decide)
  obtain ⟨e', halike, hread⟩ := h.comparison h0 hinner (ends_of_close hclosing us)
  refine ⟨e', halike, ?_⟩
  have hsplit : opening :: (inner ++ [closing]) ++ us = opening :: (inner ++ closing :: us) := by
    simp
  rw [hsplit, Layered.primary_eq, Layered.peek_bind, look_cons, if_neg (by simp [hkind]),
    if_neg (by simp [hkind]), if_pos hparen, Layered.skip_bind, List.tail_cons, bind_eq_ok hread,
    Layered.peek_bind, look_cons, if_pos hclose]
  rfl

theorem ReadBack.operand (h : e.ReadBack) (hb : 0 ≤ e.binding) {inParentheses : Bool}
    (hts : ts.Forall₂ Token.Spells (enclosed inParentheses e.words)) (h0 : 0 ≤ least)
    (hus : (look us).isChar "(" = false)
    (hfree : inParentheses = false → least ≤ e.binding ∧ (look us).precedence ≤ e.binding) :
    ∃ e', e.alike e' = true ∧
      chain (layersFrom least) (ts ++ us) = rests (layersFrom least) e' us := by
  cases inParentheses with
  | false =>
    obtain ⟨hleast, hle⟩ := hfree rfl
    exact h hts h0 hleast hle hus
  | true =>
    obtain ⟨e', halike, hread⟩ := h.parenthesized hb hts us
    exact ⟨e', halike, chain_of_primary hread _⟩

theorem strengthOf_nonneg {op : String} (h : op ∈ operatorPrecedence.map Prod.fst) :
    0 ≤ strengthOf op := by
  simp only [operatorPrecedence, List.map_cons, List.map_nil, List.mem_cons, List.not_mem_nil,
    or_false] at h
  obtain rfl | rfl | rfl | rfl := h <;> decide

theorem Writable.binding_nonneg (h : e.Writable) : 0 ≤ e.binding := by
  cases h with
  | binary hop _ _ => exact strengthOf_nonneg hop
  | _ => exact (by decide : (0 : Int) ≤ 100)

theorem readBack_binary {op : String} {l r : Expr} {s : Option Span}
    (hop : op ∈ operatorPrecedence.map Prod.fst) (hl : l.ReadBack) (hl0 : 0 ≤ l.binding)
    (hr : r.ReadBack) (hr0 : 0 ≤ r.binding) : (binary op l r s).ReadBack := by
  intro ts us least hts h0 hleast hus hparen
  obtain ⟨left, rest, rfl, hleft, hrest⟩ := exists_of_spells_append hts
  obtain ⟨t, right, ht, hright, rfl⟩ := List.forall₂_cons_right_iff.1 hrest
  have hsign := mem_signs_of_operator hop
  have hprecedence := ht.precedence hsign
  obtain ⟨-, hlexeme⟩ := ht.sign hsign
  have hbinding : binding (binary op l r s) = strengthOf op := rfl
  rw [hbinding] at hleast hus
  -- The left operand is followed by the operator, which is no tighter than what it shows.
  have hcall : (look (t :: (right ++ us))).isChar "(" = false := by
    refine ht.not_isChar hsign ?_
    rintro rfl
    exact absurd hop (by decide)
  obtain ⟨l', hl', hreadl⟩ := hl.operand hl0 hleft h0 hcall (by
    intro hshown
    have hle : strengthOf op ≤ l.binding := by simpa using hshown
    rw [look_cons, hprecedence]
    exact ⟨Int.le_trans hleast hle, hle⟩)
  -- The right operand is read by the tighter layers.
  have hs0 := strengthOf_nonneg hop
  have hs1 : 0 ≤ strengthOf op + 1 := by omega
  obtain ⟨r', hr', hreadr⟩ := hr.operand hr0 hright hs1 hparen (by
    intro hshown
    have hlt : strengthOf op < r.binding := by simpa using hshown
    exact ⟨hlt, by omega⟩)
  have hnone : rests (layersFrom (strengthOf op + 1)) r' us = .ok r' us :=
    Layered.rests_of_loose r' (Layered.loose_layersFrom (by omega))
  rw [hnone] at hreadr
  have hat : (look (t :: (right ++ us))).precedence = strengthOf op := hprecedence
  have hle : least ≤ (look (t :: (right ++ us))).precedence := by omega
  obtain ⟨outer, ops, hlayers, hof⟩ := Layered.layersFrom_of_operator h0 hle
  have hloose : Layered.Loose (layersFrom ((look (t :: (right ++ us))).precedence + 1))
      (t :: (right ++ us)) := Layered.loose_layersFrom (by omega)
  refine ⟨.binary op l' r' (Parser.joinSpans l' r'), by simp [alike, hl', hr'], ?_⟩
  rw [List.append_assoc, List.cons_append, hreadl, hlayers,
    Layered.rests_of_operator outer l' hloose hof, ← hlayers, hat, List.tail_cons,
    bind_eq_ok hreadr, look_cons, hlexeme]

theorem list_readBack {args : List Expr} (h : ∀ a ∈ args, a.ReadBack ∧ 0 ≤ a.binding)
    (hne : args ≠ []) (hts : ts.Forall₂ Token.Spells (argumentWords args)) {close : Token}
    (hclose : close.Spells ")") (us : List Token) :
    ∃ args', allAlike args args' = true ∧
      Layered.list (ts ++ close :: us) = .ok (args', close) us := by
  induction args generalizing ts with
  | nil => exact absurd rfl hne
  | cons a as ih =>
    obtain ⟨ha, ha0⟩ := h a List.mem_cons_self
    cases as with
    | nil =>
      obtain ⟨a', halike, hread⟩ := ha.comparison ha0 hts (ends_of_close hclose us)
      refine ⟨[a'], by simp [allAlike, halike], ?_⟩
      rw [Layered.list_eq, bind_eq_ok hread, Layered.peek_bind, look_cons,
        if_pos (hclose.isChar (by decide))]
      rfl
    | cons b bs =>
      obtain ⟨first, rest, rfl, hfirst, hrest⟩ := exists_of_spells_append hts
      obtain ⟨comma, others, hcomma, hothers, rfl⟩ := List.forall₂_cons_right_iff.1 hrest
      have hnot : comma.isChar ")" = false := hcomma.not_isChar (by decide) (by decide)
      obtain ⟨a', halike, hread⟩ := ha.comparison ha0 hfirst (ends_of_comma hcomma _)
      obtain ⟨as', halikes, hreads⟩ :=
        ih (fun e he => h e (List.mem_cons_of_mem _ he)) (List.cons_ne_nil _ _) hothers
      refine ⟨a' :: as', by simp [allAlike, halike, halikes], ?_⟩
      rw [List.append_assoc, List.cons_append, Layered.list_eq, bind_eq_ok hread,
        Layered.peek_bind, look_cons, if_neg (by simp [hnot]),
        if_pos (hcomma.isChar (by decide)), Layered.skip_bind, List.tail_cons, bind_eq_ok hreads]
      rfl

theorem arguments_readBack {args : List Expr} (h : ∀ a ∈ args, a.ReadBack ∧ 0 ≤ a.binding)
    (hts : ts.Forall₂ Token.Spells (argumentWords args)) {close : Token}
    (hclose : close.Spells ")") (us : List Token) :
    ∃ args', allAlike args args' = true ∧
      Layered.arguments (ts ++ close :: us) = .ok (args', close) us := by
  by_cases hne : args = []
  · subst hne
    obtain rfl := List.forall₂_nil_right_iff.1 hts
    refine ⟨[], rfl, ?_⟩
    rw [List.nil_append, Layered.arguments_eq, Layered.peek_bind, look_cons,
      if_pos (hclose.isChar (by decide))]
    rfl
  · obtain ⟨args', halike, hread⟩ := list_readBack h hne hts hclose us
    exact ⟨args', halike, Layered.arguments_of_list hread⟩

theorem readBack_call {c : String} {args : List Expr} {s : Option Span} (hc : Identifier c)
    (hk : keywords.lookup c = none) (h : ∀ a ∈ args, a.ReadBack ∧ 0 ≤ a.binding) :
    (call c args s).ReadBack := by
  intro ts us least hts _ _ _ _
  obtain ⟨name, rest, hname, hrest, rfl⟩ := List.forall₂_cons_right_iff.1 hts
  obtain ⟨opening, others, hopening, hothers, rfl⟩ := List.forall₂_cons_right_iff.1 hrest
  obtain ⟨inner, last, rfl, hinner, hlast⟩ := exists_of_spells_append hothers
  obtain ⟨close, nothing, hclose, hnothing, rfl⟩ := List.forall₂_cons_right_iff.1 hlast
  obtain rfl := List.forall₂_nil_right_iff.1 hnothing
  obtain ⟨hkind, hlexeme⟩ := hname.name hc hk
  obtain ⟨args', halike, hread⟩ := arguments_readBack h hinner hclose us
  refine ⟨.call c args' (some ⟨name.location, close.location⟩), by simp [alike, halike],
    chain_of_primary ?_ _⟩
  have hsplit : name :: opening :: (inner ++ [close]) ++ us =
      name :: opening :: (inner ++ close :: us) := by simp
  rw [hsplit, Layered.primary_eq, Layered.peek_bind, look_cons, if_neg (by simp [hkind]),
    if_pos hkind, Layered.skip_bind, List.tail_cons, Layered.peek_bind, look_cons,
    if_pos (hopening.isChar (by decide)), Layered.skip_bind, List.tail_cons, bind_eq_ok hread,
    hlexeme]
  rfl

theorem readBack_var {n : String} {s : Option Span} (hn : Identifier n)
    (hk : keywords.lookup n = none) : (var n s).ReadBack := by
  intro ts us least hts _ _ _ hus
  obtain ⟨name, nothing, hname, hnothing, rfl⟩ := List.forall₂_cons_right_iff.1 hts
  obtain rfl := List.forall₂_nil_right_iff.1 hnothing
  obtain ⟨hkind, hlexeme⟩ := hname.name hn hk
  refine ⟨.var n (some ⟨name.location, name.location⟩), by simp [alike], chain_of_primary ?_ _⟩
  rw [List.singleton_append, Layered.primary_eq, Layered.peek_bind, look_cons,
    if_neg (by simp [hkind]), if_pos hkind, Layered.skip_bind, List.tail_cons, Layered.peek_bind,
    if_neg (by simp [hus]), hlexeme]
  rfl

theorem readBack_number {v : Int} {s : Option Span} (h0 : 0 ≤ v) (h : v ≤ Parser.int32Max) :
    (number v s).ReadBack := by
  intro ts us least hts _ _ _ _
  obtain ⟨n, rfl⟩ := Int.eq_ofNat_of_zero_le h0
  obtain ⟨t, nothing, ht, hnothing, rfl⟩ := List.forall₂_cons_right_iff.1 hts
  obtain rfl := List.forall₂_nil_right_iff.1 hnothing
  obtain ⟨hkind, hliteral⟩ := Token.Spells.numeral (n := n) ht h
  refine ⟨.number n (some ⟨t.location, t.location⟩), by simp [alike], chain_of_primary ?_ _⟩
  rw [List.singleton_append, Layered.primary_eq, Layered.peek_bind, look_cons, if_pos hkind,
    hliteral]
  rfl

theorem Writable.readBack {e : Expr} (h : e.Writable) : e.ReadBack := by
  induction h with
  | number h0 h => exact readBack_number h0 h
  | var h hk => exact readBack_var h hk
  | binary h hl hr ihl ihr =>
    exact readBack_binary h ihl hl.binding_nonneg ihr hr.binding_nonneg
  | call h hk hargs ih =>
    exact readBack_call h hk fun a ha => ⟨ih a ha, (hargs a ha).binding_nonneg⟩

/-! ### All words are words of the lexer -/

theorem words_enclosed {ws : List String} (h : ∀ w ∈ ws, ∃ x, Word w x) (b : Bool) :
    ∀ w ∈ enclosed b ws, ∃ x, Word w x := by
  have hopen : ∃ x, Word "(" x := ⟨_, word_of_mem_signs (by decide)⟩
  have hclose : ∃ x, Word ")" x := ⟨_, word_of_mem_signs (by decide)⟩
  cases b with
  | false => exact h
  | true =>
    refine List.forall_mem_cons.2 ⟨hopen, List.forall_mem_append.2 ⟨h, ?_⟩⟩
    exact List.forall_mem_singleton.2 hclose

theorem words_arguments {args : List Expr} (h : ∀ a ∈ args, ∀ w ∈ a.words, ∃ x, Word w x) :
    ∀ w ∈ argumentWords args, ∃ x, Word w x := by
  have hcomma : ∃ x, Word "," x := ⟨_, word_of_mem_signs (by decide)⟩
  induction args with
  | nil => exact nofun
  | cons a as ih =>
    cases as with
    | nil => exact h a List.mem_cons_self
    | cons b bs =>
      have hrest := ih fun e he => h e (List.mem_cons_of_mem _ he)
      exact List.forall_mem_append.2
        ⟨h a List.mem_cons_self, List.forall_mem_cons.2 ⟨hcomma, hrest⟩⟩

theorem Writable.words {e : Expr} (h : e.Writable) : ∀ w ∈ e.words, ∃ x, Word w x := by
  induction h with
  | @number v s h0 h =>
    obtain ⟨n, rfl⟩ := Int.eq_ofNat_of_zero_le h0
    exact List.forall_mem_singleton.2 ⟨_, word_numeral n⟩
  | var h hk => exact List.forall_mem_singleton.2 ⟨_, h.word hk⟩
  | binary h hl hr ihl ihr =>
    have hop := word_of_mem_signs (mem_signs_of_operator h)
    exact List.forall_mem_append.2
      ⟨words_enclosed ihl _, List.forall_mem_cons.2 ⟨⟨_, hop⟩, words_enclosed ihr _⟩⟩
  | call h hk hargs ih =>
    have hopen : ∃ x, Word "(" x := ⟨_, word_of_mem_signs (by decide)⟩
    have hclose : ∃ x, Word ")" x := ⟨_, word_of_mem_signs (by decide)⟩
    exact List.forall_mem_cons.2 ⟨⟨_, h.word hk⟩, List.forall_mem_cons.2 ⟨hopen,
      List.forall_mem_append.2 ⟨words_arguments ih, List.forall_mem_singleton.2 hclose⟩⟩⟩

end Expr

namespace Parser

/-- An expression that is written with no more parentheses than it needs is read back up to the
end of the text. -/
theorem expression_source {e : Expr} (h : e.Writable) (file : String) :
    ∃ e' q t, expression (.ofString e.source file) = .ok e' q ∧ e.alike e' = true ∧
      q.lookahead = some t ∧ t.kind = .endOfInput := by
  obtain ⟨ts, t, htokens, hspells, hend⟩ :=
    Lexer.tokens_of_words (l := .ofString e.source file) h.words rfl
  have hends : Expr.Ends [t] := by
    simp [Expr.Ends, Token.precedence, Token.isChar, hend, notAnOperator]
  obtain ⟨e', halike, hread⟩ :=
    Expr.ReadBack.comparison h.readBack h.binding_nonneg hspells hends
  have htokens' : (Parser.ofString e.source file).tokens = ts ++ [t] := htokens
  rw [← htokens'] at hread
  obtain ⟨q, hq, hfacing⟩ := expression_eq_ok rfl hread
  exact ⟨e', q, t, hq, halike, hfacing.lookahead, hend⟩

theorem expression_source_nested :
    let e : Expr := .binary "*"
      (.call "f" [.binary "<" (.number 1 none) (.var "x" none) none, .call "g" [] none] none)
      (.binary "-" (.number 2147483647 none)
        (.binary "-" (.var "y" none) (.number 0 none) none) none) none
    e.Writable ∧ e.source = "f ( 1 < x , g ( ) ) * ( 2147483647 - ( y - 0 ) )" ∧
      ∃ e' q t, expression (.ofString e.source "input") = .ok e' q ∧ e.alike e' = true ∧
        q.lookahead = some t ∧ t.kind = .endOfInput := by
  have hname (c : Char) (hc : isLetter c = true) : Identifier (String.singleton c) :=
    ⟨c, [], by simp, hc, nofun⟩
  have hargs : ∀ a ∈ [Expr.binary "<" (.number 1 none) (.var "x" none) none, .call "g" [] none],
      a.Writable := by
    refine List.forall_mem_cons.2 ⟨?_, List.forall_mem_singleton.2 ?_⟩
    · exact .binary (by decide) (.number (by decide) (by decide)) (.var (hname 'x' rfl) rfl)
    · exact .call (hname 'g' rfl) rfl nofun
  have hdifference : (Expr.binary "-" (.number 2147483647 none)
      (.binary "-" (.var "y" none) (.number 0 none) none) none).Writable :=
    .binary (by decide) (.number (by decide) (by decide))
      (.binary (by decide) (.var (hname 'y' rfl) rfl) (.number (by decide) (by decide)))
  intro e
  have hwritable : e.Writable :=
    .binary (by decide) (.call (hname 'f' rfl) rfl hargs) hdifference
  exact ⟨hwritable, by decide, expression_source hwritable "input"⟩

end Parser

end ExprCompiler
