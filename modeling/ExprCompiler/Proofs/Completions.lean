import ExprCompiler.Proofs.RoundTrip

/-!
# Expressions can be completed

An error is met at the first token that cannot go on with what has been read.
The tokens in front of it, with a few words behind them, are read without an
error: an expression that is missing is a zero, and what is open is closed.
-/

namespace ExprCompiler

open ExprCompiler.Parser (literal tokenNumber joinSpans)
open ExprCompiler.Expr (Ends)

def MayFollow (us vs : List Token) : Prop := look vs = look us ∨ Ends vs

theorem MayFollow.append {us vs : List Token} (h : MayFollow us vs) (c : List Token) :
    MayFollow (c ++ us) (c ++ vs) := by
  cases c with
  | nil => exact h
  | cons t c => exact .inl rfl

theorem MayFollow.not_open {us vs : List Token} (h : MayFollow us vs)
    (hus : (look us).isChar "(" = false) : (look vs).isChar "(" = false := by
  obtain heq | hends := h
  · rwa [heq]
  · exact hends.2

theorem exists_cons_of_look {ts : List Token} (h : (look ts).kind ≠ .endOfInput) :
    ∃ t us, ts = t :: us := by
  cases ts with
  | nil => exact absurd rfl h
  | cons t us => exact ⟨t, us, rfl⟩

namespace Layered

theorem not_isOneOf_of_ends {ops : List String} {vs : List Token} (h : ops ∈ layers)
    (hvs : Ends vs) : (look vs).isOneOf ops = false := by
  rw [Bool.eq_false_iff, ne_eq, isOneOf_iff h]
  have hneg := hvs.1
  have hstrength : 0 ≤ strength ops := by
    obtain rfl | rfl | rfl := mem_layers h <;> decide
  omega

/-! ### Completing -/

section

variable {α β : Type} {fits : List Token → Prop} {x : Reading α} {ts us c : List Token}

def Completes (fits : List Token → Prop) (x : Reading α) (c : List Token) : Prop :=
  ∃ ws : List String, (∀ w ∈ ws, ∃ l, Word w l) ∧ ∀ us vs, us.Forall₂ Token.Spells ws → Ends vs →
    fits (c ++ (us ++ vs)) ∧ ∃ a, x (c ++ (us ++ vs)) = .ok a vs

/-- What is read off some tokens is read again in front of others. What ends in an error can be
completed from where the error was met. -/
inductive Viable (fits : List Token → Prop) (x : Reading α) (ts : List Token) :
    EStateM.Result ParseError (List Token) α → Prop
  | ok {a : α} {us : List Token} (c : List Token) (split : ts = c ++ us)
    (again : ∀ vs, MayFollow us vs → x (c ++ vs) = .ok a vs) : Viable fits x ts (.ok a us)
  | error {e : ParseError} {us : List Token} (c : List Token) (split : ts = c ++ us)
    (found : look us = e.token) (completes : Completes fits x c) : Viable fits x ts (.error e us)

def Closes (k : α → Reading β) : Prop :=
  ∃ ws : List String, (∀ w ∈ ws, ∃ l, Word w l) ∧ ∀ us vs, us.Forall₂ Token.Spells ws → Ends vs →
    Ends (us ++ vs) ∧ ∀ a, ∃ b, k a (us ++ vs) = .ok b vs

theorem Viable.pure (a : α) : Viable fits (Pure.pure a) ts ((Pure.pure a : Reading α) ts) :=
  .ok [] rfl fun _ _ => rfl

theorem Viable.step {t : Token} {y : Reading α} (hx : ∀ vs, x (t :: vs) = y vs)
    (hfits : ∀ vs, fits (t :: vs)) {r : EStateM.Result ParseError (List Token) α}
    (h : Viable (fun _ => True) y us r) : Viable fits x (t :: us) r := by
  cases h with
  | ok c hsplit hagain =>
    exact .ok (t :: c) (by rw [hsplit, List.cons_append]) fun vs hvs => (hx _).trans (hagain vs hvs)
  | error c hsplit hfound hcompletes =>
    refine .error (t :: c) (by rw [hsplit, List.cons_append]) hfound ?_
    obtain ⟨ws, hws, hread⟩ := hcompletes
    refine ⟨ws, hws, fun us vs hus hvs => ⟨hfits _, ?_⟩⟩
    obtain ⟨a, ha⟩ := (hread us vs hus hvs).2
    exact ⟨a, (hx _).trans ha⟩

/-- One after the other: what follows is completed so that it may stand where it was met, and if the
first part itself ends in an error, what follows is closed. -/
theorem Viable.bind {k : α → Reading β} (hx : Viable (fun _ => True) x ts (x ts)) (hclose : Closes k)
    (hk : ∀ a us, x ts = .ok a us → Viable (MayFollow us) (k a) us (k a us)) :
    Viable (fun _ => True) (x >>= k) ts ((x >>= k) ts) := by
  generalize hr : x ts = r at hx
  cases hx with
  | @ok a us c hsplit hagain =>
    have hrest := hk a us hr
    rw [bind_eq_ok hr]
    generalize k a us = r' at hrest
    cases hrest with
    | ok c' hsplit' hagain' =>
      refine .ok (c ++ c') (by rw [hsplit, hsplit', List.append_assoc]) fun vs hvs => ?_
      have hx' := hagain (c' ++ vs) (hsplit' ▸ hvs.append c')
      rw [List.append_assoc, bind_eq_ok hx', hagain' vs hvs]
    | error c' hsplit' hfound hcompletes =>
      refine .error (c ++ c') (by rw [hsplit, hsplit', List.append_assoc]) hfound ?_
      obtain ⟨ws, hws, hread⟩ := hcompletes
      refine ⟨ws, hws, fun us' vs hus hvs => ⟨trivial, ?_⟩⟩
      obtain ⟨hfollow, b, hb⟩ := hread us' vs hus hvs
      exact ⟨b, by rw [List.append_assoc, bind_eq_ok (hagain _ hfollow), hb]⟩
  | @error e us c hsplit hfound hcompletes =>
    rw [bind_eq_error hr]
    refine .error c hsplit hfound ?_
    obtain ⟨ws, hws, hread⟩ := hcompletes
    obtain ⟨ws', hws', hread'⟩ := hclose
    refine ⟨ws ++ ws', List.forall_mem_append.2 ⟨hws, hws'⟩, fun us' vs hus hvs => ⟨trivial, ?_⟩⟩
    obtain ⟨as, bs, rfl, has, hbs⟩ := exists_of_spells_append hus
    -- The first part is completed in front of what closes the rest.
    obtain ⟨hends, hclosed⟩ := hread' bs vs hbs hvs
    obtain ⟨a, ha⟩ := (hread as (bs ++ vs) has hends).2
    obtain ⟨b, hb⟩ := hclosed a
    exact ⟨b, by rw [List.append_assoc, bind_eq_ok ha, hb]⟩

theorem Closes.nothing {k : α → Reading β} (h : ∀ a vs, Ends vs → ∃ b, k a vs = .ok b vs) :
    Closes k := by
  refine ⟨[], List.forall_mem_nil _, fun us vs hus hvs => ?_⟩
  obtain rfl := List.forall₂_nil_right_iff.1 hus
  exact ⟨hvs, fun a => h a vs hvs⟩

theorem word_close : ∀ w ∈ [")"], ∃ l, Word w l :=
  List.forall_mem_singleton.2 ⟨_, word_of_mem_signs (by decide)⟩

theorem Closes.close {k : α → Reading β}
    (h : ∀ a t vs, t.isChar ")" = true → ∃ b, k a (t :: vs) = .ok b vs) : Closes k := by
  refine ⟨[")"], word_close, fun us vs hus _ => ?_⟩
  obtain ⟨t, nothing, ht, hnothing, rfl⟩ := List.forall₂_cons_right_iff.1 hus
  obtain rfl := List.forall₂_nil_right_iff.1 hnothing
  exact ⟨Expr.ends_of_close ht vs, fun a => h a t vs (ht.isChar (by decide))⟩

theorem Completes.close
    (h : ∀ t vs, t.isChar ")" = true → ∃ a, x (t :: vs) = .ok a vs) :
    Completes (MayFollow ts) x [] := by
  refine ⟨[")"], word_close, fun us vs hus _ => ?_⟩
  obtain ⟨t, nothing, ht, hnothing, rfl⟩ := List.forall₂_cons_right_iff.1 hus
  obtain rfl := List.forall₂_nil_right_iff.1 hnothing
  exact ⟨.inr (Expr.ends_of_close ht vs), h t vs (ht.isChar (by decide))⟩

theorem Completes.zero (h : ∀ t vs, t.kind = .number → literal (tokenNumber t) = .ok 0 → Ends vs →
    ∃ a, x (t :: vs) = .ok a vs) : Completes (fun _ => True) x [] := by
  have hword : Word "0" _ := word_numeral 0
  refine ⟨["0"], List.forall_mem_singleton.2 ⟨_, hword⟩, fun us vs hus hvs => ⟨trivial, ?_⟩⟩
  obtain ⟨t, nothing, ht, hnothing, rfl⟩ := List.forall₂_cons_right_iff.1 hus
  obtain rfl := List.forall₂_nil_right_iff.1 hnothing
  obtain ⟨hkind, hliteral⟩ := Token.Spells.numeral (n := 0) ht (by decide)
  exact h t vs hkind hliteral hvs

end

/-! ### Expressions -/

theorem primary_of_number {t : Token} {v : Int} (hk : t.kind = .number)
    (hv : literal (tokenNumber t) = .ok v) (vs : List Token) :
    primary (t :: vs) = .ok (.number v (some ⟨t.location, t.location⟩)) vs := by
  rw [primary_eq, peek_bind, look_cons, if_pos hk, hv]
  rfl

theorem rests_of_ends {gs : List (List String)} (hgs : gs ⊆ layers) (e : Expr) {vs : List Token}
    (hvs : Ends vs) : rests gs e vs = .ok e vs :=
  rests_of_loose e fun _ hops => not_isOneOf_of_ends (hgs hops) hvs

def listRest (e : Expr) : Reading (List Expr × Token) := do
  let t ← peek
  if t.isChar ")" then
    skip
    return ([e], t)
  else if t.isChar "," then
    skip
    let (es, close) ← Layered.list
    return (e :: es, close)
  else throw (.unexpectedToken argumentsExpected t)

theorem list_eq_bind : list = comparison >>= listRest := list_eq

theorem listRest_close (e : Expr) {t : Token} (ht : t.isChar ")" = true) (vs : List Token) :
    listRest e (t :: vs) = .ok ([e], t) vs := by
  rw [listRest, peek_bind, look_cons, if_pos ht]
  rfl

structure Viables (n : Nat) : Prop where
  chain {gs : List (List String)} (hgs : gs ⊆ layers) {ts : List Token} (hn : ts.length < n) :
    Viable (fun _ => True) (chain gs) ts (chain gs ts)
  links {ops : List String} {tighter : List (List String)} (hops : ops ∈ layers)
    (htighter : tighter ⊆ layers) (lhs : Expr) {ts : List Token} (hn : ts.length < n) :
    Viable (MayFollow ts) (links ops tighter lhs) ts (links ops tighter lhs ts)
  list {ts : List Token} (hn : ts.length < n) : Viable (fun _ => True) list ts (list ts)

theorem Viables.zero : Viables 0 where
  chain _ _ hn := absurd hn (Nat.not_lt_zero _)
  links _ _ _ _ hn := absurd hn (Nat.not_lt_zero _)
  list hn := absurd hn (Nat.not_lt_zero _)

namespace Viables

variable {n : Nat} (ih : Viables n) {ts : List Token}
include ih

theorem arguments (hn : ts.length < n) : Viable (fun _ => True) arguments ts (Layered.arguments ts) := by
  by_cases hclose : (look ts).isChar ")" = true
  · obtain ⟨t, us, rfl⟩ := exists_cons_of_look (Token.not_end_of_isChar hclose)
    rw [look_cons] at hclose
    have hread (vs : List Token) : Layered.arguments (t :: vs) = .ok ([], t) vs := by
      rw [arguments_eq, peek_bind, look_cons, if_pos hclose]
      rfl
    rw [hread us]
    exact .ok [t] rfl fun vs _ => hread vs
  · have hlist := ih.list hn
    have heq : Layered.arguments ts = Layered.list ts := by
      rw [arguments_eq, peek_bind, if_neg hclose]
    rw [heq]
    generalize Layered.list ts = r at hlist
    cases hlist with
    | ok c hsplit hagain =>
      exact .ok c hsplit fun vs hvs => arguments_of_list (hagain vs hvs)
    | error c hsplit hfound hcompletes =>
      obtain ⟨ws, hws, hread⟩ := hcompletes
      refine .error c hsplit hfound ⟨ws, hws, fun us vs hus hvs => ⟨trivial, ?_⟩⟩
      obtain ⟨-, a, ha⟩ := hread us vs hus hvs
      exact ⟨a, arguments_of_list ha⟩

theorem call (t : Token) (hn : ts.length < n) :
    let call : Reading Expr := do
      let (args, close) ← Layered.arguments
      return .call t.lexeme args (some ⟨t.location, close.location⟩)
    Viable (fun _ => True) call ts (call ts) :=
  (ih.arguments hn).bind (.nothing fun _ _ _ => ⟨_, rfl⟩) fun _ _ _ => .pure _

theorem parenthesized (t : Token) (hn : ts.length < n) :
    let inner : Reading Expr := do
      let e ← comparison
      let close ← peek
      if close.isChar ")" then
        skip
        return e
      else throw (.unclosedParen close (some t.location))
    Viable (fun _ => True) inner ts (inner ts) := by
  have hclose (e : Expr) (u : Token) (vs : List Token) (hu : u.isChar ")" = true) : (do
      let close ← peek
      if close.isChar ")" then
        skip
        return e
      else throw (.unclosedParen close (some t.location)) : Reading Expr) (u :: vs) = .ok e vs := by
    rw [peek_bind, look_cons, if_pos hu]
    rfl
  refine (ih.chain (List.Subset.refl _) hn).bind
    (.close fun e u vs hu => ⟨e, hclose e u vs hu⟩) fun e us _ => ?_
  by_cases hu : (look us).isChar ")" = true
  · obtain ⟨u, vs, rfl⟩ := exists_cons_of_look (Token.not_end_of_isChar hu)
    rw [hclose e u vs hu]
    exact .ok [u] rfl fun ws _ => hclose e u ws hu
  · rw [peek_bind, if_neg hu]
    exact .error [] rfl rfl (.close fun u vs hu => ⟨e, hclose e u vs hu⟩)

theorem primary_succ (hn : ts.length < n + 1) :
    Viable (fun _ => True) primary ts (primary ts) := by
  have hzero : Completes (fun _ => True) primary [] :=
    .zero fun u vs hk hu _ => ⟨_, primary_of_number hk hu vs⟩
  by_cases hnumber : (look ts).kind = .number
  · obtain ⟨t, us, rfl⟩ := exists_cons_of_look (Token.not_end_of_kind hnumber (by decide))
    rw [look_cons] at hnumber
    cases hv : literal (tokenNumber t) with
    | ok v =>
      rw [primary_of_number hnumber hv]
      exact .ok [t] rfl fun vs _ => primary_of_number hnumber hv vs
    | error reason =>
      have hread : primary (t :: us) = .error (.invalidNumber t reason) (t :: us) := by
        rw [primary_eq, peek_bind, look_cons, if_pos hnumber, hv]
        rfl
      rw [hread]
      exact .error [] rfl rfl hzero
  by_cases hname : (look ts).kind = .identifier
  · obtain ⟨t, us, rfl⟩ := exists_cons_of_look (Token.not_end_of_kind hname (by decide))
    rw [look_cons] at hnumber hname
    by_cases hparen : (look us).isChar "(" = true
    · obtain ⟨p, vs, rfl⟩ := exists_cons_of_look (Token.not_end_of_isChar hparen)
      rw [look_cons] at hparen
      have hread (ws : List Token) : primary (t :: p :: ws) = (do
          let (args, close) ← Layered.arguments
          return .call t.lexeme args (some ⟨t.location, close.location⟩) : Reading Expr) ws := by
        rw [primary_eq, peek_bind, look_cons, if_neg hnumber, if_pos hname, skip_bind,
          List.tail_cons, peek_bind, look_cons, if_pos hparen]
        rfl
      have hlt : vs.length < n := by
        simp only [List.length_cons] at hn
        omega
      rw [hread]
      exact .step (y := fun ws => primary (t :: ws)) (fun _ => rfl) (fun _ => trivial)
        (.step hread (fun _ => trivial) (ih.call t hlt))
    · have hread (ws : List Token) (hws : (look ws).isChar "(" = false) :
          primary (t :: ws) = .ok (.var t.lexeme (some ⟨t.location, t.location⟩)) ws := by
        rw [primary_eq, peek_bind, look_cons, if_neg hnumber, if_pos hname, skip_bind,
          List.tail_cons, peek_bind, if_neg (by simp [hws])]
        rfl
      have hus : (look us).isChar "(" = false := by simpa using hparen
      rw [hread us hus]
      exact .ok [t] rfl fun vs hvs => hread vs (hvs.not_open hus)
  by_cases hparen : (look ts).isChar "(" = true
  · obtain ⟨t, us, rfl⟩ := exists_cons_of_look (Token.not_end_of_isChar hparen)
    rw [look_cons] at hnumber hname hparen
    have hread (ws : List Token) : primary (t :: ws) = (do
        let e ← comparison
        let close ← peek
        if close.isChar ")" then
          skip
          return e
        else throw (.unclosedParen close (some t.location)) : Reading Expr) ws := by
      rw [primary_eq, peek_bind, look_cons, if_neg hnumber, if_neg hname, if_pos hparen]
      rfl
    rw [hread]
    exact .step hread (fun _ => trivial) (ih.parenthesized t (by simpa using hn))
  · have hread : primary ts = .error (.invalidExpression (look ts)) ts := by
      rw [primary_eq, peek_bind, if_neg hnumber, if_neg hname, if_neg hparen]
      rfl
    rw [hread]
    exact .error [] rfl rfl hzero

theorem chain_succ {gs : List (List String)} (hgs : gs ⊆ layers) (hn : ts.length < n + 1) :
    Viable (fun _ => True) (Layered.chain gs) ts (Layered.chain gs ts) := by
  induction gs with
  | nil =>
    rw [chain_nil]
    exact ih.primary_succ hn
  | cons ops tighter ihgs =>
    obtain ⟨hops, htighter⟩ := List.cons_subset.1 hgs
    rw [chain_cons]
    refine (ihgs htighter).bind (.nothing fun lhs vs hvs => ?_) fun lhs us hread => ?_
    · exact ⟨lhs, links_of_not lhs (not_isOneOf_of_ends hops hvs)⟩
    · have hlt := chain_length_lt hread
      exact ih.links hops htighter lhs (by omega)

theorem links_succ {ops : List String} {tighter : List (List String)} (hops : ops ∈ layers)
    (htighter : tighter ⊆ layers) (lhs : Expr) (hn : ts.length < n + 1) :
    Viable (MayFollow ts) (Layered.links ops tighter lhs) ts (Layered.links ops tighter lhs ts) := by
  by_cases hop : (look ts).isOneOf ops = true
  · obtain ⟨t, us, rfl⟩ := exists_cons_of_look (Token.not_end_of_isOneOf hop)
    have hread (vs : List Token) : Layered.links ops tighter lhs (t :: vs) =
        (Layered.chain tighter >>= fun rhs =>
          Layered.links ops tighter (.binary t.lexeme lhs rhs (joinSpans lhs rhs))) vs :=
      links_of_operator lhs hop
    have hlt : us.length < n := by simpa using hn
    rw [hread]
    refine .step hread (fun vs => .inl rfl) ((ih.chain htighter hlt).bind ?_ fun rhs vs hvs => ?_)
    · exact .nothing fun rhs vs hvs => ⟨_, links_of_not _ (not_isOneOf_of_ends hops hvs)⟩
    · have hlt' := chain_length_lt hvs
      exact ih.links hops htighter _ (by omega)
  · have hnot : (look ts).isOneOf ops = false := by simpa using hop
    rw [links_of_not lhs hnot]
    refine .ok [] rfl fun vs hvs => ?_
    obtain heq | hends := hvs
    · exact links_of_not lhs (heq ▸ hnot)
    · exact links_of_not lhs (not_isOneOf_of_ends hops hends)

theorem listRest (e : Expr) (hn : ts.length < n + 1) :
    Viable (MayFollow ts) (Layered.listRest e) ts (Layered.listRest e ts) := by
  by_cases hclose : (look ts).isChar ")" = true
  · obtain ⟨t, us, rfl⟩ := exists_cons_of_look (Token.not_end_of_isChar hclose)
    rw [look_cons] at hclose
    rw [listRest_close e hclose]
    exact .ok [t] rfl fun vs _ => listRest_close e hclose vs
  by_cases hcomma : (look ts).isChar "," = true
  · obtain ⟨t, us, rfl⟩ := exists_cons_of_look (Token.not_end_of_isChar hcomma)
    rw [look_cons] at hclose hcomma
    have hread (vs : List Token) : Layered.listRest e (t :: vs) = (do
        let (es, close) ← Layered.list
        return (e :: es, close) : Reading (List Expr × Token)) vs := by
      rw [Layered.listRest, peek_bind, look_cons, if_neg hclose, if_pos hcomma]
      rfl
    have hlt : us.length < n := by simpa using hn
    rw [hread]
    exact .step hread (fun vs => .inl rfl)
      ((ih.list hlt).bind (.nothing fun _ _ _ => ⟨_, rfl⟩) fun _ _ _ => .pure _)
  · have hread : Layered.listRest e ts = .error (.unexpectedToken argumentsExpected (look ts)) ts := by
      rw [Layered.listRest, peek_bind, if_neg hclose, if_neg hcomma]
      rfl
    rw [hread]
    exact .error [] rfl rfl (.close fun t vs ht => ⟨_, listRest_close e ht vs⟩)

theorem list_succ (hn : ts.length < n + 1) :
    Viable (fun _ => True) Layered.list ts (Layered.list ts) := by
  rw [list_eq_bind]
  refine (ih.chain_succ (List.Subset.refl _) hn).bind
    (.close fun e t vs ht => ⟨_, listRest_close e ht vs⟩) fun e us hread => ?_
  have hlt := chain_length_lt hread
  exact ih.listRest e (by omega)

end Viables

theorem viables (n : Nat) : Viables n := by
  induction n with
  | zero => exact .zero
  | succ n ih =>
    exact {
      chain := fun hgs _ hn => ih.chain_succ hgs hn
      links := fun hops htighter lhs _ hn => ih.links_succ hops htighter lhs hn
      list := fun hn => ih.list_succ hn }

theorem comparison_viable (ts : List Token) :
    Viable (fun _ => True) comparison ts (comparison ts) :=
  (viables _).chain (List.Subset.refl _) (Nat.lt_succ_self _)

end Layered

end ExprCompiler
