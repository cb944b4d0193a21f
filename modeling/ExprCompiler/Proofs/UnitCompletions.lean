import ExprCompiler.Proofs.Completions
import ExprCompiler.Proofs.Relocation

/-!
# Units can be completed

Where an error is met in a unit, its keyword, the rest of its prototype or its
body may be missing. What has been read in front of the error, with the words
that are missing behind it, is a unit.
-/

namespace ExprCompiler

open ExprCompiler.Expr (Ends)

namespace Layered

section

variable {ts us vs : List Token} {t : Token}

def Completable {α : Type} (x : Reading α) (ts : List Token) : Prop :=
  ∀ e us, x ts = .error e us →
    ∃ c, ts = c ++ us ∧ look us = e.token ∧ Completes (fun _ => True) x c

theorem comparison_completable (ts : List Token) : Completable comparison ts := by
  intro e us h
  have hviable := comparison_viable ts
  rw [h] at hviable
  cases hviable with
  | error c hsplit hfound hcompletes => exact ⟨c, hsplit, hfound, hcompletes⟩

theorem prototype_of_parts {name opening close : Token} {ns : List Token}
    (hname : name.kind = .identifier) (hopening : opening.isChar "(" = true)
    (hns : ∀ n ∈ ns, isName n = true) (hclose : close.isChar ")" = true) (vs : List Token) :
    ∃ p, prototype (name :: opening :: (ns ++ close :: vs)) = .ok p vs := by
  have hnot : ¬ isName close = true := by
    simp [isName, Token.kind_of_isChar hclose]
  have hparameters : parameters (ns ++ close :: vs) = .ok (ns.map Token.lexeme) (close :: vs) := by
    rw [parameters, List.takeWhile_append_of_pos hns, List.dropWhile_append_of_pos hns,
      List.takeWhile_cons_of_neg hnot, List.dropWhile_cons_of_neg hnot, List.append_nil]
  unfold prototype
  rw [peek_bind, look_cons, if_pos hname, skip_bind, List.tail_cons, peek_bind, look_cons,
    if_pos hopening, skip_bind, List.tail_cons, bind_eq_ok hparameters, peek_bind, look_cons,
    if_pos hclose]
  exact ⟨_, rfl⟩

def prototypeWords : List String := ["f", "(", ")"]

theorem word_of_mem_prototypeWords : ∀ w ∈ prototypeWords, ∃ l, Word w l := by
  refine List.forall_mem_cons.2 ⟨⟨_, Identifier.word_ofWord ⟨'f', [], rfl, rfl, nofun⟩⟩, ?_⟩
  refine List.forall_mem_cons.2 ⟨⟨_, word_of_mem_signs (by decide)⟩, word_close⟩

inductive PrototypeFront : List Token → EStateM.Result ParseError (List Token) Prototype → Prop
  | nothing {ts : List Token} {e : ParseError} (found : look ts = e.token) :
    PrototypeFront ts (.error e ts)
  | name {name : Token} {us : List Token} {e : ParseError} (hname : name.kind = .identifier)
    (found : look us = e.token) : PrototypeFront (name :: us) (.error e us)
  | params {name opening : Token} {ns us : List Token} {e : ParseError}
    (hname : name.kind = .identifier) (hopening : opening.isChar "(" = true)
    (hns : ∀ n ∈ ns, isName n = true) (found : look us = e.token) :
    PrototypeFront (name :: opening :: (ns ++ us)) (.error e us)
  | whole {name opening close : Token} {ns us : List Token} {p : Prototype}
    (hname : name.kind = .identifier) (hopening : opening.isChar "(" = true)
    (hns : ∀ n ∈ ns, isName n = true) (hclose : close.isChar ")" = true) :
    PrototypeFront (name :: opening :: (ns ++ close :: us)) (.ok p us)

theorem prototype_front (ts : List Token) : PrototypeFront ts (prototype ts) := by
  unfold prototype
  by_cases hname : (look ts).kind = .identifier
  swap
  · rw [peek_bind, if_neg hname]
    exact .nothing rfl
  obtain ⟨name, us, rfl⟩ := exists_cons_of_look (Token.not_end_of_kind hname (by decide))
  rw [look_cons] at hname
  rw [peek_bind, look_cons, if_pos hname, skip_bind, List.tail_cons]
  by_cases hopening : (look us).isChar "(" = true
  swap
  · rw [peek_bind, if_neg hopening]
    exact .name hname rfl
  obtain ⟨opening, vs, rfl⟩ := exists_cons_of_look (Token.not_end_of_isChar hopening)
  rw [look_cons] at hopening
  rw [peek_bind, look_cons, if_pos hopening, skip_bind, List.tail_cons]
  -- The parameters are the names up to the first token that is none.
  obtain ⟨ns, rest, hns, hvs, hparameters⟩ : ∃ ns rest, (∀ n ∈ ns, isName n = true) ∧
      vs = ns ++ rest ∧ parameters vs = .ok (ns.map Token.lexeme) rest :=
    ⟨vs.takeWhile isName, vs.dropWhile isName, fun n hn => List.mem_takeWhile_imp hn,
      List.takeWhile_append_dropWhile.symm, rfl⟩
  rw [bind_eq_ok hparameters, peek_bind, hvs]
  by_cases hclose : (look rest).isChar ")" = true
  swap
  · rw [if_neg hclose]
    exact .params hname hopening hns rfl
  obtain ⟨close, ws, rfl⟩ := exists_cons_of_look (Token.not_end_of_isChar hclose)
  rw [look_cons] at hclose
  rw [look_cons, if_pos hclose]
  exact .whole hname hopening hns hclose

theorem spells_close (h : us.Forall₂ Token.Spells [")"]) :
    ∃ close, us = [close] ∧ close.isChar ")" = true := by
  obtain ⟨close, nothing, hclose, hnothing, rfl⟩ := List.forall₂_cons_right_iff.1 h
  obtain rfl := List.forall₂_nil_right_iff.1 hnothing
  exact ⟨close, rfl, hclose.isChar (by decide)⟩

theorem spells_parentheses (h : us.Forall₂ Token.Spells ["(", ")"]) :
    ∃ opening close, us = [opening, close] ∧ opening.isChar "(" = true ∧
      close.isChar ")" = true := by
  obtain ⟨opening, rest, hopening, hrest, rfl⟩ := List.forall₂_cons_right_iff.1 h
  obtain ⟨close, rfl, hclose⟩ := spells_close hrest
  exact ⟨opening, close, rfl, hopening.isChar (by decide), hclose⟩

theorem prototype_of_words (h : us.Forall₂ Token.Spells prototypeWords) (vs : List Token) :
    ∃ p, prototype (us ++ vs) = .ok p vs := by
  obtain ⟨name, rest, hname, hrest, rfl⟩ := List.forall₂_cons_right_iff.1 h
  obtain ⟨opening, close, rfl, hopening, hclose⟩ := spells_parentheses hrest
  have hkind := (hname.name ⟨'f', [], rfl, rfl, nofun⟩ rfl).1
  exact prototype_of_parts hkind hopening (List.forall_mem_nil _) hclose vs

theorem prototype_error {e : ParseError} (h : prototype ts = .error e us) :
    ∃ c ws, ts = c ++ us ∧ look us = e.token ∧ ws <:+ prototypeWords ∧
      ∀ us vs, us.Forall₂ Token.Spells ws → ∃ p, prototype (c ++ (us ++ vs)) = .ok p vs := by
  have hfront := prototype_front ts
  rw [h] at hfront
  cases hfront with
  | nothing hfound =>
    exact ⟨[], prototypeWords, rfl, hfound, List.suffix_refl _,
      fun us vs hus => prototype_of_words hus vs⟩
  | @name name _ _ hname hfound =>
    refine ⟨[name], ["(", ")"], rfl, hfound, by decide, fun us vs hus => ?_⟩
    obtain ⟨opening, close, rfl, hopening, hclose⟩ := spells_parentheses hus
    exact prototype_of_parts hname hopening (List.forall_mem_nil _) hclose vs
  | @params name opening ns _ _ hname hopening hns hfound =>
    refine ⟨name :: opening :: ns, [")"], rfl, hfound, by decide, fun us vs hus => ?_⟩
    obtain ⟨close, rfl, hclose⟩ := spells_close hus
    exact prototype_of_parts hname hopening hns hclose vs

theorem prototype_again {p : Prototype} (h : prototype ts = .ok p us) :
    ∃ c, ts = c ++ us ∧ ∀ vs, ∃ q, prototype (c ++ vs) = .ok q vs := by
  have hfront := prototype_front ts
  rw [h] at hfront
  cases hfront with
  | @whole name opening close ns _ _ hname hopening hns hclose =>
    refine ⟨name :: opening :: (ns ++ [close]), by simp, fun vs => ?_⟩
    obtain ⟨q, hq⟩ := prototype_of_parts hname hopening hns hclose vs
    exact ⟨q, by simpa using hq⟩

theorem prototype_completable (ts : List Token) : Completable prototype ts := by
  intro e us h
  obtain ⟨c, ws, hsplit, hfound, hws, hread⟩ := prototype_error h
  exact ⟨c, hsplit, hfound, ws, fun w hw => word_of_mem_prototypeWords w (hws.subset hw),
    fun us vs hus _ => ⟨trivial, hread us vs hus⟩⟩

def Supplies {α : Type} (ws : List String) (x : Reading α) : Prop :=
  ∀ us vs, us.Forall₂ Token.Spells ws → Ends vs → ∃ a, x (us ++ vs) = .ok a vs

theorem supplies_comparison : Supplies ["0"] comparison := by
  intro us vs hus hvs
  obtain ⟨t, nothing, ht, hnothing, rfl⟩ := List.forall₂_cons_right_iff.1 hus
  obtain rfl := List.forall₂_nil_right_iff.1 hnothing
  obtain ⟨hkind, hliteral⟩ := Token.Spells.numeral (n := 0) ht (by decide)
  have hread := primary_of_number hkind hliteral vs
  have hrests := rests_of_ends (List.Subset.refl _) (.number 0 (some ⟨t.location, t.location⟩)) hvs
  exact ⟨_, by rw [List.singleton_append, comparison, chain_eq, bind_eq_ok hread]; exact hrests⟩

theorem expected_cons {α : Type} {kind : TokenKind} (h : t.kind = kind) (words : String)
    (k : Token → Reading α) (vs : List Token) : (expected kind words >>= k) (t :: vs) = k t vs := by
  have ht : (look (t :: vs)).kind = kind := h
  exact expected_bind ht words k

/-- A unit that begins with a keyword: what follows is completed as it is, and where the keyword is
missing so is all that follows. -/
theorem keyword_completable {α : Type} {k : Token → Reading α} {kind : TokenKind} {w : String}
    {ws : List String} (hw : keywords.lookup w = some kind) (words : String)
    (hword : Identifier w) (hws : ∀ v ∈ ws, ∃ l, Word v l)
    (hsupplies : ∀ t, Supplies ws (k t)) (hk : ∀ t us, Completable (k t) us) (ts : List Token) :
    Completable (expected kind words >>= k) ts := by
  have hof : (Lexeme.ofWord w.toList).kind = kind := by
    rw [Lexeme.ofWord, String.ofList_toList, hw]
  have hmore : kind ≠ .endOfInput := hof ▸ Lexeme.kind_ofWord_ne_endOfInput _
  intro e us h
  by_cases ht : (look ts).kind = kind
  · obtain ⟨t, vs, rfl⟩ := exists_cons_of_look (ht ▸ hmore)
    rw [look_cons] at ht
    rw [expected_cons ht] at h
    obtain ⟨c, hsplit, hfound, ws', hws', hread⟩ := hk _ _ e us h
    refine ⟨t :: c, by rw [List.cons_append, ← hsplit], hfound, ws', hws',
      fun us vs hus hvs => ⟨trivial, ?_⟩⟩
    obtain ⟨-, a, ha⟩ := hread us vs hus hvs
    exact ⟨a, by rw [List.cons_append, expected_cons ht, ha]⟩
  · have hthrow : (expected kind words >>= k) ts = .error (.unexpectedToken words (look ts)) ts := by
      rw [expected, bind_assoc, peek_bind, if_neg ht]
      rfl
    rw [hthrow] at h
    cases h
    refine ⟨[], rfl, rfl, w :: ws, List.forall_mem_cons.2 ⟨⟨_, hword.word_ofWord⟩, hws⟩,
      fun us vs hus hvs => ⟨trivial, ?_⟩⟩
    obtain ⟨t, rest, ht, hrest, rfl⟩ := List.forall₂_cons_right_iff.1 hus
    have hkind : t.kind = kind := by
      rw [hword.word_ofWord.eq_of_spells ht]
      exact hof
    obtain ⟨a, ha⟩ := hsupplies t rest vs hrest hvs
    exact ⟨a, by rw [List.nil_append, List.cons_append, expected_cons hkind, ha]⟩

theorem external_completable (ts : List Token) : Completable external ts :=
  keyword_completable (w := "extern") rfl _
    ⟨'e', ['x', 't', 'e', 'r', 'n'], rfl, rfl, List.all_eq_true.1 rfl⟩
    word_of_mem_prototypeWords (fun _ _ vs hus _ => prototype_of_words hus vs)
    (fun _ us => prototype_completable us) ts

def definitionFrom (start : Token) : Reading Definition := do
  let proto ← prototype
  let body ← comparison
  let next ← peek
  return ⟨proto, body, some ⟨start.location, next.location⟩⟩

theorem definitionFrom_of_parts {p : Prototype} {e : Expr} (hp : prototype ts = .ok p us)
    (he : comparison us = .ok e vs) (start : Token) : ∃ d, definitionFrom start ts = .ok d vs :=
  ⟨_, by rw [definitionFrom, bind_eq_ok hp, bind_eq_ok he, peek_bind]; rfl⟩

theorem word_zero : ∃ l, Word "0" l := ⟨_, word_numeral 0⟩

theorem definitionFrom_completable (start : Token) (ts : List Token) :
    Completable (definitionFrom start) ts := by
  intro e us h
  cases hp : prototype ts with
  | error e' us' =>
    rw [definitionFrom, bind_eq_error hp] at h
    cases h
    obtain ⟨c, ws, hsplit, hfound, hws, hread⟩ := prototype_error hp
    refine ⟨c, hsplit, hfound, ws ++ ["0"], ?_, fun us vs hus hvs => ⟨trivial, ?_⟩⟩
    · refine List.forall_mem_append.2 ⟨fun w hw => ?_, List.forall_mem_singleton.2 word_zero⟩
      exact word_of_mem_prototypeWords w (hws.subset hw)
    · obtain ⟨as, bs, rfl, has, hbs⟩ := exists_of_spells_append hus
      obtain ⟨p, hp⟩ := hread as (bs ++ vs) has
      obtain ⟨e, he⟩ := supplies_comparison bs vs hbs hvs
      rw [List.append_assoc]
      exact definitionFrom_of_parts hp he start
  | ok p us' =>
    rw [definitionFrom, bind_eq_ok hp] at h
    cases he : comparison us' with
    | ok body vs =>
      rw [bind_eq_ok he, peek_bind] at h
      cases h
    | error e' vs =>
      rw [bind_eq_error he] at h
      cases h
      obtain ⟨c, hsplit, hagain⟩ := prototype_again hp
      obtain ⟨c', hsplit', hfound, ws, hws, hread⟩ := comparison_completable us' e us he
      refine ⟨c ++ c', by rw [hsplit, hsplit', List.append_assoc], hfound, ws, hws,
        fun us vs hus hvs => ⟨trivial, ?_⟩⟩
      obtain ⟨p, hp⟩ := hagain (c' ++ (us ++ vs))
      obtain ⟨-, e, he⟩ := hread us vs hus hvs
      rw [List.append_assoc]
      exact definitionFrom_of_parts hp he start

theorem definition_completable (ts : List Token) : Completable definition ts := by
  have hwords : ∀ w ∈ prototypeWords ++ ["0"], ∃ l, Word w l :=
    List.forall_mem_append.2
      ⟨word_of_mem_prototypeWords, List.forall_mem_singleton.2 word_zero⟩
  refine keyword_completable (w := "def") (k := definitionFrom) rfl _
    ⟨'d', ['e', 'f'], rfl, rfl, List.all_eq_true.1 rfl⟩ hwords (fun start us vs hus hvs => ?_)
    definitionFrom_completable ts
  obtain ⟨as, bs, rfl, has, hbs⟩ := exists_of_spells_append hus
  obtain ⟨p, hp⟩ := prototype_of_words has (bs ++ vs)
  obtain ⟨e, he⟩ := supplies_comparison bs vs hbs hvs
  rw [List.append_assoc]
  exact definitionFrom_of_parts hp he start

theorem bareExpression_of_comparison {e : Expr} (h : comparison ts = .ok e us) (number : Nat) :
    ∃ d, bareExpression number ts = .ok d us :=
  ⟨_, by rw [bareExpression, peek_bind, bind_eq_ok h, peek_bind]; rfl⟩

theorem bareExpression_completable (number : Nat) (ts : List Token) :
    Completable (bareExpression number) ts := by
  intro e us h
  cases he : comparison ts with
  | ok body vs =>
    obtain ⟨d, hd⟩ := bareExpression_of_comparison he number
    rw [hd] at h
    cases h
  | error e' vs =>
    rw [bareExpression, peek_bind, bind_eq_error he] at h
    cases h
    obtain ⟨c, hsplit, hfound, ws, hws, hread⟩ := comparison_completable ts e us he
    refine ⟨c, hsplit, hfound, ws, hws, fun us vs hus hvs => ⟨trivial, ?_⟩⟩
    obtain ⟨-, body, hbody⟩ := hread us vs hus hvs
    exact bareExpression_of_comparison hbody number

end

end Layered

end ExprCompiler
