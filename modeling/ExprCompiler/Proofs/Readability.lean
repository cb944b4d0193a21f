import ExprCompiler.Proofs.Words

/-!
# Unique readability

The printed form of a unit tells all of it but the spans. Operators and calls
stand between parentheses, names and numerals go on up to a character that is
no part of a word; so in a longer text, too, the printed form of an expression
tells where it ends.
-/

namespace ExprCompiler

open ExprCompiler.Lexer (toList_intercalate_cons)

section

variable {p : Char → Bool} {cs ds rest rest' : List Char}

theorem run_append_inj (hcs : ∀ c ∈ cs, p c = true) (hds : ∀ c ∈ ds, p c = true)
    (h : Stops p rest) (h' : Stops p rest') (heq : cs ++ rest = ds ++ rest') :
    cs = ds ∧ rest = rest' := by
  have hrun : cs = ds := by
    rw [← h.takeWhile_append hcs, heq, h'.takeWhile_append hds]
  subst hrun
  exact ⟨rfl, List.append_cancel_left heq⟩

theorem stops_spaced {α : Type} (f : α → List Char) (as : List α) (rest : List Char) :
    Stops isWordChar ((as.flatMap fun a => ' ' :: f a) ++ ')' :: rest) := by
  cases as with
  | nil => exact stops_cons rfl _
  | cons a as => exact stops_cons rfl _

theorem spaced_append_inj {α : Type} {R : α → α → Prop} {f : α → List Char} {as bs : List α}
    (h : ∀ a ∈ as, ∀ b ∈ bs, ∀ rest rest', Stops isWordChar rest → Stops isWordChar rest' →
      f a ++ rest = f b ++ rest' → R a b ∧ rest = rest')
    (heq : (as.flatMap fun a => ' ' :: f a) ++ ')' :: rest =
      (bs.flatMap fun b => ' ' :: f b) ++ ')' :: rest') :
    List.Forall₂ R as bs ∧ rest = rest' := by
  induction as generalizing bs with
  | nil =>
    cases bs with
    | nil => exact ⟨.nil, (List.cons.inj heq).2⟩
    | cons b bs => cases heq
  | cons a as ih =>
    cases bs with
    | nil => cases heq
    | cons b bs =>
      simp only [List.flatMap_cons, List.cons_append, List.append_assoc, List.cons.injEq,
        true_and] at heq
      obtain ⟨hab, hrest⟩ := h a List.mem_cons_self b List.mem_cons_self _ _
        (stops_spaced f as rest) (stops_spaced f bs rest') heq
      obtain ⟨hall, hsame⟩ := ih (fun a ha b hb => h a (List.mem_cons_of_mem _ ha) b
        (List.mem_cons_of_mem _ hb)) hrest
      exact ⟨.cons hab hall, hsame⟩

end

theorem identifier_append_inj {m n : String} {rest rest' : List Char} (hm : Identifier m)
    (hn : Identifier n) (h : Stops isWordChar rest) (h' : Stops isWordChar rest')
    (heq : m.toList ++ rest = n.toList ++ rest') : m = n ∧ rest = rest' := by
  obtain ⟨hnames, hrest⟩ := run_append_inj hm.all_wordChar hn.all_wordChar h h' heq
  exact ⟨String.toList_inj.1 hnames, hrest⟩

namespace Expr

inductive Shape
  | numeral
  | name
  | enclosed
  deriving DecidableEq

def Shape.ofFront (c : Char) : Shape :=
  if Decimal.isDigit c then .numeral else if isLetter c then .name else .enclosed

def shape : Expr → Shape
  | number .. => .numeral
  | var .. => .name
  | _ => .enclosed

section

variable {d e l r : Expr} {op c n : String} {args : List Expr} {s : Option Span} {v : Int}

theorem toList_number (k : Nat) (s : Option Span) :
    (number k s).text.toList = Nat.toDigits 10 k := by
  rw [text, ← Nat.toList_repr]
  rfl

theorem toList_binary (op : String) (l r : Expr) (s : Option Span) :
    (binary op l r s).text.toList =
      '(' :: (op.toList ++ ' ' :: (l.text.toList ++ ' ' :: (r.text.toList ++ [')']))) := by
  simp [text]

theorem Grammatical.front (h : e.Grammatical) :
    ∃ c cs, e.text.toList = c :: cs ∧ Shape.ofFront c = e.shape := by
  cases e with
  | number v s =>
    obtain ⟨k, rfl⟩ := Int.eq_ofNat_of_zero_le h.1
    obtain ⟨c, cs, hdigits⟩ := List.exists_cons_of_ne_nil (Nat.toDigits_ne_nil (b := 10) (n := k))
    have hc := digits_toDigits k c (hdigits ▸ List.mem_cons_self)
    exact ⟨c, cs, by rw [toList_number, hdigits], by rw [Shape.ofFront, if_pos hc]; rfl⟩
  | var n s =>
    obtain ⟨c, cs, hn, hc, -⟩ := h
    have hletter := isLetter_iff.1 hc
    have hdigit : ¬ Decimal.isDigit c = true := by
      rw [isDigit_iff]
      omega
    exact ⟨c, cs, hn, by rw [Shape.ofFront, if_neg hdigit, if_pos hc]; rfl⟩
  | binary op l r s => exact ⟨_, _, toList_binary op l r s, rfl⟩
  | call c args s =>
    have hfront : ∃ cs, (call c args s).text.toList = '(' :: cs := by
      rw [text, callText]
      simp only [String.toList_append, List.append_assoc]
      exact ⟨_, rfl⟩
    obtain ⟨cs, hcs⟩ := hfront
    exact ⟨_, cs, hcs, rfl⟩
  | stray d => exact h.elim

theorem shape_eq (hd : d.Grammatical) (he : e.Grammatical) {rest rest' : List Char}
    (h : d.text.toList ++ rest = e.text.toList ++ rest') : d.shape = e.shape := by
  obtain ⟨c, cs, hc, hshape⟩ := hd.front
  obtain ⟨b, bs, hb, hshape'⟩ := he.front
  rw [hc, hb] at h
  obtain ⟨rfl, -⟩ := List.cons.inj h
  exact hshape.symm.trans hshape'

theorem Grammatical.text_ne_empty (h : e.Grammatical) : e.text ≠ "" := by
  obtain ⟨c, cs, hc, -⟩ := h.front
  intro hempty
  rw [hempty] at hc
  cases hc

theorem texts_eq_map (es : List Expr) : texts es = es.map text := by
  induction es with
  | nil => rfl
  | cons e es ih => rw [texts, ih, List.map_cons]

theorem grammatical_of_mem {es : List Expr} (h : AllGrammatical es) : ∀ e ∈ es, e.Grammatical := by
  induction es with
  | nil => exact nofun
  | cons e es ih => exact List.forall_mem_cons.2 ⟨h.1, ih h.2⟩

theorem toList_call (hargs : AllGrammatical args) :
    (call c args s).text.toList =
      "(call ".toList ++ (c.toList ++ ((args.flatMap fun a => ' ' :: a.text.toList) ++ [')'])) := by
  cases args with
  | nil => simp [text, callText, texts]
  | cons a as =>
    have hrendered : " ".intercalate (texts (a :: as)) ≠ "" := by
      intro hempty
      have hlist := congrArg String.toList hempty
      rw [texts, toList_intercalate_cons] at hlist
      exact hargs.1.text_ne_empty (String.toList_inj.1 (List.append_eq_nil_iff.1 hlist).1)
    rw [text, callText, if_neg hrendered, texts, texts_eq_map]
    simp only [String.toList_append, toList_intercalate_cons, List.flatMap_map, List.flatMap_cons,
      List.append_assoc]
    rfl

/-! ### Where the text of an expression ends -/

/-- Whatever follows it, the text of this expression tells where it ends, and the expression but its
spans. -/
def Readable (d : Expr) : Prop :=
  ∀ e rest rest', Grammatical e → Stops isWordChar rest → Stops isWordChar rest' →
    d.text.toList ++ rest = e.text.toList ++ rest' → d.alike e = true ∧ rest = rest'

theorem readable_number (h : (number v s).Grammatical) : (number v s).Readable := by
  intro e rest rest' he hrest hrest' heq
  have hshape := shape_eq h he heq
  cases e with
  | number w t =>
    obtain ⟨k, rfl⟩ := Int.eq_ofNat_of_zero_le h.1
    obtain ⟨j, rfl⟩ := Int.eq_ofNat_of_zero_le he.1
    have hall (k : Nat) : ∀ c ∈ Nat.toDigits 10 k, isWordChar c = true := fun c hc => by
      simp [isWordChar, digits_toDigits k c hc]
    rw [toList_number, toList_number] at heq
    obtain ⟨hdigits, hsame⟩ := run_append_inj (hall k) (hall j) hrest hrest' heq
    exact ⟨by simp [alike, IR.toDigits_injective hdigits], hsame⟩
  | _ => cases hshape

theorem readable_var (h : (var n s).Grammatical) : (var n s).Readable := by
  intro e rest rest' he hrest hrest' heq
  have hshape := shape_eq h he heq
  cases e with
  | var m t =>
    obtain ⟨rfl, hsame⟩ := identifier_append_inj h he hrest hrest' heq
    exact ⟨by simp [alike], hsame⟩
  | _ => cases hshape

theorem exists_of_operator (h : op ∈ operatorPrecedence.map Prod.fst) :
    ∃ b, op.toList = [b] ∧ b ≠ 'c' := by
  simp only [operatorPrecedence, List.map_cons, List.map_nil, List.mem_cons, List.not_mem_nil,
    or_false] at h
  obtain rfl | rfl | rfl | rfl := h
  · exact ⟨'<', rfl, by decide⟩
  · exact ⟨'+', rfl, by decide⟩
  · exact ⟨'-', rfl, by decide⟩
  · exact ⟨'*', rfl, by decide⟩

theorem binary_ne_call (h : (binary op l r s).Grammatical) (hargs : AllGrammatical args)
    {t : Option Span} {rest rest' : List Char} :
    (binary op l r s).text.toList ++ rest ≠ (call c args t).text.toList ++ rest' := by
  obtain ⟨b, hb, hne⟩ := exists_of_operator h.1
  rw [toList_binary, toList_call hargs, hb]
  intro heq
  exact hne (List.cons.inj (List.cons.inj heq).2).1

theorem readable_binary (h : (binary op l r s).Grammatical) (hl : l.Readable) (hr : r.Readable) :
    (binary op l r s).Readable := by
  intro e rest rest' he hrest hrest' heq
  have hshape := shape_eq h he heq
  cases e with
  | number | var => cases hshape
  | stray => exact he.elim
  | call => exact absurd heq (binary_ne_call h he.2)
  | binary p m q t =>
    obtain ⟨b, hb, -⟩ := exists_of_operator h.1
    obtain ⟨a, ha, -⟩ := exists_of_operator he.1
    simp only [toList_binary, hb, ha, List.cons_append, List.nil_append, List.append_assoc,
      List.cons.injEq, true_and] at heq
    obtain ⟨hop, heq⟩ := heq
    obtain ⟨hleft, heq⟩ := hl m _ _ he.2.1 (stops_cons rfl _) (stops_cons rfl _) heq
    obtain ⟨hright, heq⟩ := hr q _ _ he.2.2 (stops_cons rfl _) (stops_cons rfl _)
      (List.cons.inj heq).2
    have hsame : op = p := String.toList_inj.1 (by rw [hb, ha, hop])
    exact ⟨by simp [alike, hsame, hleft, hright], (List.cons.inj heq).2⟩

theorem allAlike_of_forall₂ {as bs : List Expr} (h : as.Forall₂ (fun a b => a.alike b = true) bs) :
    allAlike as bs = true := by
  induction h with
  | nil => rfl
  | cons h _ ih => simp [allAlike, h, ih]

theorem readable_call (h : (call c args s).Grammatical) (hargs : ∀ a ∈ args, a.Readable) :
    (call c args s).Readable := by
  intro e rest rest' he hrest hrest' heq
  have hshape := shape_eq h he heq
  cases e with
  | number | var => cases hshape
  | stray => exact he.elim
  | binary => exact absurd heq.symm (binary_ne_call he h.2)
  | call b bs t =>
    have hstops := stops_spaced fun a : Expr => a.text.toList
    simp only [toList_call h.2, toList_call he.2, List.append_assoc, List.append_cancel_left_eq,
      List.singleton_append] at heq
    obtain ⟨rfl, hrests⟩ := identifier_append_inj h.1 he.1 (hstops _ _) (hstops _ _) heq
    obtain ⟨hall, hsame⟩ := spaced_append_inj
      (fun a ha b hb rest rest' => hargs a ha b rest rest' (grammatical_of_mem he.2 b hb)) hrests
    exact ⟨by simp [alike, allAlike_of_forall₂ hall], hsame⟩

mutual

/-- Every expression in the grammar is readable. -/
theorem readable_of_grammatical : (d : Expr) → d.Grammatical → d.Readable
  | .number _ _, h => readable_number h
  | .var _ _, h => readable_var h
  | .binary _ l r _, h =>
    readable_binary h (readable_of_grammatical l h.2.1) (readable_of_grammatical r h.2.2)
  | .call _ args _, h => readable_call h (readable_of_all args h.2)
  | .stray _, h => h.elim

theorem readable_of_all : (as : List Expr) → AllGrammatical as → ∀ a ∈ as, a.Readable
  | [], _ => nofun
  | a :: as, h => List.forall_mem_cons.2 ⟨readable_of_grammatical a h.1, readable_of_all as h.2⟩

end

end

end Expr

/-! ### Units -/

theorem params_append_inj {ps qs : List String} {rest rest' : List Char}
    (hps : ∀ n ∈ ps, Identifier n) (hqs : ∀ n ∈ qs, Identifier n)
    (heq : (" ".intercalate ps).toList ++ ')' :: rest =
      (" ".intercalate qs).toList ++ ')' :: rest') : ps = qs ∧ rest = rest' := by
  have hclose {n : String} (ns : List String) (hn : Identifier n) (rest rest' : List Char) :
      (" ".intercalate []).toList ++ ')' :: rest ≠
        (" ".intercalate (n :: ns)).toList ++ ')' :: rest' := by
    obtain ⟨c, cs, hchars, hc, -⟩ := hn
    rw [toList_intercalate_cons, hchars]
    intro h
    rw [← (List.cons.inj h).1] at hc
    cases hc
  cases ps with
  | nil =>
    cases qs with
    | nil => exact ⟨rfl, (List.cons.inj heq).2⟩
    | cons q qs => exact absurd heq (hclose qs (hqs q List.mem_cons_self) rest rest')
  | cons p ps =>
    cases qs with
    | nil => exact absurd heq.symm (hclose ps (hps p List.mem_cons_self) rest' rest)
    | cons q qs =>
      -- With a space in front, too, all names are written alike.
      rw [toList_intercalate_cons, toList_intercalate_cons] at heq
      have hspaced : ((p :: ps).flatMap fun n => ' ' :: n.toList) ++ ')' :: rest =
          ((q :: qs).flatMap fun n => ' ' :: n.toList) ++ ')' :: rest' := congrArg (' ' :: ·) heq
      obtain ⟨hall, hsame⟩ := spaced_append_inj (R := Eq)
        (fun a ha b hb rest rest' => identifier_append_inj (hps a ha) (hqs b hb)) hspaced
      exact ⟨List.forall₂_eq_eq_eq ▸ hall, hsame⟩

namespace Prototype

variable {p q : Prototype}

theorem toList_text (p : Prototype) :
    p.text.toList = p.name.toList ++ '(' :: ((" ".intercalate p.params).toList ++ [')']) := by
  simp only [text, String.toList_append, List.append_assoc]
  rfl

theorem text_append_inj {rest rest' : List Char} (hp : '(' ∉ p.name.toList)
    (hq : '(' ∉ q.name.toList) (hps : ∀ n ∈ p.params, Identifier n)
    (hqs : ∀ n ∈ q.params, Identifier n) (heq : p.text.toList ++ rest = q.text.toList ++ rest') :
    p.alike q = true ∧ rest = rest' := by
  have hrun {n : String} (hn : '(' ∉ n.toList) : ∀ c ∈ n.toList, (c != '(') = true := fun c hc =>
    bne_iff_ne.2 fun h => hn (h ▸ hc)
  simp only [toList_text, List.append_assoc, List.cons_append, List.nil_append] at heq
  obtain ⟨hname, hrest⟩ :=
    run_append_inj (hrun hp) (hrun hq) (stops_cons rfl _) (stops_cons rfl _) heq
  obtain ⟨hparams, hsame⟩ := params_append_inj hps hqs (List.cons.inj hrest).2
  exact ⟨by simp [alike, String.toList_inj.1 hname, hparams], hsame⟩

end Prototype

namespace TopLevel

variable {u v : TopLevel}

theorem Grammatical.paren_not_mem (h : u.Grammatical) : '(' ∉ u.prototype.name.toList := by
  intro hparen
  obtain hname | ⟨k, d, rfl, hname, -⟩ := h.name
  · have hword := hname.all_wordChar '(' hparen
    cases hword
  · have hchars : (definition d).prototype.name.toList =
        anonymousFront.toList ++ '.' :: Nat.toDigits 10 k := by
      rw [← Nat.toList_repr]
      exact (congrArg String.toList hname).trans (by simp [anonymousName])
    rw [hchars] at hparen
    obtain hparen | hparen := List.mem_append.1 hparen
    · exact absurd hparen (by decide)
    · obtain hparen | hparen := List.mem_cons.1 hparen
      · cases hparen
      · exact absurd (digits_toDigits k '(' hparen) (by decide)

theorem definition_text_ne {d : Definition} {p : Prototype} (hp : (external p).Grammatical) :
    d.text ≠ p.text := by
  intro h
  have hname : Identifier p.name := hp.name.resolve_right fun ⟨_, _, he, _⟩ => by cases he
  have hlist := congrArg String.toList h
  have hdef : d.text.toList =
      "def".toList ++ ' ' :: (d.prototype.text ++ " " ++ d.body.text).toList := by
    simp [Definition.text]
  have hrun : "def".toList.all isWordChar = true := by decide
  rw [hdef, Prototype.toList_text] at hlist
  obtain ⟨-, hrest⟩ := run_append_inj (List.all_eq_true.1 hrun) hname.all_wordChar
    (stops_cons rfl _) (stops_cons rfl _) hlist
  cases (List.cons.inj hrest).1

end TopLevel

/-- Units of the same text are of the same kind, and they have the same prototype and the same body,
if spans are left aside. -/
theorem alike_of_text_eq {u v : TopLevel} (hu : u.Parsed) (hv : v.Parsed) (h : u.text = v.text) :
    u.alike v = true := by
  have hg := hu.grammatical
  have hk := hv.grammatical
  cases u with
  | external p =>
    cases v with
    | definition e => exact absurd h.symm (TopLevel.definition_text_ne hg)
    | external q =>
      exact (Prototype.text_append_inj hg.paren_not_mem hk.paren_not_mem hg.params hk.params
        (congrArg (String.toList · ++ []) h)).1
  | definition d =>
    cases v with
    | external q => exact absurd h (TopLevel.definition_text_ne hk)
    | definition e =>
      have hlist := congrArg String.toList h
      simp only [TopLevel.text, Definition.text, String.toList_append, List.append_assoc,
        List.append_cancel_left_eq] at hlist
      obtain ⟨hprototype, hrest⟩ := Prototype.text_append_inj hg.paren_not_mem hk.paren_not_mem
        hg.params hk.params hlist
      have hbodies : d.body.text.toList ++ [] = e.body.text.toList ++ [] :=
        congrArg (· ++ []) (List.append_cancel_left hrest)
      obtain ⟨hbody, -⟩ := Expr.readable_of_grammatical d.body (hg.body d rfl) e.body [] []
        (hk.body e rfl) (stops_nil _) (stops_nil _) hbodies
      exact Bool.and_eq_true_iff.2 ⟨hprototype, hbody⟩

theorem alike_of_text_eq_spaced :
    ∃ u ∈ Parser.unitsOf "def f(x) x*(2+g(x,y))" "input",
      ∃ v ∈ Parser.unitsOf "def f ( x ) (x * ((2+g( x, (y) ))))" "input",
        u.text = v.text ∧ u.alike v = true := by
  have hu : "def f(x) (* x (+ 2 (call g x y)))" ∈
      (Parser.unitsOf "def f(x) x*(2+g(x,y))" "input").map TopLevel.text := by decide +kernel
  have hv : "def f(x) (* x (+ 2 (call g x y)))" ∈
      (Parser.unitsOf "def f ( x ) (x * ((2+g( x, (y) ))))" "input").map TopLevel.text := by
    decide +kernel
  obtain ⟨u, hu, htext⟩ := List.mem_map.1 hu
  obtain ⟨v, hv, htext'⟩ := List.mem_map.1 hv
  have hsame : u.text = v.text := htext.trans htext'.symm
  exact ⟨u, hu, v, hv, hsame, alike_of_text_eq (Parser.parsed_of_mem_unitsOf u hu)
    (Parser.parsed_of_mem_unitsOf v hv) hsame⟩

end ExprCompiler
