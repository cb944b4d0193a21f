import ExprCompiler.Proofs.Tokenization

/-!
# The layout of a text

Between two tokens there are blanks and comments, and it does not matter
which. A text with the lexemes of another text, in the same order and with
separators around them, has the tokens of that text.
-/

namespace ExprCompiler

inductive Separator : List Char → Prop
  | nil : Separator []
  | blank {c : Char} {cs : List Char} (h : Text.isBlank c = true) (hcs : Separator cs) :
    Separator (c :: cs)
  | comment {body cs : List Char} {e : Char} (h : ∀ c ∈ body, c ≠ '\n' ∧ c ≠ '\r')
    (he : e = '\n' ∨ e = '\r') (hcs : Separator cs) : Separator ('#' :: (body ++ e :: cs))

/-- The words of a text, with a separator in front of them and one behind each of them. -/
def spread (first : String) (words gaps : List String) : String :=
  first ++ String.join (List.zipWith (· ++ ·) words gaps)

def Parted (rest : List Char) : Prop := ∀ d ∈ rest.head?, Text.isBlank d = true ∨ d = '#'

theorem isBlank_of_lineEnd {e : Char} (h : e = '\n' ∨ e = '\r') : Text.isBlank e = true := by
  obtain rfl | rfl := h
  · exact Text.isBlank_newline
  · exact Text.isBlank_return

namespace Separator

variable {cs : List Char}

theorem gap (h : Separator cs) (rest : List Char) : Gap rest cs := by
  induction h with
  | nil => exact .nil
  | blank h _ ih => exact .blank h ih
  | @comment body cs e h he _ ih =>
    exact .comment h (fun c hc => Option.some.inj hc ▸ he) (.blank (isBlank_of_lineEnd he) ih)

theorem parted (h : Separator cs) (hne : cs ≠ []) (rest : List Char) : Parted (cs ++ rest) := by
  intro d hd
  cases h with
  | nil => exact absurd rfl hne
  | blank h _ => exact .inl (Option.some.inj hd ▸ h)
  | comment => exact .inr (Option.some.inj hd).symm

end Separator

/-! ### Words and what is behind them -/

section

variable {p : Char → Bool} {vs ws rest : List Char}

theorem prefix_of_parted (hblank : ∀ d, Text.isBlank d = true ∨ d = '#' → p d = false)
    (hvs : ∀ c ∈ vs, p c = true) (hrest : Parted rest) (h : vs <+: ws ++ rest) : vs <+: ws := by
  induction ws generalizing vs with
  | nil =>
    cases vs with
    | nil => exact List.nil_prefix
    | cons v vs =>
      obtain ⟨rest, rfl⟩ := h
      have hv := hvs v List.mem_cons_self
      rw [hblank v (hrest v rfl)] at hv
      cases hv
  | cons w ws ih =>
    cases vs with
    | nil => exact List.nil_prefix
    | cons v vs =>
      obtain ⟨rfl, htail⟩ := List.cons_prefix_cons.1 h
      have hrec := ih (fun c hc => hvs c (List.mem_cons_of_mem _ hc)) htail
      exact List.cons_prefix_cons.2 ⟨rfl, hrec⟩

end

theorem range_of_parting {d : Char} (h : Text.isBlank d = true ∨ d = '#') :
    d.toNat ≤ 35 ∨ 126 < d.toNat := by
  by_contra hrange
  obtain hblank | rfl := h
  · rw [isBlank_eq_false (by omega) (by omega)] at hblank
    cases hblank
  · exact hrange (.inl (Nat.le_refl _))

theorem not_isWordChar_of_parting (d : Char) (h : Text.isBlank d = true ∨ d = '#') :
    isWordChar d = false := by
  have hrange := range_of_parting h
  rw [Bool.eq_false_iff, ne_eq, isWordChar, Bool.or_eq_true, isLetter_iff, isDigit_iff]
  omega

def isNumeralChar (c : Char) : Bool := Decimal.isDigit c || c == '.'

theorem not_isNumeralChar_of_parting (d : Char) (h : Text.isBlank d = true ∨ d = '#') :
    isNumeralChar d = false := by
  have hrange := range_of_parting h
  have hpoint : '.'.toNat = 46 := rfl
  rw [Bool.eq_false_iff, ne_eq, isNumeralChar, Bool.or_eq_true, isDigit_iff, beq_iff_eq]
  rintro (hdigit | rfl) <;> omega

theorem Numeric.isNumeralChar {v : String} (h : Numeric v) :
    ∀ c ∈ v.toList, isNumeralChar c = true := by
  have hdigits {ds : List Char} (hds : ∀ d ∈ ds, Decimal.isDigit d = true) :
      ∀ d ∈ ds, ExprCompiler.isNumeralChar d = true := fun d hd => by
    rw [ExprCompiler.isNumeralChar, hds d hd, Bool.true_or]
  have hpoint : ExprCompiler.isNumeralChar '.' = true := rfl
  cases h with
  | digits _ hd => exact hdigits hd
  | point hn _ hw hf =>
    rw [hn]
    exact List.forall_mem_append.2 ⟨hdigits hw, List.forall_mem_cons.2 ⟨hpoint, hdigits hf⟩⟩
  | fraction hn _ hf =>
    rw [hn]
    exact List.forall_mem_cons.2 ⟨hpoint, hdigits hf⟩

section

variable {v w : String} {rest : List Char}

theorem Identifier.prefix_of_parted (h : Identifier v) (hrest : Parted rest)
    (hv : v.toList <+: w.toList ++ rest) : v.toList <+: w.toList :=
  ExprCompiler.prefix_of_parted not_isWordChar_of_parting h.all_wordChar hrest hv

theorem Numeric.prefix_of_parted (h : Numeric v) (hrest : Parted rest)
    (hv : v.toList <+: w.toList ++ rest) : v.toList <+: w.toList :=
  ExprCompiler.prefix_of_parted not_isNumeralChar_of_parting h.isNumeralChar hrest hv

end

namespace Token

variable {t : Token} {rest rest' : List Char}

/-- A token is still the longest match when something else is behind it that it is parted from. -/
theorem Munched.parted (h : t.Munched (t.lexeme.toList ++ rest)) (hmore : t.kind ≠ .endOfInput)
    (hrest : Parted rest') : t.Munched (t.lexeme.toList ++ rest') := by
  have hlength {v w : String} (hv : v.toList <+: w.toList) : v.length ≤ w.length := by
    rw [← String.length_toList, ← String.length_toList]
    exact hv.length_le
  have hfront {v w : String} (hv : v.toList <+: w.toList) : v.toList <+: w.toList ++ rest :=
    hv.trans (List.prefix_append _ _)
  cases h with
  | word h hk hv =>
    refine .word ⟨List.prefix_append _ _, h.member, fun v hv hid => ?_⟩ hk hv
    exact hlength (hid.prefix_of_parted hrest hv)
  | number h hk hd hv =>
    refine .number ⟨List.prefix_append _ _, h.member, fun v hv hn => ?_⟩ hk hd hv
    exact hlength (hn.prefix_of_parted hrest hv)
  | @char c _ h hblank hcomment hword hnumber hl hk hv =>
    have hcons : t.lexeme.toList ++ rest' = c :: rest' := by rw [hl, String.toList_singleton]; rfl
    refine .char hcons hblank hcomment (fun v hv hid => ?_) (fun v hv hn => ?_) hl hk hv
    · exact hword v (hfront (hid.prefix_of_parted hrest hv)) hid
    · exact hnumber v (hfront (hn.prefix_of_parted hrest hv)) hn
  | endOfInput _ _ hk => exact absurd hk hmore

def Solid (t : Token) : Prop :=
  t.kind ≠ .endOfInput ∧ ∃ rest, t.Munched (t.lexeme.toList ++ rest)

end Token

/-! ### Reading -/

namespace Lexer

variable {l : Lexer} {t : Token}

theorem munched_cut (h : Opened l.ahead) :
    l.cut.1.Munched l.ahead ∧ l.cut.2.ahead = l.ahead.drop l.cut.1.lexeme.length := by
  unfold cut
  cases hl : l.ahead with
  | nil => exact ⟨.endOfInput rfl rfl rfl rfl, hl⟩
  | cons c cs =>
    obtain ⟨hblank, hcomment⟩ := h c (by rw [hl]; rfl)
    refine ⟨munched_ofFront hblank hcomment _, ?_⟩
    simp only [ahead_advanceBy, hl, Lexeme.token, String.length_ofList]

theorem scan_of_munched {cs rest : List Char} (hl : l.ahead = cs ++ (t.lexeme.toList ++ rest))
    (hcs : Separator cs) (ht : t.Munched (t.lexeme.toList ++ rest)) :
    l.scan.1.Alike t ∧ l.scan.2.ahead = rest := by
  have hfront : l.begin.skipBlanks.ahead = t.lexeme.toList ++ rest := by
    rw [skipBlanks, ahead_advanceBy, ahead_begin, hl, (hcs.gap _).blankPrefix_eq ht.opened,
      List.drop_left]
  obtain ⟨hmunched, hahead⟩ := munched_cut (hfront ▸ ht.opened)
  rw [hfront] at hmunched hahead
  have halike : l.scan.1.Alike t := hmunched.alike ht
  refine ⟨halike, hahead.trans ?_⟩
  have hlexeme : l.begin.skipBlanks.cut.1.lexeme = t.lexeme := halike.lexeme
  rw [hlexeme, ← String.length_toList, List.drop_left]

theorem ends_of_separator {cs : List Char} (hl : l.ahead = cs) (hcs : Separator cs) :
    l.scan.1.kind = .endOfInput := by
  have hmunched : Token.Munched [] ⟨.endOfInput, "", .absent, l.location⟩ :=
    .endOfInput rfl rfl rfl rfl
  rw [← List.append_nil cs, ← List.append_nil []] at hl
  exact (scan_of_munched (t := ⟨.endOfInput, "", .absent, l.location⟩) hl hcs hmunched).1.kind

theorem toList_spread_cons (first w gap : String) (ws gaps : List String) :
    (spread first (w :: ws) (gap :: gaps)).toList =
      first.toList ++ (w.toList ++ (spread gap ws gaps).toList) := by
  simp [spread, String.join_cons, String.append_assoc]

theorem tokens_spread {ts : List Token} {first : String} {gaps : List String}
    (hl : l.ahead = (spread first (ts.map Token.lexeme) gaps).toList) (hts : ∀ t ∈ ts, t.Solid)
    (hlength : gaps.length = ts.length) (hfirst : Separator first.toList)
    (hgaps : ∀ gap ∈ gaps, Separator gap.toList) (hbetween : ∀ gap ∈ gaps.dropLast, gap ≠ "") :
    ∃ us e, l.tokens = us ++ [e] ∧ Same us ts ∧ e.kind = .endOfInput := by
  induction ts generalizing l first gaps with
  | nil =>
    have hend : l.scan.1.kind = .endOfInput := ends_of_separator (by simp [hl, spread]) hfirst
    exact ⟨[], _, tokens_of_end hend, .nil, hend⟩
  | cons t ts ih =>
    obtain ⟨gap, gaps, rfl⟩ := List.exists_cons_of_length_eq_add_one hlength
    obtain ⟨⟨hmore, rest, hmunched⟩, hts⟩ := List.forall_mem_cons.1 hts
    obtain ⟨hgap, hgaps⟩ := List.forall_mem_cons.1 hgaps
    have hlength' : gaps.length = ts.length := Nat.succ.inj hlength
    rw [List.map_cons, toList_spread_cons] at hl
    -- the last of the gaps alone may be empty, and nothing is behind it
    have hparted : Parted (spread gap (ts.map Token.lexeme) gaps).toList := by
      rw [spread, String.toList_append]
      by_cases hempty : gap = ""
      · have hnil : gaps = [] := by
          by_contra hne
          rw [List.dropLast_cons_of_ne_nil hne] at hbetween
          exact hbetween gap List.mem_cons_self hempty
        simp [hnil, hempty, Parted]
      · exact hgap.parted (by simpa using hempty) _
    obtain ⟨halike, hahead⟩ := scan_of_munched hl hfirst (hmunched.parted hmore hparted)
    have hbetween' : ∀ gap ∈ gaps.dropLast, gap ≠ "" := fun g hg =>
      hbetween g (by
        cases gaps with
        | nil => cases hg
        | cons => exact List.mem_cons_of_mem _ hg)
    obtain ⟨us, e, hus, hsame, hend⟩ := ih hahead hts hlength' hgap hgaps hbetween'
    have hmore' : l.scan.1.kind ≠ .endOfInput := halike.kind ▸ hmore
    refine ⟨_ :: us, e, ?_, .cons halike hsame, hend⟩
    rw [tokens_of_more hmore', hus, List.cons_append]

end Lexer

/-- The tokens of a text do not depend on what separates them: with any other separators around the
same lexemes, the kinds, the lexemes and the values of the tokens are the same. -/
theorem tokenize_spread {s file : String} {ts : List Token} {e : Token}
    (h : tokenize s file = ts ++ [e]) {first : String} {gaps : List String}
    (hlength : gaps.length = ts.length) (hfirst : Separator first.toList)
    (hgaps : ∀ gap ∈ gaps, Separator gap.toList) (hbetween : ∀ gap ∈ gaps.dropLast, gap ≠ "")
    (file' : String) :
    (∀ t ∈ ts, t.kind ≠ .endOfInput) ∧ ∃ us e',
      tokenize (spread first (ts.map Token.lexeme) gaps) file' = us ++ [e'] ∧ Same us ts ∧
        e'.kind = .endOfInput := by
  have htokens := (tokenize_eq_iff s file _).1 rfl
  obtain ⟨before, e', hbefore, hmore, -⟩ := htokens.ending
  obtain ⟨rfl, -⟩ := List.append_inj' (h.symm.trans hbefore) rfl
  refine ⟨hmore, ?_⟩
  refine Lexer.tokens_spread rfl (fun t ht => ⟨hmore t ht, ?_⟩) hlength hfirst hgaps hbetween
  have hmunched := htokens.munched t (by rw [h]; exact List.mem_append_left _ ht)
  obtain ⟨rest, hrest⟩ := hmunched.front
  exact ⟨rest, hrest ▸ hmunched⟩

theorem Separator.of_comment (body : List Char) {e : Char} (h : ∀ c ∈ body, c ≠ '\n' ∧ c ≠ '\r')
    (he : e = '\n' ∨ e = '\r') : Separator ('#' :: (body ++ [e])) :=
  .comment h he .nil

/-- Behind a name, a point and a numeral there are comments. -/
theorem tokenize_spread_comments :
    ∃ ts e us e', tokenize "x . .5<" "a" = ts ++ [e] ∧ ts.map Token.lexeme = ["x", ".", ".5", "<"] ∧
      Separator "# 1\r".toList ∧
      (∀ gap ∈ ["#\n", "#5\n", "#..\r", ""], Separator gap.toList) ∧
      (∀ gap ∈ ["#\n", "#5\n", "#..\r", ""].dropLast, gap ≠ "") ∧
      (∀ t ∈ ts, t.kind ≠ .endOfInput) ∧
      tokenize "# 1\rx#\n.#5\n.5#..\r<" "b" = us ++ [e'] ∧ Same us ts ∧ e'.kind = .endOfInput := by
  have hne : tokenize "x . .5<" "a" ≠ [] := Lexer.tokens_ne_nil _
  have h := (List.dropLast_append_getLast hne).symm
  have hlexemes : ((tokenize "x . .5<" "a").dropLast).map Token.lexeme = ["x", ".", ".5", "<"] := by
    decide +kernel
  have hfirst : Separator "# 1\r".toList := .of_comment [' ', '1'] (by simp) (.inr rfl)
  have hgaps : ∀ gap ∈ ["#\n", "#5\n", "#..\r", ""], Separator gap.toList := by
    simp only [List.forall_mem_cons]
    refine ⟨?_, ?_, ?_, .nil, nofun⟩
    · exact .of_comment [] nofun (.inl rfl)
    · exact .of_comment ['5'] (by simp) (.inl rfl)
    · exact .of_comment ['.', '.'] (by simp) (.inr rfl)
  have hbetween : ∀ gap ∈ ["#\n", "#5\n", "#..\r", ""].dropLast, gap ≠ "" := by simp
  have hlength : ["#\n", "#5\n", "#..\r", ""].length =
      (tokenize "x . .5<" "a").dropLast.length := by
    decide +kernel
  obtain ⟨hmore, us, e', hus, hsame, hend⟩ :=
    tokenize_spread h hlength hfirst hgaps hbetween "b"
  have htext : spread "# 1\r" (((tokenize "x . .5<" "a").dropLast).map Token.lexeme)
      ["#\n", "#5\n", "#..\r", ""] = "# 1\rx#\n.#5\n.5#..\r<" := by
    rw [hlexemes]
    decide +kernel
  rw [htext] at hus
  exact ⟨_, _, us, e', h, hlexemes, hfirst, hgaps, hbetween, hmore, hus, hsame, hend⟩

end ExprCompiler
