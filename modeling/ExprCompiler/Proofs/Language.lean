import ExprCompiler.Proofs.Commitment

/-!
# The language that is parsed

The texts that are parsed are those whose tokens have a derivation, and what
is parsed are the units of the greedy one. Any other text has a syntax error.
-/

namespace ExprCompiler

/-! ### The tokens of a text -/

theorem Lexer.proper_tokens (l : Lexer) : ∀ t ∈ l.tokens, t.Proper := by
  induction l using scan_induction with
  | ends l h =>
    rw [tokens_of_end h]
    exact List.forall_mem_singleton.2 l.proper_scan
  | goesOn l h ih =>
    rw [tokens_of_more h]
    exact List.forall_mem_cons.2 ⟨l.proper_scan, ih⟩

theorem proper_of_mem_tokenize (s file : String) : ∀ t ∈ tokenize s file, t.Proper :=
  (Lexer.ofString s file).proper_tokens

theorem Grammar.Chain.of_primary {greedy : Bool} {gs : List (List String)} {ts us : List Token}
    {e : Expr} (h : Primary greedy ts e us) (hloose : greedy = true → Layered.Loose gs us) :
    Chain greedy gs ts e us := by
  induction gs with
  | nil => exact .operand h
  | cons ops tighter ih =>
    refine .layer (ih fun hg => ?_) (.stop fun hg => hloose hg ops List.mem_cons_self)
    exact fun o ho => hloose hg o (List.mem_cons_of_mem _ ho)

namespace Layered

theorem Program.unique {number : Nat} {ts : List Token} {us vs : List TopLevel}
    (h : Program number ts us) (k : Program number ts vs) : us = vs := by
  induction h generalizing vs with
  | last hend => exact (k.eq_nil hend).symm
  | semicolon hsemicolon _ ih => exact ih (k.of_semicolon hsemicolon)
  | unit hend hnot read _ ih =>
    obtain ⟨_, _, ws, rfl, read', rest⟩ := k.exists_unit hend hnot
    cases read.symm.trans read'
    rw [ih rest]

theorem alike_of_greedy {number : Nat} {ts : List Token} {us vs : List TopLevel}
    (h : Program number ts us) (hproper : ∀ t ∈ ts, t.Proper)
    (k : Grammar.Program true number ts vs) : us.Forall₂ (fun u v => u.alike v = true) vs := by
  obtain ⟨us', hus', halike⟩ := exists_program_of_greedy k hproper
  rwa [h.unique hus']

end Layered

namespace Parser

open ExprCompiler.Layered (Program)

/-- Just the texts whose tokens have a derivation are parsed, in whatever way the derivation divides
them into units. The units that are parsed are those of the greedy derivation, which is the only
one of its kind. Any other text has a syntax error. -/
theorem parseAll_language (s file : String) :
    ((∃ us, parseAll s file = .ok us) ↔ ∃ us, Grammar.Program false 0 (tokenize s file) us) ∧
      (∀ us, parseAll s file = .ok us → Grammar.Program true 0 (tokenize s file) us ∧
        ∀ vs, Grammar.Program true 0 (tokenize s file) vs →
          us.Forall₂ (fun u v => u.alike v = true) vs) ∧
      ∀ stop, parseAll s file = .error stop → ∃ e, stop = .invalid e := by
  have hproper := proper_of_mem_tokenize s file
  obtain ⟨us, hus, hprogram⟩ | ⟨e, he, hnone⟩ := parseAll_cases s file
  · rw [hus]
    refine ⟨iff_of_true ⟨us, rfl⟩ ⟨us, hprogram.derivation false hproper⟩, ?_, nofun⟩
    intro vs hvs
    cases hvs
    exact ⟨hprogram.derivation true hproper, fun vs => Layered.alike_of_greedy hprogram hproper⟩
  · rw [he]
    refine ⟨iff_of_false nofun ?_, nofun, ?_⟩
    · rintro ⟨vs, hvs⟩
      exact hnone (Layered.exists_program_of_derivation hvs)
    · intro stop hstop
      cases hstop
      exact ⟨e, rfl⟩

theorem exists_tokens_call (file : String) :
    ∃ f paren x close t, tokenize "f ( x )" file = [f, paren, x, close, t] ∧
      (f.kind = .identifier ∧ f.lexeme = "f") ∧ paren.isChar "(" = true ∧
      (x.kind = .identifier ∧ x.lexeme = "x") ∧ close.isChar ")" = true ∧
      t.kind = .endOfInput := by
  have hname (c : Char) (hc : isLetter c = true) : Identifier (String.singleton c) :=
    ⟨c, [], by simp, hc, nofun⟩
  have hf : Identifier "f" := hname 'f' rfl
  have hx : Identifier "x" := hname 'x' rfl
  have hwords : ∀ w ∈ ["f", "(", "x", ")"], ∃ x, Word w x := by
    simp only [List.forall_mem_cons, List.not_mem_nil, false_implies, implies_true, and_true]
    exact ⟨⟨_, hf.word rfl⟩, ⟨_, word_of_mem_signs (by decide)⟩, ⟨_, hx.word rfl⟩,
      ⟨_, word_of_mem_signs (by decide)⟩⟩
  obtain ⟨ts, t, htokens, hspells, hend⟩ :=
    Lexer.tokens_of_words (l := .ofString "f ( x )" file) hwords rfl
  obtain _ | ⟨hspellf, _ | ⟨hparen, _ | ⟨hspellx, _ | ⟨hclose, _ | _⟩⟩⟩⟩ := hspells
  exact ⟨_, _, _, _, t, htokens, hspellf.name hf rfl, hparen.isChar (by decide),
    hspellx.name hx rfl, hclose.isChar (by decide), hend⟩

/-- A name and then an expression in parentheses, or a call: the call is what is parsed. -/
theorem parseAll_language_call :
    let bare (k : Nat) (e : Expr) : TopLevel :=
      .definition ⟨⟨anonymousName k, [], none⟩, e, none⟩
    Grammar.Program false 0 (tokenize "f ( x )" "input")
        [bare 0 (.var "f" none), bare 1 (.var "x" none)] ∧
      ∃ us, parseAll "f ( x )" "input" = .ok us ∧
        us.Forall₂ (fun u v => u.alike v = true) [bare 0 (.call "f" [.var "x" none] none)] := by
  intro bare
  obtain ⟨f, paren, x, close, t, htokens, ⟨hf, hfname⟩, hparen, ⟨hx, hxname⟩, hclose, hend⟩ :=
    exists_tokens_call "input"
  obtain ⟨hiff, hgreedy, -⟩ := parseAll_language "f ( x )" "input"
  have hnone (u : Token) (us : List Token) (h : u.isChar ")" = true ∨ u.kind = .endOfInput) :
      Layered.Loose Layered.layers (u :: us) := by
    intro ops hops
    by_contra hop
    rw [Bool.not_eq_false, look_cons] at hop
    obtain hu | hu := h
    · simp [Layered.not_isChar_of_operator hops hop] at hu
    · exact Token.not_end_of_isOneOf hop hu
  have hvar (greedy : Bool) :
      Grammar.Primary greedy [x, close, t] (.var "x" none) [close, t] := by
    rw [← hxname]
    exact .var hx fun _ => Token.not_isChar_of_ne hclose (by decide)
  have htwo : Grammar.Program false 0 (tokenize "f ( x )" "input")
      [bare 0 (.var "f" none), bare 1 (.var "x" none)] := by
    have hgroup := Grammar.Primary.parenthesized hparen (.of_primary (hvar false) nofun) hclose
    rw [htokens, ← hfname]
    refine .expression (.of_primary (.var hf nofun) nofun) ?_
    exact .expression (.of_primary hgroup nofun) (.last hend)
  have hcall : Grammar.Program true 0 (tokenize "f ( x )" "input")
      [bare 0 (.call "f" [.var "x" none] none)] := by
    have hargument : Grammar.Expression true [x, close, t] (.var "x" none) [close, t] :=
      .of_primary (hvar true) fun _ => hnone close [t] (.inl hclose)
    have harguments := Grammar.Arguments.some (.last hargument hclose)
    rw [htokens, ← hfname]
    refine .expression (.of_primary (.call hf hparen harguments) fun _ => ?_) (.last hend)
    exact hnone t [] (.inr hend)
  obtain ⟨us, hus⟩ := hiff.2 ⟨_, htwo⟩
  exact ⟨htwo, us, hus, (hgreedy us hus).2 _ hcall⟩

end Parser

end ExprCompiler
