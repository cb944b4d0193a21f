import Mathlib.Logic.ExistsUnique
import ExprCompiler.Proofs.Rounds

/-!
# Keywords begin turns

Whatever the text before it is like, and whatever has become of the units in
it, each keyword is seen at the beginning of one turn of the loop, and what is
parsed there is what would be parsed if the text began with it.
-/

namespace ExprCompiler

open ExprCompiler.Layered (Passed Twin)

namespace Parser

inductive ParsesAlike {α β : Type} (R : α → β → Prop) :
    EStateM.Result ParseStop Parser α → EStateM.Result ParseStop Parser β → Prop
  | ok {a : α} {b : β} {p q : Parser} (h : R a b) : ParsesAlike R (.ok a p) (.ok b q)
  | error {e f : ParseError} {p q : Parser} (h : e.Alike f) :
    ParsesAlike R (.error (.invalid e) p) (.error (.invalid f) q)

section

variable {α : Type} {R : α → α → Prop} {p q : Parser} {ts us vs : List Token}

theorem Agrees.alike {r s : EStateM.Result ParseStop Parser α}
    {x y : EStateM.Result ParseError (List Token) α} (hr : Agrees p r x) (hs : Agrees q s y)
    (h : Twin R ts x y) : ParsesAlike R r s := by
  cases h with
  | ok hrelated _ _ =>
    cases hr
    cases hs
    exact .ok hrelated
  | error halike _ _ =>
    cases hr
    cases hs
    exact .error halike

def Looks (x : ParserM α) : Prop := ∃ k : Token → ParserM α, x = current >>= k

theorem Looks.exists_facing {x : ParserM α} (hx : Looks x) (hc : p.lexer.ending = .closed) :
    ∃ q, q.Facing p.tokens ∧ Moved p q ∧ x p = x q := by
  obtain ⟨k, rfl⟩ := hx
  obtain ⟨q, hq, hfacing, hmoved⟩ := current_of_closed hc
  exact ⟨q, hfacing, hmoved, by rw [bind_eq_ok hq, hfacing.current_bind]⟩

theorem Looks.agrees {x : ParserM α} {y : Layered.Reading α} (hx : Looks x)
    (h : ∀ q, q.Facing p.tokens → Agrees q (x q) (y p.tokens)) (hc : p.lexer.ending = .closed) :
    Agrees p (x p) (y p.tokens) := by
  obtain ⟨q, hfacing, hmoved, hsame⟩ := hx.exists_facing hc
  rw [hsame]
  exact hmoved.agrees (h q hfacing)

theorem looks_definition : Looks definition := by
  unfold definition expect
  exact ⟨_, bind_assoc _ _ _⟩

theorem looks_external : Looks external := by
  unfold external expect
  exact ⟨_, bind_assoc _ _ _⟩

theorem definition_alike (hp : p.lexer.ending = .closed) (hq : q.lexer.ending = .closed)
    (h : Same p.tokens q.tokens) (hd : (look p.tokens).kind = .defKeyword) :
    ParsesAlike (fun d e => d.alike e = true) (definition p) (definition q) :=
  (looks_definition.agrees (fun _ h => h.definition_agrees) hp).alike
    (looks_definition.agrees (fun _ h => h.definition_agrees) hq) (Layered.definition_twin h hd)

theorem external_alike (hp : p.lexer.ending = .closed) (hq : q.lexer.ending = .closed)
    (h : Same p.tokens q.tokens) (he : (look p.tokens).kind = .externKeyword) :
    ParsesAlike (fun a b => a.alike b = true) (external p) (external q) :=
  (looks_external.agrees (fun _ h => h.external_agrees) hp).alike
    (looks_external.agrees (fun _ h => h.external_agrees) hq) (Layered.external_twin h he)

end

end Parser

/-! ### Where turns begin -/

/-- The tokens ahead where each turn begins: a turn takes the first of them and then no keyword,
and the last one has left the end of the input. -/
inductive Starts : List Token → List (List Token) → Prop
  | last {ts : List Token} (h : (look ts).kind = .endOfInput) (hts : ts = [look ts]) : Starts ts []
  | turn {ts us : List Token} {tss : List (List Token)} (hne : ts ≠ [])
    (hpassed : Passed ts.tail us) (h : Starts us tss) : Starts ts (ts :: tss)

namespace Starts

variable {ts : List Token} {tss : List (List Token)}

theorem suffix (h : Starts ts tss) : ∀ us ∈ tss, us <:+ ts ∧ us ≠ [] := by
  induction h with
  | last h hts => exact nofun
  | @turn ts us tss hne hpassed h ih =>
    have hus : us <:+ ts := hpassed.suffix.trans (List.tail_suffix ts)
    exact List.forall_mem_cons.2
      ⟨⟨List.suffix_refl ts, hne⟩, fun vs hvs => ⟨(ih vs hvs).1.trans hus, (ih vs hvs).2⟩⟩

theorem ordered (h : Starts ts tss)
    (hts : ts.Pairwise fun t u => t.location.offset < u.location.offset) :
    tss.Pairwise fun us vs => (look us).location.offset < (look vs).location.offset := by
  induction h with
  | last h hts => exact .nil
  | @turn ts us tss hne hpassed h ih =>
    obtain ⟨t, ts, rfl⟩ := List.exists_cons_of_ne_nil hne
    obtain ⟨hfirst, hrest⟩ := List.pairwise_cons.1 hts
    refine .cons (fun vs hvs => ?_) (ih (hrest.sublist hpassed.suffix.sublist))
    obtain ⟨hsuffix, hne⟩ := h.suffix vs hvs
    exact hfirst _ (hpassed.suffix.subset (hsuffix.subset (look_mem hne)))

theorem exists_of_keyword (h : Starts ts tss) {t : Token} (ht : t ∈ ts)
    (hk : t.isKeyword = true) : ∃ us ∈ tss, look us = t := by
  induction h with
  | last h hts =>
    rw [hts, List.mem_singleton] at ht
    rw [← ht] at h
    simp [Token.isKeyword, h] at hk
  | @turn ts us tss hne hpassed h ih =>
    obtain ⟨u, ts, rfl⟩ := List.exists_cons_of_ne_nil hne
    obtain ⟨c, hsplit, hc⟩ := hpassed
    rcases List.mem_cons.1 ht with rfl | ht
    · exact ⟨_, List.mem_cons_self, rfl⟩
    · -- A keyword behind the first token is not passed, so it is still ahead in the next turn.
      have hmem : t ∈ c ++ us := hsplit ▸ ht
      rcases List.mem_append.1 hmem with hmem | hmem
      · rw [hc t hmem] at hk
        cases hk
      · obtain ⟨vs, hvs, hlook⟩ := ih hmem
        exact ⟨vs, List.mem_cons_of_mem _ hvs, hlook⟩

end Starts

namespace Session

variable {v : Verifier} {us : List TopLevel} {s s' : Session} {rows : List (Session × Session)}

theorem Rounds.starts (hr : Rounds s rows s') (h : History v us s)
    (hc : s.parser.lexer.ending = .closed) :
    Starts s.parser.tokens (rows.map fun r => r.1.parser.tokens) := by
  induction hr generalizing us with
  | @last s s₁ s' hp ht =>
    have hparser := parser_of_prompt hp
    have hc₁ := closed_of_prompt hp hc
    have hend := end_of_false hc₁ ht
    rw [hparser] at hend
    exact .last hend (Parser.tokens_of_end hend)
  | @round s s₁ s₂ s' rows hp ht hr ih =>
    have hparser := parser_of_prompt hp
    have hc₁ := closed_of_prompt hp hc
    have hprompted := h.prompted hp
    obtain ⟨hc₂, -, -, hpassed, -⟩ := hprompted.traced.step hc₁ ht
    rw [← hparser]
    exact .turn (Parser.tokens_ne_nil _) hpassed (ih (hprompted.turned ht) hc₂)

theorem Rounds.begins_once (hr : Rounds s rows s') (h : History v us s)
    (hc : s.parser.lexer.ending = .closed)
    (hs : s.parser.tokens.Pairwise fun t u => t.location.offset < u.location.offset) {t : Token}
    (ht : t ∈ s.parser.tokens) (hk : t.isKeyword = true) :
    ∃! i : Nat, ∃ r : Session × Session, rows[i]? = some r ∧ look r.1.parser.tokens = t := by
  have hstarts := hr.starts h hc
  obtain ⟨ts, hts, hlook⟩ := hstarts.exists_of_keyword ht hk
  obtain ⟨r, hr, rfl⟩ := List.mem_map.1 hts
  obtain ⟨i, hi⟩ := List.mem_iff_getElem?.1 hr
  refine ⟨i, ⟨r, hi, hlook⟩, ?_⟩
  -- No other turn begins with it, as turns begin further and further ahead.
  rintro j ⟨q, hq, hlook'⟩
  have hordered := List.pairwise_map.1 (hstarts.ordered hs)
  exact Lexer.index_eq_of_key_eq hordered hq hi (by rw [hlook, hlook'])

/-- Each keyword of a text is the first token of exactly one turn of the loop. That turn handles a
definition or an external prototype, and what it parses is what would be parsed if the text began
with the keyword. Behind its first token no turn goes over a keyword. -/
theorem keywords_begin_turns (h : History v us s) (text : String) :
    ∃ (rows : List (Session × Session)) (s' : Session),
      loop { s with parser := .ofString text s.options.file } = .ok () s' ∧
      Rounds { s with parser := .ofString text s.options.file } rows s' ∧
      (∀ r ∈ rows, Passed r.1.parser.tokens.tail r.2.parser.tokens) ∧
      ∀ t ∈ tokenize text s.options.file, t.isKeyword = true →
        (∃! i : Nat, ∃ r : Session × Session, rows[i]? = some r ∧ look r.1.parser.tokens = t) ∧
        ∀ r ∈ rows, look r.1.parser.tokens = t → ∀ file : String,
          let rest := String.ofList (text.toList.drop t.location.offset)
          (t.kind = .defKeyword → HandledBy handleDefinition r.1 r.2 ∧
            Parser.ParsesAlike (fun d e => d.alike e = true) (Parser.definition r.1.parser)
              (Parser.definition (.ofString rest file))) ∧
          (t.kind = .externKeyword → HandledBy handleExternal r.1 r.2 ∧
            Parser.ParsesAlike (fun p q => p.alike q = true) (Parser.external r.1.parser)
              (Parser.external (.ofString rest file))) := by
  have hsource := h.source (.ofString text)
  have hc : (Parser.ofString text s.options.file).lexer.ending = .closed := rfl
  obtain ⟨rows, s', hrounds, hlength⟩ := hsource.exists_rounds hc
  have hstarts := hrounds.starts hsource hc
  have hrow := hrounds.row hsource hc
  refine ⟨rows, s', hrounds.loop hlength, hrounds, fun r hr => ?_, fun t ht hk => ⟨?_, ?_⟩⟩
  · obtain ⟨⟨us, hhistory⟩, hclosed, hturn⟩ := hrow r hr
    obtain ⟨-, -, -, hpassed, -⟩ := hhistory.traced.step hclosed hturn
    exact hpassed
  · exact hrounds.begins_once hsource hc (Lexer.tokens_increase _) ht hk
  · rintro r hr rfl file rest
    obtain ⟨⟨us, hhistory⟩, hclosed, hturn⟩ := hrow r hr
    obtain ⟨-, -, -, -, hdefinition, hexternal⟩ := hhistory.traced.step hclosed hturn
    obtain ⟨⟨before, hsplit⟩, hne⟩ := hstarts.suffix _ (List.mem_map_of_mem hr)
    have hsame : Same r.1.parser.tokens (Parser.ofString rest file).tokens := by
      obtain ⟨t, after, hcons⟩ := List.exists_cons_of_ne_nil hne
      rw [hcons] at hsplit
      have hwithin := Lexer.within_ofString text s.options.file
      have hrest := hwithin.same_of_split hsplit.symm file
      rwa [← hcons, show t = look r.1.parser.tokens by rw [hcons, look_cons]] at hrest
    exact ⟨fun hd => ⟨hdefinition hd, Parser.definition_alike hclosed rfl hsame hd⟩,
      fun he => ⟨hexternal he, Parser.external_alike hclosed rfl hsame he⟩⟩

def brokenText : String := "( def f(x (y extern g(a extern h(b) def f(x) x"

theorem keywords_begin_turns_brokenText : ∃ s, History .checking [] s ∧
    (tokenize brokenText s.options.file).countP Token.isKeyword = 4 ∧
    ∃ (rows : List (Session × Session)) (s' : Session),
      loop { s with parser := .ofString brokenText s.options.file } = .ok () s' ∧
      Rounds { s with parser := .ofString brokenText s.options.file } rows s' ∧
      (∀ r ∈ rows, Passed r.1.parser.tokens.tail r.2.parser.tokens) ∧
      ∀ t ∈ tokenize brokenText s.options.file, t.isKeyword = true →
        ∃! i : Nat, ∃ r : Session × Session, rows[i]? = some r ∧ look r.1.parser.tokens = t := by
  have h : History .checking [] _ :=
    .start (rfl : start { showCode := false, evaluate := false } .empty .checking = .ok _)
  obtain ⟨rows, s', hloop, hrounds, hpassed, hkeywords⟩ := keywords_begin_turns h brokenText
  exact ⟨_, h, by decide +kernel, rows, s', hloop, hrounds, hpassed,
    fun t ht hk => (hkeywords t ht hk).1⟩

end Session

end ExprCompiler
