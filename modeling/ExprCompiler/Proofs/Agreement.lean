import ExprCompiler.Proofs.Indistinct
import ExprCompiler.Proofs.Programs

/-!
# Turn by turn and all at once

A session reads, compiles and reports the units of a text one by one, and
gives up a token after each of them that fails. When all of the text can be
read, and nothing is lost with those tokens, what it makes of the text is what
comes of reading all units first and generating them afterwards.
-/

namespace ExprCompiler

open IR (FunctionId Module)

namespace Generator

def generateErasing (u : TopLevel) : GeneratorM (Option FunctionId) := do
  let r ← generate u
  if let some f := r then
    if u.prototype.isAnonymous then onBackend (Backend.erase f)
  return r

def generateEach (us : List TopLevel) : GeneratorM (List (Option FunctionId)) :=
  us.mapM generateErasing

def answers? (us : List TopLevel) (g : Generator) : Option (List (Option FunctionId)) :=
  match generateEach us g with
  | .ok rs _ => some rs
  | .error _ _ => none

def settled (u : TopLevel) (r : Option FunctionId) (m : Module) : Module :=
  match r with
  | some f => if u.prototype.isAnonymous then m.erase f else m
  | none => m

section

variable {u : TopLevel} {us vs : List TopLevel} {g g' g₁ : Generator} {r : Option FunctionId}
  {m m' : Module}

theorem indistinct_settled (h : m.Indistinct m') (hr : ∀ f, r = some f → f ∈ m.registered) :
    (settled u r m).Indistinct (settled u r m') := by
  unfold settled
  cases r with
  | none => exact h
  | some f =>
    simp only
    split
    · exact h.erase (hr f rfl)
    · exact h

theorem generateErasing_run (hg : generate u g = .ok r g₁) :
    ∃ g', generateErasing u g = .ok r g' ∧ g'.backend.module = settled u r g₁.backend.module ∧
      g'.errors = g₁.errors ∧ g'.verifier = g₁.verifier := by
  unfold generateErasing settled
  rw [bind_eq_ok hg]
  cases r with
  | none => exact ⟨g₁, rfl, rfl, rfl, rfl⟩
  | some f =>
    simp only
    split
    · obtain ⟨j, hj⟩ := Backend.erase_run g₁.backend f
      exact ⟨_, bind_eq_ok (onBackend_eq_ok hj), rfl, rfl, rfl⟩
    · exact ⟨g₁, rfl, rfl, rfl, rfl⟩

theorem Reached.erasing (h : Reached TopLevel.Grammatical Anonymous us g) (hu : u.Grammatical)
    (hrun : generateErasing u g = .ok r g') :
    Reached TopLevel.Grammatical Anonymous (succeeded us u r) g' := by
  have hs := h.sound_of_grammatical
  obtain ⟨r', g₁, hg⟩ := generate_total hs hu
  have hreached := h.generated hu hg
  unfold generateErasing at hrun
  rw [bind_eq_ok hg] at hrun
  cases r' with
  | none =>
    cases hrun
    exact hreached
  | some f =>
    simp only at hrun
    split at hrun
    · rename_i ha
      obtain ⟨j, hj⟩ := Backend.erase_run g₁.backend f
      have herase := onBackend_eq_ok hj
      rw [bind_eq_ok herase] at hrun
      cases hrun
      exact hreached.erased (Session.anonymous_of_generate hs hu ha hg) herase
    · cases hrun
      exact hreached

theorem generateEach_cons (u : TopLevel) (us : List TopLevel) :
    generateEach (u :: us) = (do
      let r ← generateErasing u
      let rs ← generateEach us
      return r :: rs) :=
  List.mapM_cons

theorem answers?_eq {answers : List (Option FunctionId)} (h : generateEach us g = .ok answers g') :
    answers? us g = some answers := by
  simp only [answers?, h]

theorem generateEach_total (h : Reached TopLevel.Grammatical Anonymous vs g)
    (hus : ∀ u ∈ us, u.Grammatical) : ∃ answers g', generateEach us g = .ok answers g' := by
  induction us generalizing vs g with
  | nil => exact ⟨[], g, rfl⟩
  | cons u us ih =>
    obtain ⟨hu, hus⟩ := List.forall_mem_cons.1 hus
    obtain ⟨r, g₁, hg⟩ := generate_total h.sound_of_grammatical hu
    obtain ⟨g₂, hrun, -⟩ := generateErasing_run hg
    obtain ⟨rs, g', hrest⟩ := ih (h.erasing hu hrun) hus
    exact ⟨r :: rs, g', by rw [generateEach_cons, bind_eq_ok hrun, bind_eq_ok hrest]; rfl⟩

theorem generateEach_cons_eq_ok {answers : List (Option FunctionId)}
    (hrun : generateErasing u g = .ok r g₁) (h : generateEach (u :: us) g = .ok answers g') :
    ∃ rs, answers = r :: rs ∧ generateEach us g₁ = .ok rs g' := by
  rw [generateEach_cons, bind_eq_ok hrun] at h
  obtain ⟨rs, g₂, hrest, hpure⟩ := exists_of_bind_eq_ok h
  cases hpure
  exact ⟨rs, rfl, hrest⟩

end

end Generator

namespace Session

open Generator (Anonymous Observed Reached generateErasing generateEach settled)
open ExprCompiler.Layered (Program)
open ExprCompiler.Parser (numberAfter)

/-! ### A session and a generator side by side -/

structure Abreast (s : Session) (g : Generator) : Prop where
  indistinct : g.backend.module.Indistinct s.generator.backend.module
  errors : s.generator.errors = g.errors
  reached : ∃ vs, Reached TopLevel.Grammatical Anonymous vs g
  checking : g.verifier = .checking

section

variable {u : TopLevel} {us vs : List TopLevel} {s s' : Session} {g g' : Generator}
  {r : Option FunctionId}

theorem Abreast.observed (h : Abreast s g) (hk : Observed s.generator s'.generator) :
    Abreast s' g := by
  obtain ⟨fs, hfs⟩ := hk.module
  exact ⟨hfs ▸ h.indistinct.sealAll [] fs, hk.errors.trans h.errors, h.reached, h.checking⟩

theorem Abreast.prompted {v : Verifier} (h : Abreast s g) (ht : Traced v vs s)
    (hp : prompt s = .ok () s') : Abreast s' g := by
  have hkeeps := Calm.compositional.prompt s ht.parser
  rw [hp] at hkeeps
  exact h.observed hkeeps.generator

theorem Abreast.kept {v : Verifier} {b : Bool} (h : Abreast s g) (ht : Traced v vs s)
    (hn : handleNext s = .ok b s') (hnone : nextUnit? s.parser = none) : Abreast s' g := by
  have hhandles := handleNext_handles ht.reached.sound_of_grammatical ht.parser
  rw [hn, hnone] at hhandles
  have hkeeps : Keeps s s' := hhandles
  exact h.observed hkeeps.generator

theorem Finishes.settled (h : Finishes u r g s') :
    (∃ fs gs, s'.generator.backend.module =
        (settled u r (g.backend.module.sealAll fs)).sealAll gs) ∧
      s'.generator.errors = g.errors := by
  obtain ⟨hobserved, hnone⟩ | ⟨f, g₁, g₂, ha, rfl, hbefore, herase, hafter⟩ := h
  · obtain ⟨fs, hfs⟩ := hobserved.module
    refine ⟨⟨fs, [], ?_⟩, hobserved.errors⟩
    rw [hfs]
    unfold Generator.settled
    cases r with
    | none => rfl
    | some f =>
      have ha : ¬ u.prototype.isAnonymous = true := fun ha => absurd (hnone ha) (by simp)
      simp only [if_neg ha]
      rfl
  · obtain ⟨fs, hfs⟩ := hbefore.module
    obtain ⟨gs, hgs⟩ := hafter.module
    obtain ⟨hm, he, -⟩ := Generator.erase_module herase
    refine ⟨⟨fs, gs, ?_⟩, hafter.errors.trans (he.trans hbefore.errors)⟩
    rw [hgs, hm, hfs]
    simp only [Generator.settled, if_pos ha]

theorem Abreast.compiles (h : Abreast s g) (ht : Traced .checking vs s) (hc : Compiles s u s') :
    ∃ r g' g₁, generateErasing u g = .ok r g' ∧ Abreast s' g' ∧
      Generator.generate u s.generator = .ok r g₁ ∧ s'.generator.errors = g₁.errors := by
  obtain ⟨ws, hreached⟩ := h.reached
  have hs := hreached.sound_of_grammatical
  obtain ⟨r, g₁, hg₁, hfinishes⟩ := hc.generated
  obtain ⟨r', g₂, hg₂⟩ := Generator.generate_total hs hc.grammatical
  obtain ⟨rfl, hindistinct, es, herrors, herrors'⟩ :=
    Generator.generate_indistinct h.indistinct hs ht.reached.sound_of_grammatical h.checking
      ht.verifier hg₂ hg₁
  -- What the session does besides is to seal code, before and after the erasure.
  obtain ⟨⟨fs, gs, hmodule⟩, hlatest⟩ := hfinishes.settled
  obtain ⟨g', hrun, hmodule', hsame, hverifier⟩ := Generator.generateErasing_run hg₂
  obtain ⟨x, hstep, hx, -, hsameVerifier, -⟩ :=
    Generator.generate_answer hs (h.checking ▸ Verifier.accepting_checking) hg₂
  refine ⟨r, g', g₁, hrun, ⟨?_, ?_, ⟨_, hreached.erasing hc.grammatical hrun⟩,
    hverifier.trans (hsameVerifier.trans h.checking)⟩, hg₁, hlatest⟩
  · rw [hmodule, hmodule']
    refine (Generator.indistinct_settled (hindistinct.sealAll [] fs) fun f hf => ?_).sealAll [] gs
    cases x with
    | error e => cases hx.symm.trans hf
    | ok c =>
      cases hx.symm.trans hf
      exact Module.mem_registered_of_lookup (hstep.lookup hs)
  · rw [hlatest, hsame, herrors, herrors', h.errors]

end

/-! ### What a turn makes of a program -/

/-- Behind the unit stands a semicolon, a keyword, or the end of the input. -/
def Separated (ts : List Token) (u : TopLevel) : Prop :=
  ∃ t ∈ ts, u.span.map Span.stop = some t.location ∧ (t.isChar ";" = true ∨ t.startsUnit = true)

instance (ts : List Token) (u : TopLevel) : Decidable (Separated ts u) :=
  inferInstanceAs (Decidable (∃ t ∈ ts, _ ∧ _))

structure Handled (s s' : Session) (u : TopLevel) (r : Option FunctionId) : Prop where
  read : nextUnit? s.parser = some u
  generated : ∃ g, Generator.generate u s.generator = .ok r g ∧ s'.generator.errors = g.errors
  reported : match r with
    | some _ => s'.failures = s.failures ∧
        ∃ new, s'.events = new ++ s.events ∧ .out (heading u ++ "\n") ∈ new
    | none => s'.failures = s.failures + 1 ∧
        ∃ e new, s'.generator.errors.getLast? = some e ∧ s'.events = new ++ s.events ∧
          .err e.diagnostic.text ∈ new ∧ ∀ text, .out text ∉ new

section

variable {u : TopLevel} {us vs : List TopLevel} {s s' : Session} {g g' : Generator}
  {r : Option FunctionId} {ts ws : List Token} {number : Nat}

theorem Separated.look {all : List Token} (h : Separated all u)
    (hall : all.Pairwise fun t u => t.location.offset < u.location.offset)
    (read : Layered.unit number ts = .ok u ws) (hws : ws <:+ all) (hne : ws ≠ []) :
    (look ws).isChar ";" = true ∨ (look ws).startsUnit = true := by
  obtain ⟨t, ht, hstop, hkind⟩ := h
  rw [Layered.stop_of_unit read] at hstop
  have hlook : t = ExprCompiler.look ws :=
    Lexer.eq_of_location_eq hall ht (hws.subset (look_mem hne)) (Option.some.inj hstop).symm
  rwa [hlook] at hkind

theorem Turn.handled (h : Turn s ts s') (hsemicolon : (look ts).isChar ";" = false)
    (read : Layered.unit s.parser.anonymous ts = .ok u ws) (hnext : nextUnit? s.parser = some u)
    (hg : Generator.generate u s.generator = .ok r g) (hlatest : s'.generator.errors = g.errors) :
    Handled s s' u r ∧ s'.parser.anonymous = numberAfter s.parser.anonymous u ∧
      s'.parser.tokens = if r = none then beyond ws else ws := by
  cases h with
  | semicolon h _ _ _ => simp [h] at hsemicolon
  | faulty _ read' _ => cases read.symm.trans read'
  | refused _ read' generated latest failed =>
    cases read.symm.trans read'
    cases hg.symm.trans generated
    obtain ⟨new, hnew, hmem, hout⟩ := failed.events
    exact ⟨⟨hnext, ⟨g, hg, hlatest⟩, failed.failures, _, new, hlatest ▸ latest, hnew, hmem, hout⟩,
      failed.anonymous, failed.facing.tokens⟩
  | compiled _ read' generated succeeded =>
    cases read.symm.trans read'
    cases hg.symm.trans generated
    exact ⟨⟨hnext, ⟨g, hg, hlatest⟩, succeeded.failures, succeeded.events⟩,
      succeeded.anonymous, succeeded.facing.tokens⟩

theorem Turn.program_of_semicolon (h : Turn s ts s') (hsemicolon : (look ts).isChar ";" = true)
    (hp : Program s.parser.anonymous ts.tail us) :
    Program s'.parser.anonymous s'.parser.tokens us := by
  cases h with
  | semicolon _ facing anonymous _ =>
    rw [anonymous, facing.tokens]
    exact hp
  | faulty hnot _ _ => simp [hsemicolon] at hnot
  | refused hnot _ _ _ _ => simp [hsemicolon] at hnot
  | compiled hnot _ _ _ => simp [hsemicolon] at hnot

/-! ### Whole programs -/

def unitOf (r : Session × Session) : Option TopLevel := nextUnit? r.1.parser

section

variable {all : List Token} {answers : List (Option FunctionId)}
  {rows : List (Session × Session)}
  (hall : all.Pairwise fun t u => t.location.offset < u.location.offset)
include hall

theorem Abreast.turn (ha : Abreast s g) (ht : Traced .checking vs s)
    (hc : s.parser.lexer.ending = .closed) (hn : handleNext s = .ok true s')
    (hsuffix : s.parser.tokens <:+ all) (hp : Program s.parser.anonymous s.parser.tokens us)
    (hg : generateEach us g = .ok answers g')
    (hf : ∀ p ∈ us.zip answers, p.2 = none → Separated all p.1) :
    (unitOf (s, s') = none ∧ Abreast s' g ∧ Program s'.parser.anonymous s'.parser.tokens us) ∨
      ∃ u us' r rs g₁, us = u :: us' ∧ answers = r :: rs ∧ Handled s s' u r ∧ Abreast s' g₁ ∧
        generateEach us' g₁ = .ok rs g' ∧ Program s'.parser.anonymous s'.parser.tokens us' := by
  obtain ⟨-, hend, hturn, -, -⟩ := ht.step hc hn
  generalize hts : s.parser.tokens = ts at hp hsuffix hend hturn
  cases hp with
  | last hlast => exact absurd hlast hend
  | semicolon hsemicolon rest =>
    have hnone : nextUnit? s.parser = none :=
      nextUnit?_eq_none hc (Or.inr (by rw [hts]; exact hsemicolon))
    exact Or.inl ⟨hnone, ha.kept ht hn hnone, hturn.program_of_semicolon hsemicolon rest⟩
  | @unit _ t ts ws u us hmore hsemicolon read rest =>
    have hnext : nextUnit? s.parser = some u :=
      nextUnit?_of_read hc ht.parser (hts ▸ hmore) (hts ▸ hsemicolon) (hts ▸ read)
    have hcompiles : Compiles s u s' := by
      have hhandles := handleNext_handles ht.reached.sound_of_grammatical ht.parser
      rwa [hn, hnext] at hhandles
    obtain ⟨r, g₁, g₂, hrun, ha', hg₂, hlatest⟩ := ha.compiles ht hcompiles
    obtain ⟨rs, rfl, hrest⟩ := Generator.generateEach_cons_eq_ok hrun hg
    obtain ⟨hhandled, hanonymous, htokens⟩ := hturn.handled hsemicolon read hnext hg₂ hlatest
    refine Or.inr ⟨u, us, r, rs, g₁, rfl, rfl, hhandled, ha', hrest, ?_⟩
    rw [hanonymous, htokens]
    split
    · -- The token that is given up belongs to no unit.
      rename_i hnone
      have hws := (Layered.unit_passed read).suffix.trans (List.tail_suffix _)
      have hseparated := (List.forall_mem_cons.1 hf).1 hnone
      exact rest.beyond (hseparated.look hall read (hws.trans hsuffix) rest.ne_nil)
    · exact rest

theorem Rounds.abreast (hr : Rounds s rows s') (h : History .checking vs s)
    (hc : s.parser.lexer.ending = .closed) (ha : Abreast s g) (hsuffix : s.parser.tokens <:+ all)
    (hp : Program s.parser.anonymous s.parser.tokens us) (hg : generateEach us g = .ok answers g')
    (hf : ∀ p ∈ us.zip answers, p.2 = none → Separated all p.1) :
    rows.filterMap unitOf = us ∧
      List.Forall₂ (fun r x => ∃ u, Handled r.1 r.2 u x) (rows.filter fun r => (unitOf r).isSome)
        answers ∧
      Abreast s' g' := by
  -- On the turns, with the generator kept abreast of where each turn begins. The program shrinks
  -- only in the turns that read a unit, so `us` and `answers` vary.
  induction hr generalizing vs us g answers with
  | @last s s₁ s' hprompt hn =>
    have hparser := parser_of_prompt hprompt
    have hc₁ := closed_of_prompt hprompt hc
    have hend := end_of_false hc₁ hn
    have hnone := nextUnit?_eq_none hc₁ (Or.inl hend)
    have ha' := (ha.prompted h.traced hprompt).kept (h.prompted hprompt).traced hn hnone
    rw [hparser] at hend
    obtain rfl := hp.eq_nil hend
    cases hg
    exact ⟨rfl, .nil, ha'⟩
  | @round s s₁ s₂ s' rows hprompt hn hr ih =>
    have hparser := parser_of_prompt hprompt
    have hc₁ := closed_of_prompt hprompt hc
    have hprompted := h.prompted hprompt
    obtain ⟨hc₂, -, -, hpassed, -⟩ := hprompted.traced.step hc₁ hn
    rw [← hparser] at hp hsuffix
    have hsuffix₂ := (hpassed.suffix.trans (List.tail_suffix _)).trans hsuffix
    obtain ⟨hnone, ha', hp'⟩ | ⟨u, us, r, rs, g₁, rfl, rfl, hhandled, ha', hg', hp'⟩ :=
      (ha.prompted h.traced hprompt).turn hall hprompted.traced hc₁ hn hsuffix hp hg hf
    · obtain ⟨hunits, hothers, hlast⟩ := ih (hprompted.turned hn) hc₂ ha' hsuffix₂ hp' hg hf
      refine ⟨?_, ?_, hlast⟩
      · rw [List.filterMap_cons_none hnone, hunits]
      · rwa [List.filter_cons_of_neg (by simp [hnone])]
    · have hsome : unitOf (s₁, s₂) = some u := hhandled.read
      obtain ⟨hunits, hothers, hlast⟩ :=
        ih (hprompted.turned hn) hc₂ ha' hsuffix₂ hp' hg' (List.forall_mem_cons.1 hf).2
      refine ⟨?_, ?_, hlast⟩
      · rw [List.filterMap_cons_some hsome, hunits]
      · rw [List.filter_cons_of_pos (by simp [hsome])]
        exact .cons ⟨u, hhandled⟩ hothers

end

theorem exists_start {o : Options} {triple : String} (files : FileTree)
    (ht : Target.ofTriple? (o.target.bind OptionValue.text?) = .ok triple) :
    ∃ s, start o files .checking = .ok s ∧ s.options.file = o.file ∧
      Abreast s (.ofBackend (.ofTarget o.moduleName triple) .checking) := by
  refine ⟨flushJournal ⟨o, .ofBackend (.ofTarget o.moduleName triple) .checking, emptyParser o, 0,
    files, []⟩, ?_, rfl, .refl _, rfl, ⟨_, .start _ _ _⟩, rfl⟩
  unfold start
  rw [ht]
  rfl

/-- A text that can be read is given to a new session, and to a new generator that takes all of its
units one after another. If a semicolon, a keyword or the end of the input is behind each unit that
fails, then the session handles the same units in the same order, with the same results and errors,
and the texts of the modules are the same in the end. -/
theorem loop_agrees {o : Options} {triple text : String} {us : List TopLevel} (files : FileTree)
    (ht : Target.ofTriple? (o.target.bind OptionValue.text?) = .ok triple)
    (hus : Parser.parseAll text o.file = .ok us) :
    ∃ s answers g, start o files .checking = .ok s ∧
      generateEach us (.ofBackend (.ofTarget o.moduleName triple) .checking) = .ok answers g ∧
      ((∀ p ∈ us.zip answers, p.2 = none → Separated (tokenize text o.file) p.1) →
        ∃ rows s', loop { s with parser := .ofString text o.file } = .ok () s' ∧
          Rounds { s with parser := .ofString text o.file } rows s' ∧
          rows.filterMap unitOf = us ∧
          List.Forall₂ (fun r x => ∃ u, Handled r.1 r.2 u x)
            (rows.filter fun r => (unitOf r).isSome) answers ∧
          s'.generator.errors = g.errors ∧
          ∃ ir b b', Backend.moduleText s'.generator.backend = .ok ir b ∧
            Backend.moduleText g.backend = .ok ir b') := by
  obtain ⟨s, hstart, hfile, habreast⟩ := exists_start files ht
  obtain ⟨vs, hreached⟩ := habreast.reached
  have hgrammatical : ∀ u ∈ us, u.Grammatical := fun u hu =>
    (Parser.parsed_of_parseAll hus u hu).grammatical
  obtain ⟨answers, g, hg⟩ := Generator.generateEach_total hreached hgrammatical
  refine ⟨s, answers, g, hstart, hg, fun hf => ?_⟩
  have hsource := (History.start hstart).source (.ofString text)
  rw [hfile] at hsource
  have hread : Abreast { s with parser := .ofString text o.file } _ := habreast.observed (.refl _)
  obtain ⟨rows, s', hrounds, hlength⟩ := hsource.exists_rounds rfl
  obtain ⟨hunits, hhandled, hend⟩ := hrounds.abreast (Lexer.tokens_increase _) hsource rfl hread
    (List.suffix_refl _) (Parser.program_of_parseAll hus) hg hf
  have hir := Backend.moduleText_run s'.generator.backend
  rw [hend.indistinct.text] at hir
  exact ⟨rows, s', hrounds.loop hlength, hrounds, hunits, hhandled, hend.errors, _, _, _, hir,
    Backend.moduleText_run _⟩

def oneFailure : String := "def f(x) y; extern g(a) def f(x) g(x)<2 f(1)"

theorem loop_agrees_oneFailure : ∃ us s g, ∃ (rows : List (Session × Session)) (s' : Session),
    Parser.parseAll oneFailure standardInputName = .ok us ∧ start {} .empty .checking = .ok s ∧
      generateEach us (.ofBackend (.ofTarget defaultModuleName Target.host) .checking) =
        .ok [none, some 1, some 2, some 3] g ∧
      loop { s with parser := .ofString oneFailure standardInputName } = .ok () s' ∧
      rows.filterMap unitOf = us ∧ s'.generator.errors = g.errors := by
  have hus : Parser.parseAll oneFailure standardInputName =
      .ok (Parser.unitsOf oneFailure standardInputName) :=
    Parser.parseAll_eq_unitsOf (by decide +kernel)
  have ht : Target.ofTriple? (({} : Options).target.bind OptionValue.text?) = .ok Target.host := rfl
  obtain ⟨s, answers, g, hs, hg, hloop⟩ := loop_agrees .empty ht hus
  have hanswers : Generator.answers? (Parser.unitsOf oneFailure standardInputName)
      (.ofBackend (.ofTarget defaultModuleName Target.host) .checking) =
        some [none, some 1, some 2, some 3] := by
    decide +kernel
  obtain rfl := Option.some.inj ((Generator.answers?_eq hg).symm.trans hanswers)
  obtain ⟨rows, s', hrun, -, hunits, -, herrors, -⟩ := hloop (by decide +kernel)
  exact ⟨_, s, g, rows, s', hus, hs, hg, hrun, hunits, herrors⟩

end

end Session

end ExprCompiler
