import ExprCompiler.Proofs.Printing
import ExprCompiler.Proofs.Reached
import ExprCompiler.Proofs.Using

/-!
# Failed units

A unit that fails leaves the text of the module as it was, with one exception.
A definition of a declared function renames its parameters before its body is
tried, and the old names are not brought back when it fails.
-/

namespace ExprCompiler

open IR (Block Function FunctionId Instruction Module Operand Scope)

namespace IR.Module

variable {m m' : Module}

theorem text_congr (ht : m'.table = m.table) (hname : m'.name = m.name)
    (htriple : m'.triple = m.triple)
    (hf : ∀ f ∈ m.registered, m'.functionText f = m.functionText f) : m'.text = m.text := by
  have hreg : m'.registered = m.registered := by simp only [registered, ht]
  simp only [text, textOf, hreg, hname, htriple, List.map_congr_left hf]

end IR.Module

namespace Generator

variable {us : List TopLevel} {m m' : Module} {u : TopLevel}

/-- The unit is a definition of a declared function under other names of parameters. -/
def Renames (m : Module) (u : TopLevel) : Prop :=
  ∃ d f, u = .definition d ∧ Tried m d f ∧
    ((m.get f).setParams d.prototype.params).params ≠ (m.get f).params

theorem Sound.param_owner {f : FunctionId} (h : Sound us m) (hf : f ∈ m.registered) :
    ∀ i ∈ (m.get f).instructions, ∀ g k, .param g k ∈ i.operands → g = f := by
  intro i hi g k hk
  rcases (h.wellFormed hf).body with hnone | ⟨label, code, x, hblocks, -, hstraight⟩
  · simp [Function.instructions, hnone] at hi
  · simp only [Function.instructions, hblocks, List.flatMap_cons, List.flatMap_nil,
      List.append_nil] at hi
    exact (hstraight.of_param i hi g k hk).1

theorem Sound.functionText_eq {f : FunctionId} (h : Sound us m) (hf : f ∈ m.registered)
    (hget : m'.get f = m.get f) (hnames : ∀ c ∈ m.registered, (m'.get c).name = (m.get c).name) :
    m'.functionText f = m.functionText f := by
  apply Module.functionText_congr hget
  · intro i hi x hx
    cases x with
    | param g k =>
      have hg := h.param_owner hf i hi g k hx
      subst hg
      simp only [Module.reference, Module.paramName, hget]
    | const v => rfl
    | named n t => rfl
  · intro c hc
    have hl := (h.wellFormed hf).lookup_callee c hc
    exact hnames c (Module.mem_registered_of_lookup hl)

theorem Sound.text_stored (h : Sound us m) (x : Function) : (m.stored x).text = m.text := by
  have hget : ∀ f ∈ m.registered, (m.stored x).get f = m.get f := fun f hf =>
    Module.get_stored_of_lt (h.indexed.lt_of_mem hf)
  refine Module.text_congr rfl rfl rfl fun f hf => ?_
  exact h.functionText_eq hf (hget f hf) fun c hc => by rw [hget c hc]

theorem Sound.text_renamed_iff {d : Definition} {f : FunctionId} (h : Sound us m)
    (ht : Tried m d f) (s : Scope) :
    ((m.modify f (·.setParams d.prototype.params)).withBody f s []).text = m.text ↔
      ((m.get f).setParams d.prototype.params).params = (m.get f).params := by
  set m' := (m.modify f (·.setParams d.prototype.params)).withBody f s [] with hm'
  have hreg : f ∈ m.registered := Module.mem_registered_of_lookup ht.lookup
  have hlt := h.indexed.lt_of_mem hreg
  have hself : m'.get f =
      { (m.get f).setParams d.prototype.params with scope := s, blocks := [] } := by
    rw [hm', Module.get_withBody_self (by simpa using hlt), Module.get_modify_self _ hlt]
  have hother {g : FunctionId} (hg : g ≠ f) : m'.get g = m.get g := by
    rw [hm', Module.get_withBody_of_ne hg, Module.get_modify_of_ne _ hg]
  have hnames (c : FunctionId) : (m'.get c).name = (m.get c).name := by
    by_cases hc : c = f
    · subst hc
      rw [hself]
      exact Function.name_setParams _ _
    · rw [hother hc]
  have hrest : ∀ g ∈ m.registered, g ≠ f → m'.functionText g = m.functionText g := fun g hg hne =>
    h.functionText_eq hg (hother hne) fun c _ => hnames c
  have hbody : (m'.get f).hasBody = false := by simp [hself, Function.hasBody]
  constructor
  · intro htext
    have hname : m'.name = m.name := rfl
    have htriple : m'.triple = m.triple := rfl
    have hf := Module.functionText_eq_of_textOf_eq hreg h.indexed.nodup_registered hname htriple
      hrest htext
    have harity : (m'.get f).arity = (m.get f).arity := by
      rw [hself]
      exact Function.arity_setParams _ _
    have hparams := Module.params_eq_of_functionText_eq ht.bodiless hbody (hnames f) harity hf
    rwa [hself] at hparams
  · intro hparams
    refine Module.text_congr rfl rfl rfl fun g hg => ?_
    by_cases hgf : g = f
    · subst hgf
      have hp : (m'.get g).params = (m.get g).params := by
        rw [hself]
        exact hparams
      simp only [Module.functionText, hbody, ht.bodiless, Bool.false_eq_true, if_false,
        Module.headerText, hnames, hp]
    · exact hrest g hg hgf

theorem Sound.failed_text_iff {v : Verifier} {e : CompileError} (h : Sound us m)
    (hs : Step v m u (.error e) m') : m'.text = m.text ↔ ¬ Renames m u := by
  rcases hs.error_cases h.indexed h.named with ⟨hm, hnone⟩ | ⟨d, f, s, fs, rfl, ht, -, rfl⟩
  · have hno : ¬ Renames m u := fun ⟨d, f, hu, ht, _⟩ => hnone d f hu ht
    refine iff_of_true ?_ hno
    rcases hm with rfl | ⟨x, fs, rfl⟩
    · rfl
    · rw [Module.text_sealAll, h.text_stored]
  · rw [Module.text_sealAll, h.text_renamed_iff ht]
    constructor
    · rintro hparams ⟨d', f', hd, ht', hne⟩
      cases hd
      cases ht.lookup.symm.trans ht'.lookup
      exact hne hparams
    · intro hno
      by_contra hne
      exact hno ⟨d, f, rfl, ht, hne⟩

/-- The text of the module after a unit that fails is the text before it, unless the unit renames
the parameters of a declared function. -/
theorem failed_moduleText_iff {g g' : Generator}
    (h : Reached (fun _ => True) Module.Unused us g) (hg : generate u g = .ok none g') :
    ∃ t t' b b', Backend.moduleText g.backend = .ok t b ∧
      Backend.moduleText g'.backend = .ok t' b' ∧
      (t' = t ↔ ¬ Renames g.backend.module u) := by
  have hsound := h.sound fun _ _ _ _ _ hu => hu
  obtain ⟨x, hstep, hx, -, -⟩ := generate_step hsound.indexed hsound.named hg
  cases x with
  | ok f => cases hx
  | error e =>
    exact ⟨_, _, _, _, Backend.moduleText_run _, Backend.moduleText_run _,
      hsound.failed_text_iff hstep⟩

def withExternal : Generator :=
  after (.external ⟨"f", ["a", "b"], none⟩) (ofBackend (.ofTarget "m" Target.host) .checking)

def failingDefinition : TopLevel := .definition ⟨⟨"f", ["x", "y"], none⟩, .var "z" none, none⟩

theorem reached_withExternal :
    Reached (fun _ => True) Module.Unused [.external ⟨"f", ["a", "b"], none⟩] withExternal := by
  have hg : answer? (.external ⟨"f", ["a", "b"], none⟩)
      (ofBackend (.ofTarget "m" Target.host) .checking) = some (some 0) := by
    decide +kernel
  exact (Reached.start "m" Target.host .checking).generated trivial (generate_eq_after hg)

theorem failed_moduleText_iff_withExternal :
    Reached (fun _ => True) Module.Unused [.external ⟨"f", ["a", "b"], none⟩] withExternal ∧
      generate failingDefinition withExternal = .ok none (after failingDefinition withExternal) ∧
      ∃ t t' b b', Backend.moduleText withExternal.backend = .ok t b ∧
        Backend.moduleText (after failingDefinition withExternal).backend = .ok t' b' ∧
        (t' = t ↔ ¬ Renames withExternal.backend.module failingDefinition) := by
  have hg : generate failingDefinition withExternal =
      .ok none (after failingDefinition withExternal) := generate_eq_after (by decide +kernel)
  exact ⟨reached_withExternal, hg, failed_moduleText_iff reached_withExternal hg⟩

/-- The text of the module tells of a definition that has failed. -/
theorem failing_definition_changes_text :
    Reached (fun _ => True) Module.Unused [.external ⟨"f", ["a", "b"], none⟩] withExternal ∧
      generate failingDefinition withExternal = .ok none (after failingDefinition withExternal) ∧
      ∃ t t' b b', Backend.moduleText withExternal.backend = .ok t b ∧
        Backend.moduleText (after failingDefinition withExternal).backend = .ok t' b' ∧
        t' ≠ t := by
  have hg : generate failingDefinition withExternal =
      .ok none (after failingDefinition withExternal) := generate_eq_after (by decide +kernel)
  have hne : (after failingDefinition withExternal).backend.module.text ≠
      withExternal.backend.module.text := by
    decide +kernel
  exact ⟨reached_withExternal, hg, _, _, _, _, Backend.moduleText_run _, Backend.moduleText_run _,
    hne⟩

end Generator

end ExprCompiler
