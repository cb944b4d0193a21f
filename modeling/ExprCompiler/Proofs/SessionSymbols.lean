import ExprCompiler.Proofs.History
import ExprCompiler.Proofs.Symbols

/-!
# The symbols of a session

The functions in a module are those of the units that have succeeded: each
name once, in the order of first success, with the arity of that success, and
defined as soon as a definition has succeeded. The functions of bare
expressions never stay.
-/

namespace ExprCompiler

open IR (FunctionId Module Scope)

/-- The units whose functions stay in the module: all but the bare expressions. -/
def lasting (us : List TopLevel) : List TopLevel := us.filter fun u => !u.prototype.isAnonymous

theorem lasting_append (us : List TopLevel) (u : TopLevel) :
    lasting (us ++ [u]) = if u.prototype.isAnonymous then lasting us else lasting us ++ [u] := by
  simp only [lasting, List.filter_append]
  by_cases h : u.prototype.isAnonymous = true
  · rw [if_pos h, List.filter_cons_of_neg (by simpa using h)]
    simp
  · rw [if_neg h, List.filter_cons_of_pos (by simpa using h)]
    simp

def definedNames (us : List TopLevel) : List String :=
  (us.filter TopLevel.isDefinition).map (·.prototype.name)

structure Tabled (us : List TopLevel) (m : Module) : Prop where
  symbols : m.symbols = symbols (lasting us)
  once : (definedNames (lasting us)).Nodup

namespace Tabled

open Generator (Sound Step succeeded)

variable {us : List TopLevel} {m m' : Module} {u : TopLevel} {f : FunctionId} {v : Verifier}

theorem anonymous_not_mem (h : Tabled us m) {p : Prototype} (hp : p.isAnonymous = true) :
    p.name ∉ m.names := by
  intro hm
  rw [← Module.map_name_symbols, h.symbols, map_name_symbols, mem_unitNames] at hm
  obtain ⟨u, hu, hn⟩ := hm
  have hnot : u.prototype.isAnonymous = false := by simpa using (List.mem_filter.1 hu).2
  rw [Prototype.isAnonymous, hn] at hnot
  rw [Prototype.isAnonymous, hnot] at hp
  cases hp

theorem not_defined (h : Tabled us m) (hi : m.Indexed) {n : String}
    (hb : Generator.Bodiless m n) : n ∉ definedNames (lasting us) := by
  intro hm
  obtain ⟨u, hu, hn⟩ := List.mem_map.1 hm
  obtain ⟨hu, hd⟩ := List.mem_filter.1 hu
  have hsymbol : symbol (lasting us) n ∈ m.symbols := by
    rw [h.symbols]
    exact List.mem_map_of_mem (mem_unitNames.2 ⟨u, hu, hn⟩)
  obtain ⟨p, hp, he⟩ := List.mem_map.1 hsymbol
  have hname : p.1 = n := congrArg Symbol.name he
  have hdefined : (m.get p.2).hasBody = (lasting us).any (·.defines n) := congrArg Symbol.defined he
  have hany : (lasting us).any (·.defines n) = true :=
    List.any_eq_true.2 ⟨u, hu, by simp [TopLevel.defines, hd, hn]⟩
  rw [hb p.2 (hname ▸ hi.lookup_of_mem hp), hany] at hdefined
  cases hdefined

theorem error {e : CompileError} (h : Tabled us m) (hs : Sound us m)
    (hstep : Step v m u (.error e) m') : Tabled us m' :=
  ⟨(hstep.symbols hs).trans h.symbols, h.once⟩

theorem ok (h : Tabled us m) (hs : Sound us m) (hu : u.prototype.isAnonymous = false)
    (hstep : Step v m u (.ok f) m') : Tabled (us ++ [u]) m' := by
  have hlasting : lasting (us ++ [u]) = lasting us ++ [u] := by simp [lasting_append, hu]
  refine ⟨?_, ?_⟩
  · rw [hstep.symbols hs, hlasting, symbols_append, h.symbols]
  · rw [hlasting, definedNames, List.filter_append, List.map_append]
    cases hstep with
    | declared hp =>
      rw [List.filter_cons_of_neg (by simp [TopLevel.isDefinition]), List.filter_nil, List.map_nil,
        List.append_nil]
      exact h.once
    | @defined d f m₁ t b fs hb hp he =>
      have hnew := h.not_defined hs.indexed hb
      rw [List.filter_cons_of_pos rfl, List.filter_nil, List.map_singleton]
      refine List.nodup_append.2 ⟨h.once, List.nodup_singleton _, ?_⟩
      rintro n hn k hk rfl
      rw [List.mem_singleton.1 hk] at hn
      exact hnew hn

theorem erased (h : Tabled us m) (hs : Sound us m) (hu : u.prototype.isAnonymous = true)
    (hstep : Step v m u (.ok f) m') (fs : List FunctionId) :
    Tabled (us ++ [u]) ((m'.sealAll fs).erase f) := by
  have hlasting : lasting (us ++ [u]) = lasting us := by simp [lasting_append, hu]
  have hnew : u.prototype.name ∉ m.symbols.map Symbol.name := by
    rw [Module.map_name_symbols]
    exact h.anonymous_not_mem hu
  have hl : (m'.sealAll fs).lookup u.prototype.name = some f := by
    rw [Module.lookup_sealAll]
    exact hstep.lookup hs
  have hname := ((hs.step hstep).indexed.sealAll fs).name_of_lookup hl
  refine ⟨?_, by rw [hlasting]; exact h.once⟩
  rw [Module.symbols_erase (by rw [hname]; exact hl), hname, Module.symbols_sealAll, hstep.symbols hs,
    enter_of_not_mem hnew, List.filter_append, List.filter_cons_of_neg (by simp), List.filter_nil,
    List.append_nil, hlasting, ← h.symbols, List.filter_eq_self]
  intro y hy
  rw [bne_iff_ne]
  intro he
  exact hnew (he ▸ List.mem_map_of_mem hy)

theorem sealAll (h : Tabled us m) (fs : List FunctionId) : Tabled us (m.sealAll fs) :=
  ⟨(Module.symbols_sealAll m fs).trans h.symbols, h.once⟩

theorem empty (name triple : String) : Tabled [] (.empty name triple) := ⟨rfl, List.nodup_nil⟩

end Tabled

namespace Session

variable {v : Verifier} {us : List TopLevel} {s : Session}

theorem tabled_turn (h : Tabled us s.generator.backend.module) (ht : Traced v us s) :
    Tabled (tally us s) (ended (handleNext s)).generator.backend.module := by
  have hsound := ht.reached.sound_of_grammatical
  have hturned := ht.turned
  generalize tally us s = ws at hturned ⊢
  cases hturned with
  | kept hobserved =>
    obtain ⟨fs, hfs⟩ := hobserved.module
    rw [hfs]
    exact h.sealAll fs
  | @stepped u x m fs hu hstep herrors hmodule hbare =>
    rw [hmodule]
    cases x with
    | error e => exact (h.error hsound hstep).sealAll fs
    | ok f =>
      have hnamed : u.prototype.isAnonymous = false := by
        by_contra ha
        cases hbare (by simpa using ha)
      exact (h.ok hsound hnamed hstep).sealAll fs
  | erased hstep herrors hmodule hbare =>
    rw [hmodule]
    exact (h.erased hsound hbare hstep _).sealAll _

theorem History.tabled (h : History v us s) : Tabled us s.generator.backend.module := by
  induction h with
  | @start o files s h =>
    obtain ⟨triple, rfl⟩ := start_eq_ok h
    exact .empty o.moduleName triple
  | source text h ih => exact ih
  | line text h ih => exact ih
  | prompt h ih =>
    obtain ⟨fs, hfs⟩ := (Calm.compositional.prompt _ h.traced.parser).generator.module
    rw [hfs]
    exact ih.sealAll fs
  | turn h ih => exact tabled_turn ih h.traced
  | finish h ih =>
    obtain ⟨fs, hfs⟩ := (calm_finish _ h.traced.parser).generator.module
    rw [hfs]
    exact ih.sealAll fs

/-- The functions in the module of a session are those of the units that have succeeded, no name is
defined twice, and the names of bare expressions are free. -/
theorem symbols_of_history (h : History v us s) :
    s.generator.backend.module.symbols = symbols (lasting us) ∧
      (definedNames (lasting us)).Nodup ∧
      ∀ k, s.generator.backend.module.scope.isUsed (anonymousName k) = false := by
  have htabled := h.tabled
  have hindexed := h.traced.reached.sound_of_grammatical.indexed
  refine ⟨htabled.symbols, htabled.once, fun k => ?_⟩
  have hname : (⟨anonymousName k, [], none⟩ : Prototype).isAnonymous = true :=
    isAnonymous_of_name (p := ⟨anonymousName k, [], none⟩) rfl
  have hfree := htabled.anonymous_not_mem hname
  rw [Scope.isUsed, List.contains_eq_mem, decide_eq_false_iff_not, hindexed.used]
  rintro (he | hm)
  · exact Generator.anonymousName_ne_empty k he
  · exact hfree hm

theorem symbols_of_history_threeUnits : ∃ us s, History .checking us s ∧
    definedNames us = ["f", "__anon_expr.0"] ∧
    s.generator.backend.module.symbols = [⟨"f", 1, true⟩] ∧
    s.generator.backend.module.symbols = symbols (lasting us) ∧
      (definedNames (lasting us)).Nodup ∧
      ∀ k, s.generator.backend.module.scope.isUsed (anonymousName k) = false := by
  have hstart : History .checking [] _ :=
    .start (rfl : start { showCode := false, evaluate := false } .empty .checking = .ok _)
  have h := (hstart.source (.ofString "extern f(a) def f(b) b f(1)")).turn.turn.turn
  exact ⟨_, _, h, by decide +kernel, by decide +kernel, symbols_of_history h⟩

end Session

end ExprCompiler
