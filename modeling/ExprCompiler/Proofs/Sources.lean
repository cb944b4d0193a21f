import ExprCompiler.Proofs.Parsed
import ExprCompiler.Proofs.Symbols

/-!
# Declarations and their definitions

A declaration in a module has no definition among the units that have
succeeded: a definition that has succeeded stays, unless it belongs to a bare
expression, whose name is never declared.
-/

namespace ExprCompiler

open IR (FunctionId Module)

structure Sourced (us : List TopLevel) (t : List Symbol) : Prop where
  named : ∀ y ∈ t, Identifier y.name ∨ y.defined = true
  defined : ∀ n d, Identifier n → latest us n = some d → ∃ y ∈ t, y.name = n ∧ y.defined = true

section

variable {us : List TopLevel} {t : List Symbol} {u : TopLevel} {y : Symbol}

@[simp] theorem name_marked (y : Symbol) (u : TopLevel) : (y.marked u).name = y.name := by
  unfold Symbol.marked
  split <;> rfl

theorem defined_marked (u : TopLevel) (h : y.defined = true) : (y.marked u).defined = true := by
  unfold Symbol.marked
  split
  · simp [h]
  · exact h

theorem marked_mem_enter (u : TopLevel) (h : y ∈ t) : y.marked u ∈ enter t u := by
  by_cases hu : u.prototype.name ∈ t.map Symbol.name
  · rw [enter_of_mem hu]
    exact List.mem_map_of_mem h
  · have hne : y.name ≠ u.prototype.name := fun he => hu (he ▸ List.mem_map_of_mem h)
    have hy : y.marked u = y := by simp [Symbol.marked, hne]
    rw [enter_of_not_mem hu, hy]
    exact List.mem_append_left _ h

theorem cases_of_mem_enter (h : y ∈ enter t u) :
    (∃ z ∈ t, y = z.marked u) ∨ y = ⟨u.prototype.name, u.prototype.arity, u.isDefinition⟩ := by
  by_cases hu : u.prototype.name ∈ t.map Symbol.name
  · rw [enter_of_mem hu] at h
    obtain ⟨z, hz, rfl⟩ := List.mem_map.1 h
    exact Or.inl ⟨z, hz, rfl⟩
  · rw [enter_of_not_mem hu] at h
    rcases List.mem_append.1 h with h | h
    · have hne : y.name ≠ u.prototype.name := fun he => hu (he ▸ List.mem_map_of_mem h)
      exact Or.inl ⟨y, h, by simp [Symbol.marked, hne]⟩
    · exact Or.inr (List.mem_singleton.1 h)

theorem exists_entered (t : List Symbol) (d : Definition) :
    ∃ y ∈ enter t (.definition d), y.name = d.name ∧ y.defined = true := by
  by_cases hu : d.name ∈ t.map Symbol.name
  · obtain ⟨z, hz, hn⟩ := List.mem_map.1 hu
    have hname : z.name = (TopLevel.definition d).prototype.name := hn
    refine ⟨_, marked_mem_enter (.definition d) hz, by simpa using hn, ?_⟩
    simp [Symbol.marked, hname, TopLevel.isDefinition]
  · rw [enter_of_not_mem (u := .definition d) hu]
    exact ⟨_, List.mem_append_right _ (List.mem_singleton.2 rfl), rfl, rfl⟩

namespace Sourced

theorem entered (h : Sourced us t) (hu : u.Grammatical) : Sourced (us ++ [u]) (enter t u) := by
  refine ⟨fun y hy => ?_, fun n d hn hd => ?_⟩
  · rcases cases_of_mem_enter hy with ⟨z, hz, rfl⟩ | rfl
    · rcases h.named z hz with hz | hz
      · exact Or.inl (by simpa using hz)
      · exact Or.inr (defined_marked u hz)
    · rcases hu.name with hn | ⟨k, d, rfl, -, -⟩
      · exact Or.inl hn
      · exact Or.inr rfl
  · have hold (hd : latest us n = some d) : ∃ y ∈ enter t u, y.name = n ∧ y.defined = true := by
      obtain ⟨y, hy, hname, hdefined⟩ := h.defined n d hn hd
      exact ⟨_, marked_mem_enter u hy, by simpa using hname, defined_marked u hdefined⟩
    cases u with
    | external p => exact hold (by simpa using hd)
    | definition e =>
      rw [latest_append_definition] at hd
      by_cases hen : e.name = n
      · subst hen
        exact exists_entered t e
      · rw [if_neg hen] at hd
        exact hold hd

theorem erased (h : Sourced us t) (k : Nat) :
    Sourced us (t.filter (·.name != anonymousName k)) := by
  refine ⟨fun y hy => h.named y (List.mem_filter.1 hy).1, fun n d hn hd => ?_⟩
  obtain ⟨y, hy, rfl, hdefined⟩ := h.defined n d hn hd
  refine ⟨y, List.mem_filter.2 ⟨hy, ?_⟩, rfl, hdefined⟩
  rw [bne_iff_ne]
  exact hn.ne_anonymous k

end Sourced

end

namespace Generator

variable {us : List TopLevel} {g : Generator} {f : FunctionId}

theorem Reached.sourced (h : Reached TopLevel.Grammatical Anonymous us g) :
    Sourced us g.backend.module.symbols := by
  induction h with
  | start name triple v => exact ⟨by rintro y ⟨⟩, by rintro n d - ⟨⟩⟩
  | @generated us u g g' r h hu hg ih =>
    have hsound := h.sound_of_grammatical
    obtain ⟨x, hstep, rfl, -, -⟩ := generate_step hsound.indexed hsound.named hg
    have hsymbols := hstep.symbols hsound
    cases x with
    | ok f =>
      rw [hsymbols]
      exact ih.entered hu
    | error e =>
      rw [hsymbols]
      exact ih
  | observed h hg ih =>
    obtain ⟨fs, hfs⟩ := hg.module
    rw [hfs, Module.symbols_sealAll]
    exact ih
  | @erased us g g' f h hf hg ih =>
    obtain ⟨k, hk⟩ := hf
    have hname := h.sound_of_grammatical.indexed.name_of_lookup hk
    rw [(erase_module hg).1, Module.symbols_erase (by rw [hname]; exact hk), hname]
    exact ih.erased k

theorem Reached.latest_eq_none (h : Reached TopLevel.Grammatical Anonymous us g)
    (hf : f ∈ g.backend.module.registered) (hb : (g.backend.module.get f).hasBody = false) :
    latest us (g.backend.module.get f).name = none := by
  have hsourced := h.sourced
  have hindexed := h.sound_of_grammatical.indexed
  have hl := hindexed.lookup_name hf
  have hmem : (⟨(g.backend.module.get f).name, (g.backend.module.get f).arity, false⟩ : Symbol) ∈
      g.backend.module.symbols :=
    List.mem_map.2 ⟨_, Module.mem_table_of_lookup hl, by rw [hb]⟩
  have hn : Identifier (g.backend.module.get f).name := by
    rcases hsourced.named _ hmem with hn | hn
    · exact hn
    · cases hn
  by_contra hne
  obtain ⟨d, hd⟩ := Option.ne_none_iff_exists'.1 hne
  obtain ⟨y, hy, hname, hdefined⟩ := hsourced.defined _ d hn hd
  obtain ⟨p, hp, rfl⟩ := List.mem_map.1 hy
  have hlookup := hindexed.lookup_of_mem (n := p.1) (f := p.2) hp
  have hname' : p.1 = (g.backend.module.get f).name := hname
  rw [hname', hl] at hlookup
  cases hlookup
  rw [hb] at hdefined
  cases hdefined

end Generator

end ExprCompiler
