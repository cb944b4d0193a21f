import ExprCompiler.Proofs.Operations
import ExprCompiler.Proofs.Reached
import ExprCompiler.Proofs.Remains

/-!
# Defined functions

A function that has a body never changes again. Units that want its name are
refused or agree with it; a unit that fails, or that stops in the middle, has
been at work on a function that had no body.
-/

namespace ExprCompiler

open IR (Block Function FunctionId Instruction Module Operand Scope)

namespace IR.Module

variable {m m' : Module} {f g c : FunctionId} {i : Instruction} {k : Function → Function}
  {n : String} {params : List String} {text : String}

theorem Own.mono (h : m.Own f i) (hlength : m.functions.length ≤ m'.functions.length) :
    m'.Own f i :=
  ⟨h.1, fun c hc => Nat.lt_of_lt_of_le (h.2 c hc) hlength⟩

structure Tight (m : Module) : Prop where
  indexed : m.Indexed
  own : ∀ f, ∀ i ∈ (m.get f).instructions, m.Own f i

namespace Tight

theorem empty (name triple : String) : (Module.empty name triple).Tight :=
  ⟨indexed_empty name triple, fun _ _ hi => nomatch hi⟩

theorem enlarged (h : m.Tight) {x : Function} (hx : x.name ∉ m.scope.used) (hb : x.blocks = []) :
    (m.enlarged x).Tight := by
  refine ⟨h.indexed.enlarged hx, fun f i hi => ?_⟩
  have hle : m.functions.length ≤ (m.enlarged x).functions.length := by simp
  rcases Nat.lt_trichotomy f m.functions.length with hf | rfl | hf
  · rw [get_enlarged_of_lt hf] at hi
    exact (h.own f i hi).mono hle
  · rw [get_enlarged_self] at hi
    simp [Function.instructions, hb] at hi
  · rw [get_eq_default (by simpa using Nat.succ_le_of_lt hf)] at hi
    cases hi

theorem modify (h : m.Tight) (hk : ∀ x, (k x).name = x.name)
    (hown : ∀ i ∈ (k (m.get c)).instructions, m.Own c i) : (m.modify c k).Tight := by
  refine ⟨h.indexed.modify hk, fun f i hi => ?_⟩
  have hle : m.functions.length ≤ (m.modify c k).functions.length := by simp
  by_cases hf : f = c
  · subst hf
    by_cases hlt : f < m.functions.length
    · rw [get_modify_self k hlt] at hi
      exact (hown i hi).mono hle
    · rw [get_eq_default (by simpa using hlt)] at hi
      cases hi
  · rw [get_modify_of_ne k hf] at hi
    exact (h.own f i hi).mono hle

theorem erase (h : m.Tight) (c : FunctionId) : (m.erase c).Tight := by
  refine ⟨h.indexed.erase c, fun f i hi => ?_⟩
  rw [get_erase] at hi
  exact (h.own f i hi).mono (by simp)

theorem sealAll (h : m.Tight) (fs : List FunctionId) : (m.sealAll fs).Tight := by
  refine ⟨h.indexed.sealAll fs, fun f i hi => ?_⟩
  have hle : m.functions.length ≤ (m.sealAll fs).functions.length := by simp
  rw [get_sealAll] at hi
  split at hi
  · rw [instructions_sealed] at hi
    obtain ⟨j, hj, rfl⟩ := List.mem_map.1 hi
    refine ⟨fun g k hk => ?_, ?_⟩
    · rw [Instruction.operands_mapOperands] at hk
      obtain ⟨x, -, hx⟩ := List.mem_map.1 hk
      cases x <;> cases hx
    · rw [Instruction.callee?_mapOperands]
      exact ((h.own f j hj).mono hle).2
  · exact (h.own f i hi).mono hle

end Tight

structure Defines (m : Module) (n : String) (f : FunctionId) (params : List String)
    (text : String) : Prop where
  tight : m.Tight
  lookup : m.lookup n = some f
  hasBody : (m.get f).hasBody = true
  params : (m.get f).params = params
  text : m.functionText f = text

namespace Defines

theorem lt_length (h : m.Defines n f params text) : f < m.functions.length :=
  h.tight.indexed.lt_of_lookup h.lookup

theorem of_get_eq (h : m.Defines n f params text) (ht : m'.Tight) (hl : m'.lookup n = some f)
    (hget : m'.get f = m.get f)
    (hnames : ∀ c < m.functions.length, (m'.get c).name = (m.get c).name) :
    m'.Defines n f params text := by
  have htext : m'.functionText f = m.functionText f := by
    -- The text names parameters of `f` itself and callees, and neither has a new name.
    apply functionText_congr hget
    · intro i hi x hx
      cases x with
      | param g k =>
        obtain rfl := (h.tight.own f i hi).1 g k hx
        simp only [reference, paramName, hget]
      | const v => rfl
      | named n t => rfl
    · intro c hc
      obtain ⟨i, hi, hcallee⟩ := List.mem_filterMap.1 hc
      exact hnames c ((h.tight.own f i hi).2 c hcallee)
  refine ⟨ht, hl, ?_, ?_, htext.trans h.text⟩
  · rw [hget]
    exact h.hasBody
  · rw [hget]
    exact h.params

theorem enlarged (h : m.Defines n f params text) {x : Function} (hx : x.name ∉ m.scope.used)
    (hb : x.blocks = []) : (m.enlarged x).Defines n f params text := by
  refine h.of_get_eq (h.tight.enlarged hx hb) ?_ (get_enlarged_of_lt h.lt_length) fun c hc => ?_
  · rw [lookup_enlarged, h.lookup]
    rfl
  · rw [get_enlarged_of_lt hc]

theorem modify (h : m.Defines n f params text) (hne : f ≠ c) (hk : ∀ x, (k x).name = x.name)
    (hown : ∀ i ∈ (k (m.get c)).instructions, m.Own c i) :
    (m.modify c k).Defines n f params text :=
  h.of_get_eq (h.tight.modify hk hown) h.lookup (get_modify_of_ne k hne) fun g _ =>
    map_get_modify Function.name hk c g

theorem erase (h : m.Defines n f params text) (hne : f ≠ c) :
    (m.erase c).Defines n f params text := by
  refine h.of_get_eq (h.tight.erase c) ?_ (get_erase m c f) fun g _ => by rw [get_erase]
  by_cases hn : n = (m.get c).name
  · -- The name of `c` stands for `f` now, and stays in the table.
    have hstale : ¬ m.lookup (m.get c).name = some c := by
      rw [← hn, h.lookup]
      exact fun he => hne (Option.some.inj he)
    rw [Module.erase, if_neg hstale]
    exact h.lookup
  · rw [lookup_erase_of_ne hn]
    exact h.lookup

theorem sealAll (h : m.Defines n f params text) (fs : List FunctionId) :
    (m.sealAll fs).Defines n f params text := by
  refine ⟨h.tight.sealAll fs, by simpa using h.lookup, ?_, ?_, ?_⟩
  · rw [map_get_sealAll Function.hasBody (fun x => hasBody_sealed m x)]
    exact h.hasBody
  · rw [map_get_sealAll Function.params fun _ => rfl]
    exact h.params
  · rw [functionText_sealAll]
    exact h.text

end Defines

structure Robust (free : FunctionId → Prop) (I : Module → Prop) : Prop where
  tight {m : Module} (h : I m) : m.Tight
  bodiless {m : Module} {c : FunctionId} (h : I m) (hb : (m.get c).blocks = []) : free c
  enlarged {m : Module} {x : Function} (h : I m) (hx : x.name ∉ m.scope.used) (hb : x.blocks = []) :
    I (m.enlarged x)
  modify {m : Module} {c : FunctionId} {k : Function → Function} (h : I m) (hc : free c)
    (hk : ∀ x, (k x).name = x.name) (hown : ∀ i ∈ (k (m.get c)).instructions, m.Own c i) :
    I (m.modify c k)
  erase {m : Module} {c : FunctionId} (h : I m) (hc : free c) : I (m.erase c)
  sealAll {m : Module} (h : I m) (fs : List FunctionId) : I (m.sealAll fs)

theorem robust_tight : Robust (fun _ => True) Tight where
  tight h := h
  bodiless _ _ := trivial
  enlarged h := h.enlarged
  modify h _ := h.modify
  erase h _ := h.erase _
  sealAll := Tight.sealAll

theorem robust_defines : Robust (f ≠ ·) (Defines · n f params text) where
  tight h := h.tight
  bodiless h hb := by
    rintro rfl
    have hbody := h.hasBody
    simp [Function.hasBody, hb] at hbody
  enlarged h := h.enlarged
  modify := Defines.modify
  erase := Defines.erase
  sealAll := Defines.sealAll

end IR.Module

namespace Generator

section

variable {free : FunctionId → Prop} {I : Module → Prop} {m m' : Module} {c : FunctionId}
  {p : Prototype} {g : Generator}

theorem introduce_robust (hr : Module.Robust free I) (h : I m) (hp : introduce m p = .ok (c, m')) :
    I m' := by
  obtain ⟨-, ⟨-, hfree, -, rfl⟩ | ⟨-, -, rfl⟩⟩ := introduce_cases hp
  · exact hr.enlarged h (by simpa using hfree) (by simp)
  · split
    · exact h
    · have hb := IR.Function.blocks_eq_nil ‹_›
      refine hr.modify h (hr.bodiless h hb) (fun x => x.name_setParams _) fun i hi => ?_
      simp [IR.Function.instructions, hb] at hi

theorem introduce_bodiless (hi : m.Indexed) (hless : Bodiless m p.name)
    (hp : introduce m p = .ok (c, m')) :
    c < m'.functions.length ∧ (m'.get c).blocks = [] := by
  obtain ⟨-, ⟨-, -, rfl, rfl⟩ | ⟨hl, -, rfl⟩⟩ := introduce_cases hp
  · simp
  · have hlt := hi.lt_of_lookup hl
    have hb := hless c hl
    rw [hb, if_neg Bool.false_ne_true, Module.get_modify_self _ hlt, IR.Function.blocks_setParams]
    exact ⟨by simpa using hlt, IR.Function.blocks_eq_nil (by simp [hb])⟩

theorem body_robust (hr : Module.Robust free I) (h : I g.backend.module) (hc : free c)
    (hlt : c < g.backend.module.functions.length) (hb : (g.backend.module.get c).blocks = [])
    (d : Definition) : I (ended (body c d g)).backend.module := by
  obtain ⟨t, b, fs, hown, hm⟩ := body_remains g d (hr.tight h).indexed hlt hb
  have hbody : I (g.backend.module.withBody c t [b]) := by
    apply hr.modify h hc
    · exact fun _ => rfl
    · intro i hi
      exact hown i (by simpa [IR.Function.instructions] using hi)
  rw [hm]
  exact hr.sealAll hbody fs

theorem undo_robust (hr : Module.Robust free I) (h : I g.backend.module) (hc : free c)
    (before : Option FunctionId) :
    I (ended ((if before.isSome then onBackend (Backend.clear c) else onBackend (Backend.erase c))
      g)).backend.module := by
  cases before with
  | none =>
    obtain ⟨j, hj⟩ := Backend.erase_run g.backend c
    change I (ended (onBackend (Backend.erase c) g)).backend.module
    rw [onBackend_eq_ok hj]
    exact hr.erase h hc
  | some _ =>
    change I (ended (onBackend (Backend.clear c) g)).backend.module
    cases hs : (g.backend.module.get c).freshScope with
    | ok s =>
      obtain ⟨j, hj⟩ := Backend.clear_run hs
      rw [onBackend_eq_ok hj]
      exact hr.modify h hc (fun _ => rfl) nofun
    | error name =>
      obtain ⟨q, j, hj, -⟩ := Backend.clear_refused hs
      rw [onBackend_eq_error hj]
      exact hr.modify h hc (fun _ => rfl) nofun

theorem onFailure_robust {x undo : GeneratorM Unit} (hx : I (ended (x g)).backend.module)
    (hu : ∀ g', I g'.backend.module → I (ended (undo g')).backend.module) :
    I (ended (onFailure x undo g)).backend.module := by
  cases h : x g with
  | ok a g' =>
    rw [h] at hx
    rw [onFailure_eq_ok h]
    exact hx
  | error stop g' =>
    rw [h] at hx
    obtain ⟨e, rfl⟩ | hs := failed_or_ne stop
    · have hundo := hu g' hx
      cases hg : undo g' with
      | ok a g'' =>
        rw [onFailure_eq_error h hg]
        rwa [hg] at hundo
      | error stop g'' =>
        simp only [onFailure, h, hg]
        rwa [hg] at hundo
    · rw [onFailure_eq_stop h hs]
      exact hx

theorem module_noted {α : Type} (x : GeneratorM Unit) (e : Note) (a : α) (g : Generator) :
    (ended ((do x; onBackend (Backend.note e); return a : GeneratorM α) g)).backend.module =
      (ended (x g)).backend.module := by
  cases h : x g with
  | ok _ g' =>
    rw [bind_eq_ok h]
    rfl
  | error stop g' =>
    rw [bind_eq_error h]
    rfl

theorem prototype_robust (hr : Module.Robust free I) (h : I g.backend.module) (p : Prototype) :
    I (ended (prototype p g)).backend.module := by
  have hproto := prototype_run g p
  cases hp : introduce g.backend.module p with
  | error stop =>
    rw [hp] at hproto
    obtain ⟨j, hj⟩ := hproto
    rw [hj]
    exact h
  | ok q =>
    rw [hp] at hproto
    obtain ⟨j, hj⟩ := hproto
    rw [hj]
    exact introduce_robust hr h hp

theorem definition_robust (hr : Module.Robust free I) (h : I g.backend.module) (d : Definition) :
    I (ended (definition d g)).backend.module := by
  by_cases hless : Bodiless g.backend.module d.name
  · rw [definition_of_bodiless hless]
    have hproto := prototype_run g d.prototype
    cases hp : introduce g.backend.module d.prototype with
    | error stop =>
      rw [hp] at hproto
      obtain ⟨j, hj⟩ := hproto
      rw [bind_eq_error hj]
      exact h
    | ok q =>
      obtain ⟨c, m'⟩ := q
      rw [hp] at hproto
      obtain ⟨j, hj⟩ := hproto
      have hm : I m' := introduce_robust hr h hp
      obtain ⟨hlt, hblocks⟩ := introduce_bodiless (hr.tight h).indexed hless hp
      have hfree : free c := hr.bodiless hm hblocks
      rw [bind_eq_ok hj, module_noted]
      exact onFailure_robust (body_robust hr hm hfree hlt hblocks d) fun g' hg' =>
        undo_robust hr hg' hfree (g.backend.module.lookup d.name)
  · -- The name has a body: the definition is refused, and nothing has been touched.
    unfold Bodiless at hless
    push Not at hless
    obtain ⟨c, hl, hb⟩ := hless
    rw [Bool.ne_false_iff] at hb
    unfold definition
    rw [bind_eq_ok (lookup_run g d.name), hl]
    simp only
    rw [bind_eq_ok (hasBody_run g c), hb]
    exact h

theorem module_recorded {α : Type} (x : GeneratorM α) (g : Generator) :
    (ended (recorded x g)).backend.module = (ended (x g)).backend.module := by
  cases h : x g with
  | ok a g' =>
    simp only [recorded, h]
    rfl
  | error stop g' =>
    obtain ⟨e, rfl⟩ | hs := failed_or_ne stop
    · simp only [recorded, h]
      rfl
    · rw [recorded_eq_stop h hs]
      rfl

theorem after_eq_ended (u : TopLevel) (g : Generator) : after u g = ended (generate u g) := by
  unfold after
  cases generate u g <;> rfl

/-- Whatever comes of a unit, what it has been at work on is a function that had no body. -/
theorem after_robust (hr : Module.Robust free I) (h : I g.backend.module) (u : TopLevel) :
    I (after u g).backend.module := by
  rw [after_eq_ended, generate, module_recorded]
  cases u with
  | definition d => exact definition_robust hr h d
  | external p => exact prototype_robust hr h p

theorem Observed.robust {g' : Generator} (ho : Observed g g') (hr : Module.Robust free I)
    (h : I g.backend.module) : I g'.backend.module := by
  obtain ⟨fs, hm⟩ := ho.module
  rw [hm]
  exact hr.sealAll h fs

end

/-! ### Runs -/

inductive Possible : Generator → Prop
  | start (name triple : String) (v : Verifier) : Possible (ofBackend (.ofTarget name triple) v)
  | generated {g : Generator} (h : Possible g) (u : TopLevel) : Possible (after u g)
  | observed {g g' : Generator} (h : Possible g) (ho : Observed g g') : Possible g'
  | erased {g g' : Generator} {f : FunctionId} (h : Possible g)
      (hg : onBackend (Backend.erase f) g = .ok () g') : Possible g'

/-- The generators that come after one when units are generated, whatever comes of them, and code
is looked at. -/
inductive Later (g : Generator) : Generator → Prop
  | start : Later g g
  | generated {g' : Generator} (h : Later g g') (u : TopLevel) : Later g (after u g')
  | observed {g' g'' : Generator} (h : Later g g') (ho : Observed g' g'') : Later g g''

section

variable {g g' : Generator} {n : String} {f : FunctionId}

theorem Possible.tight (h : Possible g) : g.backend.module.Tight := by
  induction h with
  | start name triple => exact .empty name triple
  | generated h u ih => exact after_robust Module.robust_tight ih u
  | observed h ho ih => exact ho.robust Module.robust_tight ih
  | erased h hg ih =>
    rw [(erase_module hg).1]
    exact ih.erase _

theorem Later.defines {params : List String} {text : String} (h : Later g g')
    (hg : g.backend.module.Defines n f params text) :
    g'.backend.module.Defines n f params text := by
  induction h with
  | start => exact hg
  | generated h u ih => exact after_robust Module.robust_defines ih u
  | observed h ho ih => exact ho.robust Module.robust_defines ih

/-- A function that has a body stays under its name, with the same parameters and the same text,
whatever units come. -/
theorem defined_function_stays (h : Possible g) (hl : g.backend.module.lookup n = some f)
    (hb : (g.backend.module.get f).hasBody = true) (hlater : Later g g') :
    g'.backend.module.lookup n = some f ∧ (g'.backend.module.get f).hasBody = true ∧
      (g'.backend.module.get f).params = (g.backend.module.get f).params ∧
      (g'.backend.module.get f).arity = (g.backend.module.get f).arity ∧
      ∃ t b b', Backend.functionText f g.backend = .ok t b ∧
        Backend.functionText f g'.backend = .ok t b' := by
  have hdefines := hlater.defines ⟨h.tight, hl, hb, rfl, rfl⟩
  refine ⟨hdefines.lookup, hdefines.hasBody, hdefines.params, ?_, ?_⟩
  · rw [IR.Function.arity, hdefines.params, IR.Function.arity]
  · have hafter := Backend.functionText_run f g'.backend
    rw [hdefines.text] at hafter
    exact ⟨_, _, _, Backend.functionText_run f g.backend, hafter⟩

def sumDefinition : TopLevel :=
  .definition ⟨⟨"f", ["a", "b"], none⟩, .binary "+" (.var "a" none) (.var "b" none) none, none⟩

def withSum : Generator := after sumDefinition (ofBackend (.ofTarget "m" Target.host) .checking)

theorem defined_function_stays_withSum :
    ∃ g', Possible withSum ∧ Later withSum g' ∧ g'.errors.length = 2 ∧
      g'.backend.module.names = ["f", "h"] ∧ g'.backend.module.lookup "f" = some 0 ∧
      (g'.backend.module.get 0).params = ["a", "b"] ∧
      ∃ t b b', Backend.functionText 0 withSum.backend = .ok t b ∧
        Backend.functionText 0 g'.backend = .ok t b' := by
  have hpossible : Possible withSum := (Possible.start "m" Target.host .checking).generated _
  have hlater := ((((Later.start (g := withSum)).generated
    (.external ⟨"f", ["b", "a"], none⟩)).generated
    (.definition ⟨⟨"f", [], none⟩, .number 1 none, none⟩)).generated
    (.definition ⟨⟨"g", ["a"], none⟩, .call "f" [.var "a" none] none, none⟩)).generated
    (.definition ⟨⟨"h", ["f"], none⟩,
      .call "f" [.var "f" none, .stray ⟨"extern k()", ""⟩] none, none⟩)
  obtain ⟨hl, -, hp, -, htext⟩ := defined_function_stays hpossible (n := "f") (f := 0)
    (by decide +kernel) (by decide +kernel) hlater
  have hparams : (withSum.backend.module.get 0).params = ["a", "b"] := by decide +kernel
  exact ⟨_, hpossible, hlater, by decide +kernel, by decide +kernel, hl, hp.trans hparams, htext⟩

end

end Generator

end ExprCompiler
