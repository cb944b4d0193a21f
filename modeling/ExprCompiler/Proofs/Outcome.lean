import ExprCompiler.Proofs.Generation
import ExprCompiler.Proofs.WellFormed

/-!
# What is left of a unit

A definition that has been taken back leaves a function in the store that no
name leads to, or a declaration with other names for its parameters. Nothing
of its code is left in the functions that are registered.
-/

namespace ExprCompiler

open IR (Block Function FunctionId Instruction Module Operand Scope)

namespace IR

theorem Scope.release_mark {s : Scope} {n : String} (hn : n ≠ "") (hf : n ∉ s.used) :
    (s.mark n).release n = s := by
  have hfilter : s.used.filter (· != n) = s.used := by
    rw [List.filter_eq_self]
    intro k hk
    rw [bne_iff_ne]
    rintro rfl
    exact hf hk
  simp [release, mark, hn, hfilter]

namespace Module

variable {m : Module} {f g : FunctionId}

def stored (m : Module) (x : Function) : Module := { m with functions := m.functions ++ [x] }

@[simp] theorem length_stored (m : Module) (x : Function) :
    (m.stored x).functions.length = m.functions.length + 1 := by
  simp [stored]

theorem get_stored_of_lt {x : Function} (h : f < m.functions.length) :
    (m.stored x).get f = m.get f := by
  simp [get, stored, List.getElem?_append_left h]

theorem withBody_enlarged (m : Module) (k : Function) (s : Scope) (bs : List Block) :
    (m.enlarged k).withBody m.functions.length s bs =
      m.enlarged { k with scope := s, blocks := bs } :=
  modify_enlarged m rfl

theorem erase_enlarged (hm : m.Indexed) {k : Function} (hk : k.name ∉ m.scope.used) :
    (m.enlarged k).erase m.functions.length = m.stored k := by
  have hused := hm.used k.name
  have hne : k.name ≠ "" := by tauto
  have hnames : k.name ∉ m.names := by tauto
  have htable := table_erase_enlarged hnames (m.enlarged k) rfl (by simp)
  have hl : (m.enlarged k).lookup k.name = some m.functions.length := by
    rw [lookup_enlarged, lookup_eq_none_iff.2 hnames]
    simp
  have hscope : ((m.enlarged k).erase m.functions.length).scope = m.scope := by
    simp only [erase, get_enlarged_self, hl, if_true]
    exact Scope.release_mark hne hk
  have hfunctions := functions_erase (m.enlarged k) m.functions.length
  have hname : ((m.enlarged k).erase m.functions.length).name = m.name := by
    simp only [erase]
    split <;> rfl
  have htriple : ((m.enlarged k).erase m.functions.length).triple = m.triple := by
    simp only [erase]
    split <;> rfl
  generalize (m.enlarged k).erase m.functions.length = m' at *
  obtain ⟨name, triple, functions, table, scope⟩ := m'
  simp only at *
  subst htable hscope hfunctions hname htriple
  rfl

theorem erase_sealFunction (m : Module) (f g : FunctionId) :
    (m.sealFunction g).erase f = (m.erase f).sealFunction g := by
  have hname : ((m.sealFunction g).get f).name = (m.get f).name := by
    rw [get_sealFunction]
    split <;> rfl
  have hseal : (m.erase f).sealed = m.sealed :=
    sealed_congr fun k i => by simp [paramName]
  simp only [sealFunction_eq, hseal] at *
  simp only [erase, lookup_modify, hname]
  split <;> rfl

theorem erase_sealAll (m : Module) (f : FunctionId) (fs : List FunctionId) :
    (m.sealAll fs).erase f = (m.erase f).sealAll fs := by
  induction fs generalizing m with
  | nil => rfl
  | cons g fs ih =>
    change ((m.sealFunction g).sealAll fs).erase f = ((m.erase f).sealFunction g).sealAll fs
    rw [ih, erase_sealFunction]

theorem withBody_nil_sealFunction (m : Module) (f g : FunctionId) (s : Scope) :
    (m.sealFunction g).withBody f s [] = (m.withBody f s []).sealFunction g := by
  have hseal : (m.withBody f s []).sealed = m.sealed :=
    sealed_congr fun k i => by simp [paramName]
  simp only [sealFunction_eq, hseal]
  simp only [withBody, modify, Module.mk.injEq, true_and, and_true]
  refine List.ext_getElem? fun i => ?_
  simp only [List.getElem?_modify]
  cases m.functions[i]? with
  | none => rfl
  | some x =>
    simp only [Option.map_eq_map, Option.map_some]
    split <;> split <;> rfl

theorem withBody_nil_sealAll (m : Module) (f : FunctionId) (s : Scope) (fs : List FunctionId) :
    (m.sealAll fs).withBody f s [] = (m.withBody f s []).sealAll fs := by
  induction fs generalizing m with
  | nil => rfl
  | cons g fs ih =>
    change ((m.sealFunction g).sealAll fs).withBody f s [] =
      ((m.withBody f s []).sealFunction g).sealAll fs
    rw [ih, withBody_nil_sealFunction]

theorem withBody_withBody (m : Module) (f : FunctionId) (s t : Scope) (bs cs : List Block) :
    (m.withBody f s bs).withBody f t cs = m.withBody f t cs := by
  rw [withBody, withBody, modify_modify]
  rfl

end Module

end IR

namespace Generator

variable {v : Verifier} {m m' : Module} {u : TopLevel}

theorem retract_new (hi : m.Indexed) {k : Function} (hk : k.name ∉ m.scope.used) (t : Scope)
    (bs : List Block) (fs : List FunctionId) :
    retract (((m.enlarged k).withBody m.functions.length t bs).sealAll fs) m.functions.length none =
      (m.stored { k with scope := t, blocks := bs }).sealAll fs := by
  rw [retract, Module.erase_sealAll, Module.withBody_enlarged]
  congr 1
  exact Module.erase_enlarged hi hk

theorem retract_old {f c : FunctionId} {s : Scope} (hs : (m.get f).freshScope = .ok s) (t : Scope)
    (bs : List Block) (fs : List FunctionId) :
    retract ((m.withBody f t bs).sealAll fs) f (some c) = (m.withBody f s []).sealAll fs := by
  have hfresh := (freshScope_sealAll (m.withBody f t bs) f fs).trans (freshScope_withBody m f t bs)
  simp only [retract, hfresh, hs, Module.withBody_nil_sealAll, Module.withBody_withBody]

structure Tried (m : Module) (d : Definition) (f : FunctionId) : Prop where
  lookup : m.lookup d.name = some f
  bodiless : (m.get f).hasBody = false
  arity : (m.get f).arity = d.prototype.arity
  nodup : d.prototype.params.Nodup

theorem Tried.introduce {d : Definition} {f : FunctionId} (h : Tried m d f) :
    ∃ m', introduce m d.prototype = .ok (f, m') := by
  have hd := firstDuplicate_eq_none_iff.2 ⟨h.nodup, fun n _ => List.not_mem_nil⟩
  have hl : m.lookup d.prototype.name = some f := h.lookup
  simp [Generator.introduce, hd, hl, h.arity]

theorem retract_cases (hi : m.Indexed) (hn : ∀ f ∈ m.registered, (m.get f).Named) {d : Definition}
    {f : FunctionId} (hb : Bodiless m d.name) (hp : introduce m d.prototype = .ok (f, m'))
    (t : Scope) (b : Block) (fs : List FunctionId) :
    ((∃ x, retract ((m'.withBody f t [b]).sealAll fs) f (m.lookup d.name) =
        (m.stored x).sealAll fs) ∧ m.lookup d.name = none) ∨
    ∃ s, Tried m d f ∧ ((m.get f).setParams d.prototype.params).freshScope = .ok s ∧
      retract ((m'.withBody f t [b]).sealAll fs) f (m.lookup d.name) =
        ((m.modify f (·.setParams d.prototype.params)).withBody f s []).sealAll fs := by
  obtain ⟨-, -, -, hnamed, -⟩ := introduce_function hi hn hp
  obtain ⟨s, hs, -⟩ := hnamed.freshScope
  obtain ⟨hnodup, ⟨hl, hfree, rfl, rfl⟩ | ⟨hl, ha, rfl⟩⟩ := introduce_cases hp
  · have hnew := retract_new hi (k := (Function.declared d.prototype.name d.prototype.arity).setParams
      d.prototype.params) (by simpa using hfree) t [b] fs
    change m.lookup d.name = none at hl
    rw [hl]
    exact Or.inl ⟨⟨_, hnew⟩, rfl⟩
  · change m.lookup d.name = some f at hl
    have hless := hb f hl
    have htried : Tried m d f := ⟨hl, hless, ha, hnodup⟩
    rw [hl]
    simp only [hless, Bool.false_eq_true, if_false] at hs ⊢
    refine Or.inr ⟨s, htried, ?_, retract_old hs t [b] fs⟩
    rwa [Module.get_modify_self _ (hi.lt_of_lookup hl)] at hs

/-- What a unit that fails makes of a module: nothing that can be reached, or a declaration with
other names for its parameters. -/
theorem Step.error_cases {e : CompileError} (hi : m.Indexed)
    (hn : ∀ f ∈ m.registered, (m.get f).Named) (h : Step v m u (.error e) m') :
    ((m' = m ∨ ∃ x fs, m' = (m.stored x).sealAll fs) ∧
        ∀ d f, u = .definition d → ¬ Tried m d f) ∨
      ∃ d f s fs, u = .definition d ∧ Tried m d f ∧
        ((m.get f).setParams d.prototype.params).freshScope = .ok s ∧
        m' = ((m.modify f (·.setParams d.prototype.params)).withBody f s []).sealAll fs := by
  have hcases {d : Definition} {f : FunctionId} {m₁ : Module} {t : Scope} {b : Block}
      (hb : Bodiless m d.name) (hp : introduce m d.prototype = .ok (f, m₁)) (fs : List FunctionId)
      (hm : m' = retract ((m₁.withBody f t [b]).sealAll fs) f (m.lookup d.name))
      (hu : u = .definition d) :
      ((m' = m ∨ ∃ x fs, m' = (m.stored x).sealAll fs) ∧
        ∀ d f, u = .definition d → ¬ Tried m d f) ∨
      ∃ d f s fs, u = .definition d ∧ Tried m d f ∧
        ((m.get f).setParams d.prototype.params).freshScope = .ok s ∧
        m' = ((m.modify f (·.setParams d.prototype.params)).withBody f s []).sealAll fs := by
    rcases retract_cases hi hn hb hp t b fs with ⟨⟨x, hx⟩, hl⟩ | ⟨s, ht, hs, hx⟩
    · refine Or.inl ⟨Or.inr ⟨x, fs, hm.trans hx⟩, fun d' f' hd ht => ?_⟩
      cases hu.symm.trans hd
      rw [ht.lookup] at hl
      cases hl
    · exact Or.inr ⟨d, f, s, fs, hu, ht, hs, hm.trans hx⟩
  cases h with
  | refused hp =>
    refine Or.inl ⟨Or.inl rfl, ?_⟩
    rintro d f rfl ht
    obtain ⟨m₁, hm⟩ := ht.introduce
    exact absurd (hp.symm.trans hm) (by simp)
  | repeated hl hb =>
    refine Or.inl ⟨Or.inl rfl, ?_⟩
    intro d f hd ht
    cases hd
    cases hl.symm.trans ht.lookup
    rw [ht.bodiless] at hb
    cases hb
  | unfinished hb hp he => exact hcases hb hp [] rfl rfl
  | rejected hb hp he hv => exact hcases hb hp _ rfl rfl

end Generator

end ExprCompiler
