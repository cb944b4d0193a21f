import Mathlib.Data.List.Nodup
import ExprCompiler.Proofs.Names

/-!
# The store and the table of a module

Every change of a module is a change of one function, or enters one name into
the table, or takes one out. The table and the scope of names always agree:
the names in use are the empty name and the names in the table, each of which
stands for the function that bears it.
-/

namespace ExprCompiler.IR.Module

variable {m : Module} {f g : FunctionId} {n : String}

/-! ### Functions in the store -/

@[simp] theorem length_modify (m : Module) (f : FunctionId) (k : Function → Function) :
    (m.modify f k).functions.length = m.functions.length :=
  List.length_modify _ _ _

@[simp] theorem table_modify (m : Module) (f : FunctionId) (k : Function → Function) :
    (m.modify f k).table = m.table := rfl

@[simp] theorem scope_modify (m : Module) (f : FunctionId) (k : Function → Function) :
    (m.modify f k).scope = m.scope := rfl

theorem get_modify_of_ne (k : Function → Function) (h : g ≠ f) : (m.modify f k).get g = m.get g := by
  simp [get, modify, List.getElem?_modify_ne k m.functions (Ne.symm h)]

theorem get_modify_self (k : Function → Function) (h : f < m.functions.length) :
    (m.modify f k).get f = k (m.get f) := by
  simp [get, modify, h]

theorem get_eq_default (h : m.functions.length ≤ f) : m.get f = default := by
  simp [get, List.getElem?_eq_none h]

theorem map_get_modify {α : Type} (p : Function → α) {k : Function → Function}
    (hk : ∀ x, p (k x) = p x) (f g : FunctionId) : p ((m.modify f k).get g) = p (m.get g) := by
  by_cases h : g = f
  · subst h
    by_cases hg : g < m.functions.length
    · rw [get_modify_self k hg, hk]
    · rw [get_eq_default (by simpa using hg), get_eq_default (by simpa using hg)]
  · rw [get_modify_of_ne k h]

theorem modify_modify (m : Module) (f : FunctionId) (j k : Function → Function) :
    (m.modify f j).modify f k = m.modify f (k ∘ j) := by
  simp [modify, List.modify_modify_eq]

/-! ### Names in the table -/

@[simp] theorem lookup_modify (k : Function → Function) : (m.modify f k).lookup n = m.lookup n := rfl

@[simp] theorem registered_modify (k : Function → Function) :
    (m.modify f k).registered = m.registered := rfl

@[simp] theorem names_modify (k : Function → Function) : (m.modify f k).names = m.names := rfl

theorem mem_table_of_lookup (h : m.lookup n = some f) : (n, f) ∈ m.table := by
  obtain ⟨l₁, l₂, hl, -⟩ := List.lookup_eq_some_iff.1 h
  rw [hl]
  simp

theorem mem_registered_of_lookup (h : m.lookup n = some f) : f ∈ m.registered :=
  List.mem_map.2 ⟨_, mem_table_of_lookup h, rfl⟩

theorem lookup_eq_none_iff : m.lookup n = none ↔ n ∉ m.names := by
  simp only [lookup, List.lookup_eq_none_iff, names, List.mem_map, not_exists, not_and]
  constructor
  · intro h p hp he
    simpa [he] using h p hp
  · intro h p hp
    simpa [bne_iff_ne] using fun he : n = p.1 => h p hp he.symm

structure Indexed (m : Module) : Prop where
  nodup : m.names.Nodup
  inStore : ∀ p ∈ m.table, p.2 < m.functions.length
  named : ∀ p ∈ m.table, (m.get p.2).name = p.1
  used : ∀ n, n ∈ m.scope.used ↔ n = "" ∨ n ∈ m.names
  ne_empty : "" ∉ m.names

theorem indexed_empty (name triple : String) : (empty name triple).Indexed :=
  ⟨List.nodup_nil, by simp [empty], by simp [empty], by simp [empty, Scope.empty, names],
    by simp [empty, names]⟩

namespace Indexed

theorem lookup_of_mem (h : m.Indexed) (hp : (n, f) ∈ m.table) : m.lookup n = some f := by
  have hd := h.nodup
  simp only [names] at hd
  unfold lookup
  generalize m.table = t at hp hd
  induction t with
  | nil => simp at hp
  | cons p t ih =>
    obtain ⟨k, c⟩ := p
    rw [List.lookup_cons]
    simp only [List.map_cons, List.nodup_cons, List.mem_map, not_exists, not_and] at hd
    rcases List.mem_cons.1 hp with hp | hp
    · obtain ⟨rfl, rfl⟩ := Prod.mk.inj hp
      simp
    · have hne : n ≠ k := fun he => hd.1 (n, f) hp he
      simp only [beq_eq_false_iff_ne.2 hne]
      exact ih hp hd.2

theorem lt_of_lookup (h : m.Indexed) (hl : m.lookup n = some f) : f < m.functions.length :=
  h.inStore _ (mem_table_of_lookup hl)

theorem name_of_lookup (h : m.Indexed) (hl : m.lookup n = some f) : (m.get f).name = n :=
  h.named _ (mem_table_of_lookup hl)

theorem lookup_name (h : m.Indexed) (hf : f ∈ m.registered) :
    m.lookup (m.get f).name = some f := by
  obtain ⟨⟨k, c⟩, hp, rfl⟩ := List.mem_map.1 hf
  rw [h.named _ hp]
  exact h.lookup_of_mem hp

theorem mem_registered (h : m.Indexed) : f ∈ m.registered ↔ m.lookup (m.get f).name = some f :=
  ⟨h.lookup_name, mem_registered_of_lookup⟩

theorem lt_of_mem (h : m.Indexed) (hf : f ∈ m.registered) : f < m.functions.length :=
  h.lt_of_lookup (h.lookup_name hf)

theorem eq_of_name_eq (h : m.Indexed) (hf : f ∈ m.registered) (hg : g ∈ m.registered)
    (he : (m.get f).name = (m.get g).name) : f = g := by
  have hl := h.lookup_name hf
  rw [he, h.lookup_name hg] at hl
  exact (Option.some.inj hl).symm

theorem nodup_registered (h : m.Indexed) : m.registered.Nodup := by
  have hd := h.nodup
  have he : m.names = m.registered.map fun f => (m.get f).name := by
    simp only [names, registered, List.map_map]
    exact List.map_congr_left fun p hp => (h.named p hp).symm
  rw [he] at hd
  exact hd.of_map _

theorem modify (h : m.Indexed) {k : Function → Function} (hk : ∀ x, (k x).name = x.name) :
    (m.modify f k).Indexed := by
  refine ⟨h.nodup, ?_, ?_, h.used, h.ne_empty⟩
  · intro p hp
    simpa using h.inStore p hp
  · intro p hp
    rw [map_get_modify Function.name hk]
    exact h.named p hp

end Indexed

/-! ### Entering and removing a name -/

def enlarged (m : Module) (g : Function) : Module :=
  { m with functions := m.functions ++ [g], table := m.table ++ [(g.name, m.functions.length)],
           scope := m.scope.mark g.name }

theorem declare?_of_used (h : n ∈ m.scope.used) (arity : Nat) : m.declare? n arity = none := by
  have hused : m.scope.isUsed n = true := by simpa [Scope.isUsed] using h
  simp [declare?, Scope.reserve?, hused]

theorem declare?_of_free (h : n ∉ m.scope.used) (arity : Nat) :
    m.declare? n arity = some (m.functions.length, m.enlarged (.declared n arity)) := by
  have hfree : m.scope.isUsed n = false := by simpa [Scope.isUsed] using h
  simp [declare?, Scope.reserve?, hfree, enlarged]

theorem declare?_eq_some (hm : m.Indexed) (hn : m.lookup n = none) (hne : n ≠ "") (arity : Nat) :
    m.declare? n arity = some (m.functions.length, m.enlarged (.declared n arity)) := by
  refine declare?_of_free (fun hused => ?_) arity
  rcases (hm.used n).1 hused with he | hmem
  · exact hne he
  · exact lookup_eq_none_iff.1 hn hmem

theorem eq_enlarged_of_declare? {arity : Nat} {m' : Module}
    (h : m.declare? n arity = some (f, m')) :
    f = m.functions.length ∧ m' = m.enlarged (.declared n arity) ∧ n ∉ m.scope.used := by
  unfold declare? Scope.reserve? at h
  split at h
  · simp at h
  · rename_i s hs
    split at hs
    · simp at hs
    · rename_i hu
      cases hs
      cases h
      exact ⟨rfl, rfl, by simpa [Scope.isUsed] using hu⟩

theorem get_enlarged_of_lt {k : Function} (h : g < m.functions.length) :
    (m.enlarged k).get g = m.get g := by
  simp [get, enlarged, List.getElem?_append_left h]

@[simp] theorem get_enlarged_self (m : Module) (k : Function) :
    (m.enlarged k).get m.functions.length = k := by
  simp [get, enlarged]

@[simp] theorem length_enlarged (m : Module) (k : Function) :
    (m.enlarged k).functions.length = m.functions.length + 1 := by
  simp [enlarged]

@[simp] theorem names_enlarged (m : Module) (k : Function) :
    (m.enlarged k).names = m.names ++ [k.name] := by
  simp [enlarged, names]

@[simp] theorem registered_enlarged (m : Module) (k : Function) :
    (m.enlarged k).registered = m.registered ++ [m.functions.length] := by
  simp [enlarged, registered]

theorem lookup_enlarged (m : Module) (k : Function) (n : String) :
    (m.enlarged k).lookup n =
      (m.lookup n).or (if n = k.name then some m.functions.length else none) := by
  simp [lookup, enlarged, List.lookup_append, List.lookup_cons]
  split <;> simp_all

theorem modify_enlarged (m : Module) {k : Function} {h : Function → Function}
    (hn : (h k).name = k.name) :
    (m.enlarged k).modify m.functions.length h = m.enlarged (h k) := by
  have hf : (m.functions ++ [k]).modify m.functions.length h = m.functions ++ [h k] := by
    rw [List.modify_eq_take_drop]
    simp
  simp only [modify, enlarged, hf, hn]

theorem Indexed.enlarged (h : m.Indexed) {k : Function} (hk : k.name ∉ m.scope.used) :
    (m.enlarged k).Indexed := by
  have hnames : k.name ∉ m.names ∧ k.name ≠ "" := by
    have := h.used k.name
    tauto
  refine ⟨?_, ?_, ?_, ?_, ?_⟩
  · rw [names_enlarged]
    refine List.nodup_append.2 ⟨h.nodup, by simp, ?_⟩
    rintro n hn m hm rfl
    exact hnames.1 (by simpa [List.mem_singleton.1 hm] using hn)
  · intro p hp
    rw [length_enlarged]
    rcases List.mem_append.1 hp with hp | hp
    · exact Nat.lt_succ_of_lt (h.inStore p hp)
    · rw [List.mem_singleton.1 hp]
      exact Nat.lt_succ_self _
  · intro p hp
    rcases List.mem_append.1 hp with hp | hp
    · rw [get_enlarged_of_lt (h.inStore p hp)]
      exact h.named p hp
    · rw [List.mem_singleton.1 hp]
      exact congrArg Function.name (get_enlarged_self m k)
  · intro n
    have := h.used n
    simp only [names_enlarged, List.mem_append, List.mem_singleton]
    simp only [Module.enlarged, Scope.mark, List.mem_cons]
    tauto
  · rw [names_enlarged]
    simpa using ⟨h.ne_empty, hnames.2⟩

@[simp] theorem functions_erase (m : Module) (f : FunctionId) :
    (m.erase f).functions = m.functions := by
  simp only [erase]
  split <;> rfl

@[simp] theorem get_erase (m : Module) (f g : FunctionId) : (m.erase f).get g = m.get g := by
  simp [get]

theorem table_erase (m : Module) (f : FunctionId) :
    (m.erase f).table = if m.lookup (m.get f).name = some f
      then m.table.filter (·.1 != (m.get f).name) else m.table := by
  simp only [erase]
  split <;> rfl

theorem mem_registered_of_erase (h : g ∈ (m.erase f).registered) : g ∈ m.registered := by
  obtain ⟨p, hp, rfl⟩ := List.mem_map.1 h
  refine List.mem_map.2 ⟨p, ?_, rfl⟩
  rw [table_erase] at hp
  split at hp
  · exact (List.mem_filter.1 hp).1
  · exact hp

theorem names_erase (hm : m.Indexed) (hf : f ∈ m.registered) :
    (m.erase f).names = m.names.filter (· != (m.get f).name) := by
  simp [names, table_erase, hm.lookup_name hf, List.filter_map, Function.comp_def]

theorem lookup_erase_of_ne (h : n ≠ (m.get f).name) : (m.erase f).lookup n = m.lookup n := by
  change (m.erase f).table.lookup n = m.table.lookup n
  rw [table_erase]
  split
  · generalize m.table = t
    induction t with
    | nil => rfl
    | cons p t ih =>
      obtain ⟨k, c⟩ := p
      by_cases hk : k = (m.get f).name
      · have hne : (n == k) = false := beq_eq_false_iff_ne.2 (hk ▸ h)
        rw [List.filter_cons_of_neg (by simpa using hk), List.lookup_cons, hne, ih]
      · rw [List.filter_cons_of_pos (by simpa using hk), List.lookup_cons, List.lookup_cons, ih]
  · rfl

theorem lookup_erase_self (hf : m.lookup (m.get f).name = some f) :
    (m.erase f).lookup (m.get f).name = none := by
  rw [lookup_eq_none_iff]
  simp [names, table_erase, hf]

theorem Indexed.erase (h : m.Indexed) (f : FunctionId) : (m.erase f).Indexed := by
  by_cases hf : m.lookup (m.get f).name = some f
  · have hreg : f ∈ m.registered := h.mem_registered.2 hf
    have hsub : ∀ p ∈ (m.erase f).table, p ∈ m.table := by
      intro p hp
      rw [table_erase, if_pos hf] at hp
      exact (List.mem_filter.1 hp).1
    refine ⟨?_, ?_, ?_, ?_, ?_⟩
    · rw [names_erase h hreg]
      exact h.nodup.filter _
    · intro p hp
      simpa using h.inStore p (hsub p hp)
    · intro p hp
      simpa using h.named p (hsub p hp)
    · intro n
      have hs : (m.erase f).scope = m.scope.release (m.get f).name := by
        simp [Module.erase, hf]
      have hne : (m.get f).name ≠ "" := by
        intro he
        refine h.ne_empty ?_
        rw [← he]
        exact List.mem_map.2 ⟨_, mem_table_of_lookup hf, rfl⟩
      rw [hs, Scope.mem_used_release, h.used, names_erase h hreg]
      simp only [List.mem_filter, bne_iff_ne, ne_eq]
      grind
    · rw [names_erase h hreg]
      simpa using fun hm => absurd hm h.ne_empty
  · have he : m.erase f = m := by simp [Module.erase, hf]
    rw [he]
    exact h

theorem table_erase_enlarged {k : Function} (hk : k.name ∉ m.names) (m' : Module)
    (ht : m'.table = (m.enlarged k).table) (hn : (m'.get m.functions.length).name = k.name) :
    (m'.erase m.functions.length).table = m.table := by
  have hl : m'.lookup k.name = some m.functions.length := by
    have := lookup_enlarged m k k.name
    rw [lookup_eq_none_iff.2 hk] at this
    simpa [lookup, ht] using this
  rw [table_erase, hn, if_pos hl, ht]
  simp only [Module.enlarged, List.filter_append]
  have hall : m.table.filter (fun p => p.1 != k.name) = m.table := by
    rw [List.filter_eq_self]
    intro p hp
    rw [bne_iff_ne]
    intro he
    exact hk (he ▸ List.mem_map_of_mem hp)
  rw [hall]
  simp

end ExprCompiler.IR.Module
