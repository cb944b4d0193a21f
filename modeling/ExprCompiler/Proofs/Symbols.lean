import ExprCompiler.Proofs.Growth

/-!
# Symbols

What a module knows of its names, and what a row of units says of them. A
unit that succeeds enters its name in both in the same way.
-/

namespace ExprCompiler

open IR (Block Function FunctionId Module Scope)

structure Symbol where
  name : String
  arity : Nat
  defined : Bool
  deriving DecidableEq, Repr

namespace TopLevel

def isDefinition : TopLevel → Bool
  | definition _ => true
  | external _ => false

def defines (u : TopLevel) (n : String) : Bool := u.isDefinition && u.prototype.name == n

end TopLevel

def unitNames (us : List TopLevel) : List String := (us.map (·.prototype.name)).eraseDups

def symbol (us : List TopLevel) (n : String) : Symbol :=
  ⟨n, ((us.find? (·.prototype.name == n)).map (·.prototype.arity)).getD 0, us.any (·.defines n)⟩

def symbols (us : List TopLevel) : List Symbol := (unitNames us).map (symbol us)

def IR.Module.symbols (m : Module) : List Symbol :=
  m.table.map fun p => ⟨p.1, (m.get p.2).arity, (m.get p.2).hasBody⟩

def Symbol.marked (y : Symbol) (u : TopLevel) : Symbol :=
  if y.name = u.prototype.name then { y with defined := y.defined || u.isDefinition } else y

def enter (t : List Symbol) (u : TopLevel) : List Symbol :=
  if u.prototype.name ∈ t.map Symbol.name then t.map (·.marked u)
  else t ++ [⟨u.prototype.name, u.prototype.arity, u.isDefinition⟩]

theorem mem_unitNames {us : List TopLevel} {n : String} :
    n ∈ unitNames us ↔ ∃ u ∈ us, u.prototype.name = n := by
  simp [unitNames, List.mem_eraseDups]

@[simp] theorem map_name_symbols (us : List TopLevel) : (symbols us).map Symbol.name = unitNames us := by
  have hname : Symbol.name ∘ symbol us = id := rfl
  rw [symbols, List.map_map, hname, List.map_id]

theorem unitNames_append (us : List TopLevel) (u : TopLevel) :
    unitNames (us ++ [u]) =
      if u.prototype.name ∈ unitNames us then unitNames us
      else unitNames us ++ [u.prototype.name] := by
  simp only [unitNames, List.map_append, List.map_cons, List.map_nil, List.eraseDups_append,
    List.mem_eraseDups, List.removeAll]
  by_cases h : u.prototype.name ∈ us.map (·.prototype.name)
  · rw [if_pos h, List.filter_cons_of_neg (by simpa using h)]
    simp
  · rw [if_neg h, List.filter_cons_of_pos (by simpa using h)]
    simp [List.eraseDups_cons]

theorem symbol_append_of_mem {us : List TopLevel} {n : String} (u : TopLevel)
    (h : n ∈ unitNames us) : symbol (us ++ [u]) n = (symbol us n).marked u := by
  obtain ⟨w, hw, hn⟩ := mem_unitNames.1 h
  have hfind : (us.find? (·.prototype.name == n)).isSome := by
    rw [List.find?_isSome]
    exact ⟨w, hw, by simpa using hn⟩
  obtain ⟨w', hw'⟩ := Option.isSome_iff_exists.1 hfind
  have hany : (us ++ [u]).any (·.defines n) = (us.any (·.defines n) || u.defines n) := by simp
  simp only [symbol, List.find?_append, hw', Option.some_or, hany, Symbol.marked]
  by_cases hu : n = u.prototype.name
  · simp [hu, TopLevel.defines]
  · have hno : u.defines n = false := by simp [TopLevel.defines, Ne.symm hu]
    simp [hu, hno]

theorem symbol_append_of_not_mem {us : List TopLevel} (u : TopLevel)
    (h : u.prototype.name ∉ unitNames us) :
    symbol (us ++ [u]) u.prototype.name =
      ⟨u.prototype.name, u.prototype.arity, u.isDefinition⟩ := by
  have hne : ∀ w ∈ us, w.prototype.name ≠ u.prototype.name :=
    fun w hw hn => h (mem_unitNames.2 ⟨w, hw, hn⟩)
  have hfind : us.find? (·.prototype.name == u.prototype.name) = none := by
    rw [List.find?_eq_none]
    intro w hw
    simpa using hne w hw
  have hany : us.any (·.defines u.prototype.name) = false := by
    rw [List.any_eq_false]
    intro w hw
    simp [TopLevel.defines, hne w hw]
  have happend : (us ++ [u]).any (·.defines u.prototype.name) =
      (us.any (·.defines u.prototype.name) || u.defines u.prototype.name) := by simp
  simp only [symbol, List.find?_append, hfind, happend, hany]
  simp [TopLevel.defines]

theorem symbols_append (us : List TopLevel) (u : TopLevel) :
    symbols (us ++ [u]) = enter (symbols us) u := by
  have hold : (unitNames us).map (symbol (us ++ [u])) =
      (unitNames us).map fun n => (symbol us n).marked u :=
    List.map_congr_left fun n hn => symbol_append_of_mem u hn
  rw [enter, map_name_symbols, symbols, unitNames_append]
  by_cases h : u.prototype.name ∈ unitNames us
  · rw [if_pos h, if_pos h, hold, symbols, List.map_map]
    rfl
  · rw [if_neg h, if_neg h, List.map_append, hold, List.map_singleton, symbol_append_of_not_mem u h]
    congr 1
    refine List.map_congr_left fun n hn => ?_
    have hne : n ≠ u.prototype.name := fun he => h (he ▸ hn)
    simp [Symbol.marked, symbol, hne]

@[simp] theorem marked_external (y : Symbol) (p : Prototype) : y.marked (.external p) = y := by
  simp [Symbol.marked, TopLevel.isDefinition]

theorem enter_of_mem {t : List Symbol} {u : TopLevel} (h : u.prototype.name ∈ t.map Symbol.name) :
    enter t u = t.map (·.marked u) := if_pos h

theorem enter_of_not_mem {t : List Symbol} {u : TopLevel}
    (h : u.prototype.name ∉ t.map Symbol.name) :
    enter t u = t ++ [⟨u.prototype.name, u.prototype.arity, u.isDefinition⟩] := if_neg h

theorem enter_definition (t : List Symbol) (d : Definition) :
    enter t (.definition d) = (enter t (.external d.prototype)).map (·.marked (.definition d)) := by
  by_cases h : d.prototype.name ∈ t.map Symbol.name
  · rw [enter_of_mem h, enter_of_mem (u := .external d.prototype) h]
    simp
  · rw [enter_of_not_mem h, enter_of_not_mem (u := .external d.prototype) h, List.map_append]
    congr 1
    · symm
      rw [List.map_congr_left (g := id), List.map_id]
      intro y hy
      have hne : y.name ≠ d.prototype.name := fun he => h (he ▸ List.mem_map_of_mem hy)
      simp [Symbol.marked, TopLevel.prototype, hne]
    · simp [Symbol.marked, TopLevel.prototype, TopLevel.isDefinition]

/-! ### The symbols of a module -/

namespace IR.Module

variable {m m' : Module} {f : FunctionId}

@[simp] theorem map_name_symbols (m : Module) : m.symbols.map Symbol.name = m.names := by
  simp only [symbols, List.map_map]
  rfl

theorem symbols_congr (ht : m'.table = m.table)
    (h : ∀ f ∈ m.registered,
      (m'.get f).arity = (m.get f).arity ∧ (m'.get f).hasBody = (m.get f).hasBody) :
    m'.symbols = m.symbols := by
  unfold symbols
  rw [ht]
  refine List.map_congr_left fun p hp => ?_
  obtain ⟨harity, hbody⟩ := h p.2 (List.mem_map_of_mem hp)
  rw [harity, hbody]

@[simp] theorem symbols_sealAll (m : Module) (fs : List FunctionId) :
    (m.sealAll fs).symbols = m.symbols :=
  symbols_congr (by simp) fun f _ =>
    ⟨map_get_sealAll Function.arity (by simp) fs f, map_get_sealAll Function.hasBody (by simp) fs f⟩

theorem symbols_stored (hi : m.Indexed) (x : Function) : (m.stored x).symbols = m.symbols :=
  symbols_congr rfl fun f hf => by simp [get_stored_of_lt (hi.lt_of_mem hf)]

theorem symbols_modify {k : Function → Function} (harity : ∀ x, (k x).arity = x.arity)
    (hbody : (k (m.get f)).hasBody = (m.get f).hasBody) : (m.modify f k).symbols = m.symbols := by
  refine symbols_congr rfl fun g _ => ⟨map_get_modify Function.arity harity f g, ?_⟩
  by_cases hg : g = f
  · subst hg
    by_cases hlt : g < m.functions.length
    · rw [get_modify_self k hlt, hbody]
    · rw [get_eq_default (by simpa using hlt), get_eq_default (by simpa using hlt)]
  · rw [get_modify_of_ne k hg]

theorem symbols_enlarged (hi : m.Indexed) (k : Function) :
    (m.enlarged k).symbols = m.symbols ++ [⟨k.name, k.arity, k.hasBody⟩] := by
  have htable : (m.enlarged k).table = m.table ++ [(k.name, m.functions.length)] := rfl
  simp only [symbols, htable, List.map_append, List.map_singleton, get_enlarged_self]
  congr 1
  refine List.map_congr_left fun p hp => ?_
  rw [get_enlarged_of_lt (hi.inStore p hp)]

theorem symbols_withBody {d : Definition} (hi : m.Indexed) (hl : m.lookup d.name = some f)
    (s : Scope) (b : Block) :
    (m.withBody f s [b]).symbols = m.symbols.map (·.marked (.definition d)) := by
  simp only [symbols, table_withBody, List.map_map]
  refine List.map_congr_left fun p hp => ?_
  have hlookup : m.lookup p.1 = some p.2 := hi.lookup_of_mem hp
  by_cases hn : p.1 = d.name
  · have hpf : p.2 = f := by
      rw [hn, hl] at hlookup
      exact (Option.some.inj hlookup).symm
    have hself := get_withBody_self (hi.lt_of_lookup hl) s [b]
    have hmarked : p.1 = (TopLevel.definition d).prototype.name := hn
    rw [Function.comp_apply, Symbol.marked, if_pos hmarked, hpf, hself]
    simp [Function.arity, Function.hasBody, TopLevel.isDefinition]
  · have hpf : p.2 ≠ f := by
      intro he
      rw [← hi.name_of_lookup hlookup, he, hi.name_of_lookup hl] at hn
      exact hn rfl
    have hmarked : p.1 ≠ (TopLevel.definition d).prototype.name := hn
    rw [Function.comp_apply, Symbol.marked, if_neg hmarked, get_withBody_of_ne hpf]

theorem symbols_erase (hf : m.lookup (m.get f).name = some f) :
    (m.erase f).symbols = m.symbols.filter (·.name != (m.get f).name) := by
  simp only [symbols, table_erase, if_pos hf, get_erase, List.filter_map]
  rfl

end IR.Module

namespace Generator

variable {m m' : Module} {u : TopLevel} {f : FunctionId}

theorem symbols_introduce {p : Prototype} (hi : m.Indexed) (h : introduce m p = .ok (f, m')) :
    m'.symbols = enter m.symbols (.external p) := by
  obtain ⟨-, ⟨hl, -, -, rfl⟩ | ⟨hl, -, rfl⟩⟩ := introduce_cases h
  · have hnew : p.name ∉ m.symbols.map Symbol.name := by
      rw [Module.map_name_symbols]
      exact Module.lookup_eq_none_iff.1 hl
    have harity : (Function.declared p.name p.arity).arity = p.arity :=
      Function.arity_declared p.name p.arity
    rw [enter_of_not_mem (u := .external p) hnew, Module.symbols_enlarged hi]
    simp [TopLevel.prototype, TopLevel.isDefinition, Function.hasBody, harity]
  · have hold : p.name ∈ m.symbols.map Symbol.name := by
      rw [Module.map_name_symbols]
      by_contra hn
      rw [Module.lookup_eq_none_iff.2 hn] at hl
      cases hl
    rw [enter_of_mem (u := .external p) hold]
    simp only [marked_external, List.map_id_fun', id_eq]
    by_cases hb : (m.get f).hasBody = true
    · rw [if_pos hb]
    · rw [if_neg hb]
      exact Module.symbols_modify (by simp) (by simp [Function.hasBody])

/-- A unit that succeeds is entered; one that fails leaves the symbols as they are. -/
theorem Step.symbols {v : Verifier} {us : List TopLevel} {x : Except CompileError FunctionId}
    (hs : Sound us m) (h : Step v m u x m') :
    m'.symbols = match x with
      | .ok _ => enter m.symbols u
      | .error _ => m.symbols := by
  have hi := hs.indexed
  cases x with
  | error e =>
    rcases h.error_cases hi hs.named with ⟨rfl | ⟨k, fs, rfl⟩, -⟩ | ⟨d, f, s, fs, -, ht, -, rfl⟩
    · rfl
    · rw [Module.symbols_sealAll, Module.symbols_stored hi]
    · have hblocks : (m.get f).blocks = [] := Function.blocks_eq_nil (Bool.eq_false_iff.1 ht.bodiless)
      have hrenamed : (m.modify f (·.setParams d.prototype.params)).symbols = m.symbols :=
        Module.symbols_modify (by simp) (by simp [Function.hasBody])
      have hget : (m.modify f (·.setParams d.prototype.params)).get f =
          (m.get f).setParams d.prototype.params :=
        Module.get_modify_self _ (hi.lt_of_lookup ht.lookup)
      have hcleared : ((m.modify f (·.setParams d.prototype.params)).withBody f s []).symbols =
          (m.modify f (·.setParams d.prototype.params)).symbols := by
        refine Module.symbols_modify (fun _ => rfl) ?_
        rw [hget]
        simp [Function.hasBody, hblocks]
      rw [Module.symbols_sealAll, hcleared, hrenamed]
  | ok f =>
    cases h with
    | declared hp => exact symbols_introduce hi hp
    | defined hb hp he =>
      obtain ⟨-, hl, -, -, -⟩ := introduce_function hi hs.named hp
      rw [Module.symbols_sealAll, Module.symbols_withBody (hs.introduce hp).indexed hl, symbols_introduce hi hp,
        enter_definition]

end Generator

end ExprCompiler
