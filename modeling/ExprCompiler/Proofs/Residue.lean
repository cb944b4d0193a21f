import ExprCompiler.Proofs.Parsed

/-!
# What a scope remembers

Names come and go in the scope of a declaration: numbers for parameters
without names, the names of prototypes, the names of bodies that have been
taken back. None of them is left over when the next body begins. Its scope
is like one that has never held anything but the names of the parameters.
-/

namespace ExprCompiler

open IR (Block Function FunctionId Module Scope)

namespace IR

def Nameless (n : String) : Prop := n.toList.head?.getD '.' = '.'

instance : DecidablePred Nameless := fun n =>
  inferInstanceAs (Decidable (n.toList.head?.getD '.' = '.'))

theorem nameless_empty : Nameless "" := rfl

theorem nameless_numbered_iff (base : String) (k : Nat) :
    Nameless (Scope.numbered base k) ↔ Nameless base := by
  unfold Nameless Scope.numbered
  rw [String.toList_append, String.toList_append]
  cases base.toList with
  | nil => simp
  | cons c cs => simp

theorem not_nameless_of_identifier {n : String} (h : Identifier n) : ¬ Nameless n := by
  obtain ⟨c, cs, hn, hc, -⟩ := h
  intro hless
  have hperiod : c = '.' := by simpa [Nameless, hn] using hless
  rw [hperiod] at hc
  exact absurd hc (by decide)

namespace Scope

variable {s t u : Scope} {n base : String}

theorem register_of_not_mem (h : n ∉ s.used) : s.register n = (n, s.mark n) := by
  have hfree : s.isUsed n = false := by simpa [isUsed] using h
  simp [register, hfree]

theorem lookup_filter_ne {cs : List (String × Nat)} (h : n ≠ base) :
    (cs.filter fun c => c.1 != base).lookup n = cs.lookup n := by
  induction cs with
  | nil => rfl
  | cons c cs ih =>
    obtain ⟨b, k⟩ := c
    by_cases hb : b = base
    · subst hb
      simp [List.lookup_cons, ih, beq_eq_false_iff_ne.2 h]
    · simp [List.lookup_cons, ih, hb]

theorem counter_register (s : Scope) (base n : String) :
    (s.register base).2.counter n =
      if base ∈ s.used ∧ n = base then s.nextNumber base else s.counter n := by
  by_cases hused : base ∈ s.used
  · have htaken : s.isUsed base = true := by simpa [isUsed] using hused
    simp only [register, htaken, if_true, hused, true_and, counter, mark, List.lookup_cons]
    by_cases hn : n = base
    · simp [hn]
    · simp [beq_eq_false_iff_ne.2 hn, hn, lookup_filter_ne hn]
  · rw [register_of_not_mem hused]
    simp [hused, counter, mark]

@[simp] theorem counter_release (s : Scope) (name n : String) :
    (s.release name).counter n = s.counter n := by
  unfold release
  split <;> rfl

theorem counter_foldl_release (names : List String) (s : Scope) (n : String) :
    (names.foldl Scope.release s).counter n = s.counter n := by
  induction names generalizing s with
  | nil => rfl
  | cons name names ih => rw [List.foldl_cons, ih, counter_release]

theorem mem_used_foldl_mark (names : List String) (s : Scope) (n : String) :
    n ∈ (names.foldl Scope.mark s).used ↔ n ∈ names ∨ n ∈ s.used := by
  induction names generalizing s with
  | nil => simp
  | cons name names ih =>
    rw [List.foldl_cons, ih]
    simp [mark, or_assoc, or_left_comm]

theorem counter_foldl_mark (names : List String) (s : Scope) (n : String) :
    (names.foldl Scope.mark s).counter n = s.counter n := by
  induction names generalizing s with
  | nil => rfl
  | cons name names ih => exact ih (s.mark name)

theorem eq_foldl_mark_of_reserveAll {names : List String} (h : reserveAll names s = .ok t) :
    t = names.foldl Scope.mark s := by
  induction names generalizing s with
  | nil =>
    cases h
    rfl
  | cons name names ih =>
    unfold reserveAll reserve? at h
    by_cases hused : s.isUsed name = true
    · simp [hused] at h
    · simp only [hused] at h
      exact ih h

theorem nextNumber_first (s : Scope) (base : String) :
    s.counter base < s.nextNumber base ∧
      ∀ k, s.counter base < k → k < s.nextNumber base → numbered base k ∈ s.used := by
  obtain ⟨-, hrange, hbefore⟩ := List.find?_range'_eq_some.1 (s.find?_numbered base)
  refine ⟨(List.mem_range'_1.1 hrange).1, fun k hk hlt => ?_⟩
  simpa [isUsed] using hbefore k hk hlt

/-- Alike to everything that has a name: the same names are free, and the same numbers next. -/
structure Alike (s t : Scope) : Prop where
  used : ∀ n, ¬ Nameless n → (n ∈ s.used ↔ n ∈ t.used)
  counter : ∀ base, ¬ Nameless base → s.counter base = t.counter base

namespace Alike

theorem symm (h : s.Alike t) : t.Alike s :=
  ⟨fun n hn => (h.used n hn).symm, fun b hb => (h.counter b hb).symm⟩

theorem trans (h : s.Alike t) (k : t.Alike u) : s.Alike u :=
  ⟨fun n hn => (h.used n hn).trans (k.used n hn),
    fun b hb => (h.counter b hb).trans (k.counter b hb)⟩

theorem nextNumber_le (h : s.Alike t) (hb : ¬ Nameless base) :
    s.nextNumber base ≤ t.nextNumber base := by
  by_contra hlt
  have hfirst : s.counter base < t.nextNumber base := by
    rw [h.counter base hb]
    exact (t.nextNumber_first base).1
  have hused := (s.nextNumber_first base).2 _ hfirst (not_le.1 hlt)
  rw [h.used _ (mt (nameless_numbered_iff base _).1 hb)] at hused
  exact t.numbered_nextNumber_not_mem base hused

theorem nextNumber (h : s.Alike t) (hb : ¬ Nameless base) :
    s.nextNumber base = t.nextNumber base :=
  Nat.le_antisymm (h.nextNumber_le hb) (h.symm.nextNumber_le hb)

/-- Alike scopes hand out the same name for the same base, and stay alike. -/
theorem register (h : s.Alike t) (hb : ¬ Nameless base) :
    (s.register base).1 = (t.register base).1 ∧ (s.register base).2.Alike (t.register base).2 := by
  have hnext := h.nextNumber hb
  have hname : (s.register base).1 = (t.register base).1 := by
    have hused : s.isUsed base = t.isUsed base := by
      rw [Bool.eq_iff_iff]
      simpa [isUsed] using h.used base hb
    unfold Scope.register
    rw [hused]
    split
    · exact congrArg (numbered base) hnext
    · rfl
  refine ⟨hname, fun n hn => ?_, fun b hb' => ?_⟩
  · rw [used_register, used_register, hname, List.mem_cons, List.mem_cons, h.used n hn]
  · simp only [counter_register, hnext, h.counter b hb', h.used base hb]

theorem register_nameless (s : Scope) (hb : Nameless base) : (s.register base).2.Alike s := by
  have hname : Nameless (s.register base).1 := by
    unfold Scope.register
    split
    · exact (nameless_numbered_iff base _).2 hb
    · exact hb
  refine ⟨fun n hn => ?_, fun b hb' => ?_⟩
  · have hne : n ≠ (s.register base).1 := fun he => hn (he ▸ hname)
    simp [hne]
  · have hne : b ≠ base := fun he => hb' (he ▸ hb)
    simp [counter_register, hne]

end Alike

theorem registerCopies_nameless (k : Nat) (s : Scope) :
    (∀ n ∈ (registerCopies k "" s).1, Nameless n) ∧ (registerCopies k "" s).2.Alike s := by
  induction k generalizing s with
  | zero => exact ⟨by simp [registerCopies], fun _ _ => Iff.rfl, fun _ _ => rfl⟩
  | succ k ih =>
    have hfirst : Nameless (s.register "").1 := by
      unfold register
      split
      · exact (nameless_numbered_iff "" _).2 nameless_empty
      · exact nameless_empty
    obtain ⟨hnames, hscope⟩ := ih (s.register "").2
    refine ⟨fun n hn => ?_, hscope.trans (.register_nameless s nameless_empty)⟩
    rcases List.mem_cons.1 hn with rfl | hn
    · exact hfirst
    · exact hnames n hn

end Scope

namespace Function

variable {f : Function}

def Tidy (f : Function) : Prop := f.scope.Alike ⟨f.params, []⟩

theorem tidy_declared (name : String) (arity : Nat) : (declared name arity).Tidy := by
  obtain ⟨hnames, hscope⟩ := Scope.registerCopies_nameless arity .empty
  have hlast := Scope.Alike.register_nameless (Scope.registerCopies arity "" .empty).2 nameless_empty
  have hempty := hlast.trans hscope
  refine ⟨fun n hn => ?_, fun b hb => hempty.counter b hb⟩
  have hparams : n ∉ (declared name arity).params := fun hp => hn (hnames n hp)
  have hne : n ≠ "" := fun he => hn (he ▸ nameless_empty)
  refine iff_of_false (fun hu => ?_) hparams
  exact hne (by simpa [Scope.empty] using (hempty.used n hn).1 hu)

theorem renamed_of_free {olds news : List String} {s : Scope} (hlen : olds.length = news.length)
    (hd : news.Nodup) (hf : ∀ n ∈ news, n ∉ s.used) :
    renamed olds news s = (news, news.foldl Scope.mark s) := by
  induction olds generalizing news s with
  | nil =>
    rw [List.eq_nil_of_length_eq_zero hlen.symm]
    rfl
  | cons o olds ih =>
    cases news with
    | nil => cases hlen
    | cons n news =>
      obtain ⟨hn, hd⟩ := List.nodup_cons.1 hd
      have hfree : ∀ k ∈ news, k ∉ (s.mark n).used := by
        intro k hk
        have hne : k ≠ n := fun he => hn (he ▸ hk)
        simpa [Scope.mark, hne] using hf k (by simp [hk])
      have hrest := ih (s := s.mark n) (Nat.succ.inj hlen) hd hfree
      simp only [renamed, Scope.register_of_not_mem (hf n (by simp)), hrest, List.foldl_cons]

theorem not_mem_released {n : String} (h : n ∈ f.scope.used → n ∈ f.params) (hn : ¬ Nameless n) :
    n ∉ (f.params.foldl Scope.release f.scope).used := by
  intro hu
  obtain ⟨hused, hempty⟩ := (Scope.mem_used_foldl_release _ _ _).1 hu
  exact hn (hempty (h hused) ▸ nameless_empty)

theorem Tidy.setParams (h : f.Tidy) {names : List String} (hlen : f.params.length = names.length)
    (hd : names.Nodup) (hn : ∀ n ∈ names, ¬ Nameless n) :
    (f.setParams names).params = names ∧ (f.setParams names).Tidy := by
  unfold Function.setParams
  split
  · exact ⟨‹_›, h⟩
  · have hreleased : ∀ n, ¬ Nameless n → n ∉ (f.params.foldl Scope.release f.scope).used :=
      fun n hn => not_mem_released (h.used n hn).1 hn
    have hrenamed := renamed_of_free hlen hd fun n hm => hreleased n (hn n hm)
    rw [hrenamed]
    refine ⟨rfl, fun n hn => ?_, fun b hb => ?_⟩
    · rw [Scope.mem_used_foldl_mark]
      exact or_iff_left (hreleased n hn)
    · rw [Scope.counter_foldl_mark, Scope.counter_foldl_release]
      exact h.counter b hb

theorem tidy_of_freshScope {s : Scope} (h : f.freshScope = .ok s) :
    ({ f with scope := s, blocks := [] } : Function).Tidy := by
  have hs := Scope.eq_foldl_mark_of_reserveAll h
  refine ⟨fun n hn => ?_, fun b hb => ?_⟩
  · have hne : n ≠ "" := fun he => hn (he ▸ nameless_empty)
    simp only [hs]
    rw [Scope.mem_used_foldl_mark]
    simp [Scope.empty, hne]
  · simp only [hs]
    rw [Scope.counter_foldl_mark]
    rfl

end Function

def Module.Tidy (m : Module) : Prop :=
  ∀ f ∈ m.registered, (m.get f).hasBody = false → (m.get f).Tidy

end IR

theorem TopLevel.Grammatical.not_nameless {u : TopLevel} (h : u.Grammatical) :
    ∀ n ∈ u.prototype.params, ¬ IR.Nameless n :=
  fun n hn => IR.not_nameless_of_identifier (h.params n hn)

namespace Prototype

def function (p : Prototype) : Function := (Function.declared p.name p.arity).setParams p.params

theorem tidy_function (p : Prototype) (hn : ∀ n ∈ p.params, ¬ IR.Nameless n)
    (hd : p.params.Nodup) : p.function.params = p.params ∧ p.function.Tidy :=
  (Function.tidy_declared p.name p.arity).setParams (Function.arity_declared p.name p.arity) hd hn

end Prototype

namespace Generator

section

variable {m m' : Module} {f : FunctionId}

open IR (Nameless)

theorem tidy_of_kept (h : m.Tidy) (hreg : ∀ f ∈ m'.registered, f ∈ m.registered)
    (hget : ∀ f ∈ m'.registered, m'.get f = m.get f) : m'.Tidy := by
  intro f hf hb
  rw [hget f hf] at hb ⊢
  exact h f (hreg f hf) hb

theorem tidy_sealAll (h : m.Tidy) (fs : List FunctionId) : (m.sealAll fs).Tidy := by
  intro f hf hb
  have hscope := Module.map_get_sealAll (m := m) Function.scope (fun _ => rfl) fs f
  have hparams := Module.map_get_sealAll (m := m) Function.params (fun _ => rfl) fs f
  have hbody := Module.map_get_sealAll (m := m) Function.hasBody (fun _ => by simp) fs f
  have htidy := h f (by simpa using hf) (hbody.symm.trans hb)
  rwa [Function.Tidy, hscope, hparams]

theorem tidy_modify (h : m.Tidy) {k : Function → Function}
    (hk : (k (m.get f)).hasBody = false → (k (m.get f)).Tidy) : (m.modify f k).Tidy := by
  intro g hg hb
  by_cases hgf : g = f
  · subst hgf
    by_cases hlt : g < m.functions.length
    · rw [Module.get_modify_self _ hlt] at hb ⊢
      exact hk hb
    · have hsame : m.modify g k = m := by
        simp [Module.modify, List.modify_eq_self (Nat.le_of_not_lt hlt)]
      rw [hsame] at hg hb ⊢
      exact h g hg hb
  · rw [Module.get_modify_of_ne _ hgf] at hb ⊢
    exact h g hg hb

theorem tidy_enlarged (hi : m.Indexed) (h : m.Tidy) {k : Function} (hk : k.Tidy) :
    (m.enlarged k).Tidy := by
  intro f hf hb
  rw [Module.registered_enlarged, List.mem_append, List.mem_singleton] at hf
  rcases hf with hf | rfl
  · rw [Module.get_enlarged_of_lt (hi.lt_of_mem hf)] at hb ⊢
    exact h f hf hb
  · rwa [Module.get_enlarged_self]

variable {p : Prototype}

theorem introduce_tidy (hi : m.Indexed) (h : m.Tidy) (hn : ∀ n ∈ p.params, ¬ Nameless n)
    (hp : introduce m p = .ok (f, m')) :
    m'.Tidy ∧ (Bodiless m p.name → (m'.get f).params = p.params ∧ (m'.get f).Tidy) := by
  obtain ⟨hd, ⟨hl, hfree, rfl, rfl⟩ | ⟨hl, ha, rfl⟩⟩ := introduce_cases hp
  · have hnew := p.tidy_function hn hd
    refine ⟨tidy_enlarged hi h hnew.2, fun _ => ?_⟩
    rwa [Module.get_enlarged_self]
  · have hreg : f ∈ m.registered := Module.mem_registered_of_lookup hl
    cases hb : (m.get f).hasBody with
    | true =>
      refine ⟨h, fun hless => ?_⟩
      rw [hless f hl] at hb
      cases hb
    | false =>
      have hrenamed := (h f hreg hb).setParams ha hd hn
      refine ⟨tidy_modify h fun _ => hrenamed.2, fun _ => ?_⟩
      rwa [if_neg Bool.false_ne_true, Module.get_modify_self _ (hi.lt_of_mem hreg)]

/-- Whatever comes of a unit, nothing is left over of it in the declarations. -/
theorem Step.tidy {v : Verifier} {u : TopLevel} {r : Except CompileError FunctionId}
    {us : List TopLevel} (hs : Sound us m) (h : m.Tidy)
    (hn : ∀ n ∈ u.prototype.params, ¬ Nameless n) (hstep : Step v m u r m') : m'.Tidy := by
  cases r with
  | error e =>
    obtain ⟨rfl | ⟨x, fs, rfl⟩, -⟩ | ⟨d, f, s, fs, rfl, ht, hk, rfl⟩ :=
      hstep.error_cases hs.indexed hs.named
    · exact h
    · have hstored : (m.stored x).Tidy := tidy_of_kept h (fun _ hf => hf) fun f hf =>
        Module.get_stored_of_lt (hs.indexed.lt_of_mem hf)
      exact tidy_sealAll hstored fs
    · have hlt := hs.indexed.lt_of_lookup ht.lookup
      have hreg : f ∈ m.registered := Module.mem_registered_of_lookup ht.lookup
      have hrenamed := (h f hreg ht.bodiless).setParams ht.arity ht.nodup hn
      refine tidy_sealAll (tidy_modify (tidy_modify h fun _ => hrenamed.2) fun _ => ?_) fs
      rw [Module.get_modify_self _ hlt]
      exact Function.tidy_of_freshScope hk
  | ok f =>
    cases hstep with
    | declared hp => exact (introduce_tidy hs.indexed h hn hp).1
    | defined hb hp he =>
      refine tidy_sealAll (tidy_modify (introduce_tidy hs.indexed h hn hp).1 fun hbody => ?_) _
      cases hbody

theorem Reached.tidy {us : List TopLevel} {g : Generator}
    (h : Reached TopLevel.Grammatical Anonymous us g) : g.backend.module.Tidy := by
  induction h with
  | start name triple v =>
    intro f hf
    cases hf
  | generated h hu hg ih =>
    have hsound := h.sound_of_grammatical
    obtain ⟨x, hstep, -, -, -⟩ := generate_step hsound.indexed hsound.named hg
    exact hstep.tidy hsound ih hu.not_nameless
  | observed h hg ih =>
    obtain ⟨fs, hm⟩ := hg.module
    rw [hm]
    exact tidy_sealAll ih fs
  | erased h hf hg ih =>
    rw [(erase_module hg).1]
    exact tidy_of_kept ih (fun _ hf => Module.mem_registered_of_erase hf) fun _ _ =>
      Module.get_erase _ _ _

end

end Generator

end ExprCompiler
