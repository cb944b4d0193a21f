import Mathlib.Data.List.Nodup
import Mathlib.Data.List.Perm.Subperm
import ExprCompiler.IR.Check

/-!
# Names inside a function

A scope never hands out a name that is in use. So the names of a function's
parameters, blocks and results stay distinct, and all of them stay in use,
whatever is registered, renamed or dropped.
-/

namespace ExprCompiler.IR

theorem toDigits_injective : Function.Injective (Nat.toDigits 10) := by
  intro a b h
  simpa using congrArg (fun ds => Nat.ofDigitChars 10 ds 0) h

namespace Scope

theorem numbered_injective (base : String) : Function.Injective (numbered base) := by
  intro a b h
  have hl : (toString a).toList = (toString b).toList := by
    simpa [numbered, String.append_assoc] using congrArg String.toList h
  refine toDigits_injective ?_
  simpa only [Nat.toString_eq_repr, Nat.toList_repr] using hl

/-- More numbers are tried than names are in use, so one of them gives a free name. -/
theorem find?_numbered (s : Scope) (base : String) :
    (List.range' (s.counter base + 1) (s.used.length + 1)).find?
      (fun n => !s.isUsed (numbered base n)) = some (s.nextNumber base) := by
  unfold nextNumber
  cases hf : (List.range' (s.counter base + 1) (s.used.length + 1)).find?
      fun n => !s.isUsed (numbered base n) with
  | some n => simp only [hf, Option.getD_some]
  | none =>
    exfalso
    have hall : ∀ n ∈ List.range' (s.counter base + 1) (s.used.length + 1),
        numbered base n ∈ s.used := by
      intro n hn
      have := List.find?_eq_none.1 hf n hn
      simpa [isUsed] using this
    have hsub : (List.range' (s.counter base + 1) (s.used.length + 1)).map (numbered base) ⊆
        s.used := by
      intro name hname
      obtain ⟨n, hn, rfl⟩ := List.mem_map.1 hname
      exact hall n hn
    have hrange : (List.range' (s.counter base + 1) (s.used.length + 1)).Nodup := List.nodup_range'
    have hnodup := hrange.map (numbered_injective base)
    have hle := (hnodup.subperm hsub).length_le
    rw [List.length_map, List.length_range'] at hle
    omega

theorem numbered_nextNumber_not_mem (s : Scope) (base : String) :
    numbered base (s.nextNumber base) ∉ s.used := by
  have hn := List.find?_some (s.find?_numbered base)
  simpa [isUsed] using hn

theorem register_not_mem (s : Scope) (base : String) : (s.register base).1 ∉ s.used := by
  unfold register
  split
  · exact numbered_nextNumber_not_mem s base
  · rename_i h
    simpa [isUsed] using h

@[simp] theorem used_register (s : Scope) (base : String) :
    (s.register base).2.used = (s.register base).1 :: s.used := by
  unfold register
  split <;> rfl

theorem mem_used_release (s : Scope) (name n : String) :
    n ∈ (s.release name).used ↔ n ∈ s.used ∧ (n = name → name = "") := by
  unfold release
  split
  · rename_i h
    simp [h]
  · rename_i h
    simp only [List.mem_filter, bne_iff_ne, ne_eq, and_congr_right_iff]
    intro _
    constructor
    · intro hn he
      exact absurd he hn
    · intro hi he
      exact h (hi he)

theorem mem_used_foldl_release (names : List String) (s : Scope) (n : String) :
    n ∈ (names.foldl Scope.release s).used ↔ n ∈ s.used ∧ (n ∈ names → n = "") := by
  induction names generalizing s with
  | nil => simp
  | cons name names ih =>
    rw [List.foldl_cons, ih, mem_used_release]
    grind

/-- Names handed out one after another: distinct, free before, and in use from then on. -/
structure Fresh (s : Scope) (names : List String) (s' : Scope) : Prop where
  nodup : names.Nodup
  free : ∀ n ∈ names, n ∉ s.used
  used : ∀ n, n ∈ s'.used ↔ n ∈ names ∨ n ∈ s.used

namespace Fresh

theorem nil (s : Scope) : Fresh s [] s := ⟨List.nodup_nil, by simp, by simp⟩

theorem register (s : Scope) (base : String) :
    Fresh s [(s.register base).1] (s.register base).2 :=
  ⟨by simp, by simpa using register_not_mem s base, by simp⟩

theorem trans {s s' s'' : Scope} {ns ms : List String} (h : Fresh s ns s') (k : Fresh s' ms s'') :
    Fresh s (ns ++ ms) s'' := by
  refine ⟨List.nodup_append.2 ⟨h.nodup, k.nodup, ?_⟩, ?_, ?_⟩
  · rintro n hn m hm rfl
    exact k.free n hm ((h.used n).2 (Or.inl hn))
  · intro n hn
    rcases List.mem_append.1 hn with hn | hn
    · exact h.free n hn
    · exact fun hu => k.free n hn ((h.used n).2 (Or.inr hu))
  · intro n
    rw [k.used, h.used, List.mem_append]
    tauto

end Fresh

theorem fresh_registerCopies (n : Nat) (base : String) (s : Scope) :
    Fresh s (registerCopies n base s).1 (registerCopies n base s).2 := by
  induction n generalizing s with
  | zero => exact .nil s
  | succ n ih => exact (Fresh.register s base).trans (ih _)

theorem length_registerCopies (n : Nat) (base : String) (s : Scope) :
    (registerCopies n base s).1.length = n := by
  induction n generalizing s with
  | zero => rfl
  | succ n ih => simp [registerCopies, ih]

theorem reserveAll_ok {names : List String} {s : Scope} (hd : names.Nodup)
    (hf : ∀ n ∈ names, n ∉ s.used) :
    ∃ s', reserveAll names s = .ok s' ∧ Fresh s names s' := by
  induction names generalizing s with
  | nil => exact ⟨s, rfl, .nil s⟩
  | cons n ns ih =>
    obtain ⟨hn, hd⟩ := List.nodup_cons.1 hd
    have hfree : s.isUsed n = false := by simpa [isUsed] using hf n (by simp)
    have hone : Fresh s [n] (s.mark n) := ⟨by simp, by simpa using hf n, by simp [mark]⟩
    obtain ⟨s', hs, hfresh⟩ := ih (s := s.mark n) hd (by
      intro m hm
      have hne : m ≠ n := fun he => hn (he ▸ hm)
      simpa [mark, hne] using hf m (by simp [hm]))
    exact ⟨s', by simp [reserveAll, reserve?, hfree, hs], hone.trans hfresh⟩

end Scope

def resultNames (is : List Instruction) : List String :=
  (is.filterMap Instruction.result?).map Prod.fst

@[simp] theorem resultNames_append (is js : List Instruction) :
    resultNames (is ++ js) = resultNames is ++ resultNames js := by
  simp [resultNames]

namespace Function

open Scope (Fresh)

theorem length_renamed (olds news : List String) (s : Scope) :
    (renamed olds news s).1.length = olds.length := by
  fun_induction renamed olds news s <;> simp_all

theorem fresh_renamed (olds news : List String) (s : Scope) (h : olds.length ≤ news.length) :
    Fresh s (renamed olds news s).1 (renamed olds news s).2 := by
  induction olds generalizing news s with
  | nil => exact .nil s
  | cons o olds ih =>
    cases news with
    | nil => simp at h
    | cons n news => exact (Fresh.register s n).trans (ih news _ (by simpa using h))

@[simp] theorem arity_setParams (f : Function) (names : List String) :
    (f.setParams names).arity = f.arity := by
  unfold setParams
  split
  · rfl
  · exact length_renamed _ _ _

theorem blocks_eq_nil {f : Function} (h : ¬ f.hasBody = true) : f.blocks = [] := by
  simpa [hasBody] using h

@[simp] theorem name_setParams (f : Function) (names : List String) :
    (f.setParams names).name = f.name := by
  unfold setParams
  split <;> rfl

@[simp] theorem blocks_setParams (f : Function) (names : List String) :
    (f.setParams names).blocks = f.blocks := by
  unfold setParams
  split <;> rfl

@[simp] theorem name_declared (name : String) (arity : Nat) :
    (declared name arity).name = name := rfl

@[simp] theorem arity_declared (name : String) (arity : Nat) :
    (declared name arity).arity = arity :=
  Scope.length_registerCopies _ _ _

@[simp] theorem blocks_declared (name : String) (arity : Nat) :
    (declared name arity).blocks = [] := rfl

def bodyNames (f : Function) : List String :=
  f.blocks.flatMap fun b => b.label :: resultNames b.instructions

theorem localNames_eq (f : Function) : f.localNames = f.params ++ f.bodyNames := rfl

structure Named (f : Function) : Prop where
  nodup : f.localNames.Nodup
  used : ∀ n ∈ f.localNames, n ∈ f.scope.used
  empty_used : "" ∈ f.scope.used
  ne_empty : ∀ n ∈ f.localNames, n ≠ ""

theorem named_declared (name : String) (arity : Nat) : (declared name arity).Named := by
  have h := Scope.fresh_registerCopies arity "" .empty
  have hr := h.trans (Fresh.register (Scope.registerCopies arity "" .empty).2 "")
  have hl : (declared name arity).localNames = (Scope.registerCopies arity "" .empty).1 :=
    List.append_nil _
  have hs : (declared name arity).scope =
      ((Scope.registerCopies arity "" .empty).2.register "").2 := rfl
  refine ⟨?_, ?_, ?_, ?_⟩
  · rw [hl]
    exact h.nodup
  · intro n hn
    rw [hl] at hn
    rw [hs, hr.used]
    exact Or.inl (List.mem_append_left _ hn)
  · rw [hs, hr.used]
    exact Or.inr (by simp [Scope.empty])
  · rintro n hn rfl
    rw [hl] at hn
    exact h.free _ hn (by simp [Scope.empty])

/-- Renaming keeps the names distinct: all old names of parameters are free before the first new
one is registered, and no other name is. -/
theorem Named.setParams {f : Function} (h : f.Named) {names : List String}
    (hn : f.params.length ≤ names.length) : (f.setParams names).Named := by
  unfold Function.setParams
  split
  · exact h
  · have hr := fresh_renamed f.params names (f.params.foldl Scope.release f.scope) hn
    have hparts := List.nodup_append.1 h.nodup
    have hempty : "" ∈ (f.params.foldl Scope.release f.scope).used := by
      rw [Scope.mem_used_foldl_release]
      exact ⟨h.empty_used, fun _ => rfl⟩
    have hbody : ∀ n ∈ f.bodyNames, n ∈ (f.params.foldl Scope.release f.scope).used := by
      intro n hn
      rw [Scope.mem_used_foldl_release]
      exact ⟨h.used n (List.mem_append_right _ hn),
        fun hp => absurd rfl (hparts.2.2 n hp n hn)⟩
    refine ⟨?_, ?_, ?_, ?_⟩
    · refine List.nodup_append.2 ⟨hr.nodup, hparts.2.1, ?_⟩
      rintro n hn m hm rfl
      exact hr.free n hn (hbody n hm)
    · intro n hn
      rw [hr.used]
      rcases List.mem_append.1 hn with hn | hn
      · exact Or.inl hn
      · exact Or.inr (hbody n hn)
    · exact (hr.used _).2 (Or.inr hempty)
    · intro n hn
      rcases List.mem_append.1 hn with hn | hn
      · rintro rfl
        exact hr.free _ hn hempty
      · exact h.ne_empty n (List.mem_append_right _ hn)

theorem Named.freshScope {f : Function} (h : f.Named) :
    ∃ s, f.freshScope = .ok s ∧ ({ f with blocks := [], scope := s } : Function).Named := by
  have hparts := List.nodup_append.1 h.nodup
  have hfilter : f.params.filter (· != "") = f.params := by
    rw [List.filter_eq_self]
    intro n hn
    simpa using h.ne_empty n (List.mem_append_left _ hn)
  obtain ⟨s, hs, hf⟩ := Scope.reserveAll_ok (s := .empty) hparts.1 (by
    intro n hn
    simpa [Scope.empty] using h.ne_empty n (List.mem_append_left _ hn))
  refine ⟨s, by simpa [Function.freshScope, hfilter] using hs, ?_⟩
  have hl : ({ f with blocks := [], scope := s } : Function).localNames = f.params :=
    List.append_nil _
  refine ⟨?_, ?_, ?_, ?_⟩
  · rw [hl]
    exact hparts.1
  · intro n hn
    rw [hl] at hn
    exact (hf.used n).2 (Or.inl hn)
  · exact (hf.used _).2 (Or.inr (by simp [Scope.empty]))
  · intro n hn
    rw [hl] at hn
    exact h.ne_empty n (List.mem_append_left _ hn)

end Function

end ExprCompiler.IR
