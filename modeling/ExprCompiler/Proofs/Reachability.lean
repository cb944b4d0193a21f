import ExprCompiler.Proofs.CallGraph
import ExprCompiler.Proofs.Printing

/-!
# What a walk reaches

At the end of a walk every call of a function that has been met leads to a
name that has been seen. As long as names tell functions apart, the walk has
therefore met everything with a body that is reached, and it has found a way
back exactly if there is one. The text of what it has met then defines all
that is called in it, once each, unless a body is missing.
-/

namespace ExprCompiler.IR.Module

open Relation

section

variable {m : Module} {f a c : FunctionId} {left rest : List FunctionId} {w : Walk}
  {missing : List String} {n : String}

theorem named_of_nodup (hf : f < m.functions.length)
    (hclosed : ∀ g ∈ m.functions, ∀ c ∈ g.callees, c < m.functions.length)
    (hnames : (m.functions.map Function.name).Nodup) : m.Named f := by
  have hlt {b : FunctionId} (h : m.Reaches f b) : b < m.functions.length := by
    induction h with
    | refl => exact hf
    | @tail b c _ hcall ih =>
      refine hclosed _ (List.getElem_mem ih) c ?_
      simpa [Calls, get, ih] using hcall
  intro a b ha hb hn
  have hget {b : FunctionId} (h : b < m.functions.length) :
      (m.functions.map Function.name)[b]? = some (m.get b).name := by
    simp [get, h]
  refine (List.getElem?_inj (by simpa using hlt ha) hnames).1 ?_
  rw [hget (hlt ha), hget (hlt hb), hn]

theorem Settled.of_append (h : m.Settled missing (left ++ rest)) : m.Settled missing rest := by
  induction left with
  | nil => exact h
  | cons b left ih => exact ih h.2

theorem Settled.later (h : m.Settled missing (a :: rest))
    (hmissing : ∀ c, m.Reaches a c → (m.get c).name ∈ missing → (m.get c).hasBody = false)
    (hcalls : TransGen m.Calls a c) : c ∈ rest ∨ (m.get c).hasBody = false := by
  induction hcalls with
  | single hcall => exact (h.1 _ hcall).imp_right (hmissing _ (.single hcall))
  | tail hcalls hcall ih =>
    rcases ih with hmem | hless
    · exact (h.2.call hmem hcall).imp_right (hmissing _ (hcalls.to_reflTransGen.tail hcall))
    · rw [hcall.hasBody] at hless
      cases hless

namespace Walking

variable (hm : m.Named f) (h : m.Walking f [] w left)
include h

theorem name_seen (ha : a ∈ w.reach.reached) (hc : m.Calls a c) : (m.get c).name ∈ w.seen := by
  rcases h.covered a ha c hc with ⟨cs, hmem, -⟩ | hseen
  · cases hmem
  · exact hseen

include hm

theorem hasBody_of_missing (hc : m.Reaches f c) (hn : (m.get c).name ∈ w.reach.missing) :
    (m.get c).hasBody = false := by
  obtain ⟨a, ha, d, hcall, hless, hname⟩ := h.missing _ hn
  rw [← hm d c ((h.met a ha).2.tail hcall) hc hname]
  exact hless

theorem mem_reached_of_calls (ha : a ∈ w.reach.reached) (hc : m.Calls a c)
    (hb : (m.get c).hasBody = true) : c ∈ w.reach.reached := by
  have hreach : m.Reaches f c := (h.met a ha).2.tail hc
  rcases (h.seen _).1 (h.name_seen ha hc) with hn | ⟨b, hmem, hn⟩
  · rw [h.hasBody_of_missing hm hreach hn] at hb
    cases hb
  · rw [← h.eq_of_name hm hreach hmem hn]
    exact hmem

theorem mem_reached_iff : a ∈ w.reach.reached ↔ m.Reaches f a ∧ (m.get a).hasBody = true := by
  refine ⟨fun ha => (h.met a ha).symm, ?_⟩
  rintro ⟨hreach, hb⟩
  induction hreach with
  | refl => exact List.mem_of_head? h.root
  | tail _ hcall ih => exact h.mem_reached_of_calls hm (ih hcall.hasBody) hcall hb

theorem mem_missing_iff : n ∈ w.reach.missing ↔
    ∃ a ∈ w.reach.reached, ∃ c, m.Calls a c ∧ (m.get c).hasBody = false ∧ (m.get c).name = n := by
  refine ⟨h.missing n, ?_⟩
  rintro ⟨a, ha, c, hcall, hless, rfl⟩
  rcases (h.seen _).1 (h.name_seen ha hcall) with hn | ⟨b, hmem, hn⟩
  · exact hn
  · have hbc := h.eq_of_name hm ((h.met a ha).2.tail hcall) hmem hn
    subst hbc
    rw [(h.met b hmem).1] at hless
    cases hless

theorem recursive_iff :
    w.reach.recursive = true ↔ ∃ a ∈ w.reach.reached, TransGen m.Calls a a := by
  refine ⟨h.recursive, ?_⟩
  rintro ⟨a, ha, hcycle⟩
  by_contra hr
  obtain ⟨hsettled, -⟩ := h.settled (by simpa using hr)
  have hperm : w.reach.reached.Perm left := h.perm
  obtain ⟨before, rest, rfl⟩ := List.append_of_mem (hperm.subset ha)
  have hnodup : a ∉ rest :=
    (List.nodup_cons.1 (List.nodup_append.1 (hperm.nodup_iff.1 h.nodup)).2.1).1
  have hless := hsettled.of_append.later
    (fun c hc => h.hasBody_of_missing hm ((h.met a ha).2.trans hc)) hcycle
  rcases hless with hmem | hless
  · exact hnodup hmem
  · rw [(h.met a ha).1] at hless
    cases hless

end Walking

/-! ### The text of what is reached -/

def parts (m : Module) (fs : List FunctionId) : List String :=
  ["; ModuleID = \"" ++ m.name ++ "\"", "target triple = \"" ++ m.triple ++ "\"",
    "target datalayout = \"" ++ layoutPlaceholder ++ "\"", ""] ++ fs.map m.functionText

def definesName (n part : String) : Bool :=
  ("define i32 " ++ globalReference n ++ "(").toList.isPrefixOf part.toList

theorem globalReference_append_inj {k s t : String}
    (h : globalReference n ++ s = globalReference k ++ t) : n = k ∧ s = t := by
  have hl := congrArg String.toList h
  simp only [globalReference, escapeName, String.toList_append, String.toList_ofList,
    List.append_assoc, List.append_cancel_left_eq] at hl
  obtain ⟨hn, hs⟩ := escaped_append_inj hl
  exact ⟨String.toList_inj.1 hn, String.toList_inj.1 hs⟩

theorem definesName_iff {part : String} : definesName n part = true ↔
    ∃ s, part = "define i32 " ++ (globalReference n ++ ("(" ++ s)) := by
  rw [definesName, List.isPrefixOf_iff_prefix]
  constructor
  · rintro ⟨cs, hcs⟩
    refine ⟨String.ofList cs, String.toList_inj.1 ?_⟩
    rw [← hcs]
    simp only [String.toList_append, String.toList_ofList, List.append_assoc]
  · rintro ⟨s, rfl⟩
    simp only [String.toList_append, ← List.append_assoc]
    exact List.prefix_append _ _

theorem definesName_functionText (hb : (m.get a).hasBody = true) :
    definesName n (m.functionText a) = true ↔ (m.get a).name = n := by
  obtain ⟨t, ht⟩ : ∃ t, m.functionText a =
      "define i32 " ++ (globalReference (m.get a).name ++ ("(" ++ t)) := by
    simp only [functionText, hb, if_true, headerText, String.append_assoc]
    exact ⟨_, by rw [← String.append_assoc]; rfl⟩
  rw [definesName_iff, ht]
  constructor
  · rintro ⟨s, hs⟩
    exact (globalReference_append_inj ((String.append_right_inj _).1 hs)).1
  · rintro rfl
    exact ⟨t, rfl⟩

theorem countP_definesName {fs : List FunctionId} (hd : fs.Nodup) (hc : c ∈ fs)
    (hbody : ∀ a ∈ fs, (m.get a).hasBody = true)
    (hnames : ∀ a ∈ fs, (m.get a).name = (m.get c).name → a = c) :
    (m.parts fs).countP (definesName (m.get c).name) = 1 := by
  have hheading : ∀ t ∈ ["; ModuleID = \"" ++ m.name ++ "\"", "target triple = \"" ++ m.triple ++ "\"",
      "target datalayout = \"" ++ layoutPlaceholder ++ "\"", ""], ¬definesName (m.get c).name t := by
    simp [definesName]
  rw [parts, List.countP_append, List.countP_eq_zero.2 hheading, Nat.zero_add, List.countP_map]
  calc
    fs.countP (definesName (m.get c).name ∘ m.functionText) = fs.countP (· == c) := by
      refine List.countP_congr fun a ha => ?_
      rw [Function.comp_apply, definesName_functionText (hbody a ha), beq_iff_eq]
      exact ⟨hnames a ha, fun h => h ▸ rfl⟩
    _ = 1 := List.count_eq_one_of_mem hd hc

/-- The walk from a function with a body ends, and what it finds is exact. -/
theorem reach_exact (hm : m.Named f) (hb : (m.get f).hasBody = true) :
    (∃ w, m.Walks [(f, (m.get f).callees)]
        ⟨⟨[f], [], false⟩, [(m.get f).name], [(m.get f).name]⟩ w ∧ w.reach = m.reach f) ∧
      (m.reach f).reached.head? = some f ∧ (m.reach f).reached.Nodup ∧
      (∀ a, a ∈ (m.reach f).reached ↔ m.Reaches f a ∧ (m.get a).hasBody = true) ∧
      (∀ n, n ∈ (m.reach f).missing ↔ ∃ a ∈ (m.reach f).reached,
        ∃ c, m.Calls a c ∧ (m.get c).hasBody = false ∧ (m.get c).name = n) ∧
      ((m.reach f).recursive = true ↔ ∃ a ∈ (m.reach f).reached, TransGen m.Calls a a) ∧
      ((m.reach f).missing = [] →
        m.textOf (m.reach f).reached = "\n".intercalate (m.parts (m.reach f).reached) ∧
          ∀ a ∈ (m.reach f).reached, ∀ c, m.Calls a c →
            (m.parts (m.reach f).reached).countP (definesName (m.get c).name) = 1) := by
  obtain ⟨w, left, hw, h, hwalks⟩ := reach_walks hm hb
  rw [← hw]
  refine ⟨⟨w, hwalks, rfl⟩, h.root, h.nodup, fun _ => h.mem_reached_iff hm,
    fun _ => h.mem_missing_iff hm, h.recursive_iff hm, fun hmissing => ⟨rfl, fun a ha c hcall => ?_⟩⟩
  have hreach : m.Reaches f c := (h.met a ha).2.tail hcall
  have hbody : (m.get c).hasBody = true := by
    by_contra hless
    have hn := (h.mem_missing_iff hm).2 ⟨a, ha, c, hcall, by simpa using hless, rfl⟩
    rw [hmissing] at hn
    cases hn
  exact countP_definesName h.nodup (h.mem_reached_of_calls hm ha hcall hbody)
    (fun b hmem => (h.met b hmem).1) fun b hmem hn => h.eq_of_name hm hreach hmem hn

end

def roundabout : Module :=
  { Module.empty "" "" with
    functions := [("even", [2]), ("odd", [0, 0, 1]), ("twice", [1, 1])].map fun p =>
      ⟨p.1, [], .empty, [⟨"entry", p.2.map fun c => .call "" c []⟩]⟩ }

theorem reach_exact_roundabout : roundabout.Named 1 ∧ (roundabout.get 1).hasBody = true ∧
    roundabout.reach 1 = ⟨[1, 0, 2], [], true⟩ ∧
    (∃ w, roundabout.Walks [(1, (roundabout.get 1).callees)]
      ⟨⟨[1], [], false⟩, [(roundabout.get 1).name], [(roundabout.get 1).name]⟩ w ∧
        w.reach = ⟨[1, 0, 2], [], true⟩) ∧
    (∃ a ∈ [1, 0, 2], TransGen roundabout.Calls a a) ∧
    (roundabout.parts [1, 0, 2]).countP (definesName "even") = 1 := by
  have hnamed : roundabout.Named 1 := named_of_nodup (by decide +kernel) (by decide +kernel)
    (by decide +kernel)
  have hbody : (roundabout.get 1).hasBody = true := by decide +kernel
  have hreach : roundabout.reach 1 = ⟨[1, 0, 2], [], true⟩ := by decide +kernel
  obtain ⟨hwalks, -, -, -, -, hrecursive, htext⟩ := reach_exact hnamed hbody
  rw [hreach] at hwalks hrecursive htext
  have hcall : roundabout.Calls 1 0 := by
    unfold Calls
    decide +kernel
  have hname : (roundabout.get 0).name = "even" := by decide +kernel
  have hcount := (htext rfl).2 1 (by simp) 0 hcall
  rw [hname] at hcount
  exact ⟨hnamed, hbody, hreach, hwalks, hrecursive.1 rfl, hcount⟩

end ExprCompiler.IR.Module
