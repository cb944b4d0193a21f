import Mathlib.Algebra.BigOperators.Group.Finset.Basic
import Mathlib.Logic.Relation
import ExprCompiler.IR.CallGraph
import ExprCompiler.Proofs.Store

/-!
# Walking the call graph

The walk is followed with the functions that it has left, the latest first. A
function is left when all its calls lead to functions that have been left
before, unless one of them leads back or to a function without a body. The
bound on the steps is met because every step uses up a call, or leaves a
function that is never entered again.
-/

namespace ExprCompiler.IR.Module

open Relation

def Calls (m : Module) (a c : FunctionId) : Prop := c ∈ (m.get a).callees

abbrev Reaches (m : Module) : FunctionId → FunctionId → Prop := ReflTransGen m.Calls

structure Linked (m : Module) : Prop where
  indexed : m.Indexed
  closed : ∀ a ∈ m.registered, ∀ c, m.Calls a c → c ∈ m.registered

def Named (m : Module) (f : FunctionId) : Prop :=
  ∀ a b, m.Reaches f a → m.Reaches f b → (m.get a).name = (m.get b).name → a = b

def Settled (m : Module) (missing : List String) : List FunctionId → Prop
  | [] => True
  | a :: rest => (∀ c, m.Calls a c → c ∈ rest ∨ (m.get c).name ∈ missing) ∧ m.Settled missing rest

/-- The calls on a path have been followed, or are still to be followed, or lead to the next
function on the path. -/
def Followed (m : Module) (left : List FunctionId) (missing : List String) :
    Option FunctionId → Path → Prop
  | _, [] => True
  | above, (a, cs) :: path =>
    (∀ c, m.Calls a c → c ∈ cs ∨ c ∈ left ∨ (m.get c).name ∈ missing ∨ above = some c) ∧
      m.Followed left missing (some a) path

structure Walking (m : Module) (f : FunctionId) (path : Path) (w : Walk) (left : List FunctionId) :
    Prop where
  perm : w.reach.reached.Perm (path.map Prod.fst ++ left)
  nodup : w.reach.reached.Nodup
  root : w.reach.reached.head? = some f
  met : ∀ a ∈ w.reach.reached, (m.get a).hasBody = true ∧ m.Reaches f a
  stacked : (path.map Prod.fst).Pairwise fun a b => m.Reaches b a
  onPath : w.onPath = path.map fun p => (m.get p.1).name
  seen : ∀ n, n ∈ w.seen ↔ n ∈ w.reach.missing ∨ ∃ a ∈ w.reach.reached, (m.get a).name = n
  missing : ∀ n ∈ w.reach.missing,
    ∃ a ∈ w.reach.reached, ∃ c, m.Calls a c ∧ (m.get c).hasBody = false ∧ (m.get c).name = n
  pending : ∀ p ∈ path, ∀ c ∈ p.2, m.Calls p.1 c
  covered : ∀ a ∈ w.reach.reached, ∀ c, m.Calls a c →
    (∃ cs, (a, cs) ∈ path ∧ c ∈ cs) ∨ (m.get c).name ∈ w.seen
  recursive : w.reach.recursive = true → ∃ a ∈ w.reach.reached, TransGen m.Calls a a
  settled : w.reach.recursive = false →
    m.Settled w.reach.missing left ∧ m.Followed left w.reach.missing none path

section

variable {m : Module} {f a c : FunctionId} {cs left left' : List FunctionId} {path : Path} {w : Walk}
  {missing missing' : List String}

theorem Settled.mono (hm : missing ⊆ missing') (h : m.Settled missing left) :
    m.Settled missing' left := by
  induction left with
  | nil => trivial
  | cons a left ih =>
    refine ⟨fun c hc => ?_, ih h.2⟩
    rcases h.1 c hc with hc | hc
    · exact Or.inl hc
    · exact Or.inr (hm hc)

theorem Settled.call (h : m.Settled missing left) (ha : a ∈ left) (hc : m.Calls a c) :
    c ∈ left ∨ (m.get c).name ∈ missing := by
  induction left with
  | nil => cases ha
  | cons b left ih =>
    rcases List.mem_cons.1 ha with rfl | ha
    · exact (h.1 c hc).imp_left (List.mem_cons_of_mem _)
    · exact (ih h.2 ha).imp_left (List.mem_cons_of_mem _)

theorem Followed.mono {above above' : Option FunctionId} (hl : left ⊆ left')
    (hm : missing ⊆ missing') (ha : ∀ c, above = some c → above' = some c ∨ c ∈ left')
    (h : m.Followed left missing above path) : m.Followed left' missing' above' path := by
  induction path generalizing above above' with
  | nil => trivial
  | cons p path ih =>
    obtain ⟨a, cs⟩ := p
    refine ⟨fun c hc => ?_, ih (fun c hc => Or.inl hc) h.2⟩
    rcases h.1 c hc with hc | hc | hc | hc
    · exact Or.inl hc
    · exact Or.inr (Or.inl (hl hc))
    · exact Or.inr (Or.inr (Or.inl (hm hc)))
    · rcases ha c hc with hc | hc
      · exact Or.inr (Or.inr (Or.inr hc))
      · exact Or.inr (Or.inl hc)

theorem Linked.reaches (hm : m.Linked) (hf : f ∈ m.registered) (h : m.Reaches f a) :
    a ∈ m.registered := by
  induction h with
  | refl => exact hf
  | tail _ hcall ih => exact hm.closed _ ih _ hcall

theorem Linked.named (hm : m.Linked) (hf : f ∈ m.registered) : m.Named f :=
  fun _ _ ha hb => hm.indexed.eq_of_name_eq (hm.reaches hf ha) (hm.reaches hf hb)

theorem lt_length_of_hasBody (hb : (m.get a).hasBody = true) : a < m.functions.length := by
  by_contra hle
  have hget : m.functions[a]? = none := List.getElem?_eq_none (Nat.le_of_not_lt hle)
  simp only [get, hget, Option.getD_none] at hb
  cases hb

theorem Calls.hasBody (h : m.Calls a c) : (m.get a).hasBody = true := by
  by_contra hb
  have hnil : (m.get a).blocks = [] := by simpa [Function.hasBody] using hb
  simp [Calls, Function.callees, Function.instructions, hnil] at h

namespace Walking

theorem start (hb : (m.get f).hasBody = true) :
    m.Walking f [(f, (m.get f).callees)] ⟨⟨[f], [], false⟩, [(m.get f).name], [(m.get f).name]⟩ [] := by
  constructor
  case perm => exact List.Perm.refl _
  case nodup => exact List.nodup_singleton f
  case root => rfl
  case met =>
    intro a ha
    rw [List.mem_singleton.1 ha]
    exact ⟨hb, .refl⟩
  case stacked => exact List.pairwise_singleton _ _
  case onPath => rfl
  case seen =>
    intro n
    simp [eq_comm]
  case missing => simp
  case pending =>
    intro p hp c hc
    rw [List.mem_singleton.1 hp] at hc ⊢
    exact hc
  case covered =>
    intro a ha c hc
    rw [List.mem_singleton.1 ha] at hc ⊢
    exact Or.inl ⟨_, List.mem_singleton_self _, hc⟩
  case recursive => simp
  case settled => exact fun _ => ⟨trivial, fun c hc => Or.inl hc, trivial⟩

theorem leave (h : m.Walking f ((a, []) :: path) w left) :
    m.Walking f path { w with onPath := w.onPath.erase (m.get a).name } (a :: left) := by
  refine { h with perm := ?perm, stacked := (List.pairwise_cons.1 h.stacked).2, onPath := ?onPath,
                  pending := ?pending, covered := ?covered, settled := ?settled }
  case perm => exact h.perm.trans List.perm_middle.symm
  case onPath => simp [h.onPath]
  case pending => exact fun p hp => h.pending p (List.mem_cons_of_mem _ hp)
  case covered =>
    intro b hb c hc
    refine (h.covered b hb c hc).imp_left ?_
    rintro ⟨cs, hmem, hcs⟩
    rcases List.mem_cons.1 hmem with heq | hmem
    · cases heq
      cases hcs
    · exact ⟨cs, hmem, hcs⟩
  case settled =>
    intro hr
    obtain ⟨hsettled, hfollowed, hrest⟩ := h.settled hr
    refine ⟨⟨fun c hc => ?_, hsettled⟩, ?_⟩
    · have := hfollowed c hc
      simpa using this
    · refine hrest.mono (List.subset_cons_self a left) (List.Subset.refl _) fun c hc => ?_
      cases hc
      exact Or.inr List.mem_cons_self

theorem mem_reached (h : m.Walking f path w left) {p : FunctionId × List FunctionId}
    (hp : p ∈ path) : p.1 ∈ w.reach.reached :=
  h.perm.symm.subset (List.mem_append_left _ (List.mem_map_of_mem hp))

theorem callee (h : m.Walking f ((a, c :: cs) :: path) w left) : m.Calls a c ∧ m.Reaches f c := by
  have hcall : m.Calls a c := h.pending (a, c :: cs) List.mem_cons_self c List.mem_cons_self
  obtain ⟨-, hreach⟩ := h.met a (h.mem_reached List.mem_cons_self)
  exact ⟨hcall, hreach.tail hcall⟩

theorem eq_of_name (hm : m.Named f) (h : m.Walking f path w left) (hc : m.Reaches f c)
    {b : FunctionId} (hb : b ∈ w.reach.reached) (hn : (m.get b).name = (m.get c).name) : b = c :=
  hm b c (h.met b hb).2 hc hn

theorem pending_tail (h : m.Walking f ((a, c :: cs) :: path) w left) :
    ∀ p ∈ (a, cs) :: path, ∀ d ∈ p.2, m.Calls p.1 d := by
  intro p hp d hd
  rcases List.mem_cons.1 hp with rfl | hp
  · exact h.pending (a, c :: cs) List.mem_cons_self d (List.mem_cons_of_mem _ hd)
  · exact h.pending p (List.mem_cons_of_mem _ hp) d hd

theorem covered_tail (h : m.Walking f ((a, c :: cs) :: path) w left) {seen : List String}
    (hsub : w.seen ⊆ seen) (hc : (m.get c).name ∈ seen) :
    ∀ b ∈ w.reach.reached, ∀ d, m.Calls b d →
      (∃ ds, (b, ds) ∈ (a, cs) :: path ∧ d ∈ ds) ∨ (m.get d).name ∈ seen := by
  intro b hb d hd
  rcases h.covered b hb d hd with ⟨ds, hmem, hds⟩ | hseen
  · rcases List.mem_cons.1 hmem with heq | hmem
    · cases heq
      rcases List.mem_cons.1 hds with rfl | hds
      · exact Or.inr hc
      · exact Or.inl ⟨cs, List.mem_cons_self, hds⟩
    · exact Or.inl ⟨ds, List.mem_cons_of_mem _ hmem, hds⟩
  · exact Or.inr (hsub hseen)

theorem back (hm : m.Named f) (h : m.Walking f ((a, c :: cs) :: path) w left)
    (hc : (m.get c).name ∈ w.onPath) :
    m.Walking f ((a, cs) :: path) { w with reach := { w.reach with recursive := true } } left := by
  obtain ⟨hcall, hreach⟩ := h.callee
  rw [h.onPath] at hc
  obtain ⟨p, hp, hn⟩ := List.mem_map.1 hc
  have hpm := h.mem_reached hp
  have hpc := h.eq_of_name hm hreach hpm hn
  have hseen : (m.get c).name ∈ w.seen := (h.seen _).2 (Or.inr ⟨p.1, hpm, hn⟩)
  refine { h with pending := h.pending_tail, covered := h.covered_tail (List.Subset.refl _) hseen,
                  recursive := fun _ => ⟨p.1, hpm, ?_⟩, settled := by simp }
  rw [← hpc] at hcall
  rcases List.mem_cons.1 hp with rfl | hp
  · exact .single hcall
  · exact .tail' ((List.pairwise_cons.1 h.stacked).1 _ (List.mem_map_of_mem hp)) hcall

theorem known (hm : m.Named f) (h : m.Walking f ((a, c :: cs) :: path) w left)
    (hpath : (m.get c).name ∉ w.onPath) (hseen : (m.get c).name ∈ w.seen) :
    m.Walking f ((a, cs) :: path) w left := by
  refine { h with pending := h.pending_tail,
                  covered := h.covered_tail (List.Subset.refl _) hseen, settled := fun hr => ?_ }
  obtain ⟨hsettled, hfollowed, hrest⟩ := h.settled hr
  have hcovered : c ∈ left ∨ (m.get c).name ∈ w.reach.missing := by
    rcases (h.seen _).1 hseen with hmissing | ⟨b, hb, hn⟩
    · exact Or.inr hmissing
    · have hbc := h.eq_of_name hm h.callee.2 hb hn
      subst hbc
      rcases List.mem_append.1 (h.perm.subset hb) with hb | hb
      · obtain ⟨p, hp, rfl⟩ := List.mem_map.1 hb
        rw [h.onPath] at hpath
        exact absurd (List.mem_map.2 ⟨p, hp, rfl⟩) hpath
      · exact Or.inl hb
  refine ⟨hsettled, fun d hd => ?_, hrest⟩
  rcases hfollowed d hd with hd | hd
  · rcases List.mem_cons.1 hd with rfl | hd
    · exact Or.inr (hcovered.imp_right Or.inl)
    · exact Or.inl hd
  · exact Or.inr hd

theorem enter (h : m.Walking f ((a, c :: cs) :: path) w left)
    (hseen : (m.get c).name ∉ w.seen) (hb : (m.get c).hasBody = true) :
    m.Walking f ((c, (m.get c).callees) :: (a, cs) :: path)
      ⟨{ w.reach with reached := w.reach.reached ++ [c] }, (m.get c).name :: w.seen,
        (m.get c).name :: w.onPath⟩ left := by
  obtain ⟨hcall, hreach⟩ := h.callee
  have hnew : c ∉ w.reach.reached := fun hc => hseen ((h.seen _).2 (Or.inr ⟨c, hc, rfl⟩))
  have hperm : (w.reach.reached ++ [c]).Perm (c :: (a :: path.map Prod.fst ++ left)) :=
    (List.perm_append_singleton c w.reach.reached).trans (h.perm.cons c)
  refine { perm := hperm, nodup := ?nodup, root := ?root, met := ?met, stacked := ?stacked,
           onPath := ?onPath, seen := ?seen, missing := ?missing, pending := ?pending,
           covered := ?covered, recursive := ?recursive, settled := ?settled }
  case nodup =>
    exact (List.perm_append_singleton c _).nodup_iff.2 (List.nodup_cons.2 ⟨hnew, h.nodup⟩)
  case root => rw [List.head?_append, h.root, Option.some_or]
  case met =>
    intro b hbm
    rcases List.mem_append.1 hbm with hbm | hbm
    · exact h.met b hbm
    · rw [List.mem_singleton.1 hbm]
      exact ⟨hb, hreach⟩
  case stacked =>
    refine List.pairwise_cons.2 ⟨fun b hbm => ?_, h.stacked⟩
    have hba : m.Reaches b a := by
      rcases List.mem_cons.1 hbm with rfl | hbm
      · exact .refl
      · exact (List.pairwise_cons.1 h.stacked).1 b hbm
    exact hba.tail hcall
  case onPath => simp [h.onPath]
  case seen =>
    intro n
    simp only [List.mem_cons, h.seen, List.mem_append, List.not_mem_nil, or_false]
    constructor
    · rintro (rfl | hn | ⟨b, hbm, hn⟩)
      · exact Or.inr ⟨c, Or.inr rfl, rfl⟩
      · exact Or.inl hn
      · exact Or.inr ⟨b, Or.inl hbm, hn⟩
    · rintro (hn | ⟨b, hbm | rfl, hn⟩)
      · exact Or.inr (Or.inl hn)
      · exact Or.inr (Or.inr ⟨b, hbm, hn⟩)
      · exact Or.inl hn.symm
  case missing =>
    intro n hn
    obtain ⟨b, hbm, hrest⟩ := h.missing n hn
    exact ⟨b, List.mem_append_left _ hbm, hrest⟩
  case pending =>
    intro p hp d hd
    rcases List.mem_cons.1 hp with rfl | hp
    · exact hd
    · exact h.pending_tail p hp d hd
  case covered =>
    intro b hbm d hd
    rcases List.mem_append.1 hbm with hbm | hbm
    · rcases h.covered_tail (List.subset_cons_self _ _) List.mem_cons_self b hbm d hd with
        ⟨ds, hmem, hds⟩ | hn
      · exact Or.inl ⟨ds, List.mem_cons_of_mem _ hmem, hds⟩
      · exact Or.inr hn
    · rw [List.mem_singleton.1 hbm] at hd ⊢
      exact Or.inl ⟨_, List.mem_cons_self, hd⟩
  case recursive =>
    intro hr
    obtain ⟨b, hbm, hcycle⟩ := h.recursive hr
    exact ⟨b, List.mem_append_left _ hbm, hcycle⟩
  case settled =>
    intro hr
    obtain ⟨hsettled, hfollowed, hrest⟩ := h.settled hr
    refine ⟨hsettled, fun d hd => Or.inl hd, fun d hd => ?_, hrest⟩
    rcases hfollowed d hd with hd | hd | hd | hd
    · rcases List.mem_cons.1 hd with rfl | hd
      · exact Or.inr (Or.inr (Or.inr rfl))
      · exact Or.inl hd
    · exact Or.inr (Or.inl hd)
    · exact Or.inr (Or.inr (Or.inl hd))
    · cases hd

theorem absent (h : m.Walking f ((a, c :: cs) :: path) w left)
    (hb : (m.get c).hasBody = false) :
    m.Walking f ((a, cs) :: path)
      { w with reach := { w.reach with missing := w.reach.missing ++ [(m.get c).name] },
               seen := (m.get c).name :: w.seen } left := by
  have hsub : w.reach.missing ⊆ w.reach.missing ++ [(m.get c).name] := List.subset_append_left _ _
  refine { h with seen := ?seen, missing := ?missing, pending := h.pending_tail,
                  covered := h.covered_tail (List.subset_cons_self _ _) List.mem_cons_self,
                  settled := ?settled }
  case seen =>
    intro n
    simp only [List.mem_cons, h.seen, List.mem_append, List.not_mem_nil, or_false]
    tauto
  case missing =>
    intro n hn
    rcases List.mem_append.1 hn with hn | hn
    · exact h.missing n hn
    · exact ⟨a, h.mem_reached List.mem_cons_self, c, h.callee.1, hb, (List.mem_singleton.1 hn).symm⟩
  case settled =>
    intro hr
    obtain ⟨hsettled, hfollowed, hrest⟩ := h.settled hr
    refine ⟨hsettled.mono hsub, fun d hd => ?_,
      hrest.mono (List.Subset.refl _) hsub fun c hc => Or.inl hc⟩
    rcases hfollowed d hd with hd | hd | hd | hd
    · rcases List.mem_cons.1 hd with rfl | hd
      · exact Or.inr (Or.inr (Or.inl (List.mem_append_right _ (List.mem_singleton.2 rfl))))
      · exact Or.inl hd
    · exact Or.inr (Or.inl hd)
    · exact Or.inr (Or.inr (Or.inl (hsub hd)))
    · cases hd

theorem step (hm : m.Named f) (h : m.Walking f path w left) :
    ∃ left', m.Walking f (m.walkStep path w).1 (m.walkStep path w).2 left' := by
  match path, h with
  | [], h => exact ⟨left, h⟩
  | (a, []) :: path, h => exact ⟨a :: left, h.leave⟩
  | (a, c :: cs) :: path, h =>
    by_cases hpath : (m.get c).name ∈ w.onPath
    · refine ⟨left, ?_⟩
      simpa [walkStep, hpath] using h.back hm hpath
    · by_cases hseen : (m.get c).name ∈ w.seen
      · refine ⟨left, ?_⟩
        simpa [walkStep, hpath, hseen] using h.known hm hpath hseen
      · by_cases hb : (m.get c).hasBody = true
        · refine ⟨left, ?_⟩
          simpa [walkStep, hpath, hseen, hb] using h.enter hseen hb
        · refine ⟨left, ?_⟩
          simpa [walkStep, hpath, hseen, hb] using h.absent (by simpa using hb)

end Walking

/-! ### The bound -/

def weight (m : Module) (a : FunctionId) : Nat := (m.get a).callees.length + 1

def pathWork : Path → Nat
  | [] => 0
  | p :: path => p.2.length + 1 + pathWork path

def unmet (m : Module) (reached : List FunctionId) : Finset FunctionId :=
  (Finset.range m.functions.length).filter (· ∉ reached)

def work (m : Module) (path : Path) (w : Walk) : Nat :=
  pathWork path + ∑ a ∈ m.unmet w.reach.reached, m.weight a

theorem unmet_append (m : Module) (reached : List FunctionId) (c : FunctionId) :
    m.unmet (reached ++ [c]) = (m.unmet reached).erase c := by
  ext a
  simp only [unmet, Finset.mem_filter, Finset.mem_erase, List.mem_append, List.mem_singleton]
  tauto

theorem countSteps_eq (gs : List Function) :
    countSteps gs = ∑ a ∈ Finset.range gs.length, ((gs[a]?.getD default).callees.length + 1) := by
  induction gs with
  | nil => rfl
  | cons g gs ih =>
    rw [List.length_cons, Finset.sum_range_succ', countSteps, ih]
    simp only [List.getElem?_cons_succ, List.getElem?_cons_zero, Option.getD_some]
    omega

theorem work_start (hf : f < m.functions.length) :
    m.work [(f, (m.get f).callees)] ⟨⟨[f], [], false⟩, [(m.get f).name], [(m.get f).name]⟩ =
      m.walkBound := by
  have hall : m.walkBound = ∑ a ∈ Finset.range m.functions.length, m.weight a := countSteps_eq _
  have hunmet : m.unmet [f] = (Finset.range m.functions.length).erase f := by
    ext a
    simp only [unmet, Finset.mem_filter, Finset.mem_erase, List.mem_singleton]
    tauto
  rw [hall, ← Finset.add_sum_erase _ _ (Finset.mem_range.2 hf), work, hunmet]
  rfl

theorem Walking.work_step (h : m.Walking f path w left) (hp : path ≠ []) :
    m.work (m.walkStep path w).1 (m.walkStep path w).2 + 1 = m.work path w := by
  match path, h with
  | [], h => exact absurd rfl hp
  | (a, []) :: path, h =>
    simp only [walkStep, work, pathWork, List.length_nil]
    omega
  | (a, c :: cs) :: path, h =>
    by_cases hpath : (m.get c).name ∈ w.onPath
    · simp [walkStep, work, pathWork, hpath]
      omega
    · by_cases hseen : (m.get c).name ∈ w.seen
      · simp [walkStep, work, pathWork, hpath, hseen]
        omega
      · by_cases hb : (m.get c).hasBody = true
        · have hnew : c ∉ w.reach.reached := fun hc => hseen ((h.seen _).2 (Or.inr ⟨c, hc, rfl⟩))
          have hmem : c ∈ m.unmet w.reach.reached :=
            Finset.mem_filter.2 ⟨Finset.mem_range.2 (lt_length_of_hasBody hb), hnew⟩
          have hsum := Finset.add_sum_erase _ m.weight hmem
          have hweight : m.weight c = (m.get c).callees.length + 1 := rfl
          simp [walkStep, work, pathWork, hpath, hseen, hb, unmet_append]
          omega
        · simp [walkStep, work, pathWork, hpath, hseen, hb]
          omega

theorem walkFor_nil (m : Module) (n : Nat) (w : Walk) : m.walkFor n [] w = w := by
  induction n with
  | zero => rfl
  | succ n ih => exact ih

inductive Walks (m : Module) : Path → Walk → Walk → Prop
  | over (w : Walk) : m.Walks [] w w
  | step {path : Path} {w w' : Walk} (hp : path ≠ [])
      (h : m.Walks (m.walkStep path w).1 (m.walkStep path w).2 w') : m.Walks path w w'

/-- A walk with all its steps ahead ends, and in order. -/
theorem Walking.run (hm : m.Named f) (n : Nat) (h : m.Walking f path w left)
    (hn : m.work path w ≤ n) :
    m.Walks path w (m.walkFor n path w) ∧ ∃ left', m.Walking f [] (m.walkFor n path w) left' := by
  induction n generalizing path w left with
  | zero =>
    cases path with
    | nil => exact ⟨.over w, left, h⟩
    | cons p path =>
      simp only [work, pathWork] at hn
      omega
  | succ n ih =>
    by_cases hp : path = []
    · subst hp
      rw [walkFor_nil]
      exact ⟨.over w, left, h⟩
    · obtain ⟨left', hstep⟩ := h.step hm
      have hwork := h.work_step hp
      have hle : m.work (m.walkStep path w).1 (m.walkStep path w).2 ≤ n := by omega
      obtain ⟨hwalks, hend⟩ := ih hstep hle
      exact ⟨.step hp hwalks, hend⟩

/-! ### What the walk finds -/

structure Runnable (m : Module) (f : FunctionId) (fs : List FunctionId) : Prop where
  root : f ∈ fs
  registered : ∀ a ∈ fs, a ∈ m.registered
  hasBody : ∀ a ∈ fs, (m.get a).hasBody = true
  settled : m.Settled [] fs

theorem reach_walks (hm : m.Named f) (hb : (m.get f).hasBody = true) :
    ∃ w left, w.reach = m.reach f ∧ m.Walking f [] w left ∧
      m.Walks [(f, (m.get f).callees)] ⟨⟨[f], [], false⟩, [(m.get f).name], [(m.get f).name]⟩ w := by
  have hwork := work_start (lt_length_of_hasBody hb)
  obtain ⟨hwalks, left, h⟩ := (Walking.start hb).run hm m.walkBound hwork.le
  exact ⟨_, left, rfl, h, hwalks⟩

theorem reach_runnable (hm : m.Linked) (hf : f ∈ m.registered) (hb : (m.get f).hasBody = true)
    (hmissing : (m.reach f).missing = []) (hr : (m.reach f).recursive = false) :
    ∃ fs, (m.reach f).reached.Perm fs ∧ m.Runnable f fs := by
  obtain ⟨w, left, hw, h, -⟩ := reach_walks (hm.named hf) hb
  rw [← hw] at hmissing hr ⊢
  have hperm : w.reach.reached.Perm left := h.perm
  obtain ⟨hsettled, -⟩ := h.settled hr
  rw [hmissing] at hsettled
  refine ⟨left, hperm, hperm.subset (List.mem_of_head? h.root), fun a ha => ?_, fun a ha => ?_,
    hsettled⟩
  · exact hm.reaches hf (h.met a (hperm.symm.subset ha)).2
  · exact (h.met a (hperm.symm.subset ha)).1

theorem reach_missing (hm : m.Linked) (hf : f ∈ m.registered) (hb : (m.get f).hasBody = true)
    (hmissing : (m.reach f).missing ≠ []) :
    ∃ c ∈ m.registered, (m.get c).hasBody = false ∧ m.Reaches f c := by
  obtain ⟨w, left, hw, h, -⟩ := reach_walks (hm.named hf) hb
  rw [← hw] at hmissing
  obtain ⟨n, hn⟩ := List.exists_mem_of_ne_nil _ hmissing
  obtain ⟨a, ha, c, hcall, hless, -⟩ := h.missing n hn
  have hreach : m.Reaches f c := (h.met a ha).2.tail hcall
  exact ⟨c, hm.reaches hf hreach, hless, hreach⟩

theorem reach_recursive (hm : m.Linked) (hf : f ∈ m.registered) (hb : (m.get f).hasBody = true)
    (hr : (m.reach f).recursive = true) : ∃ a, m.Reaches f a ∧ TransGen m.Calls a a := by
  obtain ⟨w, left, hw, h, -⟩ := reach_walks (hm.named hf) hb
  rw [← hw] at hr
  obtain ⟨a, ha, hcycle⟩ := h.recursive hr
  exact ⟨a, (h.met a ha).2, hcycle⟩

end

end ExprCompiler.IR.Module
