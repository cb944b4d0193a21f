import ExprCompiler.Proofs.LocalNames

/-!
# The table of names under any operations

The table, the names in use and the insertion point agree whatever is asked
of a backend, even when functions that have been erased are named again in
what is asked.
-/

namespace ExprCompiler

open IR (Function FunctionId Module)

/-- An operation with functions that have been declared; a body is begun for a registered function
only. -/
def Operation.Permitted (b : Backend) (o : Operation) : Prop :=
  o.Known b ∧ ∀ f ∈ o.handles, o = .enter f → f ∈ b.module.registered

instance (b : Backend) (o : Operation) : Decidable (o.Permitted b) :=
  inferInstanceAs (Decidable (_ ∧ _))

namespace IR.Module

variable {m : Module} {f g : FunctionId}

theorem mem_registered_erase (hm : m.Indexed) (hg : g ∈ m.registered) (hne : g ≠ f) :
    g ∈ (m.erase f).registered := by
  by_cases hf : f ∈ m.registered
  · have hname : (m.get g).name ≠ (m.get f).name := fun he => hne (hm.eq_of_name_eq hg hf he)
    have hlookup := lookup_erase_of_ne (m := m) hname
    rw [hm.lookup_name hg] at hlookup
    exact mem_registered_of_lookup hlookup
  · have hstale : ¬ m.lookup (m.get f).name = some f := fun hl => hf (mem_registered_of_lookup hl)
    rwa [erase, if_neg hstale]

theorem erase_of_not_registered (hf : f ∉ m.registered) : m.erase f = m :=
  if_neg fun hl => hf (mem_registered_of_lookup hl)

end IR.Module

section

variable {m m' : Module} {p p' : Option InsertionPoint} {o : Operation} {ok : Bool}

theorem Effect.owner_registered (h : Effect m p o ok m' p') (hm : m.Indexed)
    (hp : ∀ q ∈ p, q.owner ∈ m.registered) (ho : ∀ f, o = .enter f → f ∈ m.registered) :
    ∀ q ∈ p', q.owner ∈ m'.registered := by
  cases h with
  | refused => exact hp
  | declared =>
    intro q hq
    rw [Module.registered_enlarged]
    exact List.mem_append_left _ (hp q hq)
  | renamed => exact hp
  | @entered f =>
    intro q hq
    rw [← Option.some.inj hq]
    exact ho f rfl
  | built h =>
    cases h with
    | idle => exact hp
    | named => exact hp
    | placed => exact hp
    | @detached f block base i hpoint =>
      intro q hq
      rw [← Option.some.inj hq]
      exact hp (.detached f block) hpoint
  | @erased f =>
    intro q hq
    obtain ⟨hmem, hne⟩ := Option.mem_filter_iff.1 hq
    exact Module.mem_registered_erase hm (hp q hmem) (by simpa using hne)
  | cleared =>
    intro q hq
    exact hp q (Option.mem_filter_iff.1 hq).1
  | @stripped f n p' hs hpoint =>
    rcases hpoint with rfl | ⟨block, hpoint, rfl⟩
    · exact hp
    · intro q hq
      rw [← Option.some.inj hq]
      exact hp (.endOf f) hpoint

end

/-! ### Runs -/

section

variable {P : Backend → Operation → Prop} {os : List Operation} {b : Backend}

theorem Operated.recorded (hP : ∀ b o, P b o → o.Known b) (h : Operated P os b) (f : FunctionId) :
    ∃ ns, Recorded f os b ns := by
  induction h with
  | start name triple => exact ⟨[], .start name triple⟩
  | operated h ho ih =>
    obtain ⟨ns, hns⟩ := ih
    exact ⟨_, hns.operated (hP _ _ ho)⟩

theorem Operated.indexed (h : Operated P os b) : b.module.Indexed := by
  induction h with
  | start name triple => exact Module.indexed_empty name triple
  | @operated os b o h ho ih => exact (o.effect b).indexed ih

theorem Operated.owner_registered (h : Operated Operation.Permitted os b) :
    ∀ q ∈ b.point, q.owner ∈ b.module.registered := by
  induction h with
  | start => exact nofun
  | @operated os b o h ho ih =>
    refine (o.effect b).owner_registered h.indexed ih fun f hf => ho.2 f ?_ hf
    rw [hf]
    exact List.mem_singleton_self f

theorem Operated.point (h : Operated Operation.Permitted os b) {q : InsertionPoint}
    (hq : b.point = some q) :
    q = .endOf q.owner ∧ (b.module.get q.owner).hasBody = true ∨
      ∃ names, .setParams q.owner names ∈ os ∧ names.length < (b.module.get q.owner).arity := by
  by_cases hfull : ∀ names, .setParams q.owner names ∈ os →
      (b.module.get q.owner).arity ≤ names.length
  · obtain ⟨ns, hns⟩ := h.recorded (fun _ _ ho => ho.1) q.owner
    have hpoint := (hns.naming hfull).point q hq rfl
    exact .inl (hpoint.imp_right fun hb => by simpa [IR.Function.hasBody] using hb)
  · push Not at hfull
    exact .inr hfull

/-- The names in use are the empty name and the names in the table, each of which stands for a
function that bears it, and instructions go to a registered function. So it is names in the table
alone that are refused, and erasing a function that is not registered changes nothing. -/
theorem name_table_consistent (h : Operated Operation.Permitted os b) :
    (∀ n, n ∈ b.module.scope.used ↔ n = "" ∨ n ∈ b.module.names) ∧ b.module.names.Nodup ∧
      (∀ n ∈ b.module.names, ∃ f, b.module.lookup n = some f ∧ f < b.module.functions.length ∧
        (b.module.get f).name = n) ∧
      (∀ q, b.point = some q → q.owner ∈ b.module.registered ∧
        (q = .endOf q.owner ∧ (b.module.get q.owner).hasBody = true ∨
          ∃ names, .setParams q.owner names ∈ os ∧
            names.length < (b.module.get q.owner).arity)) ∧
      (∀ n k, (n = "" ∨ b.module.lookup n ≠ none →
          ∃ j, Backend.declare n k b = .error (.nameInUse n) { b with journal := j }) ∧
        (n ≠ "" → b.module.lookup n = none →
          ∃ f b', Backend.declare n k b = .ok f b' ∧ b'.module.lookup n = some f)) ∧
      ∀ f, f ∉ b.module.registered → ∃ j, Backend.erase f b = .ok () { b with journal := j } := by
  have hm := h.indexed
  refine ⟨hm.used, hm.nodup, fun n hn => ?_, fun q hq => ⟨h.owner_registered q hq, h.point hq⟩,
    fun n k => ⟨fun hn => ?_, fun hne hn => ?_⟩, fun f hf => ?_⟩
  · cases hl : b.module.lookup n with
    | none => exact absurd hn (Module.lookup_eq_none_iff.1 hl)
    | some f => exact ⟨f, rfl, hm.lt_of_lookup hl, hm.name_of_lookup hl⟩
  · have hused : n ∈ b.module.scope.used := by
      refine (hm.used n).2 (hn.imp_right fun hl => ?_)
      by_contra hmem
      exact hl (Module.lookup_eq_none_iff.2 hmem)
    exact Backend.declare_refused (Module.declare?_of_used hused k)
  · obtain ⟨j, hj⟩ := Backend.declare_run (Module.declare?_eq_some hm hn hne k)
    refine ⟨_, _, hj, ?_⟩
    change (b.module.enlarged _).lookup n = _
    rw [Module.lookup_enlarged, hn]
    simp
  · obtain ⟨j, hj⟩ := Backend.erase_run b f
    have hpoint : b.point.filter (fun q => q.owner != f) = b.point := by
      cases hq : b.point with
      | none => rfl
      | some q =>
        have hne : q.owner ≠ f := fun he => hf (he ▸ h.owner_registered q hq)
        simp [Option.filter, hne]
    rw [Module.erase_of_not_registered hf, hpoint] at hj
    exact ⟨j, hj⟩

theorem name_table_consistent_stale :
    ∃ b, Operated Operation.Permitted [.declare "f" 0, .erase 0, .declare "f" 1, .enter 1,
        .setParams 0 [""], .erase 0, .clear 0] b ∧
      b.module.lookup "f" = some 1 ∧ b.point = some (.endOf 1) ∧
      (∃ j, Backend.declare "f" 2 b = .error (.nameInUse "f") { b with journal := j }) ∧
      ∃ j, Backend.erase 0 b = .ok () { b with journal := j } := by
  have h := (((((((Operated.start (P := Operation.Permitted) "m" "t").operated
    (o := .declare "f" 0) (by decide)).operated
    (o := .erase 0) (by decide)).operated
    (o := .declare "f" 1) (by decide)).operated
    (o := .enter 1) (by decide)).operated
    (o := .setParams 0 [""]) (by decide)).operated
    (o := .erase 0) (by decide)).operated
    (o := .clear 0) (by decide)
  obtain ⟨-, -, -, -, hdeclare, herase⟩ := name_table_consistent h
  exact ⟨_, h, by decide, by decide, (hdeclare "f" 2).1 (.inr (by decide)), herase 0 (by decide)⟩

end

end ExprCompiler
