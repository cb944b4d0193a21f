import ExprCompiler.Proofs.Operations
import ExprCompiler.Proofs.Residue

/-!
# Local names under any operations

The parameters, the blocks and the instructions of a function have names, and
a return has one that is never written. Whatever is done to a function, and
in whatever order, as long as its parameters get as many names as there are
of them, no two of these names are the same.
-/

namespace ExprCompiler

open IR (Block Function FunctionId Instruction Module Nameless Scope)

namespace Operation

def place? (p : Option InsertionPoint) : Operation → Option (FunctionId × String)
  | enter f => some (f, "entry")
  | build c =>
    match p with
    | some (.endOf f) => c.base?.map fun base => (f, base)
    | _ => none
  | _ => none

def record (o : Operation) (ok : Bool) (b : Backend) (f : FunctionId) (ns : List String) :
    List String :=
  match o with
  | clear g => if g = f then [] else ns
  | o =>
    match ok, o.place? b.point with
    | true, some (g, base) =>
      if g = f then ns ++ [((b.module.get f).scope.register base).1] else ns
    | _, _ => ns

end Operation

/-- The states that operations with known functions lead to, with the names of the blocks and the
instructions of `f`. -/
inductive Recorded (f : FunctionId) : List Operation → Backend → List String → Prop
  | start (name triple : String) : Recorded f [] (.ofTarget name triple) []
  | operated {os : List Operation} {b : Backend} {ns : List String} {o : Operation}
      (h : Recorded f os b ns) (ho : o.Known b) :
    Recorded f (os ++ [o]) (o.after b) (o.record (o.succeeds b) b f ns)

/-! ### One function -/

namespace IR.Function

def labelled (x : Function) (ns : List String) : Function :=
  { x with blocks := ns.map fun n => ⟨n, []⟩ }

@[simp] theorem bodyNames_labelled (x : Function) (ns : List String) :
    (x.labelled ns).bodyNames = ns := by
  induction ns with
  | nil => rfl
  | cons n ns ih =>
    have htail : (x.labelled (n :: ns)).bodyNames = n :: (x.labelled ns).bodyNames := rfl
    rw [htail, ih]

theorem localNames_labelled (x : Function) (ns : List String) :
    (x.labelled ns).localNames = x.params ++ ns := by
  rw [localNames_eq, bodyNames_labelled]
  rfl

theorem setParams_labelled (x : Function) (names ns : List String) :
    (x.labelled ns).setParams names = (x.setParams names).labelled ns := by
  by_cases hp : x.params = names
  · simp [setParams, labelled, hp]
  · simp [setParams, labelled, hp]

structure Holds (x : Function) (ns : List String) : Prop where
  named : (x.labelled ns).Named
  written : x.bodyNames.Sublist ns
  length : ns.length = x.blocks.length + x.instructions.length
  free : x.blocks = [] → ∀ n ∈ x.scope.used, ¬ Nameless n → n ∈ x.params

variable {x : Function} {ns : List String} {base : String}

theorem Named.register (h : (x.labelled ns).Named) (base : String) :
    ((x.register base).labelled (ns ++ [(x.scope.register base).1])).Named := by
  have hnew := Scope.register_not_mem x.scope base
  have hmem := localNames_labelled (x.register base) (ns ++ [(x.scope.register base).1])
  have hold := localNames_labelled x ns
  have hparams : (x.register base).params = x.params := rfl
  have hused : (x.register base).scope.used = (x.scope.register base).1 :: x.scope.used :=
    Scope.used_register _ _
  rw [hparams, ← List.append_assoc, ← hold] at hmem
  refine ⟨?_, ?_, ?_, ?_⟩
  · rw [hmem]
    refine List.nodup_append.2 ⟨h.nodup, List.nodup_singleton _, ?_⟩
    rintro n hn k hk rfl
    rw [List.mem_singleton.1 hk] at hn
    exact hnew (h.used _ hn)
  · intro n hn
    rw [hmem, List.mem_append, List.mem_singleton] at hn
    change n ∈ (x.register base).scope.used
    rw [hused, List.mem_cons]
    exact hn.symm.imp_right (h.used n)
  · change "" ∈ (x.register base).scope.used
    rw [hused]
    exact List.mem_cons_of_mem _ h.empty_used
  · intro n hn
    rw [hmem, List.mem_append, List.mem_singleton] at hn
    rcases hn with hn | rfl
    · exact h.ne_empty n hn
    · exact fun he => hnew (he ▸ h.empty_used)

theorem holds_declared (name : String) (arity : Nat) : (declared name arity).Holds [] where
  named := named_declared name arity
  written := .slnil
  length := rfl
  free _ n hu hn := ((tidy_declared name arity).used n hn).1 hu

namespace Holds

theorem register (h : x.Holds ns) (hb : x.blocks ≠ []) : (x.register base).Holds ns := by
  have hnamed := h.named.register base
  have hlocal := localNames_labelled (x.register base) ns
  have hsub : ((x.register base).labelled ns).localNames.Sublist
      ((x.register base).labelled (ns ++ [(x.scope.register base).1])).localNames := by
    rw [localNames_labelled, localNames_labelled]
    exact (List.sublist_append_left _ _).append_left _
  exact ⟨⟨hnamed.nodup.sublist hsub, fun n hn => hnamed.used n (hsub.subset hn), hnamed.empty_used,
    fun n hn => hnamed.ne_empty n (hsub.subset hn)⟩, h.written, h.length, fun he => absurd he hb⟩

theorem addBlock (h : x.Holds ns) : x.addBlock.2.Holds (ns ++ [(x.scope.register "entry").1]) where
  named := h.named.register "entry"
  written := by
    have hbody : x.addBlock.2.bodyNames = x.bodyNames ++ [(x.scope.register "entry").1] := by
      simp [Function.addBlock, bodyNames, resultNames]
    rw [hbody]
    exact h.written.append_right _
  length := by
    simp [Function.addBlock, instructions, h.length]
    omega
  free he := by simp [Function.addBlock] at he

theorem exists_last (hb : x.blocks ≠ []) : ∃ bs b, x.blocks = bs ++ [b] :=
  ⟨_, _, (List.dropLast_append_getLast hb).symm⟩

theorem push (h : x.Holds ns) (hb : x.blocks ≠ []) {i : Instruction}
    (hi : (resultNames [i]).Sublist [(x.scope.register base).1]) :
    ((x.register base).pushInstruction i).Holds (ns ++ [(x.scope.register base).1]) := by
  obtain ⟨bs, b, hbs⟩ := exists_last hb
  have hblocks : ((x.register base).pushInstruction i).blocks = bs ++ [b.push i] := by
    simp [Function.register, pushInstruction, hbs]
  refine ⟨h.named.register base, ?_, ?_, fun he => ?_⟩
  · have hbody : ((x.register base).pushInstruction i).bodyNames =
        x.bodyNames ++ resultNames [i] := by
      simp [bodyNames, hblocks, hbs, Block.push]
    rw [hbody]
    exact h.written.append hi
  · simp [instructions, hblocks, hbs, Block.push, h.length]
    omega
  · rw [hblocks] at he
    simp at he

/-- All parameters get names, so that none of them has its old one still. -/
theorem setParams (h : x.Holds ns) {names : List String} (hn : x.arity ≤ names.length) :
    (x.setParams names).Holds ns := by
  have hnamed : ((x.setParams names).labelled ns).Named := by
    rw [← setParams_labelled]
    exact h.named.setParams hn
  have hwritten : (x.setParams names).bodyNames.Sublist ns := by
    rw [bodyNames, blocks_setParams]
    exact h.written
  have hlength : ns.length =
      (x.setParams names).blocks.length + (x.setParams names).instructions.length := by
    rw [instructions, blocks_setParams]
    exact h.length
  refine ⟨hnamed, hwritten, hlength, fun he n hu hless => ?_⟩
  rw [blocks_setParams] at he
  unfold Function.setParams at hu ⊢
  split at hu
  · rw [if_pos ‹_›]
    exact h.free he n hu hless
  · rw [if_neg ‹_›]
    have hfresh := fresh_renamed x.params names (x.params.foldl Scope.release x.scope) hn
    exact ((hfresh.used n).1 hu).resolve_right
      (not_mem_released (fun hused => h.free he n hused hless) hless)

theorem params_setParams (h : x.Holds ns) (hb : x.blocks = []) {names : List String}
    (hlength : x.arity = names.length) (hd : names.Nodup) (hn : ∀ n ∈ names, Identifier n) :
    (x.setParams names).params = names := by
  unfold Function.setParams
  split
  · assumption
  · have hfree : ∀ n ∈ names, n ∉ (x.params.foldl Scope.release x.scope).used := by
      intro n hmem
      have hless := not_nameless_of_identifier (hn n hmem)
      exact not_mem_released (fun hused => h.free hb n hused hless) hless
    rw [renamed_of_free hlength hd hfree]

theorem dropped (h : x.Holds ns) :
    ∃ s, x.freshScope = .ok s ∧ ({ x with scope := s, blocks := [] } : Function).Holds [] := by
  obtain ⟨s, hs, hnamed⟩ := h.named.freshScope
  have hfresh : x.freshScope = .ok s := hs
  have htidy := tidy_of_freshScope hfresh
  exact ⟨s, hfresh, hnamed, .slnil, rfl, fun _ n hu hn => (htidy.used n hn).1 hu⟩

end Holds

end IR.Function

/-! ### Any function of a module -/

structure Naming (m : Module) (p : Option InsertionPoint) (f : FunctionId) (ns : List String) :
    Prop where
  holds : f < m.functions.length → (m.get f).Holds ns
  absent : m.functions.length ≤ f → ns = []
  known : ∀ q ∈ p, q.owner < m.functions.length
  point : ∀ q ∈ p, q.owner = f → q = .endOf f ∧ (m.get f).blocks ≠ []

namespace Naming

variable {m m' : Module} {p p' : Option InsertionPoint} {f g : FunctionId} {ns ns' : List String}
  {k : Function → Function}

theorem enlarged (h : Naming m p f ns) (name : String) (arity : Nat) :
    Naming (m.enlarged (.declared name arity)) p f ns where
  holds hf := by
    rw [Module.length_enlarged, Nat.lt_succ_iff_lt_or_eq] at hf
    rcases hf with hf | rfl
    · rw [Module.get_enlarged_of_lt hf]
      exact h.holds hf
    · rw [Module.get_enlarged_self, h.absent le_rfl]
      exact IR.Function.holds_declared name arity
  absent hf := h.absent (Nat.le_of_succ_le (by simpa using hf))
  known q hq := by
    rw [Module.length_enlarged]
    exact Nat.lt_succ_of_lt (h.known q hq)
  point q hq he := by
    rw [Module.get_enlarged_of_lt (he ▸ h.known q hq)]
    exact h.point q hq he

theorem modify_of_ne (h : Naming m p f ns) (hg : f ≠ g) (k : Function → Function) :
    Naming (m.modify g k) p f ns where
  holds hf := by
    rw [Module.get_modify_of_ne k hg]
    exact h.holds (by simpa using hf)
  absent hf := h.absent (by simpa using hf)
  known q hq := by simpa using h.known q hq
  point q hq he := by
    rw [Module.get_modify_of_ne k hg]
    exact h.point q hq he

theorem modify_self (hf : f < m.functions.length)
    (hk : (k (m.get f)).Holds ns') (hlt : ∀ q ∈ p', q.owner < m.functions.length)
    (hp : ∀ q ∈ p', q.owner = f → q = .endOf f ∧ (k (m.get f)).blocks ≠ []) :
    Naming (m.modify f k) p' f ns' where
  holds _ := by
    rw [Module.get_modify_self k hf]
    exact hk
  absent hle := absurd hf (Nat.not_lt.2 (by simpa using hle))
  known q hq := by simpa using hlt q hq
  point q hq he := by
    rw [Module.get_modify_self k hf]
    exact hp q hq he

theorem move (h : Naming m p f ns) (hlt : ∀ q ∈ p', q.owner < m.functions.length)
    (hp : ∀ q ∈ p', q.owner ≠ f) : Naming m p' f ns :=
  ⟨h.holds, h.absent, hlt, fun q hq he => absurd he (hp q hq)⟩

theorem leave (h : Naming m p f ns) (g : FunctionId) :
    Naming m (p.filter fun q => q.owner != g) f ns :=
  ⟨h.holds, h.absent, fun q hq => h.known q (Option.mem_filter_iff.1 hq).1,
    fun q hq => h.point q (Option.mem_filter_iff.1 hq).1⟩

theorem erase (h : Naming m p f ns) (g : FunctionId) : Naming (m.erase g) p f ns := by
  refine ⟨fun hf => ?_, fun hf => ?_, fun q hq => ?_, fun q hq he => ?_⟩
  · rw [Module.functions_erase] at hf
    rw [Module.get_erase]
    exact h.holds hf
  · rw [Module.functions_erase] at hf
    exact h.absent hf
  · rw [Module.functions_erase]
    exact h.known q hq
  · rw [Module.get_erase]
    exact h.point q hq he

end Naming

section

variable {b : Backend} {m' : Module} {p' : Option InsertionPoint} {f : FunctionId}
  {ns : List String} {o : Operation} {ok : Bool}

theorem Built.naming {c : Construction} (he : Built b.module b.point c.base? ok m' p')
    (h : Naming b.module b.point f ns) :
    Naming m' p' f ((Operation.build c).record ok b f ns) := by
  cases he with
  | idle hidle =>
    cases ok with
    | false => exact h
    | true =>
      have hrecord : (Operation.build c).record true b f ns = ns := by
        simp only [Operation.record, Operation.place?, hidle rfl]
        cases b.point with
        | none => rfl
        | some q => cases q <;> rfl
      rwa [hrecord]
  | @named q base hp hb =>
    by_cases hq : f = q.owner
    · subst hq
      have hlt := h.known q hp
      have hblocks := (h.point q hp rfl).2
      exact .modify_self hlt ((h.holds hlt).register hblocks) h.known fun r hr he => h.point r hr he
    · exact h.modify_of_ne hq _
  | @placed g base i hp hb hi =>
    have hrecord : (Operation.build c).record true b f ns =
        if g = f then ns ++ [((b.module.get f).scope.register base).1] else ns := by
      simp [Operation.record, Operation.place?, hp, hb]
    rw [hrecord]
    by_cases hg : g = f
    · subst hg
      rw [if_pos rfl]
      have hlt := h.known _ hp
      have hblocks := (h.point _ hp rfl).2
      refine .modify_self hlt ((h.holds hlt).push hblocks hi) h.known fun q hq he => ?_
      refine ⟨(h.point q hq he).1, ?_⟩
      simp [IR.Function.pushInstruction, IR.Function.register, hblocks]
    · rw [if_neg hg]
      exact h.modify_of_ne (Ne.symm hg) _
  | @detached g block base i hp hb =>
    have hrecord : (Operation.build c).record true b f ns = ns := by
      simp [Operation.record, Operation.place?, hp]
    rw [hrecord]
    -- A block of `f` is dropped only with all of them, and then instructions go nowhere.
    have hg : g ≠ f := by
      intro hg
      cases (h.point _ hp hg).1
    refine (h.modify_of_ne hg.symm _).move (fun q hq => ?_) fun q hq => ?_
    · rw [Module.length_modify, ← Option.some.inj hq]
      exact h.known (.detached g block) hp
    · rw [← Option.some.inj hq]
      exact hg

theorem Effect.naming (he : Effect b.module b.point o ok m' p') (h : Naming b.module b.point f ns)
    (ho : o.Known b)
    (hfull : ∀ names, o = .setParams f names → (b.module.get f).arity ≤ names.length) :
    Naming m' p' f (o.record ok b f ns) := by
  cases he with
  | refused => exact h
  | declared => exact h.enlarged _ _
  | @renamed g names =>
    by_cases hg : f = g
    · subst hg
      have hlt : f < b.module.functions.length := ho f (List.mem_singleton_self f)
      refine .modify_self hlt ((h.holds hlt).setParams (hfull names rfl)) h.known ?_
      simpa using h.point
    · exact h.modify_of_ne hg _
  | @entered g =>
    have hlt : g < b.module.functions.length := ho g (List.mem_singleton_self g)
    have hrecord : (Operation.enter g).record true b f ns =
        if g = f then ns ++ [((b.module.get f).scope.register "entry").1] else ns := rfl
    have howner : ∀ q ∈ some (InsertionPoint.endOf g), q.owner = g := by
      intro q hq
      rw [← Option.some.inj hq]
      rfl
    rw [hrecord]
    by_cases hg : g = f
    · subst hg
      rw [if_pos rfl]
      refine .modify_self hlt (h.holds hlt).addBlock (fun q hq => howner q hq ▸ hlt)
        fun q hq _ => ?_
      exact ⟨(Option.some.inj hq).symm, by simp [IR.Function.addBlock]⟩
    · rw [if_neg hg]
      refine (h.modify_of_ne (Ne.symm hg) _).move (fun q hq => ?_) fun q hq => ?_
      · rw [Module.length_modify, howner q hq]
        exact hlt
      · rwa [howner q hq]
  | built hc => exact hc.naming h
  | @erased g => exact (h.erase g).leave g
  | @cleared g s hs =>
    have hrecord : (Operation.clear g).record true b f ns = if g = f then [] else ns := rfl
    rw [hrecord]
    by_cases hg : g = f
    · subst hg
      have hlt : g < b.module.functions.length := ho g (List.mem_singleton_self g)
      obtain ⟨t, ht, hholds⟩ := (h.holds hlt).dropped
      cases hs.symm.trans ht
      rw [if_pos rfl]
      refine .modify_self hlt hholds (h.leave g).known fun q hq he => ?_
      simpa [he] using (Option.mem_filter_iff.1 hq).2
    · rw [if_neg hg]
      exact (h.modify_of_ne (Ne.symm hg) _).leave g
  | @stripped g n p' hs hp =>
    have hrecord : (Operation.clear g).record false b f ns = if g = f then [] else ns := rfl
    rw [hrecord]
    by_cases hg : g = f
    · subst hg
      have hlt : g < b.module.functions.length := ho g (List.mem_singleton_self g)
      obtain ⟨t, ht, -⟩ := (h.holds hlt).dropped
      cases hs.symm.trans ht
    · rw [if_neg hg]
      have hnaming := h.modify_of_ne (Ne.symm hg) IR.Function.dropBlocks
      rcases hp with rfl | ⟨block, hpoint, rfl⟩
      · exact hnaming
      · refine hnaming.move (fun q hq => ?_) fun q hq => ?_
        · rw [← Option.some.inj hq]
          exact hnaming.known (.endOf g) hpoint
        · rw [← Option.some.inj hq]
          exact hg

end

/-! ### Runs -/

section

variable {f : FunctionId} {os : List Operation} {b : Backend} {ns : List String}

theorem Recorded.known (h : Recorded f os b ns) {o : Operation} (ho : o ∈ os) {g : FunctionId}
    (hg : g ∈ o.handles) : g < b.module.functions.length := by
  induction h with
  | start => cases ho
  | @operated os b ns last h hlast ih =>
    have hle := (last.effect b).length_le
    rcases List.mem_append.1 ho with ho | ho
    · exact (ih ho).trans_le hle
    · rw [List.mem_singleton.1 ho] at hg
      exact (hlast g hg).trans_le hle

theorem Recorded.naming (h : Recorded f os b ns)
    (hfull : ∀ names, .setParams f names ∈ os → (b.module.get f).arity ≤ names.length) :
    Naming b.module b.point f ns := by
  induction h with
  | start => exact ⟨nofun, fun _ => rfl, nofun, nofun⟩
  | @operated os b ns o h ho ih =>
    have harity : ∀ names, .setParams f names ∈ os ++ [o] → f < b.module.functions.length →
        (b.module.get f).arity ≤ names.length := by
      intro names hnames hlt
      rw [← (o.effect b).arity hlt]
      exact hfull names hnames
    have hnaming := ih fun names hnames =>
      harity names (List.mem_append_left _ hnames) (h.known hnames (List.mem_singleton_self f))
    refine (o.effect b).naming hnaming ho fun names hnames => ?_
    subst hnames
    exact harity names (List.mem_append_right _ (List.mem_singleton_self _))
      (ho f (List.mem_singleton_self f))

/-- The names of the parameters, the blocks and the instructions of a function are distinct and in
use after any operations that give its parameters as many names as there are of them. Its body can
be taken back, and without a body its parameters take the identifiers they are given. -/
theorem local_names_distinct (h : Recorded f os b ns) (hf : f < b.module.functions.length)
    (hfull : ∀ names, .setParams f names ∈ os → (b.module.get f).arity ≤ names.length) :
    ((b.module.get f).params ++ ns).Nodup ∧
      (∀ n ∈ (b.module.get f).params ++ ns, n ∈ (b.module.get f).scope.used) ∧
      (b.module.get f).bodyNames.Sublist ns ∧
      ns.length = (b.module.get f).blocks.length + (b.module.get f).instructions.length ∧
      (∃ b', Backend.clear f b = .ok () b') ∧
      ((b.module.get f).hasBody = false → ∀ names : List String,
        names.length = (b.module.get f).arity → names.Nodup → (∀ n ∈ names, Identifier n) →
        (((Operation.setParams f names).after b).module.get f).params = names) := by
  have hholds := (h.naming hfull).holds hf
  have hlocal := (b.module.get f).localNames_labelled ns
  obtain ⟨s, hs, -⟩ := hholds.dropped
  obtain ⟨j, hclear⟩ := Backend.clear_run hs
  refine ⟨hlocal ▸ hholds.named.nodup, hlocal ▸ hholds.named.used, hholds.written, hholds.length,
    ⟨_, hclear⟩, fun hb names hlength hd hn => ?_⟩
  have hafter : ((Operation.setParams f names).after b).module =
      b.module.modify f (·.setParams names) := rfl
  have hblocks : (b.module.get f).blocks = [] := IR.Function.blocks_eq_nil (by simp [hb])
  rw [hafter, Module.get_modify_self _ hf]
  exact hholds.params_setParams hblocks hlength.symm hd hn

theorem local_names_distinct_wanted :
    ∃ b ns, Recorded 0 [.declare "f" 2, .setParams 0 ["b", "a"], .setParams 0 ["a", "b"], .enter 0,
        .build (.ret (.const 1)), .clear 0, .setParams 0 ["addtmp", "addtmp"], .enter 0,
        .build (.arith .add (.param 0 0) (.param 0 1)),
        .build (.ret (.named "addtmp.2" .i32))] b ns ∧
      (b.module.get 0).params = ["addtmp", "addtmp.1"] ∧ ns = ["entry", "addtmp.2", ".1"] ∧
      ((b.module.get 0).params ++ ns).Nodup ∧
      (∀ n ∈ (b.module.get 0).params ++ ns, n ∈ (b.module.get 0).scope.used) ∧
      ∃ b', Backend.clear 0 b = .ok () b' := by
  have h := ((((((((((Recorded.start (f := 0) "m" "t").operated
    (o := .declare "f" 2) (by decide)).operated
    (o := .setParams 0 ["b", "a"]) (by decide)).operated
    (o := .setParams 0 ["a", "b"]) (by decide)).operated
    (o := .enter 0) (by decide)).operated
    (o := .build (.ret (.const 1))) (by decide)).operated
    (o := .clear 0) (by decide)).operated
    (o := .setParams 0 ["addtmp", "addtmp"]) (by decide)).operated
    (o := .enter 0) (by decide)).operated
    (o := .build (.arith .add (.param 0 0) (.param 0 1))) (by decide)).operated
    (o := .build (.ret (.named "addtmp.2" .i32))) (by decide)
  refine ⟨_, _, h, by decide +kernel, by decide +kernel, ?_⟩
  obtain ⟨hd, hused, -, -, hclear, -⟩ := local_names_distinct h (by decide +kernel) (by
    intro names hnames
    have hlength : names.length = 2 := by
      simp at hnames
      rcases hnames with rfl | rfl | rfl <;> rfl
    rw [hlength]
    decide +kernel)
  exact ⟨hd, hused, hclear⟩

end

end ExprCompiler
