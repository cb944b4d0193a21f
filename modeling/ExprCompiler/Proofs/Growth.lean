import ExprCompiler.Proofs.Outcome

/-!
# How a module grows

Units that succeed add declarations and bodies to a module, and nothing else
is ever added to it. Whatever happens afterwards, the code of a registered
function is the code of the latest definition of its name.
-/

namespace ExprCompiler

open IR (Block Function FunctionId Instruction Module Operand Scope Typing)

def latest (us : List TopLevel) (n : String) : Option Definition :=
  us.reverse.findSome? fun
    | .definition d => if d.name = n then some d else none
    | .external _ => none

@[simp] theorem latest_append_definition (us : List TopLevel) (d : Definition) (n : String) :
    latest (us ++ [.definition d]) n = if d.name = n then some d else latest us n := by
  simp only [latest, List.reverse_append, List.reverse_singleton, List.singleton_append,
    List.findSome?_cons]
  by_cases hn : d.name = n <;> simp [hn]

@[simp] theorem latest_append_external (us : List TopLevel) (p : Prototype) (n : String) :
    latest (us ++ [.external p]) n = latest us n := by
  simp [latest]

theorem mem_of_latest {us : List TopLevel} {n : String} {d : Definition} (h : latest us n = some d) :
    .definition d ∈ us ∧ d.name = n := by
  obtain ⟨u, hu, hd⟩ := List.exists_of_findSome?_eq_some h
  cases u with
  | external p => cases hd
  | definition e =>
    simp only at hd
    split at hd
    · cases hd
      exact ⟨List.mem_reverse.1 hu, ‹_›⟩
    · cases hd

namespace IR

section

variable {m m' : Module} {f : FunctionId} {known : Typing}

theorem Operand.Available.of_param {t : Ty} {g : FunctionId} {i : Nat}
    (h : (Operand.param g i).Available m f known t) : g = f ∧ i < (m.get f).arity := h.2

theorem Instruction.Orderly.of_param {i : Instruction} {g : FunctionId} {k : Nat}
    (h : i.Orderly m f known) (hi : .param g k ∈ i.operands) : g = f ∧ k < (m.get f).arity := by
  have huses : ∀ x ∈ i.operands, ∃ t, (x, t) ∈ i.uses := by
    intro x hx
    cases i <;> simp_all [Instruction.operands, Instruction.uses] <;> grind
  obtain ⟨t, ht⟩ := huses _ hi
  exact (h.uses _ ht).of_param

theorem Module.Straight.of_param {is : List Instruction} (h : m.Straight f known is) :
    ∀ i ∈ is, ∀ g k, .param g k ∈ i.operands → g = f ∧ k < (m.get f).arity := by
  induction is generalizing known with
  | nil => simp
  | cons i is ih =>
    intro j hj g k hk
    rcases List.mem_cons.1 hj with rfl | hj
    · exact h.1.of_param hk
    · exact ih h.2 j hj g k hk

theorem Module.sealBlock_congr {b : Block} (hparams : (m'.get f).params = (m.get f).params)
    (h : ∀ i ∈ b.instructions, ∀ g k, .param g k ∈ i.operands → g = f) :
    m'.sealBlock b = m.sealBlock b := by
  simp only [sealBlock, Block.mk.injEq, true_and]
  refine List.map_congr_left fun i hi => Instruction.mapOperands_congr fun x hx => ?_
  cases x with
  | param g k =>
    have hg := h i hi g k hx
    subst hg
    simp only [sealOperand, paramName, hparams]
  | const v => rfl
  | named n t => rfl

end

end IR

namespace Generator

open IR (resultNames)

structure Coded (m : Module) (f : FunctionId) (d : Definition) : Prop where
  nodup : d.prototype.params.Nodup
  arity : d.prototype.params.length = (m.get f).arity
  code : ∃ s label y,
    emit ⟨signature m, paramScope f (m.get f).arity d.prototype.params⟩ d.body s = .ok y ∧
      ((m.get f).blocks = [⟨label, y.code ++ [.ret y.value]⟩] ∨
        (m.get f).blocks = [m.sealBlock ⟨label, y.code ++ [.ret y.value]⟩])

/-- What every module is like that units have been generated into: all is in order, and the
registered functions have the code of their latest definitions. -/
structure Sound (us : List TopLevel) (m : Module) : Prop where
  indexed : m.Indexed
  named : ∀ f ∈ m.registered, (m.get f).Named
  coded : ∀ f ∈ m.registered, (m.get f).hasBody = true →
    ∃ d, latest us (m.get f).name = some d ∧ Coded m f d

theorem mem_paramScope {f : FunctionId} {arity : Nat} {names : List String} :
    ∀ p ∈ paramScope f arity names, ∃ i, p.2 = .param f i ∧ i < arity := by
  intro p hp
  obtain ⟨i, hi, he⟩ := List.mem_map.1 (List.of_mem_zip (List.mem_reverse.1 hp)).2
  exact ⟨i, he.symm, List.mem_range.1 hi⟩

theorem signature_eq_some {m : Module} {n : String} {g : FunctionId} {k : Nat} :
    signature m n = some (g, k) ↔ m.lookup n = some g ∧ (m.get g).arity = k := by
  simp [signature]

section

variable {m m' : Module} {f : FunctionId} {d : Definition}

theorem straight_body (hi : m.Indexed) {names : List String} {e : Expr} {s : Scope}
    {y : Emitted Operand}
    (h : emit ⟨signature m, paramScope f (m.get f).arity names⟩ e s = .ok y) (known : Typing) :
    m.Straight f known (y.code ++ [.ret y.value]) := by
  have hstraight := (straight_emit (m := m) (f := f) mem_paramScope (fun n g k hg => by
    obtain ⟨hl, ha⟩ := signature_eq_some.1 hg
    rw [hi.name_of_lookup hl]
    exact ⟨hl, ha.symm⟩)).1 e s y h known
  exact IR.straight_append.2 ⟨hstraight.1, hstraight.2, trivial⟩

theorem Coded.sealBlock_eq (hi : m.Indexed) {names : List String} {e : Expr} {s : Scope}
    {y : Emitted Operand} (h : emit ⟨signature m, paramScope f (m.get f).arity names⟩ e s = .ok y)
    (label : String) (hparams : (m'.get f).params = (m.get f).params) :
    m'.sealBlock ⟨label, y.code ++ [.ret y.value]⟩ = m.sealBlock ⟨label, y.code ++ [.ret y.value]⟩ :=
  Module.sealBlock_congr hparams fun i hi' g k hk =>
    ((straight_body hi h []).of_param i hi' g k hk).1

theorem Coded.wellFormed (hi : m.Indexed) (hn : (m.get f).Named) (h : Coded m f d) :
    m.WellFormed f := by
  refine ⟨hn.nodup, Or.inr ?_⟩
  obtain ⟨s, label, y, hy, hb | hb⟩ := h.code
  · have hret := (isRet_emit _).1 _ _ _ hy
    exact ⟨label, y.code, y.value, hb, hret, straight_body hi hy _⟩
  · have hret := (isRet_emit _).1 _ _ _ hy
    refine ⟨label, y.code.map (·.mapOperands m.sealOperand), m.sealOperand y.value, ?_, ?_, ?_⟩
    · simp [hb, Module.sealBlock, Instruction.mapOperands]
    · intro i hi
      obtain ⟨j, hj, rfl⟩ := List.mem_map.1 hi
      simpa using hret j hj
    · have hs := IR.straight_map_seal (straight_body hi hy (m.get f).paramTyping)
        (List.Subset.refl _)
      simpa [Instruction.mapOperands] using hs

theorem Sound.wellFormed {us : List TopLevel} (h : Sound us m) (hf : f ∈ m.registered) : m.WellFormed f := by
  by_cases hb : (m.get f).hasBody = true
  · obtain ⟨d, -, hcoded⟩ := h.coded f hf hb
    exact hcoded.wellFormed h.indexed (h.named f hf)
  · have hblocks : (m.get f).blocks = [] := Function.blocks_eq_nil hb
    exact ⟨(h.named f hf).nodup, Or.inl hblocks⟩

/-! ### What keeps the code of a function -/

structure Carried (m m' : Module) (f : FunctionId) : Prop where
  params : (m'.get f).params = (m.get f).params
  blocks : (m'.get f).blocks = (m.get f).blocks ∨
    (m'.get f).blocks = (m.get f).blocks.map m.sealBlock
  calls : ∀ n c, c ∈ (m.get f).callees → m.lookup n = some c →
    m'.lookup n = some c ∧ (m'.get c).arity = (m.get c).arity

theorem Carried.hasBody (h : Carried m m' f) : (m'.get f).hasBody = (m.get f).hasBody := by
  rcases h.blocks with hb | hb <;> simp [Function.hasBody, hb]

theorem Carried.arity (h : Carried m m' f) : (m'.get f).arity = (m.get f).arity := by
  simp only [Function.arity, h.params]

theorem Coded.callees_eq {label : String} {y : Emitted Operand}
    (hb : (m.get f).blocks = [⟨label, y.code ++ [.ret y.value]⟩] ∨
      (m.get f).blocks = [m.sealBlock ⟨label, y.code ++ [.ret y.value]⟩]) :
    (m.get f).callees = y.code.filterMap Instruction.callee? := by
  have hret : Instruction.callee? (.ret y.value) = none := rfl
  rcases hb with hb | hb
  · simp [Function.callees, Function.instructions, hb, hret]
  · simp [Function.callees, Function.instructions, hb, Module.sealBlock, List.filterMap_map, hret]

theorem Coded.carried (hi : m.Indexed) (h : Coded m f d) (hc : Carried m m' f) :
    Coded m' f d := by
  obtain ⟨s, label, y, hy, hb⟩ := h.code
  have hcallees := Coded.callees_eq hb
  have hy' : emit ⟨signature m', paramScope f (m'.get f).arity d.prototype.params⟩ d.body s =
      .ok y := by
    rw [hc.arity]
    have hsite : (⟨signature m', paramScope f (m.get f).arity d.prototype.params⟩ : Site).params =
        (⟨signature m, paramScope f (m.get f).arity d.prototype.params⟩ : Site).params := rfl
    refine (emit_congr hsite).1 _ _ _ hy fun n g k hg hs => ?_
    obtain ⟨hl, ha⟩ := signature_eq_some.1 hs
    obtain ⟨hl', ha'⟩ := hc.calls n g (by rwa [hcallees]) hl
    exact signature_eq_some.2 ⟨hl', ha'.trans ha⟩
  have hseal := Coded.sealBlock_eq hi hy label hc.params
  refine ⟨h.nodup, h.arity.trans hc.arity.symm, s, label, y, hy', ?_⟩
  rcases hb with hb | hb <;> rcases hc.blocks with hk | hk
  · exact Or.inl (hk.trans hb)
  · exact Or.inr (by rw [hk, hb, hseal]; rfl)
  · exact Or.inr (by rw [hk, hb, hseal])
  · exact Or.inr (by rw [hk, hb, hseal]; simp [Module.sealBlock_sealBlock])

theorem Sound.transfer {us : List TopLevel} (h : Sound us m) (hi : m'.Indexed)
    (hn : ∀ f ∈ m'.registered, (m'.get f).Named)
    (hc : ∀ f ∈ m'.registered, (m'.get f).hasBody = true →
      f ∈ m.registered ∧ (m'.get f).name = (m.get f).name ∧ Carried m m' f) : Sound us m' := by
  refine ⟨hi, hn, fun f hf hb => ?_⟩
  obtain ⟨hreg, hname, hcarried⟩ := hc f hf hb
  obtain ⟨d, hd, hcoded⟩ := h.coded f hreg (hcarried.hasBody.symm.trans hb)
  exact ⟨d, hname ▸ hd, hcoded.carried h.indexed hcarried⟩

theorem Carried.of_get_eq (hget : m'.get f = m.get f)
    (hl : ∀ n c, m.lookup n = some c → m'.lookup n = some c ∧ (m'.get c).arity = (m.get c).arity) :
    Carried m m' f :=
  ⟨by rw [hget], Or.inl (by rw [hget]), fun n c _ hc => hl n c hc⟩

/-! ### The ways a module changes -/

variable {us : List TopLevel}

theorem Sound.empty (name triple : String) : Sound [] (.empty name triple) :=
  ⟨Module.indexed_empty name triple, by simp [Module.empty, Module.registered],
    by simp [Module.empty, Module.registered]⟩

theorem Sound.sealAll (h : Sound us m) (fs : List FunctionId) : Sound us (m.sealAll fs) := by
  have hget (g : FunctionId) := Module.get_sealAll m fs g
  refine h.transfer (h.indexed.sealAll fs) ?_ ?_
  · intro f hf
    rw [Module.registered_sealAll] at hf
    rw [hget]
    split
    · exact Module.named_sealed m (h.named f hf)
    · exact h.named f hf
  · intro f hf hb
    rw [Module.registered_sealAll] at hf
    refine ⟨hf, ?_, ?_, ?_, fun n c hc hl => ⟨by simpa using hl, ?_⟩⟩
    · rw [hget]; split <;> rfl
    · rw [hget]; split <;> rfl
    · rw [hget]
      split
      · exact Or.inr rfl
      · exact Or.inl rfl
    · rw [hget]; split <;> rfl

theorem Sound.stored (h : Sound us m) (x : Function) : Sound us (m.stored x) := by
  have hget {g : FunctionId} (hg : g ∈ m.registered) : (m.stored x).get g = m.get g :=
    Module.get_stored_of_lt (h.indexed.lt_of_mem hg)
  have hi : (m.stored x).Indexed := by
    refine ⟨h.indexed.nodup, fun p hp => ?_, fun p hp => ?_, h.indexed.used, h.indexed.ne_empty⟩
    · rw [Module.length_stored]
      exact Nat.lt_succ_of_lt (h.indexed.inStore p hp)
    · rw [hget (List.mem_map.2 ⟨p, hp, rfl⟩)]
      exact h.indexed.named p hp
  refine h.transfer hi ?_ ?_
  · intro f hf
    rw [hget hf]
    exact h.named f hf
  · intro f hf hb
    refine ⟨hf, by rw [hget hf], .of_get_eq (hget hf) fun n c hl => ⟨hl, ?_⟩⟩
    rw [hget (Module.mem_registered_of_lookup hl)]

theorem Sound.enlarged (h : Sound us m) {k : Function} (hfree : k.name ∉ m.scope.used)
    (hk : k.Named) (hb : k.blocks = []) : Sound us (m.enlarged k) := by
  have hlt {g : FunctionId} (hg : g ∈ m.registered) : (m.enlarged k).get g = m.get g :=
    Module.get_enlarged_of_lt (h.indexed.lt_of_mem hg)
  have hcases {g : FunctionId} (hg : g ∈ (m.enlarged k).registered) :
      g ∈ m.registered ∨ (m.enlarged k).get g = k := by
    rw [Module.registered_enlarged, List.mem_append, List.mem_singleton] at hg
    rcases hg with hg | rfl
    · exact Or.inl hg
    · exact Or.inr (by simp)
  refine h.transfer (h.indexed.enlarged hfree) ?_ ?_
  · intro f hf
    rcases hcases hf with hf | hf
    · rw [hlt hf]
      exact h.named f hf
    · rwa [hf]
  · intro f hf hbody
    rcases hcases hf with hf | hf
    · refine ⟨hf, by rw [hlt hf], .of_get_eq (hlt hf) fun n c hl => ⟨?_, ?_⟩⟩
      · rw [Module.lookup_enlarged, hl]
        rfl
      · rw [hlt (Module.mem_registered_of_lookup hl)]
    · rw [hf] at hbody
      simp [Function.hasBody, hb] at hbody

theorem Sound.modify (h : Sound us m) {k : Function → Function} (hname : ∀ x, (k x).name = x.name)
    (harity : ∀ x, (k x).arity = x.arity) (hb : (k (m.get f)).blocks = [])
    (hn : (k (m.get f)).Named) : Sound us (m.modify f k) := by
  have hself (hf : f ∈ m.registered) : (m.modify f k).get f = k (m.get f) :=
    Module.get_modify_self k (h.indexed.lt_of_mem hf)
  refine h.transfer (h.indexed.modify hname) ?_ ?_
  · intro g hg
    rw [Module.registered_modify] at hg
    by_cases hgf : g = f
    · subst hgf
      rwa [hself hg]
    · rw [Module.get_modify_of_ne k hgf]
      exact h.named g hg
  · intro g hg hbody
    rw [Module.registered_modify] at hg
    by_cases hgf : g = f
    · subst hgf
      rw [hself hg] at hbody
      simp [Function.hasBody, hb] at hbody
    · have hget := Module.get_modify_of_ne (m := m) k hgf
      refine ⟨hg, by rw [hget], .of_get_eq hget fun n c hl => ⟨by simpa using hl, ?_⟩⟩
      exact Module.map_get_modify Function.arity harity f c

theorem Sound.setParams (h : Sound us m) (hf : f ∈ m.registered) (hb : (m.get f).blocks = [])
    {names : List String} (ha : (m.get f).arity = names.length) :
    Sound us (m.modify f (·.setParams names)) := by
  have hnamed := (h.named f hf).setParams (Nat.le_of_eq ha)
  exact h.modify (by simp) (by simp) (by simpa using hb) hnamed

theorem Sound.erase (h : Sound us m)
    (hu : ∀ g ∈ m.registered, g ≠ f → f ∉ (m.get g).callees) : Sound us (m.erase f) := by
  by_cases hf : m.lookup (m.get f).name = some f
  · refine h.transfer (h.indexed.erase f) ?_ ?_
    · intro g hg
      rw [Module.get_erase]
      exact h.named g (Module.mem_registered_of_erase hg)
    · intro g hg hb
      have hgm := Module.mem_registered_of_erase hg
      have hgf : g ≠ f := by
        rintro rfl
        have hl := (h.indexed.erase g).lookup_name hg
        rw [Module.get_erase, Module.lookup_erase_self hf] at hl
        cases hl
      refine ⟨hgm, by simp, by simp, Or.inl (by simp), fun n c hc hl => ⟨?_, by simp⟩⟩
      rw [Module.lookup_erase_of_ne, hl]
      rintro rfl
      rw [hf] at hl
      cases hl
      exact hu g hgm hgf hc
  · have he : m.erase f = m := by simp [Module.erase, hf]
    rwa [he]

theorem Sound.introduce {p : Prototype} (h : Sound us m) (hp : introduce m p = .ok (f, m')) :
    Sound us m' := by
  obtain ⟨-, ⟨hl, hfree, rfl, rfl⟩ | ⟨hl, ha, rfl⟩⟩ := introduce_cases hp
  · have hlen : (Function.declared p.name p.arity).params.length = p.params.length :=
      Function.arity_declared p.name p.arity
    exact h.enlarged (by simpa using hfree)
      ((Function.named_declared _ _).setParams (Nat.le_of_eq hlen)) (by simp)
  · by_cases hb : (m.get f).hasBody = true
    · rwa [if_pos hb]
    · rw [if_neg hb]
      have hreg : f ∈ m.registered := Module.mem_registered_of_lookup hl
      exact h.setParams hreg (Function.blocks_eq_nil hb) ha

theorem emitBody_eq_ok {t : Scope} {b : Block} (h : emitBody m f d = .ok (t, b)) :
    ∃ y, emit ⟨signature m, paramScope f (m.get f).arity d.prototype.params⟩ d.body
        ((m.get f).scope.register "entry").2 = .ok y ∧
      t = (y.scope.register "").2 ∧
      b = ⟨((m.get f).scope.register "entry").1, y.code ++ [.ret y.value]⟩ := by
  unfold emitBody at h
  simp only at h
  split at h
  · cases h
  · cases h
    exact ⟨_, ‹_›, rfl, rfl⟩

theorem named_body (hn : (m.get f).Named) (hb : (m.get f).blocks = []) {t : Scope} {b : Block}
    (he : emitBody m f d = .ok (t, b)) :
    ({ m.get f with scope := t, blocks := [b] } : Function).Named := by
  obtain ⟨y, hy, rfl, rfl⟩ := emitBody_eq_ok he
  have hparams : (m.get f).localNames = (m.get f).params := by
    simp [Function.localNames_eq, Function.bodyNames, hb]
  have hfresh := ((Scope.Fresh.register (m.get f).scope "entry").trans
    ((fresh_emit _).1 _ _ _ hy)).trans (Scope.Fresh.register y.scope "")
  have hlocal : ({ m.get f with scope := (y.scope.register "").2, blocks :=
        [⟨((m.get f).scope.register "entry").1, y.code ++ [.ret y.value]⟩] } : Function).localNames =
      (m.get f).params ++ (((m.get f).scope.register "entry").1 :: resultNames y.code) := by
    have hret : resultNames [.ret y.value] = [] := rfl
    simp [Function.localNames_eq, Function.bodyNames, hret]
  have hnew := (List.nodup_append.1 hfresh.nodup).1
  have hused : ∀ n ∈ (m.get f).params, n ∈ (m.get f).scope.used := by
    rw [← hparams]
    exact hn.used
  have hfree : ∀ n ∈ ((m.get f).scope.register "entry").1 :: resultNames y.code,
      n ∉ (m.get f).scope.used := fun n hm => hfresh.free n (List.mem_append_left _ hm)
  refine ⟨?_, ?_, (hfresh.used _).2 (Or.inr hn.empty_used), ?_⟩
  · rw [hlocal]
    refine List.nodup_append.2 ⟨?_, hnew, ?_⟩
    · rw [← hparams]
      exact hn.nodup
    · rintro n hm k hk rfl
      exact hfree n hk (hused n hm)
  · intro n hm
    rw [hlocal] at hm
    rw [hfresh.used]
    rcases List.mem_append.1 hm with hm | hm
    · exact Or.inr (hused n hm)
    · exact Or.inl (List.mem_append_left _ hm)
  · intro n hm
    rw [hlocal] at hm
    rcases List.mem_append.1 hm with hm | hm
    · exact hn.ne_empty n (by rwa [hparams])
    · rintro rfl
      exact hfree "" hm hn.empty_used

theorem signature_withBody (m : Module) (f : FunctionId) (t : Scope) (bs : List Block) :
    signature (m.withBody f t bs) = signature m := by
  funext n
  simp [signature]

theorem Sound.withBody (h : Sound us m) (hl : m.lookup d.name = some f)
    (hb : (m.get f).blocks = []) (ha : (m.get f).arity = d.prototype.arity)
    (hd : d.prototype.params.Nodup) {t : Scope} {b : Block} (he : emitBody m f d = .ok (t, b)) :
    Sound (us ++ [.definition d]) (m.withBody f t [b]) := by
  have hreg : f ∈ m.registered := Module.mem_registered_of_lookup hl
  have hself : (m.withBody f t [b]).get f = { m.get f with scope := t, blocks := [b] } :=
    Module.get_withBody_self (h.indexed.lt_of_mem hreg) t [b]
  refine ⟨h.indexed.modify fun _ => rfl, ?_, ?_⟩
  · intro g hg
    by_cases hgf : g = f
    · subst hgf
      rw [hself]
      exact named_body (h.named g hreg) hb he
    · rw [Module.get_withBody_of_ne hgf]
      exact h.named g hg
  · intro g hg hbody
    by_cases hgf : g = f
    · subst hgf
      have hname : (m.get g).name = d.name := h.indexed.name_of_lookup hl
      obtain ⟨y, hy, -, rfl⟩ := emitBody_eq_ok he
      refine ⟨d, by simp [hname], hd, ?_, ((m.get g).scope.register "entry").2,
        ((m.get g).scope.register "entry").1, y, ?_, Or.inl (by rw [hself])⟩
      · rw [Module.arity_get_withBody]
        exact ha.symm
      · rw [signature_withBody, Module.arity_get_withBody]
        exact hy
    · have hget : (m.withBody f t [b]).get g = m.get g := Module.get_withBody_of_ne hgf t [b]
      have hgm : g ∈ m.registered := hg
      rw [hget] at hbody ⊢
      obtain ⟨e, hlatest, hcoded⟩ := h.coded g hgm hbody
      have hne : d.name ≠ (m.get g).name := by
        intro hn
        have hname : (m.get f).name = d.name := h.indexed.name_of_lookup hl
        exact hgf (h.indexed.eq_of_name_eq hgm hreg (hn.symm.trans hname.symm))
      refine ⟨e, by simpa [hne] using hlatest, hcoded.carried h.indexed (.of_get_eq hget ?_)⟩
      intro n c hc
      exact ⟨by simpa using hc, by simp⟩

def succeeded (us : List TopLevel) (u : TopLevel) : Option FunctionId → List TopLevel
  | some _ => us ++ [u]
  | none => us

/-- A unit keeps a module sound; its definition counts if it has succeeded. -/
theorem Sound.step {v : Verifier} {u : TopLevel} {r : Except CompileError FunctionId}
    (h : Sound us m) (hs : Step v m u r m') :
    Sound (succeeded us u r.toOption) m' := by
  cases r with
  | error e =>
    rcases hs.error_cases h.indexed h.named with
      ⟨rfl | ⟨x, fs, rfl⟩, -⟩ | ⟨d, f, s, fs, -, ht, hk, rfl⟩
    · exact h
    · exact (h.stored x).sealAll fs
    · have hreg : f ∈ m.registered := Module.mem_registered_of_lookup ht.lookup
      have hblocks : (m.get f).blocks = [] := Function.blocks_eq_nil (Bool.eq_false_iff.1 ht.bodiless)
      have hrenamed := h.setParams hreg hblocks ht.arity
      have hget : (m.modify f (·.setParams d.prototype.params)).get f =
          (m.get f).setParams d.prototype.params :=
        Module.get_modify_self _ (h.indexed.lt_of_mem hreg)
      obtain ⟨s', hs', hnamed⟩ := (hrenamed.named f hreg).freshScope
      rw [hget, hk] at hs'
      cases hs'
      exact (hrenamed.modify (k := fun x => { x with scope := s, blocks := [] }) (fun _ => rfl)
        (fun _ => rfl) rfl hnamed).sealAll fs
  | ok f =>
    cases hs with
    | declared hp =>
      have hm := h.introduce hp
      exact ⟨hm.indexed, hm.named, by simpa [succeeded, Except.toOption] using hm.coded⟩
    | defined hb hp he =>
      obtain ⟨-, hl, ha, -, hblocks⟩ := introduce_function h.indexed h.named hp
      have hd := (introduce_cases hp).1
      exact ((h.introduce hp).withBody hl (hblocks hb) ha hd he).sealAll _

theorem Step.lookup {v : Verifier} {u : TopLevel} (hs : Sound us m) (h : Step v m u (.ok f) m') :
    m'.lookup u.prototype.name = some f := by
  cases h with
  | declared hp => exact (introduce_function hs.indexed hs.named hp).2.1
  | defined hb hp he =>
    rw [Module.lookup_sealAll]
    exact (introduce_function hs.indexed hs.named hp).2.1

end

end Generator

end ExprCompiler
