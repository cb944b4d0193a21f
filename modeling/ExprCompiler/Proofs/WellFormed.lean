import ExprCompiler.Proofs.Emission

/-!
# Code in order

The code of a function is one block that ends in its only return. Every value
in it is an integer, a parameter of the function, or the result of an earlier
instruction, and every call goes to the function that is registered under its
name. A check of a module finds no fault in such code.
-/

namespace ExprCompiler

open IR (Arith Block Function FunctionId Instruction Module Operand Scope Ty Typing)

namespace IR

def Operand.Available (m : Module) (f : FunctionId) (known : Typing) (t : Ty) : Operand → Prop
  | .const _ => t = .i32
  | .param g i => t = .i32 ∧ g = f ∧ i < (m.get f).arity
  | .named n u => u = t ∧ (n, t) ∈ known

def Instruction.Orderly (m : Module) (f : FunctionId) (known : Typing) : Instruction → Prop
  | .arith _ _ a b => a.Available m f known .i32 ∧ b.Available m f known .i32
  | .less _ a b => a.Available m f known .i32 ∧ b.Available m f known .i32
  | .widen _ a => a.Available m f known .i1
  | .call _ c xs => m.lookup (m.get c).name = some c ∧ xs.length = (m.get c).arity ∧
      ∀ x ∈ xs, x.Available m f known .i32
  | .ret a => a.Available m f known .i32

def typingAfter (known : Typing) (is : List Instruction) : Typing :=
  (is.filterMap Instruction.result?).reverse ++ known

def Module.Straight (m : Module) (f : FunctionId) : Typing → List Instruction → Prop
  | _, [] => True
  | known, i :: is => i.Orderly m f known ∧ m.Straight f (i.result?.toList ++ known) is

section

variable {m : Module} {f : FunctionId} {known known' : Typing}

theorem Operand.Available.mono {t : Ty} {x : Operand} (h : x.Available m f known t)
    (hk : known ⊆ known') : x.Available m f known' t := by
  cases x with
  | const v => exact h
  | param g i => exact h
  | named n u => exact ⟨h.1, hk h.2⟩

theorem Operand.Available.type_eq {t : Ty} {x : Operand} (h : x.Available m f known t) :
    x.type = t := by
  cases x with
  | const v => exact h.symm
  | param g i => exact h.1.symm
  | named n u => exact h.1

theorem typingAfter_cons (known : Typing) (i : Instruction) (is : List Instruction) :
    typingAfter known (i :: is) = typingAfter (i.result?.toList ++ known) is := by
  unfold typingAfter
  rw [List.filterMap_cons]
  cases i.result? with
  | none => rfl
  | some r => simp

theorem typingAfter_append (known : Typing) (is js : List Instruction) :
    typingAfter known (is ++ js) = typingAfter (typingAfter known is) js := by
  simp [typingAfter]

theorem subset_typingAfter (known : Typing) (is : List Instruction) :
    known ⊆ typingAfter known is :=
  List.subset_append_right _ _

theorem straight_append {is js : List Instruction} :
    m.Straight f known (is ++ js) ↔
      m.Straight f known is ∧ m.Straight f (typingAfter known is) js := by
  induction is generalizing known with
  | nil => simp [Module.Straight, typingAfter]
  | cons i is ih => simp only [List.cons_append, Module.Straight, ih, typingAfter_cons, and_assoc]

theorem Module.Straight.lookup_callee {is : List Instruction} (h : m.Straight f known is) :
    ∀ c ∈ is.filterMap Instruction.callee?, m.lookup (m.get c).name = some c := by
  induction is generalizing known with
  | nil => simp
  | cons i is ih =>
    intro c hc
    obtain ⟨j, hj, hjc⟩ := List.mem_filterMap.1 hc
    rcases List.mem_cons.1 hj with rfl | hj
    · cases j with
      | call r g xs =>
        cases hjc
        exact h.1.1
      | _ => cases hjc
    · exact ih h.2 c (List.mem_filterMap.2 ⟨j, hj, hjc⟩)

/-! ### Sealing -/

theorem Operand.Available.sealOperand {t : Ty} {x : Operand} (h : x.Available m f known t)
    (hk : (m.get f).paramTyping ⊆ known) : (m.sealOperand x).Available m f known t := by
  cases x with
  | const v => exact h
  | named n u => exact h
  | param g i =>
    obtain ⟨ht, rfl, hi⟩ := h
    have hget : m.paramName g i = (m.get g).params[i] := by
      simp [Module.paramName, List.getElem?_eq_getElem hi]
    refine ⟨ht.symm, hk ?_⟩
    rw [ht, hget]
    exact List.mem_map.2 ⟨_, List.getElem_mem hi, rfl⟩

theorem Instruction.Orderly.mapOperands {i : Instruction} (h : i.Orderly m f known)
    (hk : (m.get f).paramTyping ⊆ known) : (i.mapOperands m.sealOperand).Orderly m f known := by
  cases i with
  | arith op r a b => exact ⟨h.1.sealOperand hk, h.2.sealOperand hk⟩
  | less r a b => exact ⟨h.1.sealOperand hk, h.2.sealOperand hk⟩
  | widen r a => exact Operand.Available.sealOperand h hk
  | ret a => exact Operand.Available.sealOperand h hk
  | call r c xs =>
    refine ⟨h.1, by simpa using h.2.1, fun x hx => ?_⟩
    obtain ⟨y, hy, rfl⟩ := List.mem_map.1 hx
    exact (h.2.2 y hy).sealOperand hk

theorem straight_map_seal {is : List Instruction} (h : m.Straight f known is)
    (hk : (m.get f).paramTyping ⊆ known) :
    m.Straight f known (is.map (·.mapOperands m.sealOperand)) := by
  induction is generalizing known with
  | nil => trivial
  | cons i is ih =>
    refine ⟨h.1.mapOperands hk, ?_⟩
    rw [Instruction.result?_mapOperands (Module.type_sealOperand m)]
    exact ih h.2 fun p hp => List.mem_append_right _ (hk hp)

/-! ### Checking -/

theorem lookup_of_mem_of_nodup {β : Type} {known : List (String × β)} {n : String} {t : β}
    (hd : (known.map Prod.fst).Nodup) (h : (n, t) ∈ known) : known.lookup n = some t := by
  induction known with
  | nil => cases h
  | cons p known ih =>
    obtain ⟨k, u⟩ := p
    obtain ⟨hk, hd⟩ := List.nodup_cons.1 hd
    rcases List.mem_cons.1 h with he | hmem
    · cases he
      simp
    · have hne : (n == k) = false := by
        rw [beq_eq_false_iff_ne]
        rintro rfl
        exact hk (List.mem_map.2 ⟨_, hmem, rfl⟩)
      rw [List.lookup_cons, hne]
      exact ih hd hmem

theorem useFault?_eq_none {name : String} {t : Ty} {x : Operand} (h : x.Available m f known t)
    (hk : (m.get f).paramTyping ⊆ known) (hd : (known.map Prod.fst).Nodup) :
    m.useFault? name known (x, t) = none := by
  have hs := h.sealOperand hk
  unfold Module.useFault?
  cases hx : m.sealOperand x with
  | const v => simp
  | param g i => simp
  | named n u =>
    rw [hx] at hs
    simp [lookup_of_mem_of_nodup hd hs.2]

theorem Instruction.Orderly.uses {i : Instruction} (h : i.Orderly m f known) :
    ∀ p ∈ i.uses, p.1.Available m f known p.2 := by
  intro p hp
  cases i with
  | arith op r a b =>
    obtain ⟨ha, hb⟩ := h
    simp only [Instruction.uses, ha.type_eq, List.mem_cons, List.not_mem_nil, or_false] at hp
    rcases hp with rfl | rfl
    · exact ha
    · exact hb
  | less r a b =>
    obtain ⟨ha, hb⟩ := h
    simp only [Instruction.uses, ha.type_eq, List.mem_cons, List.not_mem_nil, or_false] at hp
    rcases hp with rfl | rfl
    · exact ha
    · exact hb
  | widen r a =>
    have ha : a.Available m f known .i1 := h
    simp only [Instruction.uses, ha.type_eq, List.mem_singleton] at hp
    exact hp ▸ ha
  | ret a =>
    have ha : a.Available m f known .i32 := h
    simp only [Instruction.uses, ha.type_eq, List.mem_singleton] at hp
    exact hp ▸ ha
  | call r c xs =>
    obtain ⟨a, ha, rfl⟩ := List.mem_map.1 hp
    have h := h.2.2 a ha
    rwa [← h.type_eq] at h

theorem sequenceFault?_eq_none (name : String) (present : List String) {is : List Instruction}
    (h : m.Straight f known is) (hk : (m.get f).paramTyping ⊆ known)
    (hd : (known.map Prod.fst ++ resultNames is).Nodup)
    (hp : ∀ c ∈ is.filterMap Instruction.callee?, (m.get c).name ∈ present) :
    m.sequenceFault? name present known is = none := by
  induction is generalizing known with
  | nil => rfl
  | cons i is ih =>
    have hcallee : m.calleeFault? name present i = none := by
      unfold Module.calleeFault?
      cases hc : i.callee? with
      | none => rfl
      | some c => simp [hp c (by simp [hc])]
    have huses : i.uses.findSome? (m.useFault? name known) = none := by
      rw [List.findSome?_eq_none_iff]
      intro p hp
      exact useFault?_eq_none (h.1.uses p hp) hk (List.nodup_append.1 hd).1
    have hrest : m.sequenceFault? name present (i.result?.toList ++ known) is = none := by
      apply ih h.2
      · exact fun p hp => List.mem_append_right _ (hk hp)
      · have hperm : ((i.result?.toList ++ known).map Prod.fst ++ resultNames is).Perm
            (known.map Prod.fst ++ resultNames (i :: is)) := by
          cases hr : i.result? with
          | none => simp [resultNames, hr]
          | some r => simpa [resultNames, hr] using List.perm_middle.symm
        exact hperm.nodup_iff.2 hd
      · exact fun c hc => hp c (by
          rw [List.filterMap_cons]
          split <;> simp_all)
    simp only [Module.sequenceFault?, Module.instructionFault?, hcallee, huses, hrest,
      Option.or_none]

theorem firstRepeated_eq_none {ns : List String} (h : ns.Nodup) : firstRepeated ns = none := by
  induction ns with
  | nil => rfl
  | cons n ns ih =>
    obtain ⟨hn, hd⟩ := List.nodup_cons.1 h
    simp only [firstRepeated, List.contains_iff_mem, hn, if_false, ih hd]

end

/-- A function with distinct names that is a declaration, or has one block in order. -/
structure Module.WellFormed (m : Module) (f : FunctionId) : Prop where
  distinct : (m.get f).localNames.Nodup
  body : (m.get f).blocks = [] ∨ ∃ label code x,
    (m.get f).blocks = [⟨label, code ++ [.ret x]⟩] ∧ (∀ i ∈ code, i.isRet = false) ∧
      m.Straight f (m.get f).paramTyping (code ++ [.ret x])

theorem returnFault?_eq_none (name label : String) {code : List Instruction} {x : Operand}
    (hcode : ∀ i ∈ code, i.isRet = false) (hx : x.type = .i32) :
    Block.returnFault? name ⟨label, code ++ [.ret x]⟩ = none := by
  have hany : code.reverse.any Instruction.isRet = false := by simpa using hcode
  simp only [Block.returnFault?, List.reverse_append, List.reverse_singleton, List.singleton_append,
    hany, hx, ne_eq, not_true_eq_false, if_false, Bool.false_eq_true]

theorem Module.WellFormed.functionFault?_eq_none {m : Module} {f : FunctionId}
    {present : List String} (h : m.WellFormed f)
    (hp : ∀ c ∈ (m.get f).callees, (m.get c).name ∈ present) :
    m.functionFault? present f = none := by
  have hrepeated := firstRepeated_eq_none h.distinct
  unfold functionFault?
  rcases h.body with hb | ⟨label, code, x, hb, hcode, hstraight⟩
  · simp [hrepeated, hb]
  · have hx : x.Available m f (typingAfter (m.get f).paramTyping code) .i32 :=
      (straight_append.1 hstraight).2.1
    have hnames : ((m.get f).paramTyping.map Prod.fst ++ resultNames (code ++ [.ret x])).Nodup := by
      have hd := h.distinct
      rw [Function.localNames_eq, Function.bodyNames, hb] at hd
      have hfst : (m.get f).paramTyping.map Prod.fst = (m.get f).params := by
        simp [Function.paramTyping, Function.comp_def]
      rw [hfst]
      refine hd.sublist (List.Sublist.append (List.Sublist.refl _) ?_)
      simp
    have hsequence := sequenceFault?_eq_none (m.get f).name present hstraight (List.Subset.refl _) hnames (by
        intro c hc
        exact hp c (by simpa [Function.callees, Function.instructions, hb] using hc))
    have hreturn := returnFault?_eq_none (m.get f).name label hcode hx.type_eq
    simp [hrepeated, hb, hreturn, hsequence]

/-- A check of well-formed functions that contain all that they call finds no fault. -/
theorem Module.faultOf?_eq_none {m : Module} {fs : List FunctionId}
    (h : ∀ f ∈ fs, m.WellFormed f)
    (hc : ∀ f ∈ fs, ∀ c ∈ (m.get f).callees, (m.get c).name ∈ fs.map fun f => (m.get f).name) :
    m.faultOf? fs = none := by
  rw [faultOf?, List.findSome?_eq_none_iff]
  intro f hf
  exact (h f hf).functionFault?_eq_none (hc f hf)

theorem Module.WellFormed.lookup_callee {m : Module} {f : FunctionId} (h : m.WellFormed f) :
    ∀ c ∈ (m.get f).callees, m.lookup (m.get c).name = some c := by
  intro c hc
  rcases h.body with hb | ⟨label, code, x, hb, -, hstraight⟩
  · simp [Function.callees, Function.instructions, hb] at hc
  · apply hstraight.lookup_callee
    simpa [Function.callees, Function.instructions, hb] using hc

theorem Module.fault?_eq_none {m : Module} (h : ∀ f ∈ m.registered, m.WellFormed f) :
    m.fault? = none := by
  apply faultOf?_eq_none h
  intro f hf c hc
  have hl := (h f hf).lookup_callee c hc
  exact List.mem_map.2 ⟨c, mem_registered_of_lookup hl, rfl⟩

end IR

namespace Generator

open IR (typingAfter typingAfter_append subset_typingAfter straight_append)

theorem straight_emitOperator {m : Module} {f : FunctionId} {op : String} {l r : Expr}
    {sp : Option Span} {a b : Operand} {s : Scope} {w : Emitted Operand} {known : Typing}
    (h : emitOperator op l r sp a b s = .ok w) (ha : a.Available m f known .i32)
    (hb : b.Available m f known .i32) :
    m.Straight f known w.code ∧ w.value.Available m f (typingAfter known w.code) .i32 := by
  obtain ⟨o, -, rfl⟩ | ⟨-, t, bit, n, -, -, -, rfl⟩ := emitOperator_eq_ok h
  · refine ⟨⟨⟨ha, hb⟩, trivial⟩, rfl, ?_⟩
    simp [typingAfter, IR.Instruction.result?, ha.type_eq]
  · refine ⟨⟨⟨ha, hb⟩, ⟨rfl, ?_⟩, trivial⟩, rfl, ?_⟩
    · simp [IR.Instruction.result?]
    · simp [typingAfter, IR.Instruction.result?]

/-- Emitted code is in order where the functions that it calls are, and its value is there at the
end. -/
theorem straight_emit {m : Module} {f : FunctionId} {c : Site}
    (hp : ∀ p ∈ c.params, ∃ i, p.2 = .param f i ∧ i < (m.get f).arity)
    (hc : ∀ n g k, c.callees n = some (g, k) → m.lookup (m.get g).name = some g ∧ k = (m.get g).arity) :
    (∀ e s y, emit c e s = .ok y → ∀ known, m.Straight f known y.code ∧
        y.value.Available m f (typingAfter known y.code) .i32) ∧
      (∀ es s y, emits c es s = .ok y → (∀ known, m.Straight f known y.code ∧
        ∀ x ∈ y.value, x.Available m f (typingAfter known y.code) .i32) ∧
        y.value.length = es.length) := by
  apply emit_induction
    (P := fun _ _ y => ∀ known, m.Straight f known y.code ∧
      y.value.Available m f (typingAfter known y.code) .i32)
    (Q := fun es _ y => (∀ known, m.Straight f known y.code ∧
      ∀ x ∈ y.value, x.Available m f (typingAfter known y.code) .i32) ∧ y.value.length = es.length)
  case number => exact fun v sp s known => ⟨trivial, rfl⟩
  case var =>
    intro n sp s x hx known
    obtain ⟨l₁, l₂, hl, -⟩ := List.lookup_eq_some_iff.1 hx
    obtain ⟨i, hi, hlt⟩ := hp (n, x) (by simp [hl])
    simp only at hi
    subst hi
    exact ⟨trivial, rfl, rfl, hlt⟩
  case operator =>
    intro op l r sp s y z w hy hz hw known
    have hyk := hy known
    have hzk := hz (typingAfter known y.code)
    have ha := hyk.2.mono (subset_typingAfter _ z.code)
    have hwk := straight_emitOperator hw ha hzk.2
    refine ⟨straight_append.2 ⟨hyk.1, straight_append.2 ⟨hzk.1, hwk.1⟩⟩, ?_⟩
    rw [typingAfter_append, typingAfter_append]
    exact hwk.2
  case call =>
    intro callee args sp g s y hg hy known
    obtain ⟨hreg, harity⟩ := hc callee g args.length hg
    have hyk := hy.1 known
    refine ⟨straight_append.2 ⟨hyk.1, ⟨hreg, hy.2.trans harity, hyk.2⟩, trivial⟩, rfl, ?_⟩
    simp [typingAfter, IR.Instruction.result?]
  case nil => exact fun s => ⟨fun known => ⟨trivial, by simp⟩, rfl⟩
  case cons =>
    intro e es s y z hy hz
    refine ⟨fun known => ?_, by simp [hz.2]⟩
    have hyk := hy known
    have hzk := hz.1 (typingAfter known y.code)
    refine ⟨straight_append.2 ⟨hyk.1, hzk.1⟩, fun x hx => ?_⟩
    rw [typingAfter_append]
    rcases List.mem_cons.1 hx with rfl | hx
    · exact hyk.2.mono (subset_typingAfter _ _)
    · exact hzk.2 x hx

end Generator

end ExprCompiler
