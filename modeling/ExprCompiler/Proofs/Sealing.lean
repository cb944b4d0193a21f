import ExprCompiler.IR.Semantics
import ExprCompiler.Proofs.Store

/-!
# Sealing

Sealing replaces references to parameters by their names. It changes nothing
that can be seen: neither the names and calls of a function, nor its text.
-/

namespace ExprCompiler.IR

namespace Instruction

@[simp] theorem result?_mapOperands {k : Operand → Operand} (hk : ∀ x, (k x).type = x.type)
    (i : Instruction) : (i.mapOperands k).result? = i.result? := by
  cases i <;> simp [mapOperands, result?, hk]

@[simp] theorem callee?_mapOperands (k : Operand → Operand) (i : Instruction) :
    (i.mapOperands k).callee? = i.callee? := by
  cases i <;> rfl

@[simp] theorem isRet_mapOperands (k : Operand → Operand) (i : Instruction) :
    (i.mapOperands k).isRet = i.isRet := by
  cases i <;> rfl

theorem operands_mapOperands (k : Operand → Operand) (i : Instruction) :
    (i.mapOperands k).operands = i.operands.map k := by
  cases i <;> rfl

theorem mapOperands_congr {j k : Operand → Operand} {i : Instruction}
    (h : ∀ x ∈ i.operands, j x = k x) : i.mapOperands j = i.mapOperands k := by
  cases i <;> simp_all [mapOperands, operands]

theorem mapOperands_mapOperands (j k : Operand → Operand) (i : Instruction) :
    (i.mapOperands j).mapOperands k = i.mapOperands (k ∘ j) := by
  cases i <;> simp [mapOperands]

end Instruction

namespace Module

variable {m m' : Module} {f g : FunctionId} {fs : List FunctionId}

@[simp] theorem type_sealOperand (m : Module) (x : Operand) : (m.sealOperand x).type = x.type := by
  cases x <;> rfl

theorem sealOperand_sealOperand (m m' : Module) (x : Operand) :
    m'.sealOperand (m.sealOperand x) = m.sealOperand x := by
  cases x <;> rfl

theorem sealOperand_congr (h : ∀ k i, m'.paramName k i = m.paramName k i) (x : Operand) :
    m'.sealOperand x = m.sealOperand x := by
  cases x <;> simp [sealOperand, h]

@[simp] theorem reference_sealOperand (m m' : Module) (x : Operand) :
    m'.reference (m.sealOperand x) = m.reference x := by
  cases x <;> rfl

def sealBlock (m : Module) (b : Block) : Block :=
  { b with instructions := b.instructions.map (·.mapOperands m.sealOperand) }

def sealed (m : Module) (x : Function) : Function := { x with blocks := x.blocks.map m.sealBlock }

@[simp] theorem name_sealed (m : Module) (x : Function) : (m.sealed x).name = x.name := rfl

@[simp] theorem params_sealed (m : Module) (x : Function) : (m.sealed x).params = x.params := rfl

@[simp] theorem scope_sealed (m : Module) (x : Function) : (m.sealed x).scope = x.scope := rfl

@[simp] theorem arity_sealed (m : Module) (x : Function) : (m.sealed x).arity = x.arity := rfl

@[simp] theorem hasBody_sealed (m : Module) (x : Function) : (m.sealed x).hasBody = x.hasBody := by
  simp [Function.hasBody, sealed]

theorem instructions_sealed (m : Module) (x : Function) :
    (m.sealed x).instructions = x.instructions.map (·.mapOperands m.sealOperand) := by
  simp [Function.instructions, sealed, List.flatMap_map, sealBlock, List.map_flatMap]

@[simp] theorem callees_sealed (m : Module) (x : Function) : (m.sealed x).callees = x.callees := by
  simp [Function.callees, instructions_sealed, List.filterMap_map]

theorem bodyNames_sealed (m : Module) (x : Function) : (m.sealed x).bodyNames = x.bodyNames := by
  simp [Function.bodyNames, resultNames, sealed, List.flatMap_map, sealBlock, List.filterMap_map]

theorem named_sealed (m : Module) {x : Function} (h : x.Named) : (m.sealed x).Named := by
  have hl : (m.sealed x).localNames = x.localNames := by
    simp only [Function.localNames_eq, bodyNames_sealed, params_sealed]
  refine ⟨?_, ?_, h.empty_used, ?_⟩ <;> rw [hl]
  · exact h.nodup
  · exact h.used
  · exact h.ne_empty

theorem sealBlock_sealBlock (m m' : Module) (b : Block) :
    m'.sealBlock (m.sealBlock b) = m.sealBlock b := by
  simp only [sealBlock, List.map_map, Block.mk.injEq, true_and]
  refine List.map_congr_left fun i _ => ?_
  simp only [Function.comp_apply, Instruction.mapOperands_mapOperands]
  exact Instruction.mapOperands_congr fun x _ => sealOperand_sealOperand m m' x

theorem sealed_sealed (m m' : Module) (x : Function) : m'.sealed (m.sealed x) = m.sealed x := by
  simp only [sealed, List.map_map, Function.mk.injEq, true_and]
  exact List.map_congr_left fun b _ => sealBlock_sealBlock m m' b

theorem sealed_congr (h : ∀ k i, m'.paramName k i = m.paramName k i) : m'.sealed = m.sealed := by
  funext x
  simp [sealed, sealBlock, funext (sealOperand_congr h)]

theorem sealFunction_eq (m : Module) (f : FunctionId) : m.sealFunction f = m.modify f m.sealed := rfl

theorem get_sealFunction (m : Module) (f g : FunctionId) :
    (m.sealFunction f).get g = if g = f then m.sealed (m.get g) else m.get g := by
  rw [sealFunction_eq]
  split
  · rename_i h
    subst h
    by_cases hg : g < m.functions.length
    · rw [get_modify_self _ hg]
    · rw [get_eq_default (by simpa using hg), get_eq_default (by simpa using hg)]
      rfl
  · rename_i h
    rw [get_modify_of_ne _ h]

theorem paramName_sealFunction (m : Module) (f g : FunctionId) (i : Nat) :
    (m.sealFunction f).paramName g i = m.paramName g i := by
  simp only [paramName, get_sealFunction]
  split <;> rfl

theorem get_sealAll (m : Module) (fs : List FunctionId) (g : FunctionId) :
    (m.sealAll fs).get g = if g ∈ fs then m.sealed (m.get g) else m.get g := by
  induction fs generalizing m with
  | nil => simp [sealAll]
  | cons f fs ih =>
    have hs : (m.sealFunction f).sealed = m.sealed := sealed_congr (paramName_sealFunction m f)
    change (sealAll (m.sealFunction f) fs).get g = _
    rw [ih, hs, get_sealFunction]
    by_cases hg : g = f
    · simp [hg, sealed_sealed]
    · simp [hg]

theorem map_get_sealAll {α : Type} (p : Function → α) (hp : ∀ x, p (m.sealed x) = p x)
    (fs : List FunctionId) (g : FunctionId) : p ((m.sealAll fs).get g) = p (m.get g) := by
  rw [get_sealAll]
  split
  · exact hp _
  · rfl

theorem sealAll_fields (m : Module) (fs : List FunctionId) :
    (m.sealAll fs).name = m.name ∧ (m.sealAll fs).triple = m.triple ∧
      (m.sealAll fs).table = m.table ∧ (m.sealAll fs).scope = m.scope ∧
      (m.sealAll fs).functions.length = m.functions.length := by
  induction fs generalizing m with
  | nil => simp [sealAll]
  | cons f fs ih =>
    obtain ⟨hn, ht, htable, hs, hl⟩ := ih (m.sealFunction f)
    exact ⟨hn, ht, htable, hs, hl.trans (length_modify m f _)⟩

@[simp] theorem table_sealAll (m : Module) (fs : List FunctionId) :
    (m.sealAll fs).table = m.table := (sealAll_fields m fs).2.2.1

@[simp] theorem length_sealAll (m : Module) (fs : List FunctionId) :
    (m.sealAll fs).functions.length = m.functions.length := (sealAll_fields m fs).2.2.2.2

@[simp] theorem lookup_sealAll (m : Module) (fs : List FunctionId) (n : String) :
    (m.sealAll fs).lookup n = m.lookup n := by
  simp [lookup]

@[simp] theorem names_sealAll (m : Module) (fs : List FunctionId) :
    (m.sealAll fs).names = m.names := by
  simp [names]

@[simp] theorem registered_sealAll (m : Module) (fs : List FunctionId) :
    (m.sealAll fs).registered = m.registered := by
  simp [registered]

theorem paramName_sealAll (m : Module) (fs : List FunctionId) (g : FunctionId) (i : Nat) :
    (m.sealAll fs).paramName g i = m.paramName g i :=
  congrArg (fun ps : List String => ps[i]?.getD "") (map_get_sealAll Function.params (fun _ => rfl) fs g)

theorem Indexed.sealAll (h : m.Indexed) (fs : List FunctionId) : (m.sealAll fs).Indexed := by
  refine ⟨by simpa using h.nodup, ?_, ?_, ?_, by simpa using h.ne_empty⟩
  · simpa using h.inStore
  · intro p hp
    rw [map_get_sealAll Function.name fun _ => rfl]
    exact h.named p (by simpa using hp)
  · simpa [(sealAll_fields m fs).2.2.2.1] using h.used

/-! ### Texts -/

theorem instructionText_congr {i : Instruction}
    (hx : ∀ x ∈ i.operands, m'.reference x = m.reference x)
    (hc : ∀ c, i.callee? = some c → (m'.get c).name = (m.get c).name) :
    m'.instructionText i = m.instructionText i := by
  cases i with
  | arith op r a b => simp_all [instructionText, Instruction.operands, typedReference]
  | less r a b => simp_all [instructionText, Instruction.operands, typedReference]
  | widen r a => simp_all [instructionText, Instruction.operands, typedReference]
  | call r c args =>
    have hargs : args.map m'.typedReference = args.map m.typedReference :=
      List.map_congr_left fun x hx' => by simp [typedReference, hx x hx']
    simp [instructionText, hargs, functionReference, hc c rfl]
  | ret a => simp_all [instructionText, Instruction.operands, typedReference]

theorem instructionText_mapOperands {i : Instruction} (m : Module) (k : Operand → Operand)
    (hr : ∀ x, m.reference (k x) = m.reference x) (ht : ∀ x, (k x).type = x.type) :
    m.instructionText (i.mapOperands k) = m.instructionText i := by
  have htyped : ∀ x, m.typedReference (k x) = m.typedReference x := fun x => by
    simp [typedReference, hr, ht]
  cases i <;> simp [instructionText, Instruction.mapOperands, htyped, hr, Function.comp_def]

/-- Two modules show a function alike if it is the same in both, and if the functions that it
calls, and the parameters that it refers to, have the same names. -/
theorem functionText_congr (h : m'.get g = m.get g)
    (hx : ∀ i ∈ (m.get g).instructions, ∀ x ∈ i.operands, m'.reference x = m.reference x)
    (hc : ∀ c ∈ (m.get g).callees, (m'.get c).name = (m.get c).name) :
    m'.functionText g = m.functionText g := by
  have hblocks : (m.get g).blocks.map m'.blockText = (m.get g).blocks.map m.blockText := by
    refine List.map_congr_left fun b hb => ?_
    have hi : ∀ i ∈ b.instructions, m'.instructionText i = m.instructionText i := by
      intro i hi
      have hmem : i ∈ (m.get g).instructions := List.mem_flatMap.2 ⟨b, hb, hi⟩
      exact instructionText_congr (hx i hmem) fun c hic =>
        hc c (List.mem_filterMap.2 ⟨i, hmem, hic⟩)
    simp only [blockText]
    rw [List.map_congr_left fun i h => by rw [hi i h]]
  simp only [functionText, h, hblocks]

@[simp] theorem reference_sealAll (m : Module) (fs : List FunctionId) (x : Operand) :
    (m.sealAll fs).reference x = m.reference x := by
  cases x with
  | param k i => simp [reference, paramName_sealAll]
  | const v => rfl
  | named n t => rfl

theorem functionText_sealAll (m : Module) (fs : List FunctionId) (g : FunctionId) :
    (m.sealAll fs).functionText g = m.functionText g := by
  have hi : ∀ i, (m.sealAll fs).instructionText i = m.instructionText i := fun i =>
    instructionText_congr (fun x _ => reference_sealAll m fs x)
      fun c _ => map_get_sealAll Function.name (fun _ => rfl) fs c
  have hb : (m.sealAll fs).blockText = m.blockText := by
    funext b
    simp [blockText, hi]
  have hs : m.blockText ∘ m.sealBlock = m.blockText := by
    funext b
    simp [blockText, sealBlock, Function.comp_def,
      instructionText_mapOperands m m.sealOperand (fun x => reference_sealOperand m m x)]
  have hblocks : (m.sealed (m.get g)).blocks.map m.blockText = (m.get g).blocks.map m.blockText := by
    rw [sealed, List.map_map, hs]
  unfold functionText
  rw [hb, get_sealAll]
  split
  · simp only [hasBody_sealed, hblocks, headerText, name_sealed, params_sealed]
  · rfl

theorem textOf_sealAll (m : Module) (fs gs : List FunctionId) :
    (m.sealAll fs).textOf gs = m.textOf gs := by
  have hf : (m.sealAll fs).functionText = m.functionText := funext (functionText_sealAll m fs)
  simp only [textOf, hf, (sealAll_fields m fs).1, (sealAll_fields m fs).2.1]

theorem text_sealAll (m : Module) (fs : List FunctionId) : (m.sealAll fs).text = m.text := by
  simp only [text, registered_sealAll, textOf_sealAll]

end Module

end ExprCompiler.IR
