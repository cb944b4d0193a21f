import ExprCompiler.Backend.Run
import ExprCompiler.Proofs.Sealing

/-!
# Building a function

While the code of a function is built, instructions go to the end of its one
block. Each operation of the backend extends that code and the scope of the
function, and leaves everything else as it is but for the journal.
-/

namespace ExprCompiler

open IR (Arith Block Function FunctionId Instruction Module Operand Scope Ty)

/-! ### Actions one after the other -/

theorem bind_eq_ok {ε σ α β : Type} {x : EStateM ε σ α} {k : α → EStateM ε σ β} {s s' : σ} {a : α}
    (h : x s = .ok a s') : (x >>= k) s = k a s' := by
  simp only [bind, EStateM.bind, h]

theorem bind_eq_error {ε σ α β : Type} {x : EStateM ε σ α} {k : α → EStateM ε σ β} {s s' : σ} {e : ε}
    (h : x s = .error e s') : (x >>= k) s = .error e s' := by
  simp only [bind, EStateM.bind, h]

theorem exists_of_bind_eq_ok {ε σ α β : Type} {x : EStateM ε σ α} {k : α → EStateM ε σ β} {s s' : σ}
    {b : β} (h : (x >>= k) s = .ok b s') : ∃ a t, x s = .ok a t ∧ k a t = .ok b s' := by
  cases hx : x s with
  | ok a t => exact ⟨a, t, rfl, (bind_eq_ok hx).symm.trans h⟩
  | error e t =>
    rw [bind_eq_error hx] at h
    cases h

theorem get_eq_ok {ε σ : Type} (s : σ) : (get : EStateM ε σ σ) s = .ok s s := rfl

/-- A verifier that rejects no code unless a check finds a fault in it. -/
def Verifier.Accepting (v : Verifier) : Prop := ∀ n name e, v n name ≠ .rejected e

theorem Verifier.accepting_checking : Verifier.checking.Accepting := by
  rintro n name e ⟨⟩

namespace IR.Module

variable {m : Module} {f : FunctionId}

def withBody (m : Module) (f : FunctionId) (s : Scope) (bs : List Block) : Module :=
  m.modify f fun x => { x with scope := s, blocks := bs }

@[simp] theorem length_withBody (m : Module) (f : FunctionId) (s : Scope) (bs : List Block) :
    (m.withBody f s bs).functions.length = m.functions.length :=
  length_modify m f _

@[simp] theorem table_withBody (m : Module) (f : FunctionId) (s : Scope) (bs : List Block) :
    (m.withBody f s bs).table = m.table := rfl

@[simp] theorem scope_withBody (m : Module) (f : FunctionId) (s : Scope) (bs : List Block) :
    (m.withBody f s bs).scope = m.scope := rfl

@[simp] theorem lookup_withBody (m : Module) (f : FunctionId) (s : Scope) (bs : List Block)
    (n : String) : (m.withBody f s bs).lookup n = m.lookup n := rfl

@[simp] theorem name_get_withBody (m : Module) (f g : FunctionId) (s : Scope) (bs : List Block) :
    ((m.withBody f s bs).get g).name = (m.get g).name :=
  map_get_modify (k := fun x => { x with scope := s, blocks := bs }) Function.name (fun _ => rfl) f g

@[simp] theorem params_get_withBody (m : Module) (f g : FunctionId) (s : Scope) (bs : List Block) :
    ((m.withBody f s bs).get g).params = (m.get g).params :=
  map_get_modify (k := fun x => { x with scope := s, blocks := bs }) Function.params (fun _ => rfl) f g

@[simp] theorem arity_get_withBody (m : Module) (f g : FunctionId) (s : Scope) (bs : List Block) :
    ((m.withBody f s bs).get g).arity = (m.get g).arity :=
  map_get_modify (k := fun x => { x with scope := s, blocks := bs }) Function.arity (fun _ => rfl) f g

theorem get_withBody_of_ne {g : FunctionId} (h : g ≠ f) (s : Scope) (bs : List Block) :
    (m.withBody f s bs).get g = m.get g :=
  get_modify_of_ne _ h

theorem get_withBody_self (h : f < m.functions.length) (s : Scope) (bs : List Block) :
    (m.withBody f s bs).get f = { m.get f with scope := s, blocks := bs } :=
  get_modify_self _ h

theorem modify_scope_withBody (m : Module) (f : FunctionId) (s t : Scope) (bs : List Block) :
    ((m.withBody f s bs).modify f fun x => { x with scope := t }) = m.withBody f t bs := by
  rw [withBody, modify_modify]
  rfl

theorem push_withBody (m : Module) (f : FunctionId) (s : Scope) (b : Block) (i : Instruction) :
    ((m.withBody f s [b]).modify f (·.pushInstruction i)) = m.withBody f s [b.push i] := by
  rw [withBody, modify_modify]
  rfl

end IR.Module

namespace Backend

section

variable (b : Backend) (f : FunctionId)

theorem modify_run (g : Backend → Backend) : (modify g : BackendM Unit) b = .ok () (g b) := rfl

theorem modifyFunction_run (g : Function → Function) :
    modifyFunction f g b = .ok () { b with module := b.module.modify f g } := rfl

theorem function_run : function f b = .ok (b.module.get f) b := rfl

theorem functionReference_run : functionReference f b = .ok (b.module.functionReference f) b := rfl

def requested (b : Backend) (r : Request) : Backend := { b with journal := .request r :: b.journal }

@[simp] theorem module_requested (r : Request) : (b.requested r).module = b.module := rfl

@[simp] theorem verifications_requested (r : Request) :
    (b.requested r).verifications = b.verifications := rfl

theorem request_run (r : Request) : request r b = .ok () (b.requested r) := rfl

theorem leave_run :
    leave f b = .ok () { b with point := b.point.filter fun p => p.owner != f } := rfl

theorem sealRegistered_run :
    sealRegistered b = .ok () { b with module := b.module.sealAll b.module.registered } := rfl

end

def building (b : Backend) (m : Module) (f : FunctionId) (s : Scope) (label : String)
    (is : List Instruction) : Backend :=
  { b with module := m.withBody f s [⟨label, is⟩], point := some (.endOf f) }

section

variable {b : Backend} {m : Module} {f : FunctionId} {s : Scope} {label : String}
  {is : List Instruction}

theorem freshName_building (hf : f < m.functions.length) (base : String) :
    freshName (.endOf f) base (b.building m f s label is) =
      .ok (s.register base).1 (b.building m f (s.register base).2 label is) := by
  have hs : ((m.withBody f s [⟨label, is⟩]).get f).scope = s := by
    rw [Module.get_withBody_self hf]
  have hget : function f (b.building m f s label is) =
      .ok ((m.withBody f s [⟨label, is⟩]).get f) (b.building m f s label is) := rfl
  unfold freshName
  rw [InsertionPoint.owner, bind_eq_ok hget, hs]
  cases s.register base with
  | mk name t =>
    dsimp only
    rw [bind_eq_ok (modifyFunction_run _ f _), building, Module.modify_scope_withBody]
    rfl

theorem insert_building (i : Instruction) :
    insert (.endOf f) i (b.building m f s label is) =
      .ok () (b.building m f s label (is ++ [i])) := by
  rw [insert, modifyFunction_run, building, Module.push_withBody]
  rfl

theorem fresh_insert_building {α : Type} (hf : f < m.functions.length) (base : String)
    (i : String → Instruction) (k : String → BackendM α) :
    (do let name ← freshName (.endOf f) base; insert (.endOf f) (i name); k name : BackendM α)
        (b.building m f s label is) =
      k (s.register base).1
        (b.building m f (s.register base).2 label (is ++ [i (s.register base).1])) := by
  rw [bind_eq_ok (freshName_building hf base), bind_eq_ok (insert_building _)]

theorem reference_building (x : Operand) :
    reference x (b.building m f s label is) =
      .ok ((m.withBody f s [⟨label, is⟩]).reference x) (b.building m f s label is) := rfl

theorem request_building (r : Request) :
    request r (b.building m f s label is) = .ok () ((b.requested r).building m f s label is) := rfl

theorem insertionPoint_building :
    insertionPoint (b.building m f s label is) = .ok (.endOf f) (b.building m f s label is) := rfl

theorem function_building (g : FunctionId) :
    function g (b.building m f s label is) =
      .ok ((m.withBody f s [⟨label, is⟩]).get g) (b.building m f s label is) := rfl

theorem arith_building (hf : f < m.functions.length) (op : Arith) {x y : Operand}
    (hx : x.type = .i32) (hy : y.type = .i32) :
    ∃ r, arith op x y (b.building m f s label is) =
      .ok (.named (s.register op.base).1 .i32)
        ((b.requested r).building m f (s.register op.base).2 label
          (is ++ [.arith op (s.register op.base).1 x y])) := by
  constructor
  unfold arith
  simp only [hx, hy, ne_eq, not_true_eq_false, if_false]
  rw [bind_eq_ok (reference_building x), bind_eq_ok (reference_building y),
    bind_eq_ok (request_building _), bind_eq_ok insertionPoint_building]
  exact fresh_insert_building hf op.base (.arith op · x y) fun name =>
    pure (Operand.named name .i32)

theorem less_building (hf : f < m.functions.length) (x y : Operand) :
    ∃ r, less x y (b.building m f s label is) =
      .ok (.named (s.register "cmptmp").1 .i1)
        ((b.requested r).building m f (s.register "cmptmp").2 label
          (is ++ [.less (s.register "cmptmp").1 x y])) := by
  constructor
  unfold less
  rw [bind_eq_ok (reference_building x), bind_eq_ok (reference_building y),
    bind_eq_ok (request_building _), bind_eq_ok insertionPoint_building]
  exact fresh_insert_building hf "cmptmp" (.less · x y) fun name => pure (Operand.named name .i1)

theorem widen_building (hf : f < m.functions.length) {x : Operand} (hx : x.type = .i1) :
    ∃ r, widen x (b.building m f s label is) =
      .ok (.named (s.register "booltmp").1 .i32)
        ((b.requested r).building m f (s.register "booltmp").2 label
          (is ++ [.widen (s.register "booltmp").1 x])) := by
  constructor
  unfold widen
  simp only [hx, reduceCtorEq, if_false]
  rw [bind_eq_ok (reference_building x), bind_eq_ok (request_building _),
    bind_eq_ok insertionPoint_building]
  exact fresh_insert_building hf "booltmp" (.widen · x) fun name => pure (Operand.named name .i32)

theorem argumentMisuse?_eq_none (i : Nat) {xs : List Operand} (h : ∀ x ∈ xs, x.type = .i32) :
    argumentMisuse? xs.length i xs = none := by
  induction xs generalizing i with
  | nil => rfl
  | cons x xs ih =>
    simp only [List.length_cons, argumentMisuse?, h x (by simp), if_true]
    exact ih (i + 1) fun y hy => h y (by simp [hy])

theorem mapM_reference (xs : List Operand) (b : Backend) :
    xs.mapM reference b = .ok (xs.map b.module.reference) b := by
  induction xs with
  | nil => rfl
  | cons x xs ih =>
    have hx : reference x b = .ok (b.module.reference x) b := rfl
    rw [List.mapM_cons, bind_eq_ok hx, bind_eq_ok ih]
    rfl

theorem call_building (hf : f < m.functions.length) (c : FunctionId) {xs : List Operand}
    (hx : ∀ x ∈ xs, x.type = .i32) (hc : (m.get c).arity = xs.length) :
    ∃ r, call c xs (b.building m f s label is) =
      .ok (.named (s.register "calltmp").1 .i32)
        ((b.requested r).building m f (s.register "calltmp").2 label
          (is ++ [.call (s.register "calltmp").1 c xs])) := by
  constructor
  have hname : functionReference c (b.building m f s label is) =
      .ok ((m.withBody f s [⟨label, is⟩]).functionReference c) (b.building m f s label is) := rfl
  unfold call
  rw [bind_eq_ok hname, bind_eq_ok (mapM_reference xs _), bind_eq_ok (request_building _),
    bind_eq_ok insertionPoint_building, bind_eq_ok (function_building c),
    Module.arity_get_withBody, hc, argumentMisuse?_eq_none 0 hx]
  exact fresh_insert_building hf "calltmp" (.call · c xs) fun name => pure (Operand.named name .i32)

theorem ret_building (hf : f < m.functions.length) (label : String) (x : Operand)
    (h : is.any Instruction.isRet = false) :
    ∃ r, ret x (b.building m f s label is) =
      .ok () ((b.requested r).building m f (s.register "").2 label (is ++ [.ret x])) := by
  constructor
  have hopen (b : Backend) (s : Scope) : isTerminated (.endOf f) (b.building m f s label is) =
      .ok false (b.building m f s label is) := by
    unfold isTerminated
    simp only
    rw [bind_eq_ok (function_building f), Module.get_withBody_self hf]
    simp only [List.getLast?_singleton, Option.map_some, Block.isTerminated, h, Option.getD_some]
    rfl
  unfold ret
  rw [bind_eq_ok (reference_building x), bind_eq_ok (request_building _),
    bind_eq_ok insertionPoint_building, bind_eq_ok (freshName_building hf ""),
    bind_eq_ok (hopen _ _)]
  exact insert_building _

end

/-! ### Functions as a whole -/

section

variable {b : Backend} {f : FunctionId}

def onModule (b : Backend) (m : Module) (j : List JournalEntry) : Backend :=
  { b with module := m, journal := j }

theorem declare_run {n : String} {arity : Nat} {m : Module}
    (h : b.module.declare? n arity = some (f, m)) :
    ∃ j, declare n arity b = .ok f (b.onModule m j) := by
  exists .note (.declared n arity) :: .request (.declare n arity) :: b.journal
  unfold declare
  rw [bind_eq_ok (request_run b _), bind_eq_ok (get_eq_ok _)]
  simp only [module_requested, h]
  rfl

theorem declare_refused {n : String} {arity : Nat} (h : b.module.declare? n arity = none) :
    ∃ j, declare n arity b = .error (.nameInUse n) (b.onModule b.module j) := by
  exists .request (.declare n arity) :: b.journal
  unfold declare
  rw [bind_eq_ok (request_run b _), bind_eq_ok (get_eq_ok _)]
  simp only [module_requested, h]
  rfl

theorem setParams_run (b : Backend) (f : FunctionId) (names : List String) :
    ∃ j, setParams f names b = .ok () (b.onModule (b.module.modify f (·.setParams names)) j) :=
  ⟨_, rfl⟩

theorem enter_run (hf : f < b.module.functions.length) (hb : (b.module.get f).blocks = []) :
    ∃ r, enter f b = .ok ((b.module.get f).scope.register "entry").1
      ((b.requested r).building b.module f ((b.module.get f).scope.register "entry").2
        ((b.module.get f).scope.register "entry").1 []) := by
  refine ⟨.enter (b.module.functionReference f), ?_⟩
  have hm : (b.module.modify f fun _ => ((b.module.get f).addBlock).2) =
      b.module.withBody f ((b.module.get f).scope.register "entry").2
        [⟨((b.module.get f).scope.register "entry").1, []⟩] := by
    have hx : b.module.functions[f]? = some (b.module.get f) := by
      simp [Module.get, hf]
    simp only [Module.modify, Module.withBody, List.modify_eq_set, hx,
      Option.getD_some, Function.addBlock, hb, List.nil_append]
  change EStateM.Result.ok _ _ = _
  simp only [building, requested, ← hm]
  rfl

theorem erase_run (b : Backend) (f : FunctionId) :
    ∃ j, erase f b = .ok () { b with module := b.module.erase f,
                                     point := b.point.filter fun p => p.owner != f,
                                     journal := j } :=
  ⟨_, rfl⟩

theorem detach_run (b : Backend) (f : FunctionId) :
    ∃ p, detach f b = .ok () { b with point := p } ∧
      (p = b.point ∨ ∃ block, b.point = some (.endOf f) ∧ p = some (.detached f block)) := by
  unfold detach
  rw [bind_eq_ok (function_run b f), modify_run]
  split
  · rename_i h block hp hb
    by_cases hf : h = f
    · subst hf
      exact ⟨some (.detached h block), by simp, .inr ⟨block, hp, rfl⟩⟩
    · exact ⟨b.point, by simp [hf], .inl rfl⟩
  · exact ⟨b.point, rfl, .inl rfl⟩

theorem owner_detach (b : Backend) (f : FunctionId) :
    ∃ p, detach f b = .ok () { b with point := p } ∧
      p.filter (fun p => p.owner != f) = b.point.filter fun p => p.owner != f := by
  obtain ⟨p, hp, rfl | ⟨block, hb, rfl⟩⟩ := detach_run b f
  · exact ⟨_, hp, rfl⟩
  · have hd : (InsertionPoint.detached f block).owner = f := rfl
    have he : (InsertionPoint.endOf f).owner = f := rfl
    exact ⟨_, hp, by simp [hb, Option.filter, hd, he]⟩

theorem clear_run {t : Scope} (ht : (b.module.get f).freshScope = .ok t) :
    ∃ j, clear f b = .ok () { b with module := b.module.withBody f t [],
                                     point := b.point.filter fun p => p.owner != f,
                                     journal := j } := by
  obtain ⟨p, hd, hp⟩ := owner_detach (b.requested (.clear (b.module.functionReference f))) f
  have hfresh : ((b.module.modify f Function.dropBlocks).get f).freshScope = .ok t := by
    rw [← ht]
    exact Module.map_get_modify (k := Function.dropBlocks) Function.freshScope (fun _ => rfl) f f
  have hmod : (b.module.modify f Function.dropBlocks).modify f (fun x => { x with scope := t }) =
      b.module.withBody f t [] := by
    rw [Module.modify_modify]
    rfl
  constructor
  unfold clear
  rw [bind_eq_ok (functionReference_run b f), bind_eq_ok (request_run b _), bind_eq_ok hd,
    bind_eq_ok (modifyFunction_run _ f _), bind_eq_ok (function_run _ f)]
  simp only [requested, hfresh]
  rw [bind_eq_ok (modifyFunction_run _ f _), bind_eq_ok (leave_run _ f)]
  simp only [hmod, hp]
  rfl

/-- Verification seals the module and records one error at most; an accepting verifier finds
nothing but what a check finds. -/
theorem verify_run (b : Backend) (v : Verifier) (f : FunctionId) :
    ∃ ok fs e? j, verify v f b =
        .ok ok { b with module := b.module.sealAll fs, errors := b.errors ++ e?.toList,
                        verifications := b.verifications + 1, journal := j } ∧
      (ok = true → e? = none) ∧
      (v.Accepting → (b.module.sealAll b.module.registered).fault? = none → ok = true) := by
  unfold verify
  rw [bind_eq_ok (functionReference_run b f), bind_eq_ok (request_run b _), bind_eq_ok (get_eq_ok _),
    bind_eq_ok (modify_run _ _), bind_eq_ok (function_run _ f)]
  simp only [module_requested, verifications_requested]
  cases hv : v b.verifications (b.module.get f).name with
  | check =>
    simp only [check]
    rw [bind_eq_ok (sealRegistered_run _), bind_eq_ok (get_eq_ok _)]
    cases hc : (b.module.sealAll b.module.registered).fault? with
    | none => exact ⟨true, b.module.registered, none, _, by simp; rfl, by simp, by simp⟩
    | some e =>
      exact ⟨false, b.module.registered, some _, _, rfl, by simp, by simp⟩
  | accepted => exact ⟨true, [], none, _, by simp [IR.Module.sealAll]; rfl, by simp, by simp⟩
  | rejected e =>
    have hreject : ¬v.Accepting := fun h => h _ _ _ hv
    cases e with
    | none =>
      exact ⟨false, [], none, _, by simp [IR.Module.sealAll]; rfl, by simp,
        fun h => absurd h hreject⟩
    | some e => exact ⟨false, [], some e, _, rfl, by simp, fun h => absurd h hreject⟩

end

end Backend

end ExprCompiler
