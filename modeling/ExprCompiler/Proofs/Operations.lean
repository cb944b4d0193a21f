import ExprCompiler.Proofs.Using

/-!
# Operations of a backend

Whoever holds a backend may ask for its operations in any order, with
functions that are registered and with functions that have been erased. An
operation changes the table or one function, and says where instructions go
from then on. It may leave something behind even where it is refused.
-/

namespace ExprCompiler

open IR (Arith Block Function FunctionId Instruction Module Operand Scope Ty)

def carriedOut {ε σ α : Type} : EStateM.Result ε σ α → Bool
  | .ok _ _ => true
  | .error _ _ => false

inductive Construction
  | constant (v : Int)
  | arith (op : Arith) (a b : Operand)
  | less (a b : Operand)
  | widen (a : Operand)
  | call (f : FunctionId) (args : List Operand)
  | ret (a : Operand)
  deriving DecidableEq, Repr, Inhabited

namespace Construction

def run : Construction → BackendM Unit
  | constant v => discard (Backend.constant v)
  | arith op a b => discard (Backend.arith op a b)
  | less a b => discard (Backend.less a b)
  | widen a => discard (Backend.widen a)
  | call f args => discard (Backend.call f args)
  | ret a => Backend.ret a

def base? : Construction → Option String
  | constant _ => none
  | arith op _ _ => some op.base
  | less _ _ => some "cmptmp"
  | widen a => if a.type = .i32 then none else some "booltmp"
  | call _ _ => some "calltmp"
  | ret _ => some ""

end Construction

inductive Operation
  | declare (name : String) (arity : Nat)
  | setParams (f : FunctionId) (names : List String)
  | enter (f : FunctionId)
  | build (c : Construction)
  | erase (f : FunctionId)
  | clear (f : FunctionId)
  deriving DecidableEq, Repr, Inhabited

namespace Operation

def run : Operation → BackendM Unit
  | declare name arity => discard (Backend.declare name arity)
  | setParams f names => Backend.setParams f names
  | enter f => discard (Backend.enter f)
  | build c => c.run
  | erase f => Backend.erase f
  | clear f => Backend.clear f

def succeeds (o : Operation) (b : Backend) : Bool := carriedOut (o.run b)

def after (o : Operation) (b : Backend) : Backend := ended (o.run b)

def handles : Operation → List FunctionId
  | setParams f _ | enter f | build (.call f _) | erase f | clear f => [f]
  | _ => []

def Known (b : Backend) (o : Operation) : Prop :=
  ∀ f ∈ o.handles, f < b.module.functions.length

instance (b : Backend) (o : Operation) : Decidable (Known b o) :=
  inferInstanceAs (Decidable (∀ f ∈ o.handles, f < b.module.functions.length))

end Operation

/-- The states that operations lead to from an empty module, each of them such as `P` allows where
it is asked for. -/
inductive Operated (P : Backend → Operation → Prop) : List Operation → Backend → Prop
  | start (name triple : String) : Operated P [] (.ofTarget name triple)
  | operated {os : List Operation} {b : Backend} {o : Operation} (h : Operated P os b)
      (ho : P b o) : Operated P (os ++ [o]) (o.after b)

/-! ### What one operation does -/

theorem discard_run {ε σ α : Type} (x : EStateM ε σ α) (s : σ) :
    carriedOut (discard x s) = carriedOut (x s) ∧ ended (discard x s) = ended (x s) := by
  change carriedOut (EStateM.map _ x s) = _ ∧ ended (EStateM.map _ x s) = _
  unfold EStateM.map
  cases x s with
  | ok a b' => exact ⟨rfl, rfl⟩
  | error e b' => exact ⟨rfl, rfl⟩

def IR.Function.register (base : String) (x : Function) : Function :=
  { x with scope := (x.scope.register base).2 }

section

variable {m : Module} {p : Option InsertionPoint}

inductive Built (m : Module) (p : Option InsertionPoint) (base? : Option String) :
    Bool → Module → Option InsertionPoint → Prop
  | idle {ok : Bool} (h : ok = true → base? = none) : Built m p base? ok m p
  | named {q : InsertionPoint} {base : String} (hp : p = some q) (hb : base? = some base) :
    Built m p base? false (m.modify q.owner (·.register base)) p
  | placed {f : FunctionId} {base : String} {i : Instruction} (hp : p = some (.endOf f))
      (hb : base? = some base)
      (hi : (IR.resultNames [i]).Sublist [((m.get f).scope.register base).1]) :
    Built m p base? true (m.modify f fun x => (x.register base).pushInstruction i) p
  | detached {f : FunctionId} {block : Block} {base : String} {i : Instruction}
      (hp : p = some (.detached f block)) (hb : base? = some base) :
    Built m p base? true (m.modify f (·.register base)) (some (.detached f (block.push i)))

inductive Effect (m : Module) (p : Option InsertionPoint) :
    Operation → Bool → Module → Option InsertionPoint → Prop
  | refused {n : String} {k : Nat} (h : n ∈ m.scope.used) : Effect m p (.declare n k) false m p
  | declared {n : String} {k : Nat} (h : n ∉ m.scope.used) :
    Effect m p (.declare n k) true (m.enlarged (.declared n k)) p
  | renamed {f : FunctionId} {ns : List String} :
    Effect m p (.setParams f ns) true (m.modify f (·.setParams ns)) p
  | entered {f : FunctionId} :
    Effect m p (.enter f) true (m.modify f fun x => x.addBlock.2) (some (.endOf f))
  | built {c : Construction} {ok : Bool} {m' : Module} {p' : Option InsertionPoint}
      (h : Built m p c.base? ok m' p') : Effect m p (.build c) ok m' p'
  | erased {f : FunctionId} :
    Effect m p (.erase f) true (m.erase f) (p.filter fun q => q.owner != f)
  | cleared {f : FunctionId} {s : Scope} (h : (m.get f).freshScope = .ok s) :
    Effect m p (.clear f) true (m.withBody f s []) (p.filter fun q => q.owner != f)
  | stripped {f : FunctionId} {n : String} {p' : Option InsertionPoint}
      (h : (m.get f).freshScope = .error n)
      (hp : p' = p ∨ ∃ block, p = some (.endOf f) ∧ p' = some (.detached f block)) :
    Effect m p (.clear f) false (m.modify f Function.dropBlocks) p'

namespace IR.Module

theorem modify_congr {f : FunctionId} {j k : Function → Function} (h : j (m.get f) = k (m.get f)) :
    m.modify f j = m.modify f k := by
  by_cases hf : f < m.functions.length
  · have hx : m.functions[f]? = some (m.get f) := by simp [get, hf]
    simp only [modify, List.modify_eq_set, hx, Option.getD_some, h]
  · simp only [modify, List.modify_eq_self (Nat.le_of_not_lt hf)]

end IR.Module

namespace Backend

variable {b : Backend} {q : InsertionPoint}

theorem insertionPoint_of_some (h : b.point = some q) : insertionPoint b = .ok q b := by
  unfold insertionPoint
  rw [bind_eq_ok (get_eq_ok b), h]
  rfl

theorem insertionPoint_of_none (h : b.point = none) :
    insertionPoint b = .error .noInsertionPoint b := by
  unfold insertionPoint
  rw [bind_eq_ok (get_eq_ok b), h]
  rfl

def withName (b : Backend) (q : InsertionPoint) (base : String) : Backend :=
  { b with module := b.module.modify q.owner (·.register base) }

theorem freshName_run (b : Backend) (q : InsertionPoint) (base : String) :
    freshName q base b =
      .ok ((b.module.get q.owner).scope.register base).1 (b.withName q base) := by
  unfold freshName
  rw [bind_eq_ok (function_run b q.owner), withName,
    Module.modify_congr (j := (·.register base))
      (k := fun x => { x with scope := ((b.module.get q.owner).scope.register base).2 }) rfl]
  rfl

def Builds {α : Type} (base? : Option String) (x : BackendM α) (b : Backend) : Prop :=
  Built b.module b.point base? (carriedOut (x b)) (ended (x b)).module (ended (x b)).point

section

variable {α β : Type} {base? : Option String} {x : BackendM α} {e : Misuse}

theorem Builds.bind {k : α → BackendM β} {a : α} (h : x b = .ok a b) (hk : Builds base? (k a) b) :
    Builds base? (x >>= k) b := by
  unfold Builds
  rwa [bind_eq_ok h]

theorem Builds.discard (h : Builds base? x b) : Builds base? (discard x) b := by
  unfold Builds
  rwa [(discard_run x b).1, (discard_run x b).2]

theorem Builds.request {r : Request} {k : BackendM α} (h : Builds base? k (b.requested r)) :
    Builds base? (do Backend.request r; k) b := by
  unfold Builds
  rwa [bind_eq_ok (request_run b r)]

theorem builds_of_error (h : x b = .error e b) : Builds base? x b := by
  unfold Builds
  rw [h]
  exact .idle nofun

theorem builds_at_point {k : InsertionPoint → BackendM α}
    (h : ∀ q, b.point = some q → Builds base? (k q) b) :
    Builds base? (do let q ← insertionPoint; k q) b := by
  cases hp : b.point with
  | none => exact builds_of_error (bind_eq_error (insertionPoint_of_none hp))
  | some q => exact .bind (insertionPoint_of_some hp) (h q hp)

end

theorem insert_run (h : b.point = some q) {base : String} {i : Instruction}
    (hi : (IR.resultNames [i]).Sublist [((b.module.get q.owner).scope.register base).1]) :
    ∃ b', insert q i (b.withName q base) = .ok () b' ∧
      Built b.module b.point (some base) true b'.module b'.point := by
  cases q with
  | endOf f =>
    refine ⟨_, modifyFunction_run _ f _, ?_⟩
    have hm : ((b.withName (.endOf f) base).module.modify f (·.pushInstruction i)) =
        b.module.modify f fun x => (x.register base).pushInstruction i :=
      Module.modify_modify _ _ _ _
    simp only [hm]
    exact .placed h rfl hi
  | detached f block => exact ⟨_, rfl, .detached h rfl⟩

theorem builds_fresh_insert {α : Type} (h : b.point = some q) (base : String)
    {i : String → Instruction} (hi : ∀ n, (IR.resultNames [i n]).Sublist [n]) (k : String → α) :
    Builds (some base) (do let name ← freshName q base; insert q (i name); pure (k name)) b := by
  obtain ⟨b', hins, hbuilt⟩ := insert_run h (hi ((b.module.get q.owner).scope.register base).1)
  unfold Builds
  rw [bind_eq_ok (freshName_run b q base), bind_eq_ok hins]
  exact hbuilt

theorem builds_arith (op : Arith) (x y : Operand) (b : Backend) :
    Builds (some op.base) (arith op x y) b := by
  refine .bind rfl (.bind rfl (.request (builds_at_point fun q hq => ?_)))
  split
  · exact builds_of_error rfl
  · exact builds_fresh_insert hq op.base (i := (.arith op · x y)) (fun n => .refl [n])
      fun n => Operand.named n x.type

theorem builds_less (x y : Operand) (b : Backend) : Builds (some "cmptmp") (less x y) b :=
  .bind rfl (.bind rfl (.request (builds_at_point fun _ hq =>
    builds_fresh_insert hq "cmptmp" (i := (.less · x y)) (fun n => .refl [n])
      fun n => Operand.named n .i1)))

theorem builds_widen (x : Operand) (b : Backend) :
    Builds (if x.type = .i32 then none else some "booltmp") (widen x) b := by
  refine .bind rfl (.request (builds_at_point fun q hq => ?_))
  split
  · exact .idle fun _ => rfl
  · exact builds_fresh_insert hq "booltmp" (i := (.widen · x)) (fun n => .refl [n])
      fun n => Operand.named n .i32

theorem builds_call (f : FunctionId) (xs : List Operand) (b : Backend) :
    Builds (some "calltmp") (call f xs) b := by
  refine .bind rfl (.bind (mapM_reference xs b) (.request (builds_at_point fun q hq => ?_)))
  refine .bind rfl ?_
  split
  · exact builds_of_error rfl
  · exact builds_fresh_insert hq "calltmp" (i := (.call · f xs)) (fun n => .refl [n])
      fun n => Operand.named n .i32

theorem isTerminated_run (q : InsertionPoint) (b : Backend) : ∃ t, isTerminated q b = .ok t b := by
  cases q with
  | endOf f => exact ⟨_, rfl⟩
  | detached f block => exact ⟨_, rfl⟩

theorem builds_ret (x : Operand) (b : Backend) : Builds (some "") (ret x) b := by
  refine .bind rfl (.request (builds_at_point fun q hq => ?_))
  obtain ⟨b', hins, hbuilt⟩ := insert_run hq (i := .ret x) (List.nil_sublist _)
  obtain ⟨t, ht⟩ := isTerminated_run q ((b.requested _).withName q "")
  unfold Builds
  rw [bind_eq_ok (freshName_run _ q ""), bind_eq_ok ht]
  cases t with
  | true => exact .named hq rfl
  | false =>
    change Built _ _ _ (carriedOut (insert q (.ret x) _)) (ended (insert q (.ret x) _)).module
      (ended (insert q (.ret x) _)).point
    rw [hins]
    exact hbuilt

end Backend

theorem Construction.builds (c : Construction) (b : Backend) : Backend.Builds c.base? c.run b := by
  cases c with
  | constant v => exact .idle fun _ => rfl
  | arith op x y => exact (Backend.builds_arith op x y b).discard
  | less x y => exact (Backend.builds_less x y b).discard
  | widen x => exact (Backend.builds_widen x b).discard
  | call f xs => exact (Backend.builds_call f xs b).discard
  | ret x => exact Backend.builds_ret x b

namespace Backend

variable {b : Backend} {f : FunctionId}

theorem declare_effect (n : String) (k : Nat) (b : Backend) :
    Effect b.module b.point (.declare n k) (carriedOut (declare n k b))
      (ended (declare n k b)).module (ended (declare n k b)).point := by
  by_cases hn : n ∈ b.module.scope.used
  · obtain ⟨j, hj⟩ := declare_refused (Module.declare?_of_used hn k)
    rw [hj]
    exact .refused hn
  · obtain ⟨j, hj⟩ := declare_run (Module.declare?_of_free hn k)
    rw [hj]
    exact .declared hn

theorem enter_effect (f : FunctionId) (b : Backend) :
    Effect b.module b.point (.enter f) (carriedOut (enter f b)) (ended (enter f b)).module
      (ended (enter f b)).point := by
  have hrun : (ended (enter f b)).module =
      b.module.modify f fun _ => (b.module.get f).addBlock.2 := rfl
  have hm : (b.module.modify f fun _ => (b.module.get f).addBlock.2) =
      b.module.modify f fun x => x.addBlock.2 := Module.modify_congr rfl
  rw [hrun, hm]
  exact .entered

theorem clear_refused {n : String} (h : (b.module.get f).freshScope = .error n) :
    ∃ p j, clear f b = .error (.nameInUse n)
        { b with module := b.module.modify f Function.dropBlocks, point := p, journal := j } ∧
      (p = b.point ∨ ∃ block, b.point = some (.endOf f) ∧ p = some (.detached f block)) := by
  obtain ⟨p, hd, hp⟩ := detach_run (b.requested (.clear (b.module.functionReference f))) f
  have hfresh : ((b.module.modify f Function.dropBlocks).get f).freshScope = .error n := by
    rw [← h]
    exact Module.map_get_modify (k := Function.dropBlocks) Function.freshScope (fun _ => rfl) f f
  refine ⟨p, .request (.clear (b.module.functionReference f)) :: b.journal, ?_, hp⟩
  unfold clear
  rw [bind_eq_ok (functionReference_run b f), bind_eq_ok (request_run b _), bind_eq_ok hd,
    bind_eq_ok (modifyFunction_run _ f _), bind_eq_ok (function_run _ f)]
  simp only [requested, hfresh]
  rfl

theorem clear_effect (f : FunctionId) (b : Backend) :
    Effect b.module b.point (.clear f) (carriedOut (clear f b)) (ended (clear f b)).module
      (ended (clear f b)).point := by
  cases h : (b.module.get f).freshScope with
  | ok s =>
    obtain ⟨j, hj⟩ := clear_run h
    rw [hj]
    exact .cleared h
  | error n =>
    obtain ⟨p, j, hj, hp⟩ := clear_refused h
    rw [hj]
    exact .stripped h hp

end Backend

/-- Every operation does what its effect says. -/
theorem Operation.effect (o : Operation) (b : Backend) :
    Effect b.module b.point o (o.succeeds b) (o.after b).module (o.after b).point := by
  cases o with
  | declare n k =>
    obtain ⟨hok, hend⟩ := discard_run (Backend.declare n k) b
    rw [succeeds, after, run, hok, hend]
    exact Backend.declare_effect n k b
  | setParams f names => exact .renamed
  | enter f =>
    obtain ⟨hok, hend⟩ := discard_run (Backend.enter f) b
    rw [succeeds, after, run, hok, hend]
    exact Backend.enter_effect f b
  | build c => exact .built (c.builds b)
  | erase f => exact .erased
  | clear f => exact Backend.clear_effect f b

/-! ### What no operation changes -/

variable {o : Operation} {ok : Bool} {m' : Module} {p' : Option InsertionPoint} {f : FunctionId}

def Keeping (k : Function → Function) : Prop := ∀ x, (k x).name = x.name ∧ (k x).arity = x.arity

theorem exists_modify {k : Function → Function} (hk : Keeping k) :
    ∃ g j, Keeping j ∧ m.modify f k = m.modify g j :=
  ⟨f, k, hk, rfl⟩

theorem Built.module_cases {base? : Option String} (h : Built m p base? ok m' p') :
    m' = m ∨ ∃ f k, Keeping k ∧ m' = m.modify f k := by
  cases h with
  | idle => exact .inl rfl
  | named => exact .inr (exists_modify fun _ => ⟨rfl, rfl⟩)
  | placed => exact .inr (exists_modify fun _ => ⟨rfl, rfl⟩)
  | detached => exact .inr (exists_modify fun _ => ⟨rfl, rfl⟩)

theorem Effect.module_cases (h : Effect m p o ok m' p') :
    (m' = m ∨ ∃ f k, Keeping k ∧ m' = m.modify f k) ∨
      (∃ n k, n ∉ m.scope.used ∧ m' = m.enlarged (.declared n k)) ∨ ∃ f, m' = m.erase f := by
  cases h with
  | refused => exact .inl (.inl rfl)
  | declared hn => exact .inr (.inl ⟨_, _, hn, rfl⟩)
  | renamed =>
    exact .inl (.inr (exists_modify fun x => ⟨x.name_setParams _, x.arity_setParams _⟩))
  | entered => exact .inl (.inr (exists_modify fun _ => ⟨rfl, rfl⟩))
  | built h => exact .inl h.module_cases
  | erased => exact .inr (.inr ⟨_, rfl⟩)
  | cleared => exact .inl (.inr (exists_modify fun _ => ⟨rfl, rfl⟩))
  | stripped => exact .inl (.inr (exists_modify fun _ => ⟨rfl, rfl⟩))

theorem Effect.length_le (h : Effect m p o ok m' p') :
    m.functions.length ≤ m'.functions.length := by
  obtain (rfl | ⟨f, k, -, rfl⟩) | ⟨n, k, -, rfl⟩ | ⟨f, rfl⟩ := h.module_cases
  · exact Nat.le_refl _
  · exact Nat.le_of_eq (Module.length_modify m f k).symm
  · rw [Module.length_enlarged]
    exact Nat.le_succ _
  · exact Nat.le_of_eq (congrArg List.length (Module.functions_erase m f)).symm

theorem Effect.arity (h : Effect m p o ok m' p') (hf : f < m.functions.length) :
    (m'.get f).arity = (m.get f).arity := by
  obtain (rfl | ⟨g, k, hk, rfl⟩) | ⟨n, k, -, rfl⟩ | ⟨g, rfl⟩ := h.module_cases
  · rfl
  · exact Module.map_get_modify Function.arity (fun x => (hk x).2) g f
  · rw [Module.get_enlarged_of_lt hf]
  · rw [Module.get_erase]

theorem Effect.indexed (h : Effect m p o ok m' p') (hm : m.Indexed) : m'.Indexed := by
  obtain (rfl | ⟨g, k, hk, rfl⟩) | ⟨n, k, hn, rfl⟩ | ⟨g, rfl⟩ := h.module_cases
  · exact hm
  · exact hm.modify fun x => (hk x).1
  · exact hm.enlarged hn
  · exact hm.erase g

end

end ExprCompiler
