import ExprCompiler.IR.Semantics
import ExprCompiler.Proofs.Meaning

/-!
# Running the code of an expression

Running the code of an expression binds new names and nothing else, and its
operand stands for the value of the expression from then on. The calls in the
code are answered as the calls in the expression are.
-/

namespace ExprCompiler

namespace IR

/-! ### Numbers -/

theorem wrap_eq_toNat (v : Int) : wrap 32 v = (BitVec.ofInt 32 v).toNat := by
  rw [BitVec.toNat_ofInt]
  rfl

theorem signed_toNat (x : BitVec 32) : signed 32 x.toNat = x.toInt := by
  have hhalf : pow2 (32 - 1) = 2147483648 := rfl
  have hfull : pow2 32 = 4294967296 := rfl
  rw [BitVec.toInt_eq_toNat_cond, signed, hhalf, hfull]
  split <;> split <;> omega

theorem Arith.apply_toNat {op : String} {o : Arith} (ho : Generator.arithmetic.lookup op = some o)
    (x y : BitVec 32) :
    ∃ v, operation op x y = some v ∧ o.apply 32 x.toNat y.toNat = v.toNat := by
  obtain ⟨l₁, l₂, hl, -⟩ := List.lookup_eq_some_iff.1 ho
  have hmem : (op, o) ∈ Generator.arithmetic := by
    rw [hl]
    simp
  simp only [Generator.arithmetic, List.mem_cons, Prod.mk.injEq, List.not_mem_nil, or_false] at hmem
  rcases hmem with ⟨rfl, rfl⟩ | ⟨rfl, rfl⟩ | ⟨rfl, rfl⟩
  · refine ⟨x + y, rfl, ?_⟩
    have hadd : BitVec.ofInt 32 ((x.toNat : Int) + y.toNat) = x + y := by simp [BitVec.ofInt_add]
    rw [Arith.apply, wrap_eq_toNat, hadd]
  · refine ⟨x - y, rfl, ?_⟩
    have hsub : BitVec.ofInt 32 ((x.toNat : Int) - y.toNat) = x - y := by
      apply BitVec.eq_of_toNat_eq
      rw [BitVec.toNat_ofInt, BitVec.toNat_sub]
      omega
    rw [Arith.apply, wrap_eq_toNat, hsub]
  · refine ⟨x * y, rfl, ?_⟩
    have hmul : BitVec.ofInt 32 ((x.toNat : Int) * y.toNat) = x * y := by simp [BitVec.ofInt_mul]
    rw [Arith.apply, wrap_eq_toNat, hmul]

namespace Module

/-! ### Operands -/

variable {m : Module} {env env' : Env} {x : Operand} {v : BitVec 32}

def Stands (m : Module) (env : Env) (x : Operand) (v : BitVec 32) : Prop :=
  x.type = .i32 ∧
    match m.sealOperand x with
    | .const w => v = BitVec.ofInt 32 w
    | .named n _ => (n, v.toNat) ∈ env
    | .param .. => False

theorem Stands.mono (hsub : env ⊆ env') (h : m.Stands env x v) : m.Stands env' x v := by
  refine ⟨h.1, ?_⟩
  have hv := h.2
  cases hx : m.sealOperand x with
  | const w => rwa [hx] at hv
  | named n t =>
    rw [hx] at hv
    exact hsub hv
  | param g i =>
    rw [hx] at hv
    exact hv

theorem Stands.operandValue (hd : (env.map Prod.fst).Nodup) (h : m.Stands env x v) :
    m.operandValue env x.type x = some v.toNat := by
  obtain ⟨ht, hv⟩ := h
  unfold Module.operandValue
  cases hx : m.sealOperand x with
  | const w =>
    rw [hx] at hv
    rw [hv, ht]
    exact congrArg some (wrap_eq_toNat w)
  | named n t =>
    rw [hx] at hv
    exact lookup_of_mem_of_nodup hd hv
  | param g i =>
    rw [hx] at hv
    cases hv

theorem mapM_operandValue (hd : (env.map Prod.fst).Nodup) {xs : List Operand}
    {vs : List (BitVec 32)} (h : List.Forall₂ (m.Stands env) xs vs) :
    xs.mapM (fun a => m.operandValue env a.type a) = some (vs.map BitVec.toNat) := by
  induction h with
  | nil => rfl
  | cons hx _ ih =>
    rw [List.mapM_cons, hx.operandValue hd, ih]
    rfl

/-! ### Code that binds names -/

variable {call : FunctionId → List Nat → Option Nat} {is js : List Instruction} {new new' : Env}

structure Binds (m : Module) (call : FunctionId → List Nat → Option Nat) (env : Env)
    (is : List Instruction) (new : Env) : Prop where
  names : new.map Prod.fst = (resultNames is).reverse
  runs : ∀ rest, m.runBlock call env (is ++ rest) = m.runBlock call (new ++ env) rest

namespace Binds

theorem nil : m.Binds call env [] [] := ⟨rfl, fun _ => rfl⟩

theorem append (h : m.Binds call env is new) (h' : m.Binds call (new ++ env) js new') :
    m.Binds call env (is ++ js) (new' ++ new) := by
  refine ⟨?_, fun rest => ?_⟩
  · rw [List.map_append, h.names, h'.names, resultNames_append, List.reverse_append]
  · rw [List.append_assoc, h.runs, h'.runs, List.append_assoc]

theorem nodup (h : m.Binds call env is new)
    (hd : (env.map Prod.fst ++ resultNames (is ++ js)).Nodup) :
    ((new ++ env).map Prod.fst ++ resultNames js).Nodup := by
  rw [List.map_append, h.names]
  rw [resultNames_append, ← List.append_assoc] at hd
  have hperm : ((resultNames is).reverse ++ env.map Prod.fst).Perm
      (env.map Prod.fst ++ resultNames is) :=
    (List.perm_append_comm).trans ((List.reverse_perm _).append_left _)
  exact (hperm.append_right _).nodup_iff.2 hd

theorem stands_result (m : Module) (env : Env) (n : String) (v : BitVec 32) :
    m.Stands ((n, v.toNat) :: env) (.named n .i32) v := ⟨rfl, List.mem_cons_self⟩

theorem of_arith {o : Arith} {r : String} {a b : Operand} {x y v : BitVec 32}
    (hd : (env.map Prod.fst).Nodup) (ha : m.Stands env a x) (hb : m.Stands env b y)
    (hv : o.apply 32 x.toNat y.toNat = v.toNat) :
    m.Binds call env [.arith o r a b] [(r, v.toNat)] := by
  refine ⟨rfl, fun rest => ?_⟩
  have hx := ha.operandValue hd
  have hy := hb.operandValue hd
  rw [hb.1, ← ha.1] at hy
  have hwidth : a.type.width = 32 := by rw [ha.1]; rfl
  simp only [List.cons_append, List.nil_append, runBlock, hx, hy, hwidth, hv, Option.bind_eq_bind,
    Option.bind_some]

theorem of_less (call : FunctionId → List Nat → Option Nat) {r n : String} {a b : Operand} {x y : BitVec 32}
    (hd : (env.map Prod.fst ++ [r]).Nodup) (ha : m.Stands env a x) (hb : m.Stands env b y) :
    ∃ new, m.Binds call env [.less r a b, .widen n (.named r .i1)] new ∧
      m.Stands (new ++ env) (.named n .i32) (if x < y then 1 else 0) := by
  have henv := (List.nodup_append.1 hd).1
  have hx := ha.operandValue henv
  have hy := hb.operandValue henv
  rw [hb.1, ← ha.1] at hy
  have hbit : ((if x < y then 1 else 0 : BitVec 32)).toNat = if x.toNat < y.toNat then 1 else 0 := by
    have hlt : x < y ↔ x.toNat < y.toNat := BitVec.lt_def
    by_cases h : x < y
    · rw [if_pos h, if_pos (hlt.1 h)]
      rfl
    · rw [if_neg h, if_neg fun hn => h (hlt.2 hn)]
      rfl
  have hwiden (k : Nat) :
      m.operandValue ((r, k) :: env) .i1 (.named r .i1) = some k := by
    simp [Module.operandValue, sealOperand]
  generalize (if x < y then 1 else 0 : BitVec 32) = v at hbit
  refine ⟨[(n, v.toNat), (r, v.toNat)], ⟨rfl, fun rest => ?_⟩, stands_result m _ n v⟩
  have htype : (Operand.named r .i1).type = .i1 := rfl
  simp only [List.cons_append, List.nil_append, runBlock, hx, hy, ← hbit, htype, hwiden,
    Option.bind_eq_bind, Option.bind_some]

theorem of_call {g : FunctionId} {r : String} {xs : List Operand} {vs : List (BitVec 32)}
    {w : BitVec 32} (hd : (env.map Prod.fst).Nodup) (hxs : List.Forall₂ (m.Stands env) xs vs)
    (hw : call g (vs.map BitVec.toNat) = some w.toNat) :
    m.Binds call env [.call r g xs] [(r, w.toNat)] := by
  refine ⟨rfl, fun rest => ?_⟩
  have hvs := mapM_operandValue hd hxs
  simp only [List.cons_append, List.nil_append, runBlock, hvs, hw, Option.bind_eq_bind,
    Option.bind_some]

end Binds

end Module

end IR

namespace Generator

open IR (Arith Env FunctionId Instruction Module Operand resultNames)

variable {m : Module} {c : Site} {b : Bindings} {call : FunctionId → List Nat → Option Nat}
  {answer : String → List (BitVec 32) → Option (BitVec 32)}

def Answered (c : Site) (answer : String → List (BitVec 32) → Option (BitVec 32))
    (call : FunctionId → List Nat → Option Nat) (is : List Instruction) : Prop :=
  ∀ g ∈ is.filterMap Instruction.callee?, ∀ n k, c.callees n = some (g, k) →
    ∀ xs : List (BitVec 32), xs.length = k →
      ∃ v, answer n xs = some v ∧ call g (xs.map BitVec.toNat) = some v.toNat

theorem answered_append {is js : List Instruction} :
    Answered c answer call (is ++ js) ↔ Answered c answer call is ∧ Answered c answer call js := by
  simp only [Answered, List.filterMap_append, List.mem_append, or_imp, forall_and]

def Bound (m : Module) (c : Site) (b : Bindings) (env : Env) : Prop :=
  ∀ n x, c.params.lookup n = some x → ∃ v, b.lookup n = some v ∧ m.Stands env x v

theorem Bound.mono {env env' : Env} (hsub : env ⊆ env') (h : Bound m c b env) :
    Bound m c b env' := by
  intro n x hx
  obtain ⟨v, hv, hs⟩ := h n x hx
  exact ⟨v, hv, hs.mono hsub⟩

theorem nodup_of_append {ns : List String} {is js : List Instruction}
    (h : (ns ++ resultNames (is ++ js)).Nodup) : (ns ++ resultNames is).Nodup := by
  rw [IR.resultNames_append, ← List.append_assoc] at h
  exact (List.nodup_append.1 h).1

theorem runs_emitOperator {op : String} {l r : Expr} {sp : Option Span} {x y : Operand} {s : IR.Scope}
    {w : Emitted Operand} {u v : BitVec 32} {env : Env}
    (h : emitOperator op l r sp x y s = .ok w) (hx : m.Stands env x u) (hy : m.Stands env y v)
    (hd : (env.map Prod.fst ++ resultNames w.code).Nodup) :
    ∃ z new, operation op u v = some z ∧ m.Binds call env w.code new ∧
      m.Stands (new ++ env) w.value z := by
  obtain ⟨o, ho, rfl⟩ | ⟨rfl, t, bit, n, -, -, -, rfl⟩ := emitOperator_eq_ok h
  · obtain ⟨z, hz, happly⟩ := Arith.apply_toNat ho u v
    have henv := (List.nodup_append.1 hd).1
    exact ⟨z, _, hz, .of_arith henv hx hy happly, rfl, List.mem_cons_self⟩
  · have hbit : (env.map Prod.fst ++ [bit]).Nodup := by
      refine hd.sublist (List.Sublist.append_left ?_ _)
      exact List.singleton_sublist.2 List.mem_cons_self
    obtain ⟨new, hbinds, hs⟩ := Module.Binds.of_less call (n := n) hbit hx hy
    exact ⟨if u < v then 1 else 0, new, rfl, hbinds, hs⟩

/-- Running the code of an expression computes its value. -/
theorem runs_emit :
    (∀ e s y, emit c e s = .ok y → ∀ env, Bound m c b env → Answered c answer call y.code →
      (env.map Prod.fst ++ resultNames y.code).Nodup →
      ∃ v new, e.value answer b = some v ∧ m.Binds call env y.code new ∧
        m.Stands (new ++ env) y.value v) ∧
    (∀ es s y, emits c es s = .ok y → ∀ env, Bound m c b env → Answered c answer call y.code →
      (env.map Prod.fst ++ resultNames y.code).Nodup →
      ∃ vs new, Expr.values answer b es = some vs ∧ vs.length = es.length ∧
        m.Binds call env y.code new ∧ List.Forall₂ (m.Stands (new ++ env)) y.value vs) := by
  apply emit_induction
    (P := fun e _ y => ∀ env, Bound m c b env → Answered c answer call y.code →
      (env.map Prod.fst ++ resultNames y.code).Nodup →
      ∃ v new, e.value answer b = some v ∧ m.Binds call env y.code new ∧
        m.Stands (new ++ env) y.value v)
    (Q := fun es _ y => ∀ env, Bound m c b env → Answered c answer call y.code →
      (env.map Prod.fst ++ resultNames y.code).Nodup →
      ∃ vs new, Expr.values answer b es = some vs ∧ vs.length = es.length ∧
        m.Binds call env y.code new ∧ List.Forall₂ (m.Stands (new ++ env)) y.value vs)
  case number => exact fun v sp s env hb ha hd => ⟨_, [], rfl, .nil, rfl, rfl⟩
  case var =>
    intro n sp s x hx env hb ha hd
    obtain ⟨v, hv, hs⟩ := hb n x hx
    exact ⟨v, [], hv, .nil, hs⟩
  case operator =>
    intro op l r sp s y z w hy hz hw env hb ha hd
    obtain ⟨hay, ha⟩ := answered_append.1 ha
    obtain ⟨haz, -⟩ := answered_append.1 ha
    obtain ⟨u, new, hu, hbinds, hs⟩ := hy env hb hay (nodup_of_append hd)
    have hdz := hbinds.nodup hd
    have hsub : env ⊆ new ++ env := List.subset_append_right new env
    obtain ⟨v, new', hv, hbinds', hs'⟩ := hz (new ++ env) (hb.mono hsub) haz (nodup_of_append hdz)
    -- The value of the left operand is still there when the right one has been computed.
    have hleft := hs.mono (List.subset_append_right new' (new ++ env))
    obtain ⟨x, new'', hx, hop, hs''⟩ := runs_emitOperator hw hleft hs' (hbinds'.nodup hdz)
    refine ⟨x, _, ?_, hbinds.append (hbinds'.append hop), ?_⟩
    · simp only [Expr.value, hu, hv, hx, Option.bind_eq_bind, Option.bind_some]
    · simpa only [List.append_assoc] using hs''
  case call =>
    intro callee args sp f s y hf hy env hb ha hd
    obtain ⟨hay, hcall⟩ := answered_append.1 ha
    obtain ⟨xs, new, hxs, hlen, hbinds, hs⟩ := hy env hb hay (nodup_of_append hd)
    obtain ⟨v, hv, hw⟩ := hcall f (by simp [Instruction.callee?]) callee args.length hf xs hlen
    have hdo := (List.nodup_append.1 (hbinds.nodup hd)).1
    have hop := Module.Binds.of_call (r := (y.scope.register "calltmp").1) hdo hs hw
    refine ⟨v, _, ?_, hbinds.append hop, ⟨rfl, List.mem_cons_self⟩⟩
    simp only [Expr.value, hxs, hv, Option.bind_eq_bind, Option.bind_some]
  case nil => exact fun s env hb ha hd => ⟨[], [], rfl, rfl, .nil, .nil⟩
  case cons =>
    intro e es s y z hy hz env hb ha hd
    obtain ⟨hay, haz⟩ := answered_append.1 ha
    obtain ⟨x, new, hx, hbinds, hs⟩ := hy env hb hay (nodup_of_append hd)
    have hsub : env ⊆ new ++ env := List.subset_append_right new env
    obtain ⟨xs, new', hxs, hlen, hbinds', hs'⟩ :=
      hz (new ++ env) (hb.mono hsub) haz (hbinds.nodup hd)
    refine ⟨x :: xs, _, ?_, by simp [hlen], hbinds.append hbinds', ?_⟩
    · simp only [Expr.values, hx, hxs, Option.bind_eq_bind, Option.bind_some, Option.pure_def]
    · rw [List.append_assoc]
      exact .cons (hs.mono (List.subset_append_right new' _)) hs'

end Generator

end ExprCompiler
