import ExprCompiler.Proofs.CallGraph
import ExprCompiler.Proofs.Simulation

/-!
# Running functions

A function that is run with arguments gives the value of its definition, if
the functions that it calls do. Functions that call only those behind them in
a row all have values, and no more depth or fuel is needed than the row is
long. A function that reaches itself, or a name without a definition, has no
value.
-/

namespace ExprCompiler

namespace IR.Module

variable {m : Module} {f a c : FunctionId} {fs : List FunctionId}

theorem Settled.closed (h : m.Settled [] fs) (ha : a ∈ fs) (hc : m.Calls a c) : c ∈ fs :=
  (h.call ha hc).resolve_right List.not_mem_nil

theorem resolve_eq_some (hi : m.Indexed) (hreg : ∀ g ∈ fs, g ∈ m.registered) (hf : f ∈ fs) :
    m.resolve fs f = some f := by
  obtain ⟨g, hg⟩ := Option.isSome_iff_exists.1
    (List.find?_isSome.2 ⟨f, hf, beq_self_eq_true (m.get f).name⟩ :
      (fs.find? fun g => (m.get g).name == (m.get f).name).isSome)
  have hname : (m.get g).name = (m.get f).name := by simpa using List.find?_some hg
  have hgf := hi.eq_of_name_eq (hreg g (List.mem_of_find?_eq_some hg)) (hreg f hf) hname
  rw [resolve, hg, hgf]

theorem operandValue_sealOperand (m : Module) (env : Env) (t : Ty) (x : Operand) :
    m.operandValue env t (m.sealOperand x) = m.operandValue env t x := by
  simp only [Module.operandValue, sealOperand_sealOperand]

theorem runBlock_map_seal (m : Module) (call : FunctionId → List Nat → Option Nat) (env : Env)
    (is : List Instruction) :
    m.runBlock call env (is.map (·.mapOperands m.sealOperand)) = m.runBlock call env is := by
  induction is generalizing env with
  | nil => rfl
  | cons i is ih =>
    rw [List.map_cons]
    generalize is.map (·.mapOperands m.sealOperand) = js at ih ⊢
    cases i <;> simp only [Instruction.mapOperands, runBlock, type_sealOperand,
      operandValue_sealOperand, List.mapM_map, Function.comp_def, ih]

end IR.Module

namespace Generator

open IR (Block FunctionId Instruction Module Operand resultNames)

variable {us : List TopLevel} {m : Module} {f a c : FunctionId} {d : Definition}

/-! ### One function -/

theorem lookup_paramScope {arity : Nat} {names : List String} {n : String} {x : Operand}
    (hlen : names.length = arity) (h : (paramScope f arity names).lookup n = some x) :
    ∃ i, ∃ hi : i < names.length, names[i] = n ∧ x = .param f i := by
  obtain ⟨l₁, l₂, hl, -⟩ := List.lookup_eq_some_iff.1 h
  have hmem : (n, x) ∈ paramScope f arity names := by
    rw [hl]
    simp
  obtain ⟨i, hi, he⟩ := List.mem_iff_getElem.1 (List.mem_reverse.1 hmem)
  simp only [List.getElem_zip, List.getElem_map, List.getElem_range, Prod.mk.injEq] at he
  refine ⟨i, ?_, he.1, he.2.symm⟩
  have hle := hi
  simp only [List.length_zip, List.length_map, List.length_range] at hle
  omega

theorem bound_params {names : List String} {xs : List (BitVec 32)} (hnodup : names.Nodup)
    (hlen : names.length = (m.get f).arity) (hxs : xs.length = (m.get f).arity) :
    Bound m ⟨signature m, paramScope f (m.get f).arity names⟩ (names.zip xs)
      ((m.get f).params.zip (xs.map BitVec.toNat)) := by
  intro n x hx
  obtain ⟨i, hi, hn, rfl⟩ := lookup_paramScope hlen hx
  have hix : i < xs.length := by omega
  have hip : i < (m.get f).params.length := by
    change i < (m.get f).arity
    omega
  refine ⟨xs[i], ?_, rfl, ?_⟩
  · apply IR.lookup_of_mem_of_nodup
    · rwa [List.map_fst_zip (by omega)]
    · refine List.mem_iff_getElem.2 ⟨i, by simp [hi, hix], ?_⟩
      simp [hn]
  · have hname : m.paramName f i = (m.get f).params[i] := by
      simp [Module.paramName, List.getElem?_eq_getElem hip]
    simp only [Module.sealOperand, hname]
    refine List.mem_iff_getElem.2 ⟨i, by simp [hip, hix], ?_⟩
    simp

theorem nodup_of_named {label : String} {y : Emitted Operand} (hn : (m.get f).Named)
    (hb : (m.get f).blocks = [⟨label, y.code ++ [.ret y.value]⟩] ∨
      (m.get f).blocks = [m.sealBlock ⟨label, y.code ++ [.ret y.value]⟩]) :
    ((m.get f).params ++ resultNames y.code).Nodup := by
  have hret : resultNames [.ret y.value] = [] := rfl
  have hbody : (m.get f).bodyNames = label :: resultNames y.code := by
    rcases hb with hb | hb
    · simp [IR.Function.bodyNames, hb, hret]
    · have hseal := IR.Module.bodyNames_sealed m
        { m.get f with blocks := [⟨label, y.code ++ [.ret y.value]⟩] }
      simpa [IR.Function.bodyNames, IR.Module.sealed, hb, hret] using hseal
  have hd := hn.nodup
  rw [IR.Function.localNames_eq, hbody] at hd
  exact hd.sublist ((List.sublist_cons_self label _).append_left _)

/-- A function that is run gives the value of its definition. -/
theorem Coded.runs {call : FunctionId → List Nat → Option Nat}
    {answer : String → List (BitVec 32) → Option (BitVec 32)} (hi : m.Indexed)
    (hn : (m.get f).Named) (h : Coded m f d)
    (hcalls : ∀ c, m.Calls f c → ∀ xs : List (BitVec 32), xs.length = (m.get c).arity →
      ∃ v, answer (m.get c).name xs = some v ∧ call c (xs.map BitVec.toNat) = some v.toNat)
    {xs : List (BitVec 32)} (hxs : xs.length = (m.get f).arity) :
    ∃ v entry, d.body.value answer (d.prototype.params.zip xs) = some v ∧
      (m.get f).blocks.head? = some entry ∧
      m.runBlock call ((m.get f).params.zip (xs.map BitVec.toNat)) entry.instructions =
        some v.toNat := by
  obtain ⟨s, label, y, hy, hb⟩ := h.code
  have hanswered : Answered ⟨signature m, paramScope f (m.get f).arity d.prototype.params⟩ answer call
      y.code := by
    intro g hg n k hk xs hlen
    obtain ⟨hl, ha⟩ := signature_eq_some.1 hk
    have hc : m.Calls f g := by
      rw [Module.Calls, Coded.callees_eq hb]
      exact hg
    have hv := hcalls g hc xs (hlen.trans ha.symm)
    rwa [hi.name_of_lookup hl] at hv
  have hbound := bound_params h.nodup h.arity hxs
  have henv : ((m.get f).params.zip (xs.map BitVec.toNat)).map Prod.fst = (m.get f).params := by
    refine List.map_fst_zip ?_
    rw [List.length_map, hxs]
    exact Nat.le_refl _
  have hd := nodup_of_named hn hb
  rw [← henv] at hd
  obtain ⟨v, new, hv, hbinds, hs⟩ := runs_emit.1 _ _ _ hy _ hbound hanswered hd
  have hnew : ((new ++ (m.get f).params.zip (xs.map BitVec.toNat)).map Prod.fst).Nodup := by
    have hnodup : ((new ++ (m.get f).params.zip (xs.map BitVec.toNat)).map Prod.fst ++
        resultNames []).Nodup := hbinds.nodup (by simpa using hd)
    exact (List.nodup_append.1 hnodup).1
  have hrun : m.runBlock call ((m.get f).params.zip (xs.map BitVec.toNat))
      (y.code ++ [.ret y.value]) = some v.toNat := by
    rw [hbinds.runs]
    exact hs.operandValue hnew
  rcases hb with hb | hb
  · exact ⟨v, _, hv, by rw [hb]; rfl, hrun⟩
  · refine ⟨v, _, hv, by rw [hb]; rfl, ?_⟩
    exact (Module.runBlock_map_seal m call _ _).trans hrun

/-! ### Rows of functions -/

theorem Sound.linked (h : Sound us m) : m.Linked := by
  refine ⟨h.indexed, fun a ha c hc => ?_⟩
  have hl := (h.wellFormed ha).lookup_callee c hc
  exact Module.mem_registered_of_lookup hl

theorem Sound.run {fs row : List FunctionId} (h : Sound us m) (hreg : ∀ a ∈ fs, a ∈ m.registered)
    (hrow : ∀ a ∈ row, a ∈ fs) (hb : ∀ a ∈ row, (m.get a).hasBody = true)
    (hsettled : m.Settled [] row) :
    ∀ a ∈ row, ∀ n, row.length ≤ n → ∀ xs : List (BitVec 32), xs.length = (m.get a).arity →
      ∃ v, invoke (latest us) n (m.get a).name xs = some v ∧
        m.run fs n a (xs.map BitVec.toNat) = some v.toNat := by
  induction row with
  | nil =>
    intro a ha
    cases ha
  | cons a row ih =>
    have hrest := ih (fun b hb => hrow b (List.mem_cons_of_mem _ hb))
      (fun b hbm => hb b (List.mem_cons_of_mem _ hbm)) hsettled.2
    intro b hbm n hn xs hxs
    rw [List.length_cons] at hn
    obtain ⟨n, rfl⟩ := Nat.exists_eq_succ_of_ne_zero (Nat.ne_of_gt (Nat.lt_of_lt_of_le (Nat.succ_pos _) hn))
    rcases List.mem_cons.1 hbm with rfl | hbm
    · have hbf := hrow b List.mem_cons_self
      have hbreg := hreg b hbf
      obtain ⟨d, hd, hcoded⟩ := h.coded b hbreg (hb b List.mem_cons_self)
      have hcalls : ∀ c, m.Calls b c → ∀ ys : List (BitVec 32), ys.length = (m.get c).arity →
          ∃ v, invoke (latest us) n (m.get c).name ys = some v ∧
            m.run fs n c (ys.map BitVec.toNat) = some v.toNat := by
        intro c hc ys hys
        rcases hsettled.1 c hc with hcm | hcm
        · exact hrest c hcm n (Nat.le_of_succ_le_succ hn) ys hys
        · cases hcm
      obtain ⟨v, entry, hv, hentry, hrun⟩ := hcoded.runs h.indexed (h.named b hbreg) hcalls hxs
      refine ⟨v, ?_, ?_⟩
      · have harity : d.prototype.arity = xs.length := hcoded.arity.trans hxs.symm
        exact invoke_eq_some.2 ⟨d, hd, harity, hv⟩
      · have hresolve := Module.resolve_eq_some h.indexed hreg hbf
        simp only [Module.run, hresolve, hentry, Option.bind_eq_bind, Option.bind_some, hrun]
    · exact hrest b hbm (n + 1) (by omega) xs hxs

/-! ### Functions without a value -/

theorem Sound.invoke_callee (h : Sound us m) (ha : a ∈ m.registered) (hc : m.Calls a c) {n : Nat}
    {xs : List (BitVec 32)} {v : BitVec 32}
    (hv : invoke (latest us) n (m.get a).name xs = some v) :
    ∃ k < n, ∃ ys w, invoke (latest us) k (m.get c).name ys = some w := by
  have hb : (m.get a).hasBody = true := by
    by_contra hn
    have hblocks : (m.get a).blocks = [] := IR.Function.blocks_eq_nil hn
    simp [Module.Calls, IR.Function.callees, IR.Function.instructions, hblocks] at hc
  obtain ⟨d, hd, hcoded⟩ := h.coded a ha hb
  obtain ⟨s, label, y, hy, hblocks⟩ := hcoded.code
  cases n with
  | zero => cases hv
  | succ n =>
    obtain ⟨e, he, -, hbody⟩ := invoke_eq_some.1 hv
    cases hd.symm.trans he
    rw [Module.Calls, Coded.callees_eq hblocks] at hc
    obtain ⟨k, l, ys, w, hk, hw⟩ := calls_of_value.1 _ _ _ hy v hbody c hc
    have hname := h.indexed.name_of_lookup (signature_eq_some.1 hk).1
    exact ⟨n, Nat.lt_succ_self n, ys, w, by rwa [hname]⟩

theorem Sound.invoke_reaches (h : Sound us m) (ha : a ∈ m.registered) (hc : m.Reaches a c) {n : Nat}
    {xs : List (BitVec 32)} {v : BitVec 32}
    (hv : invoke (latest us) n (m.get a).name xs = some v) :
    c ∈ m.registered ∧ ∃ k ≤ n, ∃ ys w, invoke (latest us) k (m.get c).name ys = some w := by
  induction hc with
  | refl => exact ⟨ha, n, Nat.le_refl n, xs, v, hv⟩
  | tail _ hcall ih =>
    obtain ⟨hb, k, hk, ys, w, hw⟩ := ih
    obtain ⟨l, hl, zs, u, hu⟩ := h.invoke_callee hb hcall hw
    exact ⟨h.linked.closed _ hb _ hcall, l, by omega, zs, u, hu⟩

theorem Sound.no_value_of_cycle (h : Sound us m) (ha : a ∈ m.registered)
    (hc : Relation.TransGen m.Calls a a) (n : Nat) (xs : List (BitVec 32)) :
    invoke (latest us) n (m.get a).name xs = none := by
  induction n using Nat.strong_induction_on generalizing xs with
  | _ n ih =>
    by_contra hne
    obtain ⟨v, hv⟩ := Option.ne_none_iff_exists'.1 hne
    obtain ⟨b, hab, hba⟩ := Relation.TransGen.head'_iff.1 hc
    obtain ⟨k, hk, ys, w, hw⟩ := h.invoke_callee ha hab hv
    have hb := h.linked.closed a ha b hab
    obtain ⟨-, l, hl, zs, u, hu⟩ := h.invoke_reaches hb hba hw
    rw [ih l (by omega) zs] at hu
    cases hu

end Generator

end ExprCompiler
