import ExprCompiler.Proofs.Growth
import ExprCompiler.Proofs.Using

/-!
# What is left of a body

Generating the code of an expression may stop in the middle, and then a part
of the code is there already. Each part is the code of an expression inside
it, so what holds of all emitted code holds of what is left.
-/

namespace ExprCompiler

open IR (FunctionId Instruction Module Operand Scope Typing)

def IR.Module.Own (m : Module) (f : FunctionId) (i : Instruction) : Prop :=
  (∀ g k, .param g k ∈ i.operands → g = f) ∧ ∀ c, i.callee? = some c → c < m.functions.length

namespace Generator

section

variable {α β : Type} {g : Generator} {m : Module} {f : FunctionId} {label : String}
  {R : Instruction → Prop}

def Leaves (g : Generator) (m : Module) (f : FunctionId) (label : String)
    (R : Instruction → Prop) (x : GeneratorM α) : Prop :=
  ∀ b s is stop g', x (g.building b m f s label is) = .error stop g' →
    ∃ t js j, g' = g.building { b with journal := j } m f t label (is ++ js) ∧ ∀ i ∈ js, R i

namespace Leaves

theorem nothing {x : GeneratorM α} (h : ∀ g', ∃ stop, x g' = .error stop g') :
    Leaves g m f label R x := by
  intro b s is stop g' hx
  obtain ⟨stop', hstop⟩ := h (g.building b m f s label is)
  rw [hstop] at hx
  cases hx
  exact ⟨s, [], b.journal, by simp, by simp⟩

theorem of_ok {x : GeneratorM α} {y : Emission α} (hx : Appends g m f label x y)
    (hy : ∀ s, ∃ z, y s = .ok z) : Leaves g m f label R x := by
  intro b s is stop g' h
  have hrun := hx b s is
  obtain ⟨z, hz⟩ := hy s
  rw [hz] at hrun
  obtain ⟨j, hj⟩ := hrun
  rw [hj] at h
  cases h

theorem bind {x : GeneratorM α} {k : α → GeneratorM β} {y : Emission α}
    (hx : Appends g m f label x y) (hl : Leaves g m f label R x)
    (hy : ∀ s z, y s = .ok z → ∀ i ∈ z.code, R i)
    (hk : ∀ s z, y s = .ok z → Leaves g m f label R (k z.value)) :
    Leaves g m f label R (x >>= k) := by
  intro b s is stop g' h
  have hrun := hx b s is
  cases hs : y s with
  | error stop' =>
    rw [hs] at hrun
    obtain ⟨t, js, j, hj⟩ := hrun
    rw [bind_eq_error hj] at h
    cases h
    exact hl b s is _ _ hj
  | ok z =>
    rw [hs] at hrun
    obtain ⟨j, hj⟩ := hrun
    rw [bind_eq_ok hj] at h
    obtain ⟨t, js, j', hg, hjs⟩ := hk s z hs _ _ _ _ _ h
    refine ⟨t, z.code ++ js, j', by rw [hg, List.append_assoc], fun i hi => ?_⟩
    rcases List.mem_append.1 hi with hi | hi
    · exact hy s z hs i hi
    · exact hjs i hi

theorem query {x : BackendM α} {a : α} {k : α → GeneratorM β}
    (h : ∀ (b : Backend) (s : Scope) (is : List Instruction),
      x (b.building m f s label is) = .ok a (b.building m f s label is))
    (hk : Leaves g m f label R (k a)) : Leaves g m f label R (onBackend x >>= k) := by
  intro b s is stop g' hx
  have hrun : onBackend x (g.building b m f s label is) = .ok a (g.building b m f s label is) := by
    simp only [onBackend, building, h b s is]
  rw [bind_eq_ok hrun] at hx
  exact hk b s is stop g' hx

theorem fail (e : SemanticError) : Leaves (α := α) g m f label R (semanticError e) :=
  .nothing fun _ => ⟨_, rfl⟩

end Leaves

theorem leaves_emitOperator (hf : f < m.functions.length) (op : String) (l r : Expr)
    (sp : Option Span) {a b : Operand} (ha : a.type = .i32) (hb : b.type = .i32) :
    Leaves g m f label R
      (match arithmetic.lookup op with
        | some i => onBackend (Backend.arith i a b)
        | none =>
          if op = "<" then do
            let bit ← onBackend (Backend.less a b)
            onBackend (Backend.widen bit)
          else semanticError (.invalidOperator op l r sp)) := by
  have happ : Appends g m f label _ _ := appends_emitOperator hf op l r sp ha hb
  cases ho : arithmetic.lookup op with
  | some o =>
    simp only [ho] at happ
    exact .of_ok happ fun s => ⟨_, by simp only [emitOperator, ho]; rfl⟩
  | none =>
    simp only [ho] at happ
    by_cases hlt : op = "<"
    · subst hlt
      exact .of_ok happ fun s => ⟨_, rfl⟩
    · simp only [hlt, if_false]
      exact .fail _

theorem leaves_parameter (n : String) (sp : Option Span) :
    Leaves g m f label R (parameter n sp) := by
  intro b s is stop g' h
  have hscope : (g.building b m f s label is).scope = g.scope := rfl
  rw [parameter, bind_eq_ok (get_eq_ok _)] at h
  cases hx : g.scope.lookup n with
  | some x =>
    simp only [hscope, hx] at h
    cases h
  | none =>
    simp only [hscope, hx] at h
    exact Leaves.fail _ b s is stop g' h

structure Makes (c : Site) (R : Instruction → Prop) : Prop where
  emit : ∀ e s y, emit c e s = .ok y → ∀ i ∈ y.code, R i
  emits : ∀ es s y, emits c es s = .ok y → ∀ i ∈ y.code, R i

theorem leaves_call (hf : f < m.functions.length) (hg : ∀ p ∈ g.scope, p.2.type = .i32)
    (hR : Makes ⟨signature m, g.scope⟩ R) (callee : String) (args : List Expr) (sp : Option Span)
    (hargs : Leaves g m f label R (expressions args)) :
    Leaves g m f label R (expression (.call callee args sp)) := by
  unfold expression
  refine .query (a := m.lookup callee) (fun _ _ _ => rfl) ?_
  cases m.lookup callee with
  | none => exact .fail _
  | some c =>
    refine .query (a := (m.get c).arity) (fun b s is => ?_) ?_
    · exact congrArg (fun n => EStateM.Result.ok n _) (Module.arity_get_withBody m f c s _)
    · by_cases hn : (m.get c).arity ≠ args.length
      · simp only [if_pos hn]
        exact .fail _
      · simp only [if_neg hn]
        refine .bind (appends_emits hf hg args) hargs (hR.emits args) fun s y hy => ?_
        obtain ⟨hl, ht⟩ := (type_emit hg).2 _ _ _ hy
        have hcall : Appends g m f label (onBackend (Backend.call c y.value))
            (.instruction "calltmp" (.call · c y.value) .i32) :=
          .instruction fun _ _ _ => Backend.call_building hf c ht ((not_not.1 hn).trans hl.symm)
        exact .of_ok hcall fun s => ⟨_, rfl⟩

mutual

theorem leaves_emit (hf : f < m.functions.length) (hg : ∀ p ∈ g.scope, p.2.type = .i32)
    (hR : Makes ⟨signature m, g.scope⟩ R) :
    (e : Expr) → Leaves g m f label R (expression e)
  | .number v sp => .of_ok (appends_emit hf hg (.number v sp)) fun s => ⟨_, rfl⟩
  | .var n sp => by
    unfold expression
    exact leaves_parameter n sp
  | .binary op l r sp => by
    unfold expression
    refine .bind (appends_emit hf hg l) (leaves_emit hf hg hR l) (hR.emit l) fun s y hy => ?_
    refine .bind (appends_emit hf hg r) (leaves_emit hf hg hR r) (hR.emit r) fun s z hz => ?_
    exact leaves_emitOperator hf op l r sp ((type_emit hg).1 _ _ _ hy) ((type_emit hg).1 _ _ _ hz)
  | .call callee args sp => leaves_call hf hg hR callee args sp (leaves_emits hf hg hR args)
  | .stray d => .nothing fun _ => ⟨_, rfl⟩

theorem leaves_emits (hf : f < m.functions.length) (hg : ∀ p ∈ g.scope, p.2.type = .i32)
    (hR : Makes ⟨signature m, g.scope⟩ R) :
    (es : List Expr) → Leaves g m f label R (expressions es)
  | [] => .of_ok (.pure []) fun s => ⟨_, rfl⟩
  | e :: es => by
    unfold expressions
    refine .bind (appends_emit hf hg e) (leaves_emit hf hg hR e) (hR.emit e) fun s y hy => ?_
    refine .bind (appends_emits hf hg es) (leaves_emits hf hg hR es) (hR.emits es) fun s z hz => ?_
    exact .of_ok (.pure _) fun s => ⟨_, rfl⟩

end

end

/-! ### Bodies -/

variable {m : Module} {f : FunctionId} {is : List Instruction} {known : Typing}

theorem own_of_straight (hi : m.Indexed) (h : m.Straight f known is) : ∀ i ∈ is, m.Own f i := by
  refine fun i hmem => ⟨fun g k hk => (h.of_param i hmem g k hk).1, fun c hc => ?_⟩
  exact hi.lt_of_lookup (h.lookup_callee c (List.mem_filterMap.2 ⟨i, hmem, hc⟩))

theorem makes_own (hi : m.Indexed) (names : List String) :
    Makes ⟨signature m, paramScope f (m.get f).arity names⟩ (m.Own f) := by
  have hstraight := straight_emit (m := m) (f := f)
    (c := ⟨signature m, paramScope f (m.get f).arity names⟩) mem_paramScope fun n g k hg => by
      obtain ⟨hl, ha⟩ := signature_eq_some.1 hg
      rw [hi.name_of_lookup hl]
      exact ⟨hl, ha.symm⟩
  exact ⟨fun e s y hy => own_of_straight hi (hstraight.1 e s y hy []).1,
    fun es s y hy => own_of_straight hi ((hstraight.2 es s y hy).1 []).1⟩

/-- Generating a body gives its function a block of its own code, whatever comes of it. -/
theorem body_remains (g : Generator) (d : Definition) (hi : g.backend.module.Indexed)
    (hf : f < g.backend.module.functions.length) (hb : (g.backend.module.get f).blocks = []) :
    ∃ t b fs, (∀ i ∈ b.instructions, g.backend.module.Own f i) ∧
      (ended (body f d g)).backend.module = (g.backend.module.withBody f t [b]).sealAll fs := by
  have hrun := body_run g f d hf hb
  cases he : emitBody g.backend.module f d with
  | ok q =>
    obtain ⟨t, b⟩ := q
    rw [he] at hrun
    have hown : ∀ i ∈ b.instructions, g.backend.module.Own f i := by
      obtain ⟨y, hy, -, rfl⟩ := emitBody_eq_ok he
      exact own_of_straight hi (straight_body hi hy [])
    obtain ⟨fs, es, j, ⟨hbody, -⟩ | ⟨e, hbody, -⟩⟩ := hrun
    · exact ⟨t, b, fs, hown, by rw [hbody]; rfl⟩
    · exact ⟨t, b, fs, hown, by rw [hbody]; rfl⟩
  | error stop =>
    -- The block is there, with the code of the expression up to where it stopped.
    obtain ⟨r, hstart⟩ := enter_body g f d hf hb
    have happ : Appends (g.entered f d) g.backend.module f
        ((g.backend.module.get f).scope.register "entry").1 (expression d.body) _ :=
      appends_emit hf type_paramScope d.body
    have hrest := happ (g.backend.requested r)
      ((g.backend.module.get f).scope.register "entry").2 []
    have hemit : emit ⟨signature g.backend.module, (g.entered f d).scope⟩ d.body
        ((g.backend.module.get f).scope.register "entry").2 = .error stop := by
      unfold emitBody at he
      simp only at he
      split at he
      · cases he
        assumption
      · cases he
    rw [hemit] at hrest
    obtain ⟨t, js, j, hx⟩ := hrest
    obtain ⟨t', js', j', hg', hjs⟩ := leaves_emit (g := g.entered f d) hf type_paramScope
      (makes_own hi _) d.body _ _ _ _ _ hx
    rw [hg'] at hx
    have hcode : code f d { g with scope := [], current := some f } = .error stop _ :=
      (hstart _).trans (bind_eq_error hx)
    refine ⟨t', ⟨((g.backend.module.get f).scope.register "entry").1, js'⟩, [], hjs, ?_⟩
    rw [body_eq, within_eq_error (bind_eq_error hcode)]
    rfl

end Generator

end ExprCompiler
