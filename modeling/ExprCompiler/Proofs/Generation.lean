import ExprCompiler.Proofs.Emission

/-!
# Generating a unit

What generating a unit can do to a module: nothing, or enter or rename a
declaration, or give a function its body, or take a failed definition back.
-/

namespace ExprCompiler.Generator

open IR (Block Function FunctionId Instruction Module Operand Scope)

/-! ### Prototypes -/

def introduce (m : Module) (p : Prototype) : Except GeneratorStop (FunctionId × Module) :=
  match firstDuplicate [] p.params with
  | some n => .error (.failed (.semantic (.duplicateParameter p n)))
  | none =>
    match m.lookup p.name with
    | none =>
      match m.declare? p.name p.arity with
      | none => .error (.refused (.nameInUse p.name))
      | some (f, m) => .ok (f, m.modify f (·.setParams p.params))
    | some f =>
      if (m.get f).arity ≠ p.arity then
        .error (.failed (.semantic (.arityRedefinition p (m.get f).arity)))
      else .ok (f, if (m.get f).hasBody then m else m.modify f (·.setParams p.params))

def onModule (g : Generator) (m : Module) (j : List JournalEntry) : Generator :=
  { g with backend := g.backend.onModule m j }

theorem onBackend_eq_ok {α : Type} {x : BackendM α} {g : Generator} {a : α} {b : Backend}
    (h : x g.backend = .ok a b) : onBackend x g = .ok a { g with backend := b } := by
  simp only [onBackend, h]

theorem onBackend_eq_error {α : Type} {x : BackendM α} {g : Generator} {e : Misuse} {b : Backend}
    (h : x g.backend = .error e b) :
    onBackend x g = .error (.refused e) { g with backend := b } := by
  simp only [onBackend, h]

section

variable (g : Generator) (f : FunctionId)

theorem lookup_run (n : String) :
    onBackend (Backend.lookup n) g = .ok (g.backend.module.lookup n) g := rfl

theorem hasBody_run : onBackend (Backend.hasBody f) g = .ok (g.backend.module.get f).hasBody g := rfl

theorem arity_run : onBackend (Backend.arity f) g = .ok (g.backend.module.get f).arity g := rfl

theorem parameters_run : onBackend (Backend.parameters f) g =
    .ok ((List.range (g.backend.module.get f).arity).map (Operand.param f)) g := rfl

theorem setParams_run (names : List String) : ∃ j, onBackend (Backend.setParams f names) g =
    .ok () (g.onModule (g.backend.module.modify f (·.setParams names)) j) := by
  obtain ⟨j, hj⟩ := Backend.setParams_run g.backend f names
  exact ⟨j, onBackend_eq_ok hj⟩

end

theorem prototype_run (g : Generator) (p : Prototype) :
    match introduce g.backend.module p with
    | .ok (f, m) => ∃ j, prototype p g = .ok f (g.onModule m j)
    | .error stop => ∃ j, prototype p g = .error stop (g.onModule g.backend.module j) := by
  unfold introduce prototype
  cases hd : firstDuplicate [] p.params with
  | some n => exact ⟨g.backend.journal, rfl⟩
  | none =>
    simp only [pure_bind]
    rw [bind_eq_ok (lookup_run g p.name)]
    cases hl : g.backend.module.lookup p.name with
    | none =>
      simp only
      cases hdec : g.backend.module.declare? p.name p.arity with
      | none =>
        obtain ⟨j, hj⟩ := Backend.declare_refused hdec
        exact ⟨j, bind_eq_error (onBackend_eq_error hj)⟩
      | some q =>
        obtain ⟨f, m⟩ := q
        obtain ⟨j, hj⟩ := Backend.declare_run hdec
        obtain ⟨k, hk⟩ := setParams_run (g.onModule m j) f p.params
        obtain ⟨rfl, rfl, -⟩ := Module.eq_enlarged_of_declare? hdec
        have hnone : ((g.backend.module.enlarged (.declared p.name p.arity)).get
            g.backend.module.functions.length).hasBody = false := by
          rw [Module.get_enlarged_self]
          rfl
        have hb : onBackend (Backend.hasBody _) (g.onModule _ j) = .ok false (g.onModule _ j) :=
          (hasBody_run _ _).trans (congrArg (EStateM.Result.ok · _) hnone)
        refine ⟨k, ?_⟩
        rw [bind_eq_ok (onBackend_eq_ok hj)]
        exact (bind_eq_ok hb).trans (bind_eq_ok hk)
    | some f =>
      simp only
      rw [bind_eq_ok (arity_run g f)]
      by_cases ha : (g.backend.module.get f).arity ≠ p.arity
      · simp only [if_pos ha]
        exact ⟨g.backend.journal, rfl⟩
      · simp only [if_neg ha]
        rw [bind_eq_ok (hasBody_run g f)]
        by_cases hb : (g.backend.module.get f).hasBody = true
        · simp only [hb, if_true]
          exact ⟨g.backend.journal, rfl⟩
        · obtain ⟨k, hk⟩ := setParams_run g f p.params
          simp only [hb]
          exact ⟨k, bind_eq_ok hk⟩

theorem firstDuplicate_eq_none_iff {seen ns : List String} :
    firstDuplicate seen ns = none ↔ ns.Nodup ∧ ∀ n ∈ ns, n ∉ seen := by
  induction ns generalizing seen with
  | nil => simp [firstDuplicate]
  | cons n ns ih =>
    unfold firstDuplicate
    by_cases hn : n ∈ seen
    · simp [hn]
    · have hc : seen.contains n = false := by simpa using hn
      rw [hc]
      simp only [Bool.false_eq_true, if_false, ih, List.nodup_cons, List.mem_cons, forall_eq_or_imp]
      grind

theorem introduce_cases {m m' : Module} {p : Prototype} {f : FunctionId}
    (h : introduce m p = .ok (f, m')) :
    p.params.Nodup ∧
    ((m.lookup p.name = none ∧ p.name ∉ m.scope.used ∧ f = m.functions.length ∧
        m' = m.enlarged ((Function.declared p.name p.arity).setParams p.params)) ∨
      (m.lookup p.name = some f ∧ (m.get f).arity = p.arity ∧
        m' = if (m.get f).hasBody then m else m.modify f (·.setParams p.params))) := by
  unfold introduce at h
  cases hd : firstDuplicate [] p.params with
  | some n =>
    rw [hd] at h
    cases h
  | none =>
    refine ⟨(firstDuplicate_eq_none_iff.1 hd).1, ?_⟩
    simp only [hd] at h
    cases hl : m.lookup p.name with
    | none =>
      simp only [hl] at h
      cases hdec : m.declare? p.name p.arity with
      | none =>
        rw [hdec] at h
        cases h
      | some q =>
        obtain ⟨c, m₁⟩ := q
        simp only [hdec] at h
        obtain ⟨rfl, rfl, hfree⟩ := Module.eq_enlarged_of_declare? hdec
        cases h
        refine Or.inl ⟨rfl, hfree, rfl, ?_⟩
        exact Module.modify_enlarged m (by simp)
    | some c =>
      simp only [hl] at h
      by_cases ha : (m.get c).arity ≠ p.arity
      · rw [if_pos ha] at h
        cases h
      · rw [if_neg ha] at h
        cases h
        exact Or.inr ⟨rfl, not_not.1 ha, rfl⟩

def Bodiless (m : Module) (n : String) : Prop := ∀ f, m.lookup n = some f → (m.get f).hasBody = false

theorem introduce_function {m m' : Module} {p : Prototype} {f : FunctionId} (hi : m.Indexed)
    (hn : ∀ f ∈ m.registered, (m.get f).Named) (h : introduce m p = .ok (f, m')) :
    f < m'.functions.length ∧ m'.lookup p.name = some f ∧ (m'.get f).arity = p.arity ∧
      (m'.get f).Named ∧ (Bodiless m p.name → (m'.get f).blocks = []) := by
  obtain ⟨-, ⟨hl, -, rfl, rfl⟩ | ⟨hl, ha, rfl⟩⟩ := introduce_cases h
  · have hlen : (Function.declared p.name p.arity).params.length = p.params.length :=
      Function.arity_declared p.name p.arity
    refine ⟨by simp, by simp [Module.lookup_enlarged, hl], by simp, ?_, fun _ => by simp⟩
    rw [Module.get_enlarged_self]
    exact (Function.named_declared _ _).setParams (Nat.le_of_eq hlen)
  · have hf := hi.lt_of_lookup hl
    have hreg : f ∈ m.registered := Module.mem_registered_of_lookup hl
    by_cases hb : (m.get f).hasBody = true
    · simp only [hb, if_true]
      refine ⟨hf, hl, ha, hn f hreg, fun hless => ?_⟩
      rw [hless f hl] at hb
      cases hb
    · simp only [hb]
      have hblocks : (m.get f).blocks = [] := Function.blocks_eq_nil hb
      refine ⟨by simpa using hf, by simpa using hl, ?_, ?_, fun _ => ?_⟩ <;>
        simp only [Bool.false_eq_true, if_false, Module.get_modify_self _ hf]
      · simpa using ha
      · exact (hn f hreg).setParams (Nat.le_of_eq ha)
      · simpa using hblocks

/-! ### Bodies -/

def paramScope (f : FunctionId) (arity : Nat) (names : List String) : List (String × Operand) :=
  (names.zip ((List.range arity).map (Operand.param f))).reverse

theorem type_paramScope {f : FunctionId} {arity : Nat} {names : List String} :
    ∀ p ∈ paramScope f arity names, p.2.type = .i32 := by
  intro p hp
  obtain ⟨i, -, hi⟩ := List.mem_map.1 (List.of_mem_zip (List.mem_reverse.1 hp)).2
  rw [← hi]
  rfl

def emitBody (m : Module) (f : FunctionId) (d : Definition) : Except GeneratorStop (Scope × Block) :=
  let start := (m.get f).scope.register "entry"
  match emit ⟨signature m, paramScope f (m.get f).arity d.prototype.params⟩ d.body start.2 with
  | .error stop => .error stop
  | .ok y => .ok ((y.scope.register "").2, ⟨start.1, y.code ++ [.ret y.value]⟩)

def finished (g : Generator) (f : FunctionId) (m : Module) (es : List BackendError) (n : Nat)
    (j : List JournalEntry) : Generator :=
  { g with scope := [], current := none,
           backend := ⟨m, some (.endOf f), es, n, j⟩ }

theorem forM_bind (ps : List (String × Operand)) (g : Generator) :
    (ps.forM fun p => Generator.bind p.1 p.2) g =
      .ok () { g with scope := ps.reverse ++ g.scope } := by
  induction ps generalizing g with
  | nil => rfl
  | cons p ps ih =>
    have hp : Generator.bind p.1 p.2 g = .ok () { g with scope := p :: g.scope } := rfl
    change (Generator.bind p.1 p.2 >>= fun _ => ps.forM fun p => Generator.bind p.1 p.2) g = _
    rw [bind_eq_ok hp, ih]
    simp

section

variable {α : Type} {f : FunctionId} {x : GeneratorM α} {g g' : Generator}

theorem within_eq_ok {a : α} (h : x { g with scope := [], current := some f } = .ok a g') :
    within f x g = .ok a { g' with scope := [], current := none } := by
  simp only [within, h]

theorem within_eq_error {stop : GeneratorStop}
    (h : x { g with scope := [], current := some f } = .error stop g') :
    within f x g = .error stop { g' with scope := [], current := none } := by
  simp only [within, h]

end

def judged (g : Generator) (fs : List FunctionId) (es : List BackendError) (j : List JournalEntry) :
    Generator :=
  { g with backend := { g.backend with module := g.backend.module.sealAll fs, errors := es,
                                       verifications := g.backend.verifications + 1,
                                       journal := j } }

theorem takeError_run (g : Generator) (name : String) :
    takeError name g =
      .ok (g.backend.errors.getLast?.getD (.verification name (.words "")))
        { g with backend := { g.backend with errors := g.backend.errors.dropLast } } := by
  cases h : g.backend.errors.getLast? with
  | none =>
    have hnil : g.backend.errors.dropLast = g.backend.errors := by
      rw [List.getLast?_eq_none_iff.1 h, List.dropLast_nil]
    simp only [takeError, bind_eq_ok (get_eq_ok g), h, hnil]
    rfl
  | some e =>
    simp only [takeError, bind_eq_ok (get_eq_ok g), h]
    rfl

def judge (f : FunctionId) (name : String) : GeneratorM Unit := do
  let v := (← get).verifier
  if !(← onBackend (Backend.verify v f)) then
    throw (.failed (.backend (← takeError name)))

theorem judge_accepted {g : Generator} {f : FunctionId} {b : Backend} (name : String)
    (h : Backend.verify g.verifier f g.backend = .ok true b) :
    judge f name g = .ok () { g with backend := b } := by
  rw [judge, bind_eq_ok (get_eq_ok g), bind_eq_ok (onBackend_eq_ok h)]
  rfl

theorem judge_rejected {g : Generator} {f : FunctionId} {b : Backend} (name : String)
    (h : Backend.verify g.verifier f g.backend = .ok false b) :
    judge f name g =
      .error (.failed (.backend (b.errors.getLast?.getD (.verification name (.words "")))))
        { g with backend := { b with errors := b.errors.dropLast } } := by
  rw [judge, bind_eq_ok (get_eq_ok g), bind_eq_ok (onBackend_eq_ok h)]
  exact bind_eq_ok (takeError_run _ name)

theorem judge_run (g : Generator) (f : FunctionId) (name : String) :
    ∃ fs es j,
      (judge f name g = .ok () (g.judged fs es j) ∧ es = g.backend.errors) ∨
      ∃ e, judge f name g = .error (.failed (.backend e)) (g.judged fs es j) ∧
        (g.verifier.Accepting →
          (g.backend.module.sealAll g.backend.module.registered).fault? ≠ none) := by
  obtain ⟨ok, fs, e?, j, hrun, he, hcheck⟩ := Backend.verify_run g.backend g.verifier f
  cases ok with
  | true =>
    refine ⟨fs, g.backend.errors, j, Or.inl ⟨?_, rfl⟩⟩
    rw [judge_accepted name hrun, he rfl, Option.toList_none, List.append_nil]
    rfl
  | false =>
    refine ⟨fs, _, j, Or.inr ⟨_, judge_rejected name hrun, fun hv hfault => ?_⟩⟩
    exact Bool.false_ne_true (hcheck hv hfault)

def code (f : FunctionId) (d : Definition) : GeneratorM Unit := do
  let params ← onBackend (Backend.parameters f)
  (d.prototype.params.zip params).forM fun p => bind p.1 p.2
  let _ ← onBackend (Backend.enter f)
  let x ← expression d.body
  onBackend (Backend.ret x)

theorem body_eq (f : FunctionId) (d : Definition) :
    body f d = within f (code f d >>= fun _ => judge f d.name) := by
  simp only [body, code, judge, bind_assoc]

def entered (g : Generator) (f : FunctionId) (d : Definition) : Generator :=
  { g with scope := paramScope f (g.backend.module.get f).arity d.prototype.params,
           current := some f }

theorem enter_body (g : Generator) (f : FunctionId) (d : Definition)
    (hf : f < g.backend.module.functions.length) (hb : (g.backend.module.get f).blocks = []) :
    ∃ r, ∀ k : GeneratorM Unit, (do
      let params ← onBackend (Backend.parameters f)
      (d.prototype.params.zip params).forM fun p => Generator.bind p.1 p.2
      let _ ← onBackend (Backend.enter f)
      k) { g with scope := [], current := some f } =
        k ((g.entered f d).building (g.backend.requested r) g.backend.module f
          ((g.backend.module.get f).scope.register "entry").2
          ((g.backend.module.get f).scope.register "entry").1 []) := by
  have hbind : ((d.prototype.params.zip ((List.range (g.backend.module.get f).arity).map
      (Operand.param f))).forM fun p => Generator.bind p.1 p.2)
      { g with scope := [], current := some f } = .ok () (g.entered f d) := by
    rw [forM_bind]
    simp [entered, paramScope]
  obtain ⟨r, henter⟩ := Backend.enter_run (b := (g.entered f d).backend) hf hb
  refine ⟨r, fun k => ?_⟩
  rw [bind_eq_ok (parameters_run _ f), bind_eq_ok hbind, bind_eq_ok (onBackend_eq_ok henter)]
  rfl

def coded (g : Generator) (f : FunctionId) (d : Definition) (t : Scope) (b : Block)
    (j : List JournalEntry) : Generator :=
  { g.entered f d with
    backend := ⟨g.backend.module.withBody f t [b], some (.endOf f), g.backend.errors,
      g.backend.verifications, j⟩ }

theorem code_run (g : Generator) (f : FunctionId) (d : Definition)
    (hf : f < g.backend.module.functions.length) (hb : (g.backend.module.get f).blocks = []) :
    match emitBody g.backend.module f d with
    | .error stop => ∃ t b j,
        code f d { g with scope := [], current := some f } = .error stop (g.coded f d t b j)
    | .ok (t, b) => ∃ j,
        code f d { g with scope := [], current := some f } = .ok () (g.coded f d t b j) := by
  set m := g.backend.module with hm
  obtain ⟨r, hstart⟩ := enter_body g f d hf hb
  have hemit : Appends (g.entered f d) m f ((m.get f).scope.register "entry").1 (expression d.body)
      (emit ⟨signature m, (g.entered f d).scope⟩ d.body) := appends_emit hf type_paramScope d.body
  have happ := hemit (g.backend.requested r) ((m.get f).scope.register "entry").2 []
  simp only [entered] at happ
  simp only [emitBody]
  cases he : emit ⟨signature m, paramScope f (m.get f).arity d.prototype.params⟩ d.body
      ((m.get f).scope.register "entry").2 with
  | error stop =>
    rw [he] at happ
    obtain ⟨t, js, j, hx⟩ := happ
    exact ⟨t, ⟨_, js⟩, j, (hstart _).trans (bind_eq_error hx)⟩
  | ok y =>
    rw [he] at happ
    obtain ⟨j, hx⟩ := happ
    have hopen : y.code.any Instruction.isRet = false := by
      simpa using (isRet_emit _).1 d.body _ y he
    obtain ⟨q, hret⟩ := Backend.ret_building (b := ⟨m, g.backend.point, g.backend.errors,
      g.backend.verifications, j⟩) (m := m) (s := y.scope) hf
      ((m.get f).scope.register "entry").1 y.value hopen
    exact ⟨_, (hstart _).trans ((bind_eq_ok hx).trans (onBackend_eq_ok hret))⟩

/-- A body is generated and judged, or stops the generator and leaves a part of itself. -/
theorem body_run (g : Generator) (f : FunctionId) (d : Definition)
    (hf : f < g.backend.module.functions.length) (hb : (g.backend.module.get f).blocks = []) :
    match emitBody g.backend.module f d with
    | .error stop => ∃ t b j, body f d g = .error stop (g.finished f
        (g.backend.module.withBody f t [b]) g.backend.errors g.backend.verifications j)
    | .ok (t, b) => ∃ fs es j,
        (body f d g = .ok () (g.finished f ((g.backend.module.withBody f t [b]).sealAll fs)
          es (g.backend.verifications + 1) j) ∧ es = g.backend.errors) ∨
        ∃ e, body f d g = .error (.failed (.backend e)) (g.finished f
            ((g.backend.module.withBody f t [b]).sealAll fs) es (g.backend.verifications + 1) j) ∧
          (g.verifier.Accepting → ((g.backend.module.withBody f t [b]).sealAll
            g.backend.module.registered).fault? ≠ none) := by
  have hcode := code_run g f d hf hb
  rw [body_eq]
  cases he : emitBody g.backend.module f d with
  | error stop =>
    rw [he] at hcode
    obtain ⟨t, b, j, hx⟩ := hcode
    exact ⟨t, b, j, within_eq_error (bind_eq_error hx)⟩
  | ok q =>
    obtain ⟨t, b⟩ := q
    rw [he] at hcode
    obtain ⟨j, hx⟩ := hcode
    obtain ⟨fs, es, k, hjudge⟩ := judge_run (g.coded f d t b j) f d.name
    have hbody (k : GeneratorM Unit) : (code f d >>= fun _ => k)
        { g with scope := [], current := some f } = k (g.coded f d t b j) := bind_eq_ok hx
    refine ⟨fs, es, k, ?_⟩
    rcases hjudge with ⟨hv, hes⟩ | ⟨e, hv, hfault⟩
    · exact Or.inl ⟨within_eq_ok ((hbody _).trans hv), hes⟩
    · exact Or.inr ⟨e, within_eq_error ((hbody _).trans hv), hfault⟩

/-! ### Units -/

def retract (m : Module) (f : FunctionId) (before : Option FunctionId) : Module :=
  match before with
  | none => m.erase f
  | some _ =>
    match (m.get f).freshScope with
    | .ok t => m.withBody f t []
    | .error _ => m

/-- What generating a unit gives and makes of a module, under a verifier. -/
inductive Step (v : Verifier) (m : Module) :
    TopLevel → Except CompileError FunctionId → Module → Prop
  | declared {p : Prototype} {f : FunctionId} {m' : Module} (hp : introduce m p = .ok (f, m')) :
    Step v m (.external p) (.ok f) m'
  | refused {u : TopLevel} {e : CompileError} (hp : introduce m u.prototype = .error (.failed e)) :
    Step v m u (.error e) m
  | repeated {d : Definition} {f : FunctionId} (hl : m.lookup d.name = some f)
      (hb : (m.get f).hasBody = true) :
    Step v m (.definition d) (.error (.semantic (.redefinition d.prototype))) m
  | defined {d : Definition} {f : FunctionId} {m' : Module} {t : Scope} {b : Block}
      {fs : List FunctionId} (hb : Bodiless m d.name) (hp : introduce m d.prototype = .ok (f, m'))
      (he : emitBody m' f d = .ok (t, b)) :
    Step v m (.definition d) (.ok f) ((m'.withBody f t [b]).sealAll fs)
  | unfinished {d : Definition} {f : FunctionId} {m' : Module} {e : CompileError} {t : Scope}
      {b : Block} (hb : Bodiless m d.name) (hp : introduce m d.prototype = .ok (f, m'))
      (he : emitBody m' f d = .error (.failed e)) :
    Step v m (.definition d) (.error e) (retract (m'.withBody f t [b]) f (m.lookup d.name))
  | rejected {d : Definition} {f : FunctionId} {m' : Module} {t : Scope} {b : Block}
      {fs : List FunctionId} {e : BackendError} (hb : Bodiless m d.name)
      (hp : introduce m d.prototype = .ok (f, m')) (he : emitBody m' f d = .ok (t, b))
      (hv : v.Accepting →
        ((m'.withBody f t [b]).sealAll (m'.withBody f t [b]).registered).fault? ≠ none) :
    Step v m (.definition d) (.error (.backend e))
      (retract ((m'.withBody f t [b]).sealAll fs) f (m.lookup d.name))

structure Holds (g g' : Generator) (m : Module) : Prop where
  module : g'.backend.module = m
  errors : g'.errors = g.errors
  verifier : g'.verifier = g.verifier

theorem undo_run {g : Generator} {f : FunctionId} {s : Scope} (before : Option FunctionId)
    (hs : (g.backend.module.get f).freshScope = .ok s) :
    ∃ g', (if before.isSome then onBackend (Backend.clear f) else onBackend (Backend.erase f)) g =
      .ok () g' ∧ g.Holds g' (retract g.backend.module f before) ∧
      g'.backend.errors = g.backend.errors := by
  cases before with
  | none =>
    obtain ⟨j, hj⟩ := Backend.erase_run g.backend f
    exact ⟨_, onBackend_eq_ok hj, ⟨rfl, rfl, rfl⟩, rfl⟩
  | some c =>
    obtain ⟨j, hj⟩ := Backend.clear_run hs
    refine ⟨_, onBackend_eq_ok hj, ⟨?_, rfl, rfl⟩, rfl⟩
    simp only [retract, hs]

theorem onFailure_eq_ok {x undo : GeneratorM Unit} {g g' : Generator} (h : x g = .ok () g') :
    onFailure x undo g = .ok () g' := by
  simp only [onFailure, h]

theorem onFailure_eq_error {x undo : GeneratorM Unit} {g g' g'' : Generator} {e : CompileError}
    (h : x g = .error (.failed e) g') (hu : undo g' = .ok () g'') :
    onFailure x undo g = .error (.failed e) g'' := by
  simp only [onFailure, h, hu]

theorem onFailure_eq_stop {x undo : GeneratorM Unit} {g g' : Generator} {stop : GeneratorStop}
    (h : x g = .error stop g') (hs : ∀ e, stop ≠ .failed e) :
    onFailure x undo g = .error stop g' := by
  cases stop with
  | failed e => exact absurd rfl (hs e)
  | refused e => simp only [onFailure, h]
  | notAnExpression d => simp only [onFailure, h]
  | notAUnit e => simp only [onFailure, h]

theorem failed_or_ne (stop : GeneratorStop) :
    (∃ e, stop = .failed e) ∨ ∀ e, stop ≠ .failed e := by
  cases stop with
  | failed e => exact Or.inl ⟨e, rfl⟩
  | refused e => simp
  | notAnExpression d => simp
  | notAUnit e => simp

theorem recorded_eq_stop {α : Type} {x : GeneratorM α} {g g' : Generator} {stop : GeneratorStop}
    (h : x g = .error stop g') (hs : ∀ e, stop ≠ .failed e) : recorded x g = .error stop g' := by
  cases stop with
  | failed e => exact absurd rfl (hs e)
  | refused e => simp only [recorded, h]
  | notAnExpression d => simp only [recorded, h]
  | notAUnit e => simp only [recorded, h]

def Stuck (m : Module) (u : TopLevel) (stop : GeneratorStop) : Prop :=
  introduce m u.prototype = .error stop ∨
    ∃ d f m', u = .definition d ∧ introduce m d.prototype = .ok (f, m') ∧
      emitBody m' f d = .error stop

def Took (g : Generator) (u : TopLevel) : EStateM.Result GeneratorStop Generator FunctionId → Prop
  | .ok f g' => ∃ m, Step g.verifier g.backend.module u (.ok f) m ∧ g.Holds g' m
  | .error (.failed e) g' => ∃ m, Step g.verifier g.backend.module u (.error e) m ∧ g.Holds g' m
  | .error stop _ => Stuck g.backend.module u stop

section

variable {g g' : Generator} {u : TopLevel} {stop : GeneratorStop}

theorem took_stop_iff (hs : ∀ e, stop ≠ .failed e) :
    g.Took u (.error stop g') ↔ Stuck g.backend.module u stop := by
  cases stop with
  | failed e => exact absurd rfl (hs e)
  | refused e => exact Iff.rfl
  | notAnExpression d => exact Iff.rfl
  | notAUnit e => exact Iff.rfl

theorem took_of_introduce (hp : introduce g.backend.module u.prototype = .error stop)
    (hg : g.Holds g' g.backend.module) : g.Took u (.error stop g') := by
  obtain ⟨e, rfl⟩ | hs := failed_or_ne stop
  · exact ⟨g.backend.module, .refused hp, hg⟩
  · exact (took_stop_iff hs).2 (Or.inl hp)

end

theorem freshScope_withBody (m : Module) (f : FunctionId) (s : Scope) (bs : List Block) :
    ((m.withBody f s bs).get f).freshScope = (m.get f).freshScope := by
  simp only [Function.freshScope, Module.params_get_withBody]

theorem freshScope_sealAll (m : Module) (f : FunctionId) (fs : List FunctionId) :
    ((m.sealAll fs).get f).freshScope = (m.get f).freshScope :=
  Module.map_get_sealAll Function.freshScope (fun _ => rfl) fs f

theorem external_took (g : Generator) (p : Prototype) : g.Took (.external p) (prototype p g) := by
  have hrun := prototype_run g p
  cases hp : introduce g.backend.module p with
  | ok q =>
    rw [hp] at hrun
    obtain ⟨j, hj⟩ := hrun
    rw [hj]
    exact ⟨q.2, .declared hp, ⟨rfl, rfl, rfl⟩⟩
  | error stop =>
    rw [hp] at hrun
    obtain ⟨j, hj⟩ := hrun
    rw [hj]
    exact took_of_introduce hp ⟨rfl, rfl, rfl⟩

theorem body_took {g g₁ : Generator} {d : Definition} {f : FunctionId} {m' : Module}
    (hi : g.backend.module.Indexed)
    (hn : ∀ f ∈ g.backend.module.registered, (g.backend.module.get f).Named)
    (hless : Bodiless g.backend.module d.name)
    (hp : introduce g.backend.module d.prototype = .ok (f, m')) (hg : g.Holds g₁ m') :
    g.Took (.definition d) ((do
      onFailure (body f d) <|
        if (g.backend.module.lookup d.name).isSome then onBackend (Backend.clear f)
        else onBackend (Backend.erase f)
      onBackend (Backend.note (.generated d.name))
      return f) g₁) := by
  obtain ⟨hlt, -, -, hnamed, hblocks⟩ := introduce_function hi hn hp
  obtain ⟨s, hs, -⟩ := hnamed.freshScope
  have hm := hg.module
  have hrun := body_run g₁ f d (by rwa [hm]) (by rw [hm]; exact hblocks hless)
  rw [hm] at hrun
  cases he : emitBody m' f d with
  | error stop =>
    rw [he] at hrun
    obtain ⟨t, b, j, hbody⟩ := hrun
    obtain ⟨e, rfl⟩ | hs' := failed_or_ne stop
    · obtain ⟨g₃, hundo, hg₃, -⟩ := undo_run (g := g₁.finished f (m'.withBody f t [b]) g₁.backend.errors
        g₁.backend.verifications j) (g.backend.module.lookup d.name)
        ((freshScope_withBody m' f t [b]).trans hs)
      rw [bind_eq_error (onFailure_eq_error hbody hundo)]
      exact ⟨_, .unfinished hless hp he,
        ⟨hg₃.module, hg₃.errors.trans hg.errors, hg₃.verifier.trans hg.verifier⟩⟩
    · rw [bind_eq_error (onFailure_eq_stop hbody hs')]
      exact (took_stop_iff hs').2 (Or.inr ⟨d, f, m', rfl, hp, he⟩)
  | ok q =>
    obtain ⟨t, b⟩ := q
    rw [he] at hrun
    obtain ⟨fs, es, j, ⟨hbody, -⟩ | ⟨e, hbody, hfault⟩⟩ := hrun
    · rw [bind_eq_ok (onFailure_eq_ok hbody)]
      exact ⟨_, .defined hless hp he, ⟨rfl, hg.errors, hg.verifier⟩⟩
    · obtain ⟨g₃, hundo, hg₃, -⟩ := undo_run (g := g₁.finished f ((m'.withBody f t [b]).sealAll fs) es
        (g₁.backend.verifications + 1) j) (g.backend.module.lookup d.name)
        (((freshScope_sealAll _ f fs).trans (freshScope_withBody m' f t [b])).trans hs)
      rw [bind_eq_error (onFailure_eq_error hbody hundo)]
      refine ⟨_, .rejected hless hp he ?_,
        ⟨hg₃.module, hg₃.errors.trans hg.errors, hg₃.verifier.trans hg.verifier⟩⟩
      rwa [hg.verifier] at hfault

theorem definition_of_bodiless {g : Generator} {d : Definition}
    (h : Bodiless g.backend.module d.name) :
    definition d g = (do
      let f ← prototype d.prototype
      onFailure (body f d) <|
        if (g.backend.module.lookup d.name).isSome then onBackend (Backend.clear f)
        else onBackend (Backend.erase f)
      onBackend (Backend.note (.generated d.name))
      return f) g := by
  unfold definition
  rw [bind_eq_ok (lookup_run g d.name)]
  cases hl : g.backend.module.lookup d.name with
  | none => rfl
  | some f =>
    simp only
    rw [bind_eq_ok (hasBody_run g f), h f hl]
    rfl

theorem definition_took (g : Generator) (d : Definition) (hi : g.backend.module.Indexed)
    (hn : ∀ f ∈ g.backend.module.registered, (g.backend.module.get f).Named) :
    g.Took (.definition d) (definition d g) := by
  by_cases hless : Bodiless g.backend.module d.name
  · rw [definition_of_bodiless hless]
    have hproto := prototype_run g d.prototype
    cases hp : introduce g.backend.module d.prototype with
    | error stop =>
      rw [hp] at hproto
      obtain ⟨j, hj⟩ := hproto
      rw [bind_eq_error hj]
      exact took_of_introduce hp ⟨rfl, rfl, rfl⟩
    | ok q =>
      obtain ⟨f, m'⟩ := q
      rw [hp] at hproto
      obtain ⟨j, hj⟩ := hproto
      rw [bind_eq_ok hj]
      exact body_took hi hn hless hp ⟨rfl, rfl, rfl⟩
  · unfold Bodiless at hless
    push Not at hless
    obtain ⟨f, hl, hb⟩ := hless
    rw [Bool.ne_false_iff] at hb
    unfold definition
    rw [bind_eq_ok (lookup_run g d.name), hl]
    simp only
    rw [bind_eq_ok (hasBody_run g f), hb]
    exact ⟨_, .repeated hl hb, ⟨rfl, rfl, rfl⟩⟩

theorem topLevel_took (g : Generator) (u : TopLevel) (hi : g.backend.module.Indexed)
    (hn : ∀ f ∈ g.backend.module.registered, (g.backend.module.get f).Named) :
    g.Took u (topLevel u g) := by
  cases u with
  | definition d => exact definition_took g d hi hn
  | external p => exact external_took g p

def newErrors : Except CompileError FunctionId → List CompileError
  | .ok _ => []
  | .error e => [e]

/-- Generation that comes to an end takes a step. -/
theorem generate_step {g g' : Generator} {u : TopLevel} {r : Option FunctionId}
    (hi : g.backend.module.Indexed)
    (hn : ∀ f ∈ g.backend.module.registered, (g.backend.module.get f).Named)
    (h : generate u g = .ok r g') :
    ∃ x, Step g.verifier g.backend.module u x g'.backend.module ∧ r = x.toOption ∧
      g'.errors = g.errors ++ newErrors x ∧ g'.verifier = g.verifier := by
  have htook := topLevel_took g u hi hn
  cases ht : topLevel u g with
  | ok f g₁ =>
    rw [ht] at htook
    simp only [generate, recorded, ht] at h
    obtain ⟨m, hstep, hg⟩ := htook
    cases h
    exact ⟨.ok f, hg.module ▸ hstep, rfl, by simp [newErrors, hg.errors], hg.verifier⟩
  | error stop g₁ =>
    rw [ht] at htook
    obtain ⟨e, rfl⟩ | hs := failed_or_ne stop
    · simp only [generate, recorded, ht] at h
      obtain ⟨m, hstep, hg⟩ := htook
      cases h
      exact ⟨.error e, hg.module ▸ hstep, rfl, by simp [newErrors, hg.errors], hg.verifier⟩
    · rw [generate, recorded_eq_stop ht hs] at h
      cases h

theorem generate_stuck {g g' : Generator} {u : TopLevel} {stop : GeneratorStop}
    (hi : g.backend.module.Indexed)
    (hn : ∀ f ∈ g.backend.module.registered, (g.backend.module.get f).Named)
    (h : generate u g = .error stop g') :
    Stuck g.backend.module u stop ∧ ∀ e, stop ≠ .failed e := by
  have htook := topLevel_took g u hi hn
  cases ht : topLevel u g with
  | ok f g₁ =>
    simp only [generate, recorded, ht] at h
    cases h
  | error stop' g₁ =>
    rw [ht] at htook
    obtain ⟨e, rfl⟩ | hs := failed_or_ne stop'
    · simp only [generate, recorded, ht] at h
      cases h
    · rw [generate, recorded_eq_stop ht hs] at h
      cases h
      exact ⟨(took_stop_iff hs).1 htook, hs⟩

end ExprCompiler.Generator
