import ExprCompiler.Codegen.Generator
import ExprCompiler.Proofs.Building

/-!
# The code of an expression

The code of an expression depends on the functions that can be called, on the
parameters, and on the names in use, and on nothing else. `emit` gives it as a
value, and running the generator on the expression appends just that code to
the function under way.
-/

namespace ExprCompiler

open IR (Arith FunctionId Instruction Module Operand Scope Ty)

namespace Generator

structure Emitted (α : Type) where
  value : α
  code : List Instruction
  scope : Scope

abbrev Emission (α : Type) := Scope → Except GeneratorStop (Emitted α)

namespace Emission

variable {α β : Type}

def pure (a : α) : Emission α := fun s => .ok ⟨a, [], s⟩

def fail (e : SemanticError) : Emission α := fun _ => .error (.failed (.semantic e))

def bind (x : Emission α) (k : α → Emission β) : Emission β := fun s =>
  match x s with
  | .error stop => .error stop
  | .ok y =>
    match k y.value y.scope with
    | .error stop => .error stop
    | .ok z => .ok ⟨z.value, y.code ++ z.code, z.scope⟩

def instruction (base : String) (i : String → Instruction) (t : Ty) : Emission Operand := fun s =>
  .ok ⟨.named (s.register base).1 t, [i (s.register base).1], (s.register base).2⟩

theorem bind_eq_ok {x : Emission α} {k : α → Emission β} {s : Scope} {z : Emitted β} :
    x.bind k s = .ok z ↔ ∃ y w, x s = .ok y ∧ k y.value y.scope = .ok w ∧
      z = ⟨w.value, y.code ++ w.code, w.scope⟩ := by
  unfold bind
  cases x s with
  | error stop => simp
  | ok y =>
    cases hk : k y.value y.scope with
    | error stop => simp [hk]
    | ok w => simp [hk, eq_comm]

end Emission

structure Site where
  callees : String → Option (FunctionId × Nat)
  params : List (String × Operand)

def emitOperator (op : String) (l r : Expr) (sp : Option Span) (a b : Operand) : Emission Operand :=
  match arithmetic.lookup op with
  | some o => .instruction o.base (.arith o · a b) .i32
  | none =>
    if op = "<" then
      (Emission.instruction "cmptmp" (.less · a b) .i1).bind fun bit =>
        .instruction "booltmp" (.widen · bit) .i32
    else .fail (.invalidOperator op l r sp)

mutual

def emit (c : Site) : Expr → Emission Operand
  | .number v _ => .pure (.const v)
  | .var n sp =>
    match c.params.lookup n with
    | some x => .pure x
    | none => .fail (.unknownVariable n sp (c.params.map Prod.fst).reverse)
  | .binary op l r sp => (emit c l).bind fun a => (emit c r).bind fun b => emitOperator op l r sp a b
  | .call callee args sp =>
    match c.callees callee with
    | none => .fail (.unknownFunction callee args sp)
    | some (f, expected) =>
      if expected ≠ args.length then .fail (.arityMismatch callee args sp expected)
      else
        (emits c args).bind fun xs => .instruction "calltmp" (.call · f xs) .i32
  | .stray d => fun _ => .error (.notAnExpression d)

def emits (c : Site) : List Expr → Emission (List Operand)
  | [] => .pure []
  | e :: es => (emit c e).bind fun x => (emits c es).bind fun xs => .pure (x :: xs)

end

def signature (m : Module) (n : String) : Option (FunctionId × Nat) :=
  (m.lookup n).map fun f => (f, (m.get f).arity)

/-! ### Induction on emitted code -/

section

variable {op : String} {l r : Expr} {sp : Option Span} {a b : Operand} {s : Scope}
  {w : Emitted Operand}

theorem emitOperator_eq_ok (h : emitOperator op l r sp a b s = .ok w) :
    (∃ o, arithmetic.lookup op = some o ∧
      w = ⟨.named (s.register o.base).1 .i32, [.arith o (s.register o.base).1 a b],
        (s.register o.base).2⟩) ∨
    (op = "<" ∧ ∃ t bit n, t = (s.register "cmptmp").2 ∧ bit = (s.register "cmptmp").1 ∧
      n = (t.register "booltmp").1 ∧
      w = ⟨.named n .i32, [.less bit a b, .widen n (.named bit .i1)], (t.register "booltmp").2⟩) := by
  unfold emitOperator at h
  cases ho : arithmetic.lookup op with
  | some o =>
    rw [ho] at h
    cases h
    exact Or.inl ⟨o, rfl, rfl⟩
  | none =>
    simp only [ho] at h
    by_cases hlt : op = "<"
    · rw [if_pos hlt] at h
      obtain ⟨_, _, hy, hw, rfl⟩ := Emission.bind_eq_ok.1 h
      cases hy
      cases hw
      exact Or.inr ⟨hlt, _, _, _, rfl, rfl, rfl, rfl⟩
    · rw [if_neg hlt] at h
      cases h

theorem type_emitOperator (h : emitOperator op l r sp a b s = .ok w) : w.value.type = .i32 := by
  obtain ⟨o, -, rfl⟩ | ⟨-, t, bit, n, -, -, -, rfl⟩ := emitOperator_eq_ok h
  · rfl
  · rfl

theorem fresh_emitOperator (h : emitOperator op l r sp a b s = .ok w) :
    Scope.Fresh s (IR.resultNames w.code) w.scope := by
  obtain ⟨o, -, rfl⟩ | ⟨-, t, bit, n, rfl, rfl, rfl, rfl⟩ := emitOperator_eq_ok h
  · exact .register s o.base
  · exact (Scope.Fresh.register s "cmptmp").trans (.register _ "booltmp")

theorem isRet_emitOperator (h : emitOperator op l r sp a b s = .ok w) :
    ∀ i ∈ w.code, i.isRet = false := by
  obtain ⟨o, -, rfl⟩ | ⟨-, t, bit, n, -, -, -, rfl⟩ := emitOperator_eq_ok h
  · simp [Instruction.isRet]
  · simp [Instruction.isRet]

theorem callees_emitOperator (h : emitOperator op l r sp a b s = .ok w) :
    w.code.filterMap Instruction.callee? = [] := by
  obtain ⟨o, -, rfl⟩ | ⟨-, t, bit, n, -, -, -, rfl⟩ := emitOperator_eq_ok h
  · rfl
  · rfl

end

/-- What holds of the code of literals and variables, and passes from the operands of an operator
or a call to the whole, holds of all emitted code. -/
theorem emit_induction {c : Site} {P : Expr → Scope → Emitted Operand → Prop}
    {Q : List Expr → Scope → Emitted (List Operand) → Prop}
    (number : ∀ v sp s, P (.number v sp) s ⟨.const v, [], s⟩)
    (var : ∀ n sp s x, c.params.lookup n = some x → P (.var n sp) s ⟨x, [], s⟩)
    (operator : ∀ op l r sp s y z w, P l s y → P r y.scope z →
      emitOperator op l r sp y.value z.value z.scope = .ok w →
      P (.binary op l r sp) s ⟨w.value, y.code ++ (z.code ++ w.code), w.scope⟩)
    (call : ∀ callee args sp f s y, c.callees callee = some (f, args.length) → Q args s y →
      P (.call callee args sp) s
        ⟨.named (y.scope.register "calltmp").1 .i32,
          y.code ++ [.call (y.scope.register "calltmp").1 f y.value],
          (y.scope.register "calltmp").2⟩)
    (nil : ∀ s, Q [] s ⟨[], [], s⟩)
    (cons : ∀ e es s y z, P e s y → Q es y.scope z →
      Q (e :: es) s ⟨y.value :: z.value, y.code ++ z.code, z.scope⟩) :
    (∀ e s y, emit c e s = .ok y → P e s y) ∧ (∀ es s y, emits c es s = .ok y → Q es s y) := by
  constructor
  · exact go
  · exact goes
where
  go (e : Expr) : ∀ s y, emit c e s = .ok y → P e s y := by
    intro s y h
    cases e with
    | number v sp =>
      cases h
      exact number v sp s
    | var n sp =>
      unfold emit at h
      cases hx : c.params.lookup n with
      | some x =>
        rw [hx] at h
        cases h
        exact var n sp s x hx
      | none =>
        rw [hx] at h
        cases h
    | binary op l r sp =>
      unfold emit at h
      obtain ⟨y, _, hy, hv, rfl⟩ := Emission.bind_eq_ok.1 h
      obtain ⟨z, w, hz, hw, rfl⟩ := Emission.bind_eq_ok.1 hv
      exact operator op l r sp s y z w (go l s y hy) (go r y.scope z hz) hw
    | call callee args sp =>
      unfold emit at h
      cases hf : c.callees callee with
      | none =>
        rw [hf] at h
        cases h
      | some p =>
        obtain ⟨f, expected⟩ := p
        simp only [hf] at h
        by_cases hn : expected ≠ args.length
        · rw [if_pos hn] at h
          cases h
        · rw [if_neg hn] at h
          obtain ⟨y, w, hy, hw, rfl⟩ := Emission.bind_eq_ok.1 h
          cases hw
          exact call callee args sp f s y (not_not.1 hn ▸ hf) (goes args s y hy)
    | stray d =>
      unfold emit at h
      cases h
  goes (es : List Expr) : ∀ s y, emits c es s = .ok y → Q es s y := by
    intro s y h
    cases es with
    | nil =>
      cases h
      exact nil s
    | cons e es =>
      unfold emits at h
      obtain ⟨x, w, hx, hw, rfl⟩ := Emission.bind_eq_ok.1 h
      obtain ⟨xs, v, hxs, hv, rfl⟩ := Emission.bind_eq_ok.1 hw
      cases hv
      simpa using cons e es s x xs (go e s x hx) (goes es x.scope xs hxs)

theorem type_emit {c : Site} (hc : ∀ p ∈ c.params, p.2.type = .i32) :
    (∀ e s y, emit c e s = .ok y → y.value.type = .i32) ∧
      (∀ es s y, emits c es s = .ok y →
        y.value.length = es.length ∧ ∀ x ∈ y.value, x.type = .i32) := by
  apply emit_induction (P := fun _ _ y => y.value.type = .i32)
    (Q := fun es _ y => y.value.length = es.length ∧ ∀ x ∈ y.value, x.type = .i32)
  case number => exact fun _ _ _ => rfl
  case var =>
    intro n sp s x hx
    obtain ⟨l₁, l₂, hl, -⟩ := List.lookup_eq_some_iff.1 hx
    exact hc (n, x) (by simp [hl])
  case operator =>
    intro op l r sp s y z w hy hz hw
    have htype : w.value.type = .i32 := type_emitOperator hw
    exact htype
  case call => exact fun _ _ _ _ _ _ _ _ => rfl
  case nil => simp
  case cons =>
    intro e es s y z hy hz
    simpa [hz.1] using ⟨hy, hz.2⟩

theorem fresh_emit (c : Site) :
    (∀ e s y, emit c e s = .ok y → Scope.Fresh s (IR.resultNames y.code) y.scope) ∧
      (∀ es s y, emits c es s = .ok y → Scope.Fresh s (IR.resultNames y.code) y.scope) := by
  apply emit_induction (P := fun _ s y => Scope.Fresh s (IR.resultNames y.code) y.scope)
    (Q := fun _ s y => Scope.Fresh s (IR.resultNames y.code) y.scope)
  case number => exact fun _ _ s => .nil s
  case var => exact fun _ _ s _ _ => .nil s
  case operator =>
    intro op l r sp s y z w hy hz hw
    simp only [IR.resultNames_append]
    exact hy.trans (hz.trans (fresh_emitOperator hw))
  case call =>
    intro callee args sp f s y hf hy
    simp only [IR.resultNames_append]
    exact hy.trans (.register y.scope "calltmp")
  case nil => exact fun s => .nil s
  case cons =>
    intro e es s y z hy hz
    simp only [IR.resultNames_append]
    exact hy.trans hz

theorem isRet_emit (c : Site) :
    (∀ e s y, emit c e s = .ok y → ∀ i ∈ y.code, i.isRet = false) ∧
      (∀ es s y, emits c es s = .ok y → ∀ i ∈ y.code, i.isRet = false) := by
  apply emit_induction (P := fun _ _ y => ∀ i ∈ y.code, i.isRet = false)
    (Q := fun _ _ y => ∀ i ∈ y.code, i.isRet = false)
  case number => simp
  case var => simp
  case operator =>
    intro op l r sp s y z w hy hz hw i hi
    simp only [List.mem_append] at hi
    rcases hi with hi | hi | hi
    · exact hy i hi
    · exact hz i hi
    · exact isRet_emitOperator hw i hi
  case call =>
    intro callee args sp f s y hf hy i hi
    simp only [List.mem_append, List.mem_singleton] at hi
    rcases hi with hi | rfl
    · exact hy i hi
    · rfl
  case nil => simp
  case cons =>
    intro e es s y z hy hz i hi
    rcases List.mem_append.1 hi with hi | hi
    · exact hy i hi
    · exact hz i hi

theorem emit_congr {c c' : Site} (hparams : c'.params = c.params) :
    (∀ e s y, emit c e s = .ok y →
      (∀ n g k, g ∈ y.code.filterMap Instruction.callee? → c.callees n = some (g, k) →
        c'.callees n = some (g, k)) → emit c' e s = .ok y) ∧
    (∀ es s y, emits c es s = .ok y →
      (∀ n g k, g ∈ y.code.filterMap Instruction.callee? → c.callees n = some (g, k) →
        c'.callees n = some (g, k)) → emits c' es s = .ok y) := by
  apply emit_induction
    (P := fun e s y => (∀ n g k, g ∈ y.code.filterMap Instruction.callee? →
      c.callees n = some (g, k) → c'.callees n = some (g, k)) → emit c' e s = .ok y)
    (Q := fun es s y => (∀ n g k, g ∈ y.code.filterMap Instruction.callee? →
      c.callees n = some (g, k) → c'.callees n = some (g, k)) → emits c' es s = .ok y)
  case number => exact fun v sp s h => rfl
  case var =>
    intro n sp s x hx h
    simp only [emit, hparams, hx, Emission.pure]
  case operator =>
    intro op l r sp s y z w hy hz hw h
    have hl := hy fun n g k hg => h n g k (by simp [hg])
    have hr := hz fun n g k hg => h n g k (by simp [hg])
    exact Emission.bind_eq_ok.2 ⟨y, _, hl, Emission.bind_eq_ok.2 ⟨z, w, hr, hw, rfl⟩, rfl⟩
  case call =>
    intro callee args sp f s y hf hy h
    have hargs := hy fun n g k hg => h n g k (by simp [hg])
    have hf' := h callee f args.length (by simp [Instruction.callee?]) hf
    simp only [emit, hf', ne_eq, not_true_eq_false, if_false]
    exact Emission.bind_eq_ok.2 ⟨y, _, hargs, rfl, rfl⟩
  case nil => exact fun s h => rfl
  case cons =>
    intro e es s y z hy hz h
    have he := hy fun n g k hg => h n g k (by simp [hg])
    have hes := hz fun n g k hg => h n g k (by simp [hg])
    refine Emission.bind_eq_ok.2 ⟨y, _, he, Emission.bind_eq_ok.2 ⟨z, _, hes, rfl, rfl⟩, ?_⟩
    simp

/-! ### Running the generator -/

def building (g : Generator) (b : Backend) (m : Module) (f : FunctionId) (s : Scope) (label : String)
    (is : List Instruction) : Generator :=
  { g with backend := b.building m f s label is }

/-- Running `x` appends the code `k` to the function under way, or a part of it before it stops;
but for the journal nothing else changes. -/
def Appends {α : Type} (g : Generator) (m : Module) (f : FunctionId) (label : String)
    (x : GeneratorM α) (k : Emission α) : Prop :=
  ∀ b s is,
    match k s with
    | .ok y => ∃ j, x (g.building b m f s label is) =
        .ok y.value (g.building { b with journal := j } m f y.scope label (is ++ y.code))
    | .error stop => ∃ t js j, x (g.building b m f s label is) =
        .error stop (g.building { b with journal := j } m f t label (is ++ js))

section

variable {α β : Type} {g : Generator} {m : Module} {f : FunctionId} {label : String}

namespace Appends

theorem pure (a : α) : Appends g m f label (Pure.pure a) (.pure a) := by
  intro b s is
  exact ⟨b.journal, by simp; rfl⟩

theorem fail (e : SemanticError) : Appends (α := α) g m f label (semanticError e) (.fail e) := by
  intro b s is
  exact ⟨s, [], b.journal, by simp; rfl⟩

theorem bind {x : GeneratorM α} {k : α → GeneratorM β} {y : Emission α} {l : α → Emission β}
    (hx : Appends g m f label x y)
    (hk : ∀ s z, y s = .ok z → Appends g m f label (k z.value) (l z.value)) :
    Appends g m f label (x >>= k) (y.bind l) := by
  intro b s is
  have hx := hx b s is
  unfold Emission.bind
  cases hy : y s with
  | error stop =>
    rw [hy] at hx
    obtain ⟨t, js, j, hrun⟩ := hx
    exact ⟨t, js, j, bind_eq_error hrun⟩
  | ok z =>
    rw [hy] at hx
    obtain ⟨j, hrun⟩ := hx
    have hk := hk s z hy { b with journal := j } z.scope (is ++ z.code)
    simp only
    cases hl : l z.value z.scope with
    | error stop =>
      rw [hl] at hk
      obtain ⟨t, js, j, hrest⟩ := hk
      refine ⟨t, z.code ++ js, j, ?_⟩
      rw [bind_eq_ok hrun, hrest, List.append_assoc]
    | ok w =>
      rw [hl] at hk
      obtain ⟨j, hrest⟩ := hk
      refine ⟨j, ?_⟩
      rw [bind_eq_ok hrun, hrest, List.append_assoc]

theorem instruction {x : BackendM Operand} {base : String} {i : String → Instruction} {t : Ty}
    (h : ∀ (b : Backend) (s : Scope) (is : List Instruction),
      ∃ r, x (b.building m f s label is) = .ok (.named (s.register base).1 t)
        ((b.requested r).building m f (s.register base).2 label (is ++ [i (s.register base).1]))) :
    Appends g m f label (onBackend x) (.instruction base i t) := by
  intro b s is
  obtain ⟨r, hr⟩ := h b s is
  refine ⟨.request r :: b.journal, ?_⟩
  simp only [onBackend, building, hr]
  rfl

theorem query {x : BackendM α} {a : α} {k : α → GeneratorM β} {l : Emission β}
    (h : ∀ (b : Backend) (s : Scope) (is : List Instruction),
      x (b.building m f s label is) = .ok a (b.building m f s label is))
    (hk : Appends g m f label (k a) l) : Appends g m f label (onBackend x >>= k) l := by
  intro b s is
  have hx : onBackend x (g.building b m f s label is) = .ok a (g.building b m f s label is) := by
    simp only [onBackend, building, h b s is]
  rw [bind_eq_ok hx]
  exact hk b s is

theorem read {k : Generator → GeneratorM β} {l : Emission β}
    (hk : ∀ b s is, Appends g m f label (k (g.building b m f s label is)) l) :
    Appends g m f label (get >>= k) l := by
  intro b s is
  have hx : (get : GeneratorM Generator) (g.building b m f s label is) =
      .ok (g.building b m f s label is) (g.building b m f s label is) := rfl
  rw [bind_eq_ok hx]
  exact hk b s is b s is

end Appends

theorem appends_emitOperator (hf : f < m.functions.length) (op : String) (l r : Expr)
    (sp : Option Span) {a b : Operand} (ha : a.type = .i32) (hb : b.type = .i32) :
    Appends g m f label
      (match arithmetic.lookup op with
        | some i => onBackend (Backend.arith i a b)
        | none =>
          if op = "<" then do
            let bit ← onBackend (Backend.less a b)
            onBackend (Backend.widen bit)
          else semanticError (.invalidOperator op l r sp))
      (emitOperator op l r sp a b) := by
  unfold emitOperator
  cases arithmetic.lookup op with
  | some o => exact .instruction fun _ _ _ => Backend.arith_building hf o ha hb
  | none =>
    by_cases hlt : op = "<"
    · simp only [hlt, if_true]
      refine .bind (.instruction fun _ _ _ => Backend.less_building hf a b) fun s z hz => ?_
      cases hz
      exact .instruction fun _ _ _ => Backend.widen_building hf rfl
    · simp only [hlt, if_false]
      exact .fail _

theorem appends_parameter (n : String) (sp : Option Span) :
    Appends g m f label (parameter n sp) (emit ⟨signature m, g.scope⟩ (.var n sp)) := by
  unfold emit parameter
  refine .read fun b s is => ?_
  change Appends g m f label (match g.scope.lookup n with
    | some x => return x
    | none => semanticError (.unknownVariable n sp g.scopeNames)) _
  cases g.scope.lookup n with
  | some x => exact .pure x
  | none => exact .fail _

theorem appends_call (hf : f < m.functions.length) (hg : ∀ p ∈ g.scope, p.2.type = .i32)
    (callee : String) (args : List Expr) (sp : Option Span)
    (hargs : Appends g m f label (expressions args) (emits ⟨signature m, g.scope⟩ args)) :
    Appends g m f label (expression (.call callee args sp))
      (emit ⟨signature m, g.scope⟩ (.call callee args sp)) := by
  unfold emit expression
  refine .query (a := m.lookup callee) (fun _ _ _ => rfl) ?_
  simp only [signature]
  cases m.lookup callee with
  | none => exact .fail _
  | some c =>
    simp only [Option.map_some]
    refine .query (a := (m.get c).arity) (fun b s is => ?_) ?_
    · exact congrArg (fun n => EStateM.Result.ok n _) (Module.arity_get_withBody m f c s _)
    · by_cases hn : (m.get c).arity ≠ args.length
      · simp only [if_pos hn]
        exact .fail _
      · simp only [if_neg hn]
        refine hargs.bind fun s y hy => ?_
        obtain ⟨hl, ht⟩ := (type_emit hg).2 _ _ _ hy
        exact .instruction fun _ _ _ =>
          Backend.call_building hf c ht ((not_not.1 hn).trans hl.symm)

mutual

/-- Running the generator on an expression appends its code. -/
theorem appends_emit (hf : f < m.functions.length) (hg : ∀ p ∈ g.scope, p.2.type = .i32) :
    (e : Expr) → Appends g m f label (expression e) (emit ⟨signature m, g.scope⟩ e)
  | .number v sp => by
    intro b s is
    simp only [emit, Emission.pure, expression]
    exact ⟨.request (.constant v) :: b.journal, by simp; rfl⟩
  | .var n sp => by
    unfold expression
    exact appends_parameter n sp
  | .binary op l r sp => by
    unfold emit expression
    refine (appends_emit hf hg l).bind fun s y hy => ?_
    refine (appends_emit hf hg r).bind fun s z hz => ?_
    exact appends_emitOperator hf op l r sp ((type_emit hg).1 _ _ _ hy)
      ((type_emit hg).1 _ _ _ hz)
  | .call callee args sp => appends_call hf hg callee args sp (appends_emits hf hg args)
  | .stray d => by
    intro b s is
    exact ⟨s, [], b.journal, by simp; rfl⟩

theorem appends_emits (hf : f < m.functions.length) (hg : ∀ p ∈ g.scope, p.2.type = .i32) :
    (es : List Expr) → Appends g m f label (expressions es) (emits ⟨signature m, g.scope⟩ es)
  | [] => .pure []
  | e :: es => by
    unfold emits expressions
    refine (appends_emit hf hg e).bind fun s y hy => ?_
    refine (appends_emits hf hg es).bind fun s z hz => ?_
    exact .pure _

end

end

end Generator

end ExprCompiler
