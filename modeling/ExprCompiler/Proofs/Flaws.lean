import ExprCompiler.Proofs.Indistinct

/-!
# The first flaw of a unit

What a unit may refer to is fixed by the module and by the prototype. The
flaws of a unit stand in the order in which they are looked for: first those
of the prototype, then those of the body from left to right, where a call
comes before its arguments and an operator after its operands. A unit without
flaws succeeds, and any other one reports its first flaw.
-/

namespace ExprCompiler

open IR (Function FunctionId Module Operand)

structure Flaw where
  code : String
  node : Node

def SemanticError.flaw (e : SemanticError) : Flaw := ⟨e.code, e.node⟩

structure Visible where
  arity : String → Option Nat
  params : List String

namespace Expr

def operators : List String := ["<", "+", "-", "*"]

def Fits (v : Visible) : Expr → Prop
  | var n _ => n ∈ v.params
  | binary op _ _ _ => op ∈ operators
  | call callee args _ => v.arity callee = some args.length
  | _ => True

def flaw? (v : Visible) : Expr → Option Flaw
  | var n s => if n ∈ v.params then none else some ⟨"S010", .expr (var n s)⟩
  | binary op l r s => if op ∈ operators then none else some ⟨"S080", .expr (binary op l r s)⟩
  | call callee args s =>
    match v.arity callee with
    | none => some ⟨"S012", .expr (call callee args s)⟩
    | some k => if k = args.length then none else some ⟨"S050", .expr (call callee args s)⟩
  | _ => none

mutual

/-- The nodes of an expression from left to right, a call before its arguments and an operator
after its operands. -/
def inOrder : Expr → List Expr
  | binary op l r s => l.inOrder ++ (r.inOrder ++ [binary op l r s])
  | call callee args s => call callee args s :: inOrders args
  | e => [e]

def inOrders : List Expr → List Expr
  | [] => []
  | e :: es => e.inOrder ++ inOrders es

end

def flaws (v : Visible) (e : Expr) : List Flaw := e.inOrder.filterMap (flaw? v)

section

variable {v : Visible} {e x : Expr}

theorem mem_inOrders_iff {es : List Expr} : x ∈ inOrders es ↔ ∃ e ∈ es, x ∈ e.inOrder := by
  induction es with
  | nil => simp [inOrders]
  | cons e es ih => simp [inOrders, ih]

theorem mem_inOrder_iff : x ∈ e.inOrder ↔ x = e ∨ ∃ c ∈ e.children, x ∈ c.inOrder := by
  cases e with
  | binary op l r s =>
    simp only [inOrder, children, List.mem_append, List.mem_singleton, List.exists_mem_cons_iff,
      exists_eq_left]
    tauto
  | call callee args s => simp [inOrder, children, mem_inOrders_iff]
  | number => simp [inOrder, children]
  | var => simp [inOrder, children]
  | stray => simp [inOrder, children]

theorem mem_walkFrom_iff {stack : List Expr} : x ∈ walkFrom stack ↔ ∃ e ∈ stack, x ∈ e.inOrder := by
  fun_induction walkFrom stack with
  | case1 => simp
  | case2 e stack ih =>
    rw [List.mem_cons, ih, List.exists_mem_cons_iff, mem_inOrder_iff, or_assoc]
    simp only [List.mem_append, or_and_right, exists_or]

theorem mem_walk_iff : x ∈ e.walk ↔ x ∈ e.inOrder := by
  simp [walk, mem_walkFrom_iff]

theorem flaw?_eq_none_iff : flaw? v e = none ↔ e.Fits v := by
  cases e with
  | call callee args s =>
    simp only [flaw?, Fits]
    cases v.arity callee <;> simp
  | _ => simp [flaw?, Fits]

theorem flaws_eq_nil_iff : e.flaws v = [] ↔ ∀ x ∈ e.walk, x.Fits v := by
  simp only [flaws, List.filterMap_eq_nil_iff, flaw?_eq_none_iff, mem_walk_iff]

end

end Expr

namespace Generator

variable {α β : Type} {m m' : Module} {p : Prototype} {d : Definition} {f : FunctionId}

def arityOf (m : Module) (n : String) : Option Nat := (m.lookup n).map fun f => (m.get f).arity

def visible (m : Module) (p : Prototype) : Visible :=
  ⟨fun n => if n = p.name then some p.arity else arityOf m n, p.params⟩

def hasDefinition (m : Module) (n : String) : Bool := (m.lookup n).any fun f => (m.get f).hasBody

def repetitionFlaws (m : Module) (p : Prototype) : List Flaw :=
  if hasDefinition m p.name then [⟨"S011", .unit (.external p)⟩] else []

def prototypeFlaws (m : Module) (p : Prototype) : List Flaw :=
  (if p.params.Nodup then [] else [⟨"S052", .unit (.external p)⟩]) ++
    if ∀ k ∈ arityOf m p.name, k = p.arity then [] else [⟨"S055", .unit (.external p)⟩]

def flaws (m : Module) : TopLevel → List Flaw
  | .external p => prototypeFlaws m p
  | .definition d =>
    repetitionFlaws m d.prototype ++
      (prototypeFlaws m d.prototype ++ d.body.flaws (visible m d.prototype))

/-- A unit that agrees with the module and refers to what is visible only. -/
structure Admissible (m : Module) (u : TopLevel) : Prop where
  distinct : u.prototype.params.Nodup
  agrees : ∀ f, m.lookup u.prototype.name = some f → (m.get f).arity = u.prototype.arity
  bodiless : ∀ d, u = .definition d → Bodiless m d.name
  fits : ∀ d, u = .definition d → ∀ e ∈ d.body.walk, e.Fits (visible m d.prototype)

theorem repetitionFlaws_eq_nil_iff : repetitionFlaws m p = [] ↔ Bodiless m p.name := by
  rw [← any_hasBody_eq_false_iff]
  unfold repetitionFlaws hasDefinition
  split <;> simp_all

theorem prototypeFlaws_eq_nil_iff : prototypeFlaws m p = [] ↔
    p.params.Nodup ∧ ∀ f, m.lookup p.name = some f → (m.get f).arity = p.arity := by
  simp [prototypeFlaws, arityOf]

theorem flaws_eq_nil_iff {u : TopLevel} : flaws m u = [] ↔ Admissible m u := by
  cases u with
  | external p =>
    rw [flaws, prototypeFlaws_eq_nil_iff]
    exact ⟨fun h => ⟨h.1, h.2, by rintro d ⟨⟩, by rintro d ⟨⟩⟩, fun h => ⟨h.distinct, h.agrees⟩⟩
  | definition d =>
    rw [flaws, List.append_eq_nil_iff, List.append_eq_nil_iff, repetitionFlaws_eq_nil_iff,
      prototypeFlaws_eq_nil_iff, Expr.flaws_eq_nil_iff]
    constructor
    · rintro ⟨hless, ⟨hdistinct, hagrees⟩, hfits⟩
      refine ⟨hdistinct, hagrees, ?_, ?_⟩
      · rintro _ ⟨⟩
        exact hless
      · rintro _ ⟨⟩
        exact hfits
    · rintro ⟨hdistinct, hagrees, hless, hfits⟩
      exact ⟨hless d rfl, ⟨hdistinct, hagrees⟩, hfits d rfl⟩

/-! ### Reporting the first flaw -/

def Reports (x : Except GeneratorStop α) : List Flaw → Prop
  | [] => ∃ a, x = .ok a
  | flaw :: _ => ∃ e, x = .error (.failed (.semantic e)) ∧ e.flaw = flaw

theorem Reports.map {x : Except GeneratorStop α} {fs : List Flaw} (h : Reports x fs) (k : α → β) :
    Reports (x.map k) fs := by
  cases fs with
  | nil =>
    obtain ⟨a, rfl⟩ := h
    exact ⟨k a, rfl⟩
  | cons flaw fs =>
    obtain ⟨e, rfl, hflaw⟩ := h
    exact ⟨e, rfl, hflaw⟩

theorem Reports.bind {x : Except GeneratorStop α} {k : α → Except GeneratorStop β}
    {fs gs : List Flaw} (hx : Reports x fs) (hk : ∀ a, x = .ok a → Reports (k a) gs) :
    Reports (x.bind k) (fs ++ gs) := by
  cases fs with
  | nil =>
    obtain ⟨a, rfl⟩ := hx
    exact hk a rfl
  | cons flaw fs =>
    obtain ⟨e, rfl, hflaw⟩ := hx
    exact ⟨e, rfl, hflaw⟩

def Finds (x : Emission α) (fs : List Flaw) : Prop := ∀ s, Reports (x s) fs

namespace Finds

theorem pure (a : α) : Finds (.pure a) [] := fun _ => ⟨_, rfl⟩

theorem instruction (base : String) (i : String → IR.Instruction) (t : IR.Ty) :
    Finds (.instruction base i t) [] := fun _ => ⟨_, rfl⟩

theorem fail (e : SemanticError) (fs : List Flaw) : Finds (α := α) (.fail e) (e.flaw :: fs) :=
  fun _ => ⟨e, rfl, rfl⟩

theorem bind {x : Emission α} {k : α → Emission β} {fs gs : List Flaw} (hx : Finds x fs)
    (hk : ∀ a, Finds (k a) gs) : Finds (x.bind k) (fs ++ gs) := by
  intro s
  have hx := hx s
  cases fs with
  | cons flaw fs =>
    obtain ⟨e, he, hflaw⟩ := hx
    exact ⟨e, by simp only [Emission.bind, he], hflaw⟩
  | nil =>
    obtain ⟨y, hy⟩ := hx
    have hk := hk y.value y.scope
    cases gs with
    | nil =>
      obtain ⟨z, hz⟩ := hk
      exact ⟨_, Emission.bind_eq_ok.2 ⟨y, z, hy, hz, rfl⟩⟩
    | cons flaw gs =>
      obtain ⟨e, he, hflaw⟩ := hk
      exact ⟨e, by simp only [Emission.bind, hy, he], hflaw⟩

end Finds

structure Offers (c : Site) (v : Visible) : Prop where
  params : ∀ n, (c.params.lookup n).isSome = true ↔ n ∈ v.params
  arity : ∀ n, (c.callees n).map Prod.snd = v.arity n

section

variable {c : Site} {v : Visible}

theorem emitOperator_finds (op : String) (l r : Expr) (s : Option Span) (a b : Operand) :
    Finds (emitOperator op l r s a b) ((Expr.binary op l r s).flaw? v).toList := by
  have harith : (arithmetic.lookup op).isSome = true ↔ op ∈ ["+", "-", "*"] := by
    simp [arithmetic, List.lookup_cons]
    grind
  have hflaw : ((Expr.binary op l r s).flaw? v).toList =
      if op ∈ Expr.operators then [] else [(SemanticError.invalidOperator op l r s).flaw] := by
    by_cases hop : op ∈ Expr.operators
    · simp only [Expr.flaw?, hop, if_true, Option.toList_none]
    · simp only [Expr.flaw?, hop, if_false, Option.toList_some]
      rfl
  rw [hflaw]
  unfold emitOperator Expr.operators
  cases ho : arithmetic.lookup op with
  | some o =>
    have hop : op ∈ ["+", "-", "*"] := harith.1 (by simp [ho])
    rw [if_pos (List.mem_cons_of_mem _ hop)]
    exact .instruction _ _ _
  | none =>
    have hop : op ∉ ["+", "-", "*"] := fun h => absurd (harith.2 h) (by simp [ho])
    by_cases hlt : op = "<"
    · subst hlt
      simp only [List.mem_cons_self, if_true]
      exact (Finds.instruction _ _ _).bind fun _ => .instruction _ _ _
    · have hnone : op ∉ ["<", "+", "-", "*"] := by
        rw [List.mem_cons, not_or]
        exact ⟨hlt, hop⟩
      simp only [if_neg hnone, if_neg hlt]
      exact .fail (.invalidOperator op l r s) []

mutual

/-- Emitting an expression tells the first flaw in it. -/
theorem emit_finds (hc : Offers c v) :
    (e : Expr) → (∀ d, Expr.stray d ∉ e.inOrder) → Finds (emit c e) (e.flaws v)
  | .number n s, _ => .pure _
  | .var n s, _ => by
    have hn := hc.params n
    simp only [emit, Expr.flaws, Expr.inOrder, List.filterMap_cons, List.filterMap_nil, Expr.flaw?]
    cases hx : c.params.lookup n with
    | some x =>
      rw [if_pos (hn.1 (by simp [hx]))]
      exact .pure x
    | none =>
      rw [if_neg fun h => by simpa [hx] using hn.2 h]
      exact .fail (.unknownVariable n s _) []
  | .binary op l r s, hstray => by
    simp only [Expr.inOrder, List.mem_append, not_or] at hstray
    have hflaws : (Expr.binary op l r s).flaws v =
        l.flaws v ++ (r.flaws v ++ ((Expr.binary op l r s).flaw? v).toList) := by
      simp only [Expr.flaws, Expr.inOrder, List.filterMap_append, List.filterMap_cons,
        List.filterMap_nil]
      cases (Expr.binary op l r s).flaw? v <;> rfl
    unfold emit
    rw [hflaws]
    refine (emit_finds hc l fun d => (hstray d).1).bind fun a => ?_
    refine (emit_finds hc r fun d => (hstray d).2.1).bind fun b => ?_
    exact emitOperator_finds op l r s a b
  | .call callee args s, hstray => by
    have hk := hc.arity callee
    simp only [Expr.inOrder, List.mem_cons, not_or] at hstray
    simp only [emit, Expr.flaws, Expr.inOrder, List.filterMap_cons, Expr.flaw?, ← hk]
    cases c.callees callee with
    | none => exact .fail (.unknownFunction callee args s) _
    | some p =>
      obtain ⟨f, expected⟩ := p
      simp only [Option.map_some]
      by_cases hn : expected = args.length
      · rw [if_neg (not_not.2 hn), if_pos hn, ← List.append_nil (List.filterMap _ _)]
        exact (emits_finds hc args fun d => (hstray d).2).bind fun xs => .instruction _ _ _
      · rw [if_pos hn, if_neg hn]
        exact .fail (.arityMismatch callee args s expected) _
  | .stray d, hstray => absurd List.mem_cons_self (hstray d)

theorem emits_finds (hc : Offers c v) : (es : List Expr) → (∀ d, Expr.stray d ∉ Expr.inOrders es) →
    Finds (emits c es) ((Expr.inOrders es).filterMap (Expr.flaw? v))
  | [], _ => .pure _
  | e :: es, hstray => by
    simp only [Expr.inOrders, List.mem_append, not_or] at hstray
    unfold emits Expr.inOrders
    rw [List.filterMap_append, ← List.append_nil (List.filterMap _ (Expr.inOrders es))]
    refine (emit_finds hc e fun d => (hstray d).1).bind fun x => ?_
    exact (emits_finds hc es fun d => (hstray d).2).bind fun xs => .pure _

end

end

/-! ### Units -/

theorem introduce_reports (hi : m.Indexed) (hne : p.name ≠ "") :
    Reports (introduce m p) (prototypeFlaws m p) := by
  unfold introduce prototypeFlaws arityOf
  cases hd : firstDuplicate [] p.params with
  | some n =>
    have hdup : ¬p.params.Nodup := fun h => by
      rw [firstDuplicate_eq_none_iff.2 ⟨h, fun _ _ => List.not_mem_nil⟩] at hd
      cases hd
    rw [if_neg hdup]
    exact ⟨.duplicateParameter p n, rfl, rfl⟩
  | none =>
    rw [if_pos (firstDuplicate_eq_none_iff.1 hd).1]
    cases hl : m.lookup p.name with
    | none =>
      simp only [Module.declare?_eq_some hi hl hne]
      exact ⟨_, rfl⟩
    | some f =>
      by_cases ha : (m.get f).arity = p.arity
      · simp [ha, Reports]
      · simp only [Option.map_some, Option.mem_def, Option.some.injEq, forall_eq', ha, ne_eq,
          not_false_eq_true, if_true, if_false]
        exact ⟨.arityRedefinition p _, rfl, rfl⟩

theorem arityOf_introduce (hi : m.Indexed) (hp : introduce m p = .ok (f, m')) (n : String) :
    arityOf m' n = if n = p.name then some p.arity else arityOf m n := by
  obtain ⟨-, ⟨hl, -, rfl, rfl⟩ | ⟨hl, ha, rfl⟩⟩ := introduce_cases hp
  · unfold arityOf
    rw [Module.lookup_enlarged]
    by_cases hn : n = p.name
    · subst hn
      simp [hl]
    · cases hc : m.lookup n with
      | none => simp [hn]
      | some c => simp [hn, Module.get_enlarged_of_lt (hi.lt_of_lookup hc)]
  · have harity (c : FunctionId) : ((if (m.get f).hasBody then m
        else m.modify f (·.setParams p.params)).get c).arity = (m.get c).arity := by
      split
      · rfl
      · exact Module.map_get_modify Function.arity (by simp) f c
    have hlookup (k : String) : (if (m.get f).hasBody then m
        else m.modify f (·.setParams p.params)).lookup k = m.lookup k := by
      split <;> rfl
    simp only [arityOf, hlookup, harity]
    by_cases hn : n = p.name
    · simp [hn, hl, ha]
    · rw [if_neg hn]

theorem offers_introduced (hi : m.Indexed) (hn : ∀ f ∈ m.registered, (m.get f).Named)
    (hp : introduce m p = .ok (f, m')) :
    Offers ⟨signature m', paramScope f (m'.get f).arity p.params⟩ (visible m p) := by
  obtain ⟨-, -, ha, -⟩ := introduce_function hi hn hp
  constructor
  · intro n
    have hnames : (paramScope f (m'.get f).arity p.params).map Prod.fst = p.params.reverse := by
      rw [paramScope, List.map_reverse, List.map_fst_zip (by simp [ha, Prototype.arity])]
    have hmem : n ∈ (paramScope f (m'.get f).arity p.params).map Prod.fst ↔ n ∈ p.params := by
      rw [hnames, List.mem_reverse]
    rw [visible, ← hmem, List.lookup_isSome_iff]
    simp
  · intro n
    simp only [visible, ← arityOf_introduce hi hp n]
    rw [signature, arityOf, Option.map_map]
    rfl

theorem emitBody_reports (hi : m.Indexed) (hn : ∀ f ∈ m.registered, (m.get f).Named)
    (hp : introduce m d.prototype = .ok (f, m')) (hstray : ∀ s, Expr.stray s ∉ d.body.walk) :
    Reports (emitBody m' f d) (d.body.flaws (visible m d.prototype)) := by
  simp only [Expr.mem_walk_iff] at hstray
  have hfinds := emit_finds (offers_introduced hi hn hp) d.body hstray
    ((m'.get f).scope.register "entry").2
  unfold emitBody
  cases hf : d.body.flaws (visible m d.prototype) with
  | nil =>
    rw [hf] at hfinds
    obtain ⟨y, hy⟩ := hfinds
    simp only [hy]
    exact ⟨_, rfl⟩
  | cons flaw fs =>
    rw [hf] at hfinds
    obtain ⟨e, he, hflaw⟩ := hfinds
    simp only [he]
    exact ⟨e, rfl, hflaw⟩

theorem answer_definition (m : Module) (d : Definition) : answer m (.definition d) =
    if hasDefinition m d.prototype.name then
      .error (.failed (.semantic (.redefinition d.prototype)))
    else (introduce m d.prototype).bind fun q => (emitBody q.2 q.1 d).map fun _ => q.1 := by
  simp only [answer]
  cases introduce m d.prototype <;> rfl

theorem answer_reports (hi : m.Indexed) (hn : ∀ f ∈ m.registered, (m.get f).Named) {u : TopLevel}
    (hne : u.prototype.name ≠ "")
    (hstray : ∀ d, u = .definition d → ∀ s, Expr.stray s ∉ d.body.walk) :
    Reports (answer m u) (flaws m u) := by
  have hproto := introduce_reports hi hne
  cases u with
  | external p => exact hproto.map Prod.fst
  | definition d =>
    rw [answer_definition, flaws, repetitionFlaws]
    by_cases hb : hasDefinition m d.prototype.name = true
    · rw [if_pos hb, if_pos hb]
      exact ⟨.redefinition d.prototype, rfl, rfl⟩
    · rw [if_neg hb, if_neg hb, List.nil_append]
      refine hproto.bind fun q hp => ?_
      exact (emitBody_reports hi hn hp (hstray d rfl)).map _

section

variable {us : List TopLevel} {u : TopLevel} {g g' : Generator} {stop : GeneratorStop}

theorem Reports.failed {x : Except GeneratorStop α} {fs : List Flaw} (h : Reports x fs)
    (hx : x = .error stop) : ∃ e, stop = .failed (.semantic e) := by
  subst hx
  cases fs with
  | nil =>
    obtain ⟨a, ha⟩ := h
    cases ha
  | cons flaw fs =>
    obtain ⟨e, he, -⟩ := h
    cases he
    exact ⟨e, rfl⟩

theorem generate_eq_ok (hs : Sound us g.backend.module) (hne : u.prototype.name ≠ "")
    (hstray : ∀ d, u = .definition d → ∀ s, Expr.stray s ∉ d.body.walk) :
    ∃ r g', generate u g = .ok r g' := by
  cases hr : generate u g with
  | ok r g' => exact ⟨r, g', rfl⟩
  | error stop g' =>
    obtain ⟨hstuck, hstop⟩ := generate_stuck hs.indexed hs.named hr
    rcases hstuck with hp | ⟨d, f, m', rfl, hp, he⟩
    · obtain ⟨e, rfl⟩ := (introduce_reports hs.indexed hne).failed hp
      exact absurd rfl (hstop _)
    · obtain ⟨e, rfl⟩ := (emitBody_reports hs.indexed hs.named hp (hstray d rfl)).failed he
      exact absurd rfl (hstop _)

/-- A unit succeeds exactly if it is admissible; if it fails, the one error that is recorded tells
the first flaw. -/
theorem generate_first_flaw (h : Reached (fun _ => True) Module.Unused us g)
    (hv : g.verifier.Accepting) (hne : u.prototype.name ≠ "")
    (hstray : ∀ d, u = .definition d → ∀ s, Expr.stray s ∉ d.body.walk) :
    ∃ r g', generate u g = .ok r g' ∧ (r.isSome = true ↔ Admissible g.backend.module u) ∧
      ((r.isSome = true ∧ g'.errors = g.errors) ∨
        ∃ e, r = none ∧ g'.errors = g.errors ++ [.semantic e] ∧
          (flaws g.backend.module u).head? = some e.flaw) := by
  have hsound := h.sound fun _ _ _ _ _ hu => hu
  obtain ⟨r, g', hg⟩ := generate_eq_ok hsound hne hstray
  obtain ⟨x, -, rfl, herrors, -, hx⟩ := generate_answer hsound hv hg
  have hreports := answer_reports hsound.indexed hsound.named hne hstray
  refine ⟨_, g', hg, ?_⟩
  rw [hx] at hreports
  rw [herrors, ← flaws_eq_nil_iff]
  cases hf : flaws g.backend.module u with
  | nil =>
    rw [hf] at hreports
    obtain ⟨f, hf⟩ := hreports
    cases x with
    | ok c => simp [Except.toOption, newErrors]
    | error e => cases hf
  | cons flaw fs =>
    rw [hf] at hreports
    obtain ⟨e, he, rfl⟩ := hreports
    cases x with
    | ok c => cases he
    | error e' =>
      cases he
      simp [Except.toOption, newErrors]

def manyFlaws : TopLevel :=
  .definition ⟨⟨"g", ["x"], none⟩,
    .binary "/" (.call "g" [.var "y" none] none) (.call "f" [] none) none, none⟩

theorem generate_first_flaw_manyFlaws :
    Reached (fun _ => True) Module.Unused [.external ⟨"f", ["a", "b"], none⟩] withExternal ∧
      withExternal.verifier.Accepting ∧ manyFlaws.prototype.name ≠ "" ∧
      (flaws withExternal.backend.module manyFlaws).map Flaw.code = ["S010", "S050", "S080"] ∧
      ∃ g' e, generate manyFlaws withExternal = .ok none g' ∧
        g'.errors = withExternal.errors ++ [.semantic e] ∧
        e.flaw = ⟨"S010", .expr (.var "y" none)⟩ := by
  have hv : withExternal.verifier.Accepting := Verifier.accepting_checking
  have hstray : ∀ d, manyFlaws = .definition d → ∀ s, Expr.stray s ∉ d.body.walk := by
    rintro _ ⟨⟩ s
    simp [Expr.mem_walk_iff, Expr.inOrder, Expr.inOrders]
  have hflaws : flaws withExternal.backend.module manyFlaws =
      [⟨"S010", .expr (.var "y" none)⟩, ⟨"S050", .expr (.call "f" [] none)⟩,
        ⟨"S080", .expr (.binary "/" (.call "g" [.var "y" none] none) (.call "f" [] none) none)⟩] := by
    rfl
  obtain ⟨r, g', hg, hadmissible, ⟨hr, -⟩ | ⟨e, rfl, herrors, hflaw⟩⟩ :=
    generate_first_flaw reached_withExternal hv (by decide) hstray
  · have hnone := flaws_eq_nil_iff.2 (hadmissible.1 hr)
    rw [hflaws] at hnone
    cases hnone
  · rw [hflaws] at hflaw
    exact ⟨reached_withExternal, hv, by decide, by rw [hflaws]; rfl, g', e, hg, herrors,
      (Option.some.inj hflaw).symm⟩

end

end Generator

end ExprCompiler
