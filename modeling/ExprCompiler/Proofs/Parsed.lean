import ExprCompiler.Proofs.Grammatical
import ExprCompiler.Proofs.Reached

/-!
# Grammatical units in the generator

A grammatical unit succeeds or fails, and never ends the generator. Its code
calls identifiers only; so the function of a bare expression, whose name is
no identifier, is called by no other function.
-/

namespace ExprCompiler

open IR (Block Function FunctionId Instruction Module Operand Scope)

namespace Generator

theorem Emission.bind_eq_error {α β : Type} {x : Emission α} {k : α → Emission β} {s : Scope}
    {stop : GeneratorStop} :
    x.bind k s = .error stop ↔
      x s = .error stop ∨ ∃ y, x s = .ok y ∧ k y.value y.scope = .error stop := by
  unfold Emission.bind
  cases x s with
  | error e => simp
  | ok y =>
    cases hk : k y.value y.scope with
    | error e => simp [hk]
    | ok z => simp [hk]

def Semantic (stop : GeneratorStop) : Prop := ∃ e, stop = .failed (.semantic e)

theorem emitOperator_stop {op : String} {l r : Expr} {sp : Option Span} {a b : Operand} {s : Scope}
    {stop : GeneratorStop} (h : emitOperator op l r sp a b s = .error stop) : Semantic stop := by
  unfold emitOperator at h
  cases ho : arithmetic.lookup op with
  | some o =>
    rw [ho] at h
    cases h
  | none =>
    simp only [ho] at h
    by_cases hlt : op = "<"
    · rw [if_pos hlt] at h
      rcases Emission.bind_eq_error.1 h with h | ⟨y, -, h⟩ <;> cases h
    · rw [if_neg hlt] at h
      cases h
      exact ⟨_, rfl⟩

mutual

theorem emit_stop (c : Site) : (e : Expr) → e.Grammatical → ∀ s stop, emit c e s = .error stop →
    Semantic stop
  | .number v sp, _, s, stop, h => by cases h
  | .var n sp, _, s, stop, h => by
    unfold emit at h
    cases hx : c.params.lookup n with
    | some x =>
      rw [hx] at h
      cases h
    | none =>
      rw [hx] at h
      cases h
      exact ⟨_, rfl⟩
  | .binary op l r sp, hg, s, stop, h => by
    unfold emit at h
    rcases Emission.bind_eq_error.1 h with h | ⟨y, -, h⟩
    · exact emit_stop c l hg.2.1 s stop h
    · rcases Emission.bind_eq_error.1 h with h | ⟨z, -, h⟩
      · exact emit_stop c r hg.2.2 _ stop h
      · exact emitOperator_stop h
  | .call callee args sp, hg, s, stop, h => by
    unfold emit at h
    cases hf : c.callees callee with
    | none =>
      rw [hf] at h
      cases h
      exact ⟨_, rfl⟩
    | some p =>
      simp only [hf] at h
      by_cases hn : p.2 ≠ args.length
      · rw [if_pos hn] at h
        cases h
        exact ⟨_, rfl⟩
      · rw [if_neg hn] at h
        rcases Emission.bind_eq_error.1 h with h | ⟨y, -, h⟩
        · exact emits_stop c args hg.2 s stop h
        · cases h
  | .stray d, hg, _, _, _ => hg.elim

theorem emits_stop (c : Site) : (es : List Expr) → Expr.AllGrammatical es →
    ∀ s stop, emits c es s = .error stop → Semantic stop
  | [], _, s, stop, h => by cases h
  | e :: es, hg, s, stop, h => by
    unfold emits at h
    rcases Emission.bind_eq_error.1 h with h | ⟨y, -, h⟩
    · exact emit_stop c e hg.1 s stop h
    · rcases Emission.bind_eq_error.1 h with h | ⟨z, -, h⟩
      · exact emits_stop c es hg.2 _ stop h
      · cases h

end

theorem callees_emit (c : Site) :
    (∀ e s y, emit c e s = .ok y → e.Grammatical → ∀ g ∈ y.code.filterMap Instruction.callee?,
      ∃ n k, Identifier n ∧ c.callees n = some (g, k)) ∧
    (∀ es s y, emits c es s = .ok y → Expr.AllGrammatical es →
      ∀ g ∈ y.code.filterMap Instruction.callee?, ∃ n k, Identifier n ∧ c.callees n = some (g, k)) := by
  apply emit_induction
    (P := fun e _ y => e.Grammatical → ∀ g ∈ y.code.filterMap Instruction.callee?,
      ∃ n k, Identifier n ∧ c.callees n = some (g, k))
    (Q := fun es _ y => Expr.AllGrammatical es → ∀ g ∈ y.code.filterMap Instruction.callee?,
      ∃ n k, Identifier n ∧ c.callees n = some (g, k))
  case number => simp
  case var => simp
  case operator =>
    intro op l r sp s y z w hy hz hw hg g hm
    have hnone := callees_emitOperator hw
    simp only [List.filterMap_append, hnone, List.append_nil, List.mem_append] at hm
    rcases hm with hm | hm
    · exact hy hg.2.1 g hm
    · exact hz hg.2.2 g hm
  case call =>
    intro callee args sp f s y hf hy hg g hm
    simp only [List.filterMap_append, List.mem_append] at hm
    rcases hm with hm | hm
    · exact hy hg.2 g hm
    · have hgf : g = f := by simpa [Instruction.callee?] using hm
      exact ⟨callee, args.length, hg.1, hgf ▸ hf⟩
  case nil => simp
  case cons =>
    intro e es s y z hy hz hg g hm
    simp only [List.filterMap_append, List.mem_append] at hm
    rcases hm with hm | hm
    · exact hy hg.1 g hm
    · exact hz hg.2 g hm

/-! ### Literals -/

def Literal (v : Int) (is : List Instruction) : Prop := ∃ i ∈ is, Operand.const v ∈ i.operands

section

variable {v : Int}

theorem literal_append {is js : List Instruction} :
    Literal v (is ++ js) ↔ Literal v is ∨ Literal v js := by
  simp only [Literal, List.mem_append, or_and_right, exists_or]

theorem not_literal_nil : ¬ Literal v [] := by
  simp [Literal]

theorem literal_emitOperator {op : String} {l r : Expr} {sp : Option Span} {a b : Operand}
    {s : Scope} {w : Emitted Operand} (h : emitOperator op l r sp a b s = .ok w) :
    w.value ≠ .const v ∧ (Literal v w.code → a = .const v ∨ b = .const v) := by
  obtain ⟨o, -, rfl⟩ | ⟨-, t, bit, n, -, -, -, rfl⟩ := emitOperator_eq_ok h
  · simp [Literal, Instruction.operands, eq_comm]
  · simp [Literal, Instruction.operands, eq_comm]

end

theorem literal_emit {c : Site} (hp : ∀ p ∈ c.params, ∀ v, p.2 ≠ .const v) :
    (∀ e s y, emit c e s = .ok y → e.Grammatical → ∀ v, (y.value = .const v ∨ Literal v y.code) →
      0 ≤ v ∧ v ≤ Parser.int32Max) ∧
    (∀ es s y, emits c es s = .ok y → Expr.AllGrammatical es →
      ∀ v, (.const v ∈ y.value ∨ Literal v y.code) → 0 ≤ v ∧ v ≤ Parser.int32Max) := by
  apply emit_induction
    (P := fun e _ y => e.Grammatical → ∀ v, (y.value = .const v ∨ Literal v y.code) →
      0 ≤ v ∧ v ≤ Parser.int32Max)
    (Q := fun es _ y => Expr.AllGrammatical es →
      ∀ v, (.const v ∈ y.value ∨ Literal v y.code) → 0 ≤ v ∧ v ≤ Parser.int32Max)
  case number =>
    intro k sp s hg v h
    rcases h with h | h
    · cases h
      exact hg
    · exact absurd h not_literal_nil
  case var =>
    intro n sp s x hx hg v h
    rcases h with h | h
    · obtain ⟨l₁, l₂, hl, -⟩ := List.lookup_eq_some_iff.1 hx
      exact absurd h (hp (n, x) (by simp [hl]) v)
    · exact absurd h not_literal_nil
  case operator =>
    intro op l r sp s y z w hy hz hw hg v h
    obtain ⟨hvalue, hcode⟩ := literal_emitOperator (v := v) hw
    rcases h with h | h
    · exact absurd h hvalue
    · rw [literal_append, literal_append] at h
      rcases h with h | h | h
      · exact hy hg.2.1 v (Or.inr h)
      · exact hz hg.2.2 v (Or.inr h)
      · rcases hcode h with h | h
        · exact hy hg.2.1 v (Or.inl h)
        · exact hz hg.2.2 v (Or.inl h)
  case call =>
    intro callee args sp f s y hf hy hg v h
    rcases h with h | h
    · cases h
    · rcases literal_append.1 h with h | ⟨i, hi, hv⟩
      · exact hy hg.2 v (Or.inr h)
      · rw [List.mem_singleton.1 hi] at hv
        exact hy hg.2 v (Or.inl hv)
  case nil =>
    intro s hg v h
    rcases h with h | h
    · cases h
    · exact absurd h not_literal_nil
  case cons =>
    intro e es s y z hy hz hg v h
    rcases h with h | h
    · rcases List.mem_cons.1 h with h | h
      · exact hy hg.1 v (Or.inl h.symm)
      · exact hz hg.2 v (Or.inl h)
    · rcases literal_append.1 h with h | h
      · exact hy hg.1 v (Or.inr h)
      · exact hz hg.2 v (Or.inr h)

/-! ### Modules made from grammatical units -/

def Anonymous (m : Module) (f : FunctionId) : Prop := ∃ k, m.lookup (anonymousName k) = some f

section

variable {us : List TopLevel} {m : Module} {f : FunctionId}

theorem Coded.callees_identifier {d : Definition} (hi : m.Indexed) (h : Coded m f d)
    (hg : d.body.Grammatical) : ∀ c ∈ (m.get f).callees, Identifier (m.get c).name := by
  intro c hc
  obtain ⟨s, label, y, hy, hb⟩ := h.code
  rw [Coded.callees_eq hb] at hc
  obtain ⟨n, k, hn, hs⟩ := (callees_emit _).1 _ _ _ hy hg c hc
  rwa [hi.name_of_lookup (signature_eq_some.1 hs).1]

theorem Sound.callees_identifier (h : Sound us m) (hg : ∀ u ∈ us, u.Grammatical)
    (hf : f ∈ m.registered) : ∀ c ∈ (m.get f).callees, Identifier (m.get c).name := by
  by_cases hb : (m.get f).hasBody = true
  · obtain ⟨d, hd, hcoded⟩ := h.coded f hf hb
    have hbody := (hg _ (mem_of_latest hd).1).body d rfl
    exact hcoded.callees_identifier h.indexed hbody
  · have hblocks : (m.get f).blocks = [] := Function.blocks_eq_nil hb
    simp [Function.callees, Function.instructions, hblocks]

theorem Sound.unused_of_anonymous (h : Sound us m) (hg : ∀ u ∈ us, u.Grammatical)
    (hf : Anonymous m f) : m.Unused f := by
  obtain ⟨k, hk⟩ := hf
  intro g hgm _ hc
  have hn := h.callees_identifier hg hgm f hc
  rw [h.indexed.name_of_lookup hk] at hn
  exact hn.ne_anonymous k rfl

theorem Coded.literal_range {d : Definition} (h : Coded m f d) (hg : d.body.Grammatical) {v : Int}
    (hv : Literal v (m.get f).instructions) : 0 ≤ v ∧ v ≤ Parser.int32Max := by
  obtain ⟨s, label, y, hy, hb⟩ := h.code
  have hparams : ∀ p ∈ paramScope f (m.get f).arity d.prototype.params, ∀ v, p.2 ≠ .const v := by
    intro p hp v hv
    obtain ⟨i, hi, -⟩ := mem_paramScope p hp
    cases hi.symm.trans hv
  have hcode : Literal v (y.code ++ [.ret y.value]) := by
    rcases hb with hb | hb
    · simpa [Function.instructions, hb] using hv
    · simp only [Function.instructions, hb, Module.sealBlock, List.flatMap_cons, List.flatMap_nil,
        List.append_nil] at hv
      obtain ⟨i, hi, hv⟩ := hv
      obtain ⟨j, hj, rfl⟩ := List.mem_map.1 hi
      rw [Instruction.operands_mapOperands] at hv
      obtain ⟨x, hx, hxv⟩ := List.mem_map.1 hv
      cases x with
      | const w =>
        cases hxv
        exact ⟨j, hj, hx⟩
      | param g k => cases hxv
      | named n t => cases hxv
  apply (literal_emit hparams).1 _ _ _ hy hg v
  obtain ⟨i, hi, hv⟩ := hcode
  rcases List.mem_append.1 hi with hi | hi
  · exact Or.inr ⟨i, hi, hv⟩
  · rw [List.mem_singleton.1 hi] at hv
    exact Or.inl (List.mem_singleton.1 hv).symm

theorem Sound.literal_range (h : Sound us m) (hg : ∀ u ∈ us, u.Grammatical) (hf : f ∈ m.registered)
    {v : Int} (hv : Literal v (m.get f).instructions) : 0 ≤ v ∧ v ≤ Parser.int32Max := by
  by_cases hb : (m.get f).hasBody = true
  · obtain ⟨d, hd, hcoded⟩ := h.coded f hf hb
    exact hcoded.literal_range ((hg _ (mem_of_latest hd).1).body d rfl) hv
  · have hblocks : (m.get f).blocks = [] := Function.blocks_eq_nil hb
    obtain ⟨i, hi, -⟩ := hv
    simp [Function.instructions, hblocks] at hi

end

theorem anonymousName_ne_empty (k : Nat) : anonymousName k ≠ "" := by
  intro h
  have hl := congrArg String.toList h
  simp [anonymousName, anonymousFront] at hl

theorem name_ne_empty {u : TopLevel} (h : u.Grammatical) : u.prototype.name ≠ "" := by
  rcases h.name with hn | ⟨k, d, rfl, hk, -⟩
  · exact hn.ne_empty
  · change d.name ≠ ""
    rw [hk]
    exact anonymousName_ne_empty k

/-- A grammatical unit never gets the generator stuck. -/
theorem not_stuck {m : Module} {u : TopLevel} {stop : GeneratorStop} (hi : m.Indexed)
    (hg : u.Grammatical) (h : Stuck m u stop) : Semantic stop := by
  rcases h with h | ⟨d, f, m', rfl, -, he⟩
  · unfold introduce at h
    split at h
    · cases h
      exact ⟨_, rfl⟩
    · split at h
      · rename_i hl
        rw [Module.declare?_eq_some hi hl (name_ne_empty hg)] at h
        cases h
      · split at h
        · cases h
          exact ⟨_, rfl⟩
        · cases h
  · have hbody := hg.body d rfl
    unfold emitBody at he
    simp only at he
    split at he
    · cases he
      exact emit_stop _ _ hbody _ _ ‹_›
    · cases he

theorem generate_total {us : List TopLevel} {g : Generator} {u : TopLevel}
    (h : Sound us g.backend.module) (hg : u.Grammatical) : ∃ r g', generate u g = .ok r g' := by
  cases hr : generate u g with
  | ok r g' => exact ⟨r, g', rfl⟩
  | error stop g' =>
    obtain ⟨hstuck, hstop⟩ := generate_stuck h.indexed h.named hr
    obtain ⟨e, he⟩ := not_stuck h.indexed hg hstuck
    exact absurd he (hstop _)

theorem Reached.sound_of_grammatical {us : List TopLevel} {g : Generator}
    (h : Reached TopLevel.Grammatical Anonymous us g) : Sound us g.backend.module :=
  h.sound fun _ _ _ hs hu hf => hs.unused_of_anonymous hu hf

def run (vs : List TopLevel) (g : Generator) : Generator := vs.foldl (fun g u => after u g) g

theorem Reached.run {us : List TopLevel} {g : Generator} (h : Reached TopLevel.Parsed Anonymous us g)
    (vs : List TopLevel) (hvs : ∀ u ∈ vs, u.Parsed) :
    ∃ us', Reached TopLevel.Parsed Anonymous us' (run vs g) := by
  induction vs generalizing us g with
  | nil => exact ⟨us, h⟩
  | cons u vs ih =>
    have hu := hvs u List.mem_cons_self
    have hsound := (h.mono fun u hu => hu.grammatical).sound_of_grammatical
    obtain ⟨r, g', hg⟩ := generate_total hsound hu.grammatical
    have hafter : after u g = g' := by simp only [after, hg]
    have hreached := h.generated hu hg
    rw [← hafter] at hreached
    exact ih hreached fun w hw => hvs w (List.mem_cons_of_mem _ hw)

end Generator

end ExprCompiler
