import ExprCompiler.Proofs.Failure
import ExprCompiler.Proofs.Integrity

/-!
# Modules that show the same

Two modules may have the same functions and differ in how much of their code
is sealed, and in what is left in the store of functions that have been
erased. Neither shows in their texts, and a unit makes of both of them modules
that show the same again.
-/

namespace ExprCompiler

open IR (Block Function FunctionId Module Operand Scope)

namespace IR.Module

structure ShowsAlike (m m' : Module) (f : FunctionId) : Prop where
  outline : (m'.get f).dropBlocks = (m.get f).dropBlocks
  hasBody : (m'.get f).hasBody = (m.get f).hasBody
  text : m'.functionText f = m.functionText f

/-- Two modules have the same functions, as far as they show. -/
structure Indistinct (m m' : Module) : Prop where
  name : m'.name = m.name
  triple : m'.triple = m.triple
  table : m'.table = m.table
  scope : m'.scope = m.scope
  length : m'.functions.length = m.functions.length
  alike : ∀ f ∈ m.registered, m.ShowsAlike m' f

section

variable {m m' n n' : Module} {f : FunctionId}

namespace ShowsAlike

theorem name (h : m.ShowsAlike m' f) : (m'.get f).name = (m.get f).name :=
  (congrArg Function.name h.outline :)

theorem arity (h : m.ShowsAlike m' f) : (m'.get f).arity = (m.get f).arity :=
  (congrArg Function.arity h.outline :)

theorem scope (h : m.ShowsAlike m' f) : (m'.get f).scope = (m.get f).scope :=
  (congrArg Function.scope h.outline :)

theorem symm (h : m.ShowsAlike m' f) : m'.ShowsAlike m f :=
  ⟨h.outline.symm, h.hasBody.symm, h.text.symm⟩

theorem dropBlocks_eq {x : Function} (h : x.blocks = []) : x.dropBlocks = x := by
  rw [Function.dropBlocks, ← h]

theorem get_eq (h : m.ShowsAlike m' f) (hb : (m.get f).hasBody = false) : m'.get f = m.get f := by
  have hblocks := Function.blocks_eq_nil (Bool.eq_false_iff.1 hb)
  have hblocks' := Function.blocks_eq_nil (Bool.eq_false_iff.1 (h.hasBody.trans hb))
  rw [← dropBlocks_eq hblocks', h.outline, dropBlocks_eq hblocks]

theorem of_get (h : m'.get f = m.get f) (ht : m'.functionText f = m.functionText f) :
    m.ShowsAlike m' f :=
  ⟨by rw [h], by rw [h], ht⟩

theorem of_declaration (h : m'.get f = m.get f) (hb : (m.get f).hasBody = false) :
    m.ShowsAlike m' f := by
  refine .of_get h ?_
  simp only [functionText, h, hb, Bool.false_eq_true, if_false]

end ShowsAlike

namespace Indistinct

theorem refl (m : Module) : m.Indistinct m := ⟨rfl, rfl, rfl, rfl, rfl, fun _ _ => ⟨rfl, rfl, rfl⟩⟩

theorem registered (h : m.Indistinct m') : m'.registered = m.registered := by
  simp only [Module.registered, h.table]

theorem lookup (h : m.Indistinct m') (n : String) : m'.lookup n = m.lookup n := by
  simp only [Module.lookup, h.table]

theorem symm (h : m.Indistinct m') : m'.Indistinct m :=
  ⟨h.name.symm, h.triple.symm, h.table.symm, h.scope.symm, h.length.symm,
    fun f hf => (h.alike f (h.registered ▸ hf)).symm⟩

theorem text (h : m.Indistinct m') : m'.text = m.text :=
  text_congr h.table h.name h.triple fun f hf => (h.alike f hf).text

theorem sealAll (h : m.Indistinct m') (fs gs : List FunctionId) :
    (m.sealAll fs).Indistinct (m'.sealAll gs) := by
  obtain ⟨hname, htriple, htable, hscope, hlength⟩ := sealAll_fields m fs
  obtain ⟨hname', htriple', htable', hscope', hlength'⟩ := sealAll_fields m' gs
  refine ⟨hname'.trans (h.name.trans hname.symm), htriple'.trans (h.triple.trans htriple.symm),
    htable'.trans (h.table.trans htable.symm), hscope'.trans (h.scope.trans hscope.symm),
    hlength'.trans (h.length.trans hlength.symm), fun f hf => ?_⟩
  have halike := h.alike f (by simpa using hf)
  refine ⟨?_, ?_, ?_⟩
  · rw [map_get_sealAll Function.dropBlocks (fun _ => rfl),
      map_get_sealAll Function.dropBlocks (fun _ => rfl), halike.outline]
  · rw [map_get_sealAll Function.hasBody (hasBody_sealed m'),
      map_get_sealAll Function.hasBody (hasBody_sealed m), halike.hasBody]
  · rw [functionText_sealAll, functionText_sealAll]
    exact halike.text

theorem functionText_erase (m : Module) (f g : FunctionId) :
    (m.erase f).functionText g = m.functionText g := by
  refine functionText_congr (get_erase m f g) (fun i _ x _ => ?_) fun c _ => by rw [get_erase]
  cases x <;> simp [reference, paramName]

theorem scope_erase (hl : m.lookup (m.get f).name = some f) :
    (m.erase f).scope = m.scope.release (m.get f).name := by
  simp only [Module.erase, if_pos hl]

theorem erase (h : m.Indistinct m') (hf : f ∈ m.registered) :
    (m.erase f).Indistinct (m'.erase f) := by
  have hname := (h.alike f hf).name
  have hlookup := h.lookup (m.get f).name
  by_cases hl : m.lookup (m.get f).name = some f
  · have hl' : m'.lookup (m'.get f).name = some f := by rw [hname, hlookup, hl]
    have hsub : ∀ g ∈ (m.erase f).registered, g ∈ m.registered := by
      intro g hg
      obtain ⟨p, hp, rfl⟩ := List.mem_map.1 hg
      rw [table_erase, if_pos hl] at hp
      exact List.mem_map_of_mem (List.mem_filter.1 hp).1
    refine ⟨?_, ?_, ?_, ?_, ?_, fun g hg => ?_⟩
    · simp only [Module.erase, hl, hl', if_true, h.name]
    · simp only [Module.erase, hl, hl', if_true, h.triple]
    · rw [table_erase, table_erase, if_pos hl, if_pos hl', h.table, hname]
    · rw [scope_erase hl', scope_erase hl, h.scope, hname]
    · simpa using h.length
    · have halike := h.alike g (hsub g hg)
      refine ⟨?_, ?_, ?_⟩
      · simpa using halike.outline
      · simpa using halike.hasBody
      · rw [functionText_erase, functionText_erase]
        exact halike.text
  · have hl' : m'.lookup (m'.get f).name ≠ some f := by rwa [hname, hlookup]
    simp only [Module.erase, hl, hl', if_false]
    exact h

end Indistinct

end

end IR.Module

namespace Generator

open IR.Module (Indistinct ShowsAlike)

variable {us us' : List TopLevel} {m m' n n' : Module} {f : FunctionId}

/-! ### Changes of both modules -/

section

variable (h : m.Indistinct m') (hs : Sound us m) (hs' : Sound us' m')
include h hs hs'

theorem alike_of_kept (hf : f ∈ m.registered) (hget : n.get f = m.get f)
    (hget' : n'.get f = m'.get f) (hnames : ∀ c ∈ m.registered, (n.get c).name = (m.get c).name)
    (hnames' : ∀ c ∈ m.registered, (n'.get c).name = (m'.get c).name) : n.ShowsAlike n' f := by
  have halike := h.alike f hf
  refine ⟨?_, ?_, ?_⟩
  · rw [hget, hget', halike.outline]
  · rw [hget, hget', halike.hasBody]
  · rw [← h.registered] at hf hnames'
    rw [hs'.functionText_eq hf hget' hnames', halike.text]
    rw [h.registered] at hf
    rw [hs.functionText_eq hf hget hnames]

theorem indistinct_stored (x x' : Function) : (m.stored x).Indistinct (m'.stored x') := by
  have hget {c : FunctionId} (hc : c ∈ m.registered) : (m.stored x).get c = m.get c :=
    Module.get_stored_of_lt (hs.indexed.lt_of_mem hc)
  have hget' {c : FunctionId} (hc : c ∈ m.registered) : (m'.stored x').get c = m'.get c :=
    Module.get_stored_of_lt (hs'.indexed.lt_of_mem (h.registered ▸ hc))
  refine ⟨h.name, h.triple, h.table, h.scope, by simp [h.length], fun f hf => ?_⟩
  exact alike_of_kept h hs hs' hf (hget hf) (hget' hf) (fun c hc => by rw [hget hc])
    fun c hc => by rw [hget' hc]

theorem indistinct_enlarged {k : Function} (hk : k.hasBody = false) :
    (m.enlarged k).Indistinct (m'.enlarged k) := by
  have hget {c : FunctionId} (hc : c ∈ m.registered) : (m.enlarged k).get c = m.get c :=
    Module.get_enlarged_of_lt (hs.indexed.lt_of_mem hc)
  have hget' {c : FunctionId} (hc : c ∈ m.registered) : (m'.enlarged k).get c = m'.get c :=
    Module.get_enlarged_of_lt (hs'.indexed.lt_of_mem (h.registered ▸ hc))
  refine ⟨h.name, h.triple, ?_, ?_, by simp [h.length], fun f hf => ?_⟩
  · simp only [Module.enlarged, h.table, h.length]
  · simp only [Module.enlarged, h.scope]
  · rw [Module.registered_enlarged, List.mem_append, List.mem_singleton] at hf
    rcases hf with hf | rfl
    · exact alike_of_kept h hs hs' hf (hget hf) (hget' hf) (fun c hc => by rw [hget hc])
        fun c hc => by rw [hget' hc]
    · have hself : (m'.enlarged k).get m.functions.length = k := by
        rw [← h.length, Module.get_enlarged_self]
      refine .of_declaration ?_ ?_
      · rw [hself, Module.get_enlarged_self]
      · rwa [Module.get_enlarged_self]

theorem indistinct_modify {vs : List TopLevel} {k : Function → Function}
    (hname : ∀ x, (k x).name = x.name) (hf : f ∈ m.registered)
    (hk : k (m'.get f) = k (m.get f)) (hn : Sound vs (m.modify f k)) :
    (m.modify f k).Indistinct (m'.modify f k) := by
  have hself : (m.modify f k).get f = k (m.get f) :=
    Module.get_modify_self k (hs.indexed.lt_of_mem hf)
  have hself' : (m'.modify f k).get f = k (m'.get f) :=
    Module.get_modify_self k (hs'.indexed.lt_of_mem (h.registered ▸ hf))
  have hnames (c : FunctionId) : ((m.modify f k).get c).name = (m.get c).name :=
    Module.map_get_modify Function.name hname f c
  have hnames' (c : FunctionId) : ((m'.modify f k).get c).name = (m'.get c).name :=
    Module.map_get_modify Function.name hname f c
  have hsame : (m'.modify f k).get f = (m.modify f k).get f := by rw [hself, hself', hk]
  refine ⟨h.name, h.triple, h.table, h.scope, by simpa using h.length, fun g hg => ?_⟩
  by_cases hgf : g = f
  · subst hgf
    refine .of_get hsame (hn.functionText_eq hf hsame fun c hc => ?_)
    rw [hnames, hnames', (h.alike c hc).name]
  · exact alike_of_kept h hs hs' hg (Module.get_modify_of_ne k hgf) (Module.get_modify_of_ne k hgf)
      (fun c _ => hnames c) fun c _ => hnames' c

theorem indistinct_introduce {p : Prototype} {f' : FunctionId}
    (hp : introduce m p = .ok (f, n)) (hp' : introduce m' p = .ok (f', n')) :
    f' = f ∧ n.Indistinct n' := by
  have hsound := hs.introduce hp
  obtain ⟨-, ⟨hl, -, rfl, rfl⟩ | ⟨hl, -, rfl⟩⟩ := introduce_cases hp <;>
    obtain ⟨-, ⟨hl', -, rfl, rfl⟩ | ⟨hl', -, rfl⟩⟩ := introduce_cases hp'
  · exact ⟨h.length, indistinct_enlarged h hs hs' (by simp [Function.hasBody])⟩
  · exact absurd (hl'.symm.trans ((h.lookup _).trans hl)) (by simp)
  · exact absurd (hl'.symm.trans ((h.lookup _).trans hl)) (by simp)
  · obtain rfl := Option.some.inj (hl'.symm.trans ((h.lookup _).trans hl))
    have hf := Module.mem_registered_of_lookup hl
    refine ⟨rfl, ?_⟩
    rw [(h.alike _ hf).hasBody]
    cases hb : (m.get f').hasBody with
    | true => exact h
    | false =>
      rw [hb] at hsound
      refine indistinct_modify h hs hs' (by simp) hf ?_ hsound
      rw [(h.alike _ hf).get_eq hb]

end

/-! ### Answers -/

def answer (m : Module) : TopLevel → Except GeneratorStop FunctionId
  | .external p => (introduce m p).map Prod.fst
  | .definition d =>
    if (m.lookup d.name).any fun f => (m.get f).hasBody then
      .error (.failed (.semantic (.redefinition d.prototype)))
    else
      match introduce m d.prototype with
      | .error stop => .error stop
      | .ok (f, m') => (emitBody m' f d).map fun _ => f

section

variable (h : m.Indistinct m')
include h

theorem introduce_fst (p : Prototype) :
    (introduce m' p).map Prod.fst = (introduce m p).map Prod.fst := by
  unfold introduce
  cases firstDuplicate [] p.params with
  | some n => rfl
  | none =>
    simp only [h.lookup]
    cases hl : m.lookup p.name with
    | none =>
      simp only [Module.declare?, h.scope]
      cases m.scope.reserve? p.name with
      | none => rfl
      | some s => exact congrArg Except.ok h.length
    | some f =>
      have halike := h.alike f (Module.mem_registered_of_lookup hl)
      simp only [halike.arity]
      split <;> rfl

theorem emitBody_indistinct (d : Definition) (hf : f ∈ m.registered) :
    emitBody m' f d = emitBody m f d := by
  have hsignature : signature m' = signature m := by
    funext n
    rw [signature, signature, h.lookup]
    cases hl : m.lookup n with
    | none => rfl
    | some c => simp [(h.alike c (Module.mem_registered_of_lookup hl)).arity]
  have halike := h.alike f hf
  simp only [emitBody, hsignature, halike.arity, halike.scope]

theorem any_hasBody (n : String) :
    (m'.lookup n).any (fun f => (m'.get f).hasBody) =
      (m.lookup n).any fun f => (m.get f).hasBody := by
  rw [h.lookup]
  cases hl : m.lookup n with
  | none => rfl
  | some c => simp [(h.alike c (Module.mem_registered_of_lookup hl)).hasBody]

theorem answer_indistinct (hs : Sound us m) (hs' : Sound us' m') (u : TopLevel) :
    answer m' u = answer m u := by
  cases u with
  | external p => exact introduce_fst h p
  | definition d =>
    have hfst := introduce_fst h d.prototype
    simp only [answer, any_hasBody h]
    cases hp : introduce m d.prototype with
    | error stop =>
      rw [hp] at hfst
      cases hp' : introduce m' d.prototype with
      | error stop' =>
        rw [hp'] at hfst
        cases hfst
        rfl
      | ok q =>
        rw [hp'] at hfst
        cases hfst
    | ok q =>
      obtain ⟨f, n⟩ := q
      rw [hp] at hfst
      cases hp' : introduce m' d.prototype with
      | error stop' =>
        rw [hp'] at hfst
        cases hfst
      | ok q =>
        obtain ⟨f', n'⟩ := q
        obtain ⟨rfl, hn⟩ := indistinct_introduce h hs hs' hp hp'
        obtain ⟨-, hl, -⟩ := introduce_function hs.indexed hs.named hp
        simp only [emitBody_indistinct hn d (Module.mem_registered_of_lookup hl)]

end

/-! ### Units -/

section

variable {u : TopLevel} {g g' : Generator} {r : Option FunctionId}

theorem any_hasBody_eq_false_iff {s : String} :
    ((m.lookup s).any fun f => (m.get f).hasBody) = false ↔ Bodiless m s := by
  unfold Bodiless
  cases m.lookup s <;> simp

theorem generate_repeated {d : Definition} (hl : g.backend.module.lookup d.name = some f)
    (hb : (g.backend.module.get f).hasBody = true)
    (hg : generate (.definition d) g = .ok r g') :
    g'.errors = g.errors ++ [.semantic (.redefinition d.prototype)] := by
  have hdefinition :
      definition d g = .error (.failed (.semantic (.redefinition d.prototype))) g := by
    unfold definition
    rw [bind_eq_ok (lookup_run g d.name), hl]
    simp only
    rw [bind_eq_ok (hasBody_run g f)]
    simp only [hb, if_true]
    rfl
  simp only [generate, topLevel, recorded, hdefinition] at hg
  cases hg
  rfl

theorem generate_answer (hs : Sound us g.backend.module) (hv : g.verifier.Accepting)
    (hg : generate u g = .ok r g') :
    ∃ x, Step g.verifier g.backend.module u x g'.backend.module ∧ r = x.toOption ∧
      g'.errors = g.errors ++ newErrors x ∧ g'.verifier = g.verifier ∧
      answer g.backend.module u = x.mapError .failed := by
  obtain ⟨x, hstep, hx, herrors, hverifier⟩ := generate_step hs.indexed hs.named hg
  refine ⟨x, hstep, hx, herrors, hverifier, ?_⟩
  generalize hn : g'.backend.module = n at hstep
  cases hstep with
  | declared hp => simp [answer, hp, Except.map, Except.mapError]
  | @refused u e hp =>
    cases u with
    | external p =>
      simp only [TopLevel.prototype] at hp
      simp [answer, hp, Except.map, Except.mapError]
    | definition d =>
      simp only [TopLevel.prototype] at hp
      cases hany : (g.backend.module.lookup d.name).any
          fun f => (g.backend.module.get f).hasBody with
      | false => simp [answer, hany, hp, Except.mapError]
      | true =>
        obtain ⟨f, hl, hb⟩ := (Option.any_eq_true _ _).1 hany
        rw [generate_repeated hl hb hg] at herrors
        obtain rfl : CompileError.semantic (.redefinition d.prototype) = e := by
          simpa [newErrors] using herrors
        simp [answer, hany, Except.mapError]
  | repeated hl hb => simp [answer, hl, hb, Except.mapError]
  | defined hb hp he =>
    simp [answer, any_hasBody_eq_false_iff.2 hb, hp, he, Except.map, Except.mapError]
  | unfinished hb hp he =>
    simp [answer, any_hasBody_eq_false_iff.2 hb, hp, he, Except.map, Except.mapError]
  | rejected hb hp he hfault => exact absurd (hs.accepted hb hp he _) (hfault hv)

structure Begins (m : Module) (d : Definition) (f : FunctionId) (n : Module) : Prop where
  bodiless : Bodiless m d.name
  introduced : introduce m d.prototype = .ok (f, n)

theorem Begins.indistinct {d : Definition} (h : m.Indistinct m') (hs : Sound us m)
    (hs' : Sound us' m') (hb : Begins m d f n) : ∃ n', Begins m' d f n' ∧ n.Indistinct n' := by
  have hfst := introduce_fst h d.prototype
  rw [hb.introduced] at hfst
  cases hp' : introduce m' d.prototype with
  | error stop =>
    rw [hp'] at hfst
    cases hfst
  | ok q =>
    obtain ⟨f', n'⟩ := q
    obtain ⟨rfl, hn⟩ := indistinct_introduce h hs hs' hb.introduced hp'
    refine ⟨n', ⟨any_hasBody_eq_false_iff.1 ?_, hp'⟩, hn⟩
    rw [any_hasBody h]
    exact any_hasBody_eq_false_iff.2 hb.bodiless

theorem Step.error_exact {e : CompileError} (hs : Sound us m)
    (h : Step .checking m u (.error e) n) :
    (n = m ∧ ∀ d f k, u = .definition d → ¬ Begins m d f k) ∨
      ∃ d f k t b, u = .definition d ∧ Begins m d f k ∧
        n = retract (k.withBody f t [b]) f (m.lookup d.name) := by
  cases h with
  | refused hp =>
    refine Or.inl ⟨rfl, ?_⟩
    rintro d f k rfl hb
    cases hp.symm.trans hb.introduced
  | repeated hl hbody =>
    refine Or.inl ⟨rfl, ?_⟩
    rintro d f k hd hb
    cases hd
    exact absurd (hb.bodiless _ hl) (by simp [hbody])
  | unfinished hb hp he => exact Or.inr ⟨_, _, _, _, _, rfl, ⟨hb, hp⟩, rfl⟩
  | rejected hb hp he hfault => exact absurd (hs.accepted hb hp he _) (hfault Verifier.accepting_checking)

section

variable (h : m.Indistinct m') (hs : Sound us m) (hs' : Sound us' m')
include h hs hs'

theorem indistinct_retract {d : Definition} {k k' : Module} (hb : Begins m d f k)
    (hb' : Begins m' d f k') (t t' : Scope) (b b' : Block)
    (hn : Sound us (retract (k.withBody f t [b]) f (m.lookup d.name))) :
    (retract (k.withBody f t [b]) f (m.lookup d.name)).Indistinct
      (retract (k'.withBody f t' [b']) f (m'.lookup d.name)) := by
  have hcases := retract_cases hs.indexed hs.named hb.bodiless hb.introduced t b []
  have hcases' := retract_cases hs'.indexed hs'.named hb'.bodiless hb'.introduced t' b' []
  simp only [Module.sealAll, List.foldl_nil] at hcases hcases'
  have hl := h.lookup d.name
  rcases hcases with ⟨⟨x, hx⟩, hnone⟩ | ⟨s, htried, hscope, hx⟩ <;>
    rcases hcases' with ⟨⟨x', hx'⟩, hnone'⟩ | ⟨s', htried', hscope', hx'⟩
  · rw [hx, hx']
    exact indistinct_stored h hs hs' x x'
  · exact absurd (htried'.lookup.symm.trans (hl.trans hnone)) (by simp)
  · exact absurd (htried.lookup.symm.trans (hl.symm.trans hnone')) (by simp)
  · have hf := Module.mem_registered_of_lookup htried.lookup
    have hget := (h.alike f hf).get_eq htried.bodiless
    rw [hget, hscope] at hscope'
    cases hscope'
    rw [hx, Module.withBody, Module.modify_modify] at hn ⊢
    rw [hx', Module.withBody, Module.modify_modify]
    exact indistinct_modify h hs hs' (by simp) hf (by simp [hget]) hn

theorem indistinct_step {x : Except CompileError FunctionId} (hstep : Step .checking m u x n)
    (hstep' : Step .checking m' u x n') : n.Indistinct n' := by
  have hsound := hs.step hstep
  cases x with
  | error e =>
    -- A unit that fails has left the module alone, or it has begun and been taken back. It begins
    -- in both modules or in neither.
    rcases hstep.error_exact hs with ⟨rfl, hnot⟩ | ⟨d, f, k, t, b, rfl, hb, rfl⟩ <;>
      rcases hstep'.error_exact hs' with ⟨rfl, hnot'⟩ | ⟨d', f', k', t', b', hd, hb', rfl⟩
    · exact h
    · obtain ⟨k, hk, -⟩ := hb'.indistinct h.symm hs' hs
      exact absurd hk (hnot _ _ _ hd)
    · obtain ⟨k, hk, -⟩ := hb.indistinct h hs hs'
      exact absurd hk (hnot' _ _ _ rfl)
    · cases hd
      obtain ⟨rfl, -⟩ := indistinct_introduce h hs hs' hb.introduced hb'.introduced
      exact indistinct_retract h hs hs' hb hb' t t' b b' hsound
  | ok f =>
    cases hstep with
    | declared hp =>
      cases hstep' with
      | declared hp' => exact (indistinct_introduce h hs hs' hp hp').2
    | @defined d f k t b fs hb hp he =>
      cases hstep' with
      | @defined _ _ k' t' b' fs' hb' hp' he' =>
        obtain ⟨-, hk⟩ := indistinct_introduce h hs hs' hp hp'
        obtain ⟨-, hl, ha, -, hblocks⟩ := introduce_function hs.indexed hs.named hp
        have hf := Module.mem_registered_of_lookup hl
        rw [emitBody_indistinct hk d hf, he] at he'
        cases he'
        have hsame : k'.get f = k.get f :=
          (hk.alike f hf).get_eq (by simp [Function.hasBody, hblocks hb])
        have hbody := (hs.introduce hp).withBody hl (hblocks hb) ha (introduce_cases hp).1 he
        refine Indistinct.sealAll ?_ fs fs'
        exact indistinct_modify hk (hs.introduce hp) (hs'.introduce hp') (fun _ => rfl) hf
          (by rw [hsame]) hbody

end

theorem mapError_failed_injective {x y : Except CompileError FunctionId}
    (h : x.mapError GeneratorStop.failed = y.mapError GeneratorStop.failed) : x = y := by
  cases x <;> cases y <;> simp_all [Except.mapError]

/-- Two generators whose modules show the same answer every unit in the same way. -/
theorem generate_indistinct {g₁ g₁' : Generator} {r' : Option FunctionId}
    (h : g.backend.module.Indistinct g'.backend.module) (hs : Sound us g.backend.module)
    (hs' : Sound us' g'.backend.module) (hv : g.verifier = .checking)
    (hv' : g'.verifier = .checking) (hg : generate u g = .ok r g₁)
    (hg' : generate u g' = .ok r' g₁') :
    r' = r ∧ g₁.backend.module.Indistinct g₁'.backend.module ∧
      ∃ es, g₁.errors = g.errors ++ es ∧ g₁'.errors = g'.errors ++ es := by
  obtain ⟨x, hstep, rfl, herrors, -, hx⟩ :=
    generate_answer hs (hv ▸ Verifier.accepting_checking) hg
  obtain ⟨x', hstep', rfl, herrors', -, hx'⟩ :=
    generate_answer hs' (hv' ▸ Verifier.accepting_checking) hg'
  rw [hv] at hstep
  rw [hv'] at hstep'
  obtain rfl : x' = x :=
    mapError_failed_injective (hx'.symm.trans ((answer_indistinct h hs hs' u).trans hx))
  exact ⟨rfl, indistinct_step h hs hs' hstep hstep', _, herrors, herrors'⟩

end

end Generator

end ExprCompiler
