import ExprCompiler.Proofs.Residue

/-!
# The text of a definition

The text of generated code can be read off the definition alone. Functions
are called by the names that stand in it, parameters have the names that it
gives them, and labels and results are numbered as in the declaration that
its prototype enters in an empty module. What a generator has been through
before does not show.
-/

namespace ExprCompiler

open IR (Arith Block Function FunctionId Instruction Module Operand Scope Ty)
open IR (globalReference localReference resultNames)
open Generator (Emitted Site)

/-- A value in writing, the results before it, each with what is written after its name, and the
scope once they are named. -/
structure Listed (α : Type) where
  value : α
  lines : List (String × String)
  scope : Scope

def integer (x : String) : String := Ty.i32.text ++ " " ++ x

def Listed.line (base text : String) (s : Scope) : Listed String :=
  ⟨localReference (s.register base).1, [((s.register base).1, text)], (s.register base).2⟩

def listedOperator (op a b : String) (s : Scope) : Listed String :=
  match Generator.arithmetic.lookup op with
  | some o => .line o.base (o.mnemonic ++ " " ++ integer a ++ ", " ++ b) s
  | none =>
    let bit := Listed.line "cmptmp" ("icmp ult " ++ integer a ++ ", " ++ b) s
    let word := Listed.line "booltmp" ("zext " ++ (Ty.i1.text ++ " " ++ bit.value) ++ " to i32")
      bit.scope
    ⟨word.value, bit.lines ++ word.lines, word.scope⟩

mutual

def Expr.listed : Expr → Scope → Listed String
  | .number v _, s => ⟨toString v, [], s⟩
  | .var n _, s => ⟨localReference n, [], s⟩
  | .binary op l r _, s =>
    let a := l.listed s
    let b := r.listed a.scope
    let c := listedOperator op a.value b.value b.scope
    ⟨c.value, a.lines ++ (b.lines ++ c.lines), c.scope⟩
  | .call callee args _, s =>
    let xs := Expr.listedAll args s
    let c := Listed.line "calltmp" ("call i32 " ++ globalReference callee ++ "(" ++
      ", ".intercalate (xs.value.map integer) ++ ")") xs.scope
    ⟨c.value, xs.lines ++ c.lines, c.scope⟩
  | .stray _, s => ⟨"", [], s⟩

def Expr.listedAll : List Expr → Scope → Listed (List String)
  | [], s => ⟨[], [], s⟩
  | e :: es, s =>
    let x := e.listed s
    let xs := Expr.listedAll es x.scope
    ⟨x.value :: xs.value, x.lines ++ xs.lines, xs.scope⟩

end

namespace Definition

def label (d : Definition) : String := (d.prototype.function.scope.register "entry").1

def code (d : Definition) : Listed String :=
  d.body.listed (d.prototype.function.scope.register "entry").2

def localNames (d : Definition) : List String := d.label :: d.code.lines.map Prod.fst

def listing (d : Definition) : String :=
  "define " ++ ("i32 " ++ globalReference d.name ++ "(" ++
      ", ".intercalate (d.prototype.params.map fun p => "i32 " ++ localReference p) ++ ")\n") ++
    "\x7b\n" ++ (d.label ++ ":\n" ++
      String.join (d.code.lines.map fun l => "  " ++ Module.resultText l.1 l.2 ++ "\n") ++
      ("  " ++ ("ret " ++ integer d.code.value) ++ "\n")) ++ "\x7d\n"

end Definition

/-! ### Code in writing -/

structure Lists (m : Module) (is : List Instruction) (ls : List (String × String)) : Prop where
  names : resultNames is = ls.map Prod.fst
  texts : is.map m.instructionText = ls.map fun l => Module.resultText l.1 l.2

namespace Lists

variable {m : Module} {is js : List Instruction} {ls ks : List (String × String)}

theorem nil (m : Module) : Lists m [] [] := ⟨rfl, rfl⟩

theorem append (h : Lists m is ls) (k : Lists m js ks) : Lists m (is ++ js) (ls ++ ks) :=
  ⟨by simp [h.names, k.names], by simp [h.texts, k.texts]⟩

theorem singleton {i : Instruction} {name text : String} {t : Ty} (hr : i.result? = some (name, t))
    (hi : m.instructionText i = Module.resultText name text) : Lists m [i] [(name, text)] :=
  ⟨by simp [resultNames, hr], by simp [hi]⟩

end Lists

structure Shows (m : Module) (y : Emitted Operand) (l : Listed String) : Prop where
  type : y.value.type = .i32
  value : m.reference y.value = l.value
  lines : Lists m y.code l.lines
  scope : y.scope.Alike l.scope

theorem Shows.typedReference {m : Module} {y : Emitted Operand} {l : Listed String}
    (h : Shows m y l) : m.typedReference y.value = integer l.value := by
  rw [Module.typedReference, h.type, h.value]
  rfl

namespace Generator

structure Site.Faithful (c : Site) (m : Module) : Prop where
  params : ∀ n x, c.params.lookup n = some x → x.type = .i32 ∧ m.reference x = localReference n
  callees : ∀ n f k, c.callees n = some (f, k) → (m.get f).name = n

theorem emitOperator_shows {m : Module} {op : String} {l r : Expr} {sp : Option Span}
    {y z w : Emitted Operand} {a b : Listed String} (ha : Shows m y a) (hb : Shows m z b)
    (h : emitOperator op l r sp y.value z.value z.scope = .ok w) :
    Shows m w (listedOperator op a.value b.value b.scope) := by
  unfold listedOperator
  obtain ⟨o, ho, rfl⟩ | ⟨rfl, t, bit, n, rfl, rfl, rfl, rfl⟩ := emitOperator_eq_ok h
  · have hbase : ¬ IR.Nameless o.base := by
      cases o <;> decide
    obtain ⟨hname, hscope⟩ := hb.scope.register hbase
    rw [ho]
    refine ⟨rfl, congrArg localReference hname, ?_, hscope⟩
    rw [hname]
    refine .singleton rfl ?_
    rw [Module.instructionText, ha.typedReference, hb.value]
  · obtain ⟨hbit, hscope⟩ := hb.scope.register (show ¬ IR.Nameless "cmptmp" by decide)
    obtain ⟨hword, hscope'⟩ := hscope.register (show ¬ IR.Nameless "booltmp" by decide)
    have hnone : arithmetic.lookup "<" = none := by decide
    simp only [hnone]
    refine ⟨rfl, congrArg localReference hword, ?_, hscope'⟩
    rw [hword, hbit]
    have hless : Lists m [.less (b.scope.register "cmptmp").1 y.value z.value]
        (Listed.line "cmptmp" ("icmp ult " ++ integer a.value ++ ", " ++ b.value) b.scope).lines :=
      .singleton rfl (by rw [Module.instructionText, ha.typedReference, hb.value])
    exact hless.append (.singleton rfl rfl)

/-- Code shows just what stands in the source, in every module where the names at its site are those
of the source. -/
theorem emit_shows {c : Site} {m : Module} (hc : c.Faithful m) :
    (∀ e s y, emit c e s = .ok y → ∀ t, s.Alike t → Shows m y (e.listed t)) ∧
      (∀ es s y, emits c es s = .ok y → ∀ t, s.Alike t →
        y.value.map m.typedReference = (Expr.listedAll es t).value.map integer ∧
        Lists m y.code (Expr.listedAll es t).lines ∧
        y.scope.Alike (Expr.listedAll es t).scope) := by
  apply emit_induction (P := fun e s y => ∀ t, s.Alike t → Shows m y (e.listed t))
    (Q := fun es s y => ∀ t, s.Alike t →
        y.value.map m.typedReference = (Expr.listedAll es t).value.map integer ∧
        Lists m y.code (Expr.listedAll es t).lines ∧
        y.scope.Alike (Expr.listedAll es t).scope)
  case number => exact fun v sp s t ht => ⟨rfl, rfl, .nil m, ht⟩
  case var =>
    intro n sp s x hx t ht
    obtain ⟨htype, hvalue⟩ := hc.params n x hx
    exact ⟨htype, hvalue, .nil m, ht⟩
  case operator =>
    intro op l r sp s y z w hy hz hw t ht
    have hl := hy t ht
    have hr := hz _ hl.scope
    have ho := emitOperator_shows hl hr hw
    exact ⟨ho.type, ho.value, hl.lines.append (hr.lines.append ho.lines), ho.scope⟩
  case call =>
    intro callee args sp f s y hf hy t ht
    obtain ⟨hvalues, hlines, hscope⟩ := hy t ht
    obtain ⟨hname, hscope'⟩ := hscope.register (show ¬ IR.Nameless "calltmp" by decide)
    refine ⟨rfl, congrArg localReference hname, hlines.append ?_, hscope'⟩
    rw [hname]
    refine .singleton rfl ?_
    rw [Module.instructionText, hvalues, Module.functionReference, hc.callees callee f _ hf]
  case nil => exact fun s t ht => ⟨rfl, .nil m, ht⟩
  case cons =>
    intro e es s y z hy hz t ht
    have hx := hy t ht
    obtain ⟨hvalues, hlines, hscope⟩ := hz _ hx.scope
    refine ⟨?_, hx.lines.append hlines, hscope⟩
    rw [List.map_cons, hvalues, hx.typedReference]
    rfl

/-! ### Functions in writing -/

end Generator

structure Definition.ShownIn (d : Definition) (m : Module) (f : FunctionId) : Prop where
  text : m.functionText f = d.listing
  params : (m.get f).params = d.prototype.params
  names : (m.get f).bodyNames = d.localNames

namespace Generator

section

variable {us us' : List TopLevel} {m m' : Module} {d : Definition} {f f' : FunctionId}

theorem faithful_body (hi : m.Indexed) (t : Scope) (bs : List Block) :
    Site.Faithful ⟨signature m, paramScope f (m.get f).arity (m.get f).params⟩
      (m.withBody f t bs) := by
  refine ⟨fun n x hx => ?_, fun n g k hg => ?_⟩
  · obtain ⟨l₁, l₂, hl, -⟩ := List.lookup_eq_some_iff.1 hx
    have hscope : paramScope f (m.get f).arity (m.get f).params = l₁ ++ (n, x) :: l₂ := hl
    have hmem : (n, x) ∈ paramScope f (m.get f).arity (m.get f).params := by
      rw [hscope]
      exact List.mem_append_right _ List.mem_cons_self
    obtain ⟨i, hpair⟩ := List.mem_iff_getElem?.1 (List.mem_reverse.1 hmem)
    obtain ⟨hname, hplace⟩ := List.getElem?_zip_eq_some.1 hpair
    rw [List.getElem?_map, Option.map_eq_some_iff] at hplace
    obtain ⟨j, hj, rfl⟩ := hplace
    obtain ⟨hlt, rfl⟩ := List.getElem?_eq_some_iff.1 hj
    refine ⟨rfl, ?_⟩
    have hparam : (m.withBody f t bs).paramName f i = n := by
      rw [Module.paramName, Module.params_get_withBody, hname, Option.getD_some]
    rw [List.getElem_range]
    exact congrArg localReference hparam
  · rw [Module.name_get_withBody]
    exact hi.name_of_lookup (signature_eq_some.1 hg).1

theorem functionText_withBody (hlt : f < m.functions.length) (hname : (m.get f).name = d.name)
    (hparams : (m.get f).params = d.prototype.params) {t : Scope} {y : Emitted Operand}
    (h : Shows (m.withBody f t [⟨d.label, y.code ++ [.ret y.value]⟩]) y d.code) :
    d.ShownIn (m.withBody f t [⟨d.label, y.code ++ [.ret y.value]⟩]) f := by
  have hself := Module.get_withBody_self hlt t [⟨d.label, y.code ++ [.ret y.value]⟩]
  generalize m.withBody f t [⟨d.label, y.code ++ [.ret y.value]⟩] = n at h hself
  refine ⟨?_, by rw [hself, hparams], ?_⟩
  · have hret : n.instructionText (.ret y.value) = "ret " ++ integer d.code.value := by
      rw [Module.instructionText, h.typedReference]
    have hlines : (y.code.map fun i => "  " ++ n.instructionText i ++ "\n") =
        d.code.lines.map fun l => "  " ++ Module.resultText l.1 l.2 ++ "\n" := by
      simpa [Function.comp_def] using
        congrArg (List.map fun line => "  " ++ line ++ "\n") h.lines.texts
    have hblock : n.blockText ⟨d.label, y.code ++ [.ret y.value]⟩ = d.label ++ ":\n" ++
        String.join (d.code.lines.map fun l => "  " ++ Module.resultText l.1 l.2 ++ "\n") ++
        ("  " ++ ("ret " ++ integer d.code.value) ++ "\n") := by
      rw [Module.blockText, List.map_append, String.join_append, hlines, List.map_singleton, hret]
      simp [String.join_cons, String.append_assoc]
    have hbody : (n.get f).hasBody = true := by
      rw [hself]
      rfl
    simp only [Module.functionText, hbody, if_true, Module.headerText]
    rw [hself]
    simp only [List.map_singleton, hblock, hname, hparams, String.join_cons, String.join_nil,
      String.append_empty]
    rfl
  · have hnames : resultNames [.ret y.value] = [] := rfl
    rw [hself]
    simp [Function.bodyNames, Definition.localNames, h.lines.names, hnames]

theorem Step.shown {v : Verifier} (hs : Sound us m) (ht : m.Tidy)
    (hu : (TopLevel.definition d).Grammatical) (h : Step v m (.definition d) (.ok f) m') :
    d.ShownIn m' f := by
  cases h with
  | @defined d f m₁ t b fs hb hp he =>
    obtain ⟨y, hy, rfl, rfl⟩ := emitBody_eq_ok he
    obtain ⟨hlt, hl, -, -, -⟩ := introduce_function hs.indexed hs.named hp
    have hnames : ∀ n ∈ d.prototype.params, ¬ IR.Nameless n := hu.not_nameless
    obtain ⟨hparams, htidy⟩ := (introduce_tidy hs.indexed ht hnames hp).2 hb
    have hnew := d.prototype.tidy_function hnames (introduce_cases hp).1
    have hindexed := (hs.introduce hp).indexed
    have hstart : (m₁.get f).scope.Alike d.prototype.function.scope := by
      refine htidy.trans ?_
      rw [hparams, ← hnew.1]
      exact hnew.2.symm
    obtain ⟨hlabel, hscope⟩ := hstart.register (show ¬ IR.Nameless "entry" by decide)
    have hfaithful := faithful_body (f := f) hindexed (y.scope.register "").2
      [⟨d.label, y.code ++ [.ret y.value]⟩]
    rw [hparams] at hfaithful
    have hshows := (emit_shows hfaithful).1 _ _ _ hy _ hscope
    have hshown := functionText_withBody hlt (hindexed.name_of_lookup hl) hparams hshows
    rw [hlabel]
    refine ⟨?_, ?_, ?_⟩
    · rw [Module.functionText_sealAll]
      exact hshown.text
    · rw [Module.map_get_sealAll Function.params fun _ => rfl]
      exact hshown.params
    · rw [Module.map_get_sealAll Function.bodyNames fun _ => Module.bodyNames_sealed _ _]
      exact hshown.names

/-- What a definition becomes does not depend on what the generator has been through. -/
theorem Reached.functionText_eq_listing {g g₁ g' g₁' : Generator}
    (h : Reached TopLevel.Parsed Anonymous us g) (h' : Reached TopLevel.Parsed Anonymous us' g')
    (hd : (TopLevel.definition d).Parsed) (hg : generate (.definition d) g = .ok (some f) g₁)
    (hg' : generate (.definition d) g' = .ok (some f') g₁') :
    ∃ t b b', Backend.functionText f g₁.backend = .ok t b ∧
      Backend.functionText f' g₁'.backend = .ok t b' ∧ t = d.listing ∧
      (g₁.backend.module.get f).params = d.prototype.params ∧
      (g₁'.backend.module.get f').params = d.prototype.params ∧
      (g₁.backend.module.get f).bodyNames = d.localNames ∧
      (g₁'.backend.module.get f').bodyNames = d.localNames := by
  have hshown {vs : List TopLevel} {k k₁ : Generator} {c : FunctionId}
      (hk : Reached TopLevel.Parsed Anonymous vs k)
      (hc : generate (.definition d) k = .ok (some c) k₁) : d.ShownIn k₁.backend.module c := by
    have hreached := hk.mono fun u hu => hu.grammatical
    have hsound := hreached.sound_of_grammatical
    obtain ⟨x, hstep, hx, -, -⟩ := generate_step hsound.indexed hsound.named hc
    cases x with
    | error e => cases hx
    | ok c =>
      cases hx
      exact hstep.shown hsound hreached.tidy hd.grammatical
  have hrun (k : Generator) (c : FunctionId) : ∃ b, Backend.functionText c k.backend =
      .ok ((k.backend.module.sealAll [c]).functionText c) b := ⟨_, rfl⟩
  obtain ⟨b, hb⟩ := hrun g₁ f
  obtain ⟨b', hb'⟩ := hrun g₁' f'
  have hs := hshown h hg
  have hs' := hshown h' hg'
  rw [Module.functionText_sealAll, hs.text] at hb
  rw [Module.functionText_sealAll, hs'.text] at hb'
  exact ⟨d.listing, b, b', hb, hb', rfl, hs.params, hs'.params, hs.names, hs'.names⟩

def crowded : Generator :=
  run (Parser.unitsOf "extern f(p q) def f(x addtmp) x+addtmp+z def f(entry x) entry-x extern g(y)" "")
    (ofBackend (.ofTarget "" Target.host) fun n _ => if n = 0 then .rejected none else .check)

def uncrowded : Generator :=
  run (Parser.unitsOf "extern g(a)" "") (ofBackend (.ofTarget "" Target.host) .checking)

def summing : Definition :=
  (latest (Parser.unitsOf "def f(x addtmp) g(x+addtmp)<addtmp" "") "f").get (by decide +kernel)

theorem functionText_eq_listing_crowded : ∃ us us' t b b',
    Reached TopLevel.Parsed Anonymous us crowded ∧ Reached TopLevel.Parsed Anonymous us' uncrowded ∧
      (TopLevel.definition summing).Parsed ∧
      generate (.definition summing) crowded =
        .ok (some 0) (after (.definition summing) crowded) ∧
      generate (.definition summing) uncrowded =
        .ok (some 1) (after (.definition summing) uncrowded) ∧
      Backend.functionText 0 (after (.definition summing) crowded).backend = .ok t b ∧
      Backend.functionText 1 (after (.definition summing) uncrowded).backend = .ok t b' ∧
      summing.localNames = ["entry", "addtmp.1", "calltmp", "cmptmp", "booltmp"] := by
  obtain ⟨us, h⟩ := (Reached.start "" Target.host _).run
    (Parser.unitsOf "extern f(p q) def f(x addtmp) x+addtmp+z def f(entry x) entry-x extern g(y)" "")
    Parser.parsed_of_mem_unitsOf
  obtain ⟨us', h'⟩ := (Reached.start "" Target.host .checking).run
    (Parser.unitsOf "extern g(a)" "") Parser.parsed_of_mem_unitsOf
  have hd : (TopLevel.definition summing).Parsed :=
    Parser.parsed_of_mem_unitsOf _ (mem_of_latest (Option.some_get _).symm).1
  have hg : generate (.definition summing) crowded =
      .ok (some 0) (after (.definition summing) crowded) := generate_eq_after (by decide +kernel)
  have hg' : generate (.definition summing) uncrowded =
      .ok (some 1) (after (.definition summing) uncrowded) := generate_eq_after (by decide +kernel)
  obtain ⟨t, b, b', hb, hb', -, -⟩ := h.functionText_eq_listing h' hd hg hg'
  exact ⟨us, us', t, b, b', h, h', hd, hg, hg', hb, hb', by decide +kernel⟩

end

end Generator

end ExprCompiler
