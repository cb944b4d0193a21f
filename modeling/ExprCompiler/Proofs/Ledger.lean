import ExprCompiler.Proofs.Accounts
import ExprCompiler.Proofs.Rounds

/-!
# What a session counts

The count of failures of a session is the number of errors in its books: those
of the parsers of all its runs, those of the generator, and a failure for each
text that could not be written. A run ends well if there are none and its
object file is written.
-/

namespace ExprCompiler

namespace Session

/-! ### The end of a run -/

def finishText : SessionM Unit := do
  if let some path := (← get).options.textPath.bind OptionValue.text? then
    if path ≠ "" then writeText path

def reportObject (path : String) : Option FileTree → SessionM Unit
  | some files => do
    modify fun s => { s with files := files }
    print ("Wrote " ++ path)
  | none => reportBackend

def verdict (written : Option FileTree) : SessionM Bool := do
  let failures := (← get).failures
  log (.finished failures)
  return written.isSome && failures == 0

def finishObject : SessionM Bool := do
  let path ← outputPath
  let written ← onBackend (Backend.emit path (← get).files)
  reportObject path written
  verdict written

theorem finish_eq (s : Session) : finish s = (finishText >>= fun _ => finishObject) s := by
  have hobject : finishObject = (do
      let path ← outputPath
      let written ← onBackend (Backend.emit path (← get).files)
      match written with
      | some files =>
        modify fun s => { s with files := files }
        print ("Wrote " ++ path)
      | none => reportBackend
      let failures := (← get).failures
      log (.finished failures)
      return written.isSome && failures == 0) := by
    unfold finishObject reportObject verdict
    refine bind_congr fun path => bind_congr fun s => bind_congr fun written => ?_
    cases written <;> rfl
  rw [hobject]
  unfold finish finishText
  rw [bind_assoc, bind_eq_ok (get_eq_ok s), bind_eq_ok (get_eq_ok s)]
  cases s.options.textPath.bind OptionValue.text? with
  | none => rfl
  | some path =>
    simp only
    split_ifs <;> rfl

def textRefused (s : Session) : Bool :=
  match s.options.textPath.bind OptionValue.text? with
  | none => false
  | some path =>
    path != "" &&
      match s.files.openForWriting path with
      | .ok _ => false
      | .error .nullInPath => false
      | .error _ => true

def Uncounted {α : Type} (x : SessionM α) : Prop := ∀ s, (ended (x s)).books = s.books

namespace Uncounted

variable {α β : Type}

theorem of_wrote {x : SessionM α} (h : ∀ s, ∃ es, Wrote s es (x s)) : Uncounted x := by
  intro s
  obtain ⟨es, hes⟩ := h s
  exact hes.books

theorem pure (a : α) : Uncounted (Pure.pure a : SessionM α) := fun _ => rfl

theorem stop (e : SessionStop) : Uncounted (throw e : SessionM α) := fun _ => rfl

theorem bind {x : SessionM α} {k : α → SessionM β} (hx : Uncounted x) (hk : ∀ a, Uncounted (k a)) :
    Uncounted (x >>= k) := by
  intro s
  have hrun := hx s
  cases hxs : x s with
  | ok a s' =>
    rw [hxs] at hrun
    rw [bind_eq_ok hxs]
    exact (hk a s').trans hrun
  | error e s' =>
    rw [hxs] at hrun
    rw [bind_eq_error hxs]
    exact hrun

theorem state {k : Session → SessionM β} (hk : ∀ s, Uncounted (k s)) : Uncounted (get >>= k) :=
  fun s => hk s s

theorem modify {f : Session → Session} (hf : ∀ s, (f s).books = s.books) :
    Uncounted (modify f) := hf

theorem onBackend (x : BackendM α) : Uncounted (Session.onBackend x) :=
  of_wrote fun s => ⟨[], wrote_onBackend x s⟩

theorem tell (e : Event) : Uncounted (Session.tell e) := fun _ => rfl

theorem reporting : Reporting Uncounted where
  pure := .pure
  bind := .bind
  state hk _ := .state hk
  tell := tell
  functionText _ := onBackend _
  evaluation _ := onBackend _

end Uncounted

theorem uncounted_finishObject : Uncounted finishObject := by
  have hpath : Uncounted outputPath := by
    refine .state fun s => ?_
    cases s.options.outputPath with
    | text path => exact .pure _
    | dropped => exact .stop _
  refine hpath.bind fun path => .state fun s => (Uncounted.onBackend _).bind fun written => ?_
  have hreport : Uncounted (reportObject path written) := by
    cases written with
    | some files => exact Uncounted.bind (fun _ => rfl) fun _ => .tell _
    | none => exact Uncounted.reporting.reportBackend
  refine hreport.bind fun _ => .state fun s => ?_
  exact (Uncounted.tell _).bind fun _ => .pure _

theorem books_finishText (s : Session) :
    (ended (finishText s)).books =
      ⟨s.failures + (if s.textRefused then 1 else 0), s.parser.errors, s.generator.errors⟩ := by
  unfold finishText textRefused
  rw [bind_eq_ok (get_eq_ok s)]
  cases s.options.textPath.bind OptionValue.text? with
  | none => rfl
  | some path =>
    by_cases hp : path ≠ ""
    · simp only [if_pos hp, bne_iff_ne.2 hp, Bool.true_and]
      unfold writeText
      rw [bind_eq_ok (get_eq_ok s)]
      cases s.files.openForWriting path with
      | error e => cases e <;> rfl
      | ok parts =>
        refine (Uncounted.onBackend Backend.moduleText).bind (fun text => .modify fun s => ?_) s
        cases s.files.write path (.text text) <;> rfl
    · rw [not_not] at hp
      subst hp
      rfl

/-! ### The ledger -/

/-- The states of a session whose verifier is given, as in its histories, with the number of errors
that the parsers of its earlier runs have met and the number of texts that could not be written. -/
inductive Ledger (v : Verifier) : Nat → Nat → Session → Prop
  | start {o : Options} {files : FileTree} {s : Session} (h : start o files v = .ok s) :
    Ledger v 0 0 s
  | source {past unwritten : Nat} {s : Session} (text : Source) (h : Ledger v past unwritten s) :
    Ledger v (past + s.parser.errors.length) unwritten
      { s with parser := .ofSource text s.options.file }
  | line {past unwritten : Nat} {s : Session} (text : String) (h : Ledger v past unwritten s) :
    Ledger v past unwritten (s.receive text)
  | prompt {past unwritten : Nat} {s : Session} (h : Ledger v past unwritten s) :
    Ledger v past unwritten (ended (prompt s))
  | turn {past unwritten : Nat} {s : Session} (h : Ledger v past unwritten s) :
    Ledger v past unwritten (ended (handleNext s))
  | finish {past unwritten : Nat} {s : Session} (h : Ledger v past unwritten s) :
    Ledger v past (unwritten + if s.textRefused then 1 else 0) (ended (finish s))

def Books.Balanced (n : Nat) (b : Books) : Prop :=
  b.failures = n + b.grammar.length + b.meaning.length

theorem Books.Entry.balanced {b b' : Books} {n : Nat} (h : b.Entry b') (hb : b.Balanced n) :
    b'.Balanced n := by
  unfold Balanced at hb ⊢
  cases h with
  | nothing => exact hb
  | grammar e =>
    simp only [hb, List.length_append, List.length_singleton]
    omega
  | meaning e =>
    simp only [hb, List.length_append, List.length_singleton]
    omega

section

variable {v : Verifier} {past unwritten : Nat} {s s' : Session}

theorem Ledger.exists_history (h : Ledger v past unwritten s) : ∃ us, History v us s := by
  induction h with
  | start h => exact ⟨_, .start h⟩
  | source text h ih =>
    obtain ⟨us, hus⟩ := ih
    exact ⟨us, hus.source text⟩
  | line text h ih =>
    obtain ⟨us, hus⟩ := ih
    exact ⟨us, hus.line text⟩
  | prompt h ih =>
    obtain ⟨us, hus⟩ := ih
    exact ⟨us, hus.prompt⟩
  | turn h ih =>
    obtain ⟨us, hus⟩ := ih
    exact ⟨_, hus.turn⟩
  | finish h ih =>
    obtain ⟨us, hus⟩ := ih
    exact ⟨us, hus.finish⟩

def prompts (o : Options) : List Event := if o.interactive then [.err promptText] else []

theorem prompt_run (s : Session) :
    prompt s = .ok () { s with events := prompts s.options ++ s.events } := by
  unfold prompt prompts
  rw [bind_eq_ok (get_eq_ok s)]
  cases s.options.interactive <;> rfl

theorem books_finish (s : Session) :
    (ended (finish s)).books =
      ⟨s.failures + (if s.textRefused then 1 else 0), s.parser.errors, s.generator.errors⟩ := by
  rw [finish_eq, ← books_finishText s]
  cases h : finishText s with
  | ok a s' =>
    rw [bind_eq_ok h]
    exact uncounted_finishObject s'
  | error e s' =>
    rw [bind_eq_error h]
    rfl

theorem Ledger.turnover (h : Ledger v past unwritten s) :
    Turnover s (nextUnit? s.parser) (handleNext s) := by
  obtain ⟨us, hus⟩ := h.exists_history
  exact handleNext_turnover hus.traced.reached.sound_of_grammatical hus.traced.parser

/-- At every point of a session its failures are the errors in the books and the texts that could
not be written. -/
theorem Ledger.balanced (h : Ledger v past unwritten s) : s.books.Balanced (past + unwritten) := by
  induction h with
  | start h =>
    obtain ⟨triple, rfl⟩ := start_eq_ok h
    rfl
  | @source past unwritten s text h ih =>
    have hfailures : s.failures =
      past + unwritten + s.parser.errors.length + s.generator.errors.length := ih
    change s.failures = past + s.parser.errors.length + unwritten + 0 + s.generator.errors.length
    omega
  | line text h ih => exact ih
  | prompt h ih =>
    rw [prompt_run]
    exact ih
  | turn h ih => exact h.turnover.entry.balanced ih
  | @finish past unwritten s h ih =>
    have hfailures : s.failures =
      past + unwritten + s.parser.errors.length + s.generator.errors.length := ih
    rw [books_finish]
    change s.failures + _ = past + (unwritten + _) + s.parser.errors.length + s.generator.errors.length
    omega

theorem Ledger.loopAt (h : Ledger v past unwritten s) (n : Nat) :
    Ledger v past unwritten (ended (Session.loopAt n s)) ∧
      (ended (Session.loopAt n s)).options = s.options := by
  induction n generalizing s with
  | zero => exact ⟨h, rfl⟩
  | succ n ih =>
    obtain ⟨s₁, hp, ho⟩ : ∃ s₁, Session.prompt s = .ok () s₁ ∧ s₁.options = s.options :=
      ⟨_, prompt_run s, rfl⟩
    have hprompt := h.prompt
    rw [hp] at hprompt
    have h₁ : Ledger v past unwritten s₁ := hprompt
    have hturn := h₁.turn
    have hoptions := h₁.turnover.options
    rw [Session.loopAt, bind_eq_ok hp, ← ho]
    cases ht : handleNext s₁ with
    | error stop s₂ =>
      rw [ht] at hturn hoptions
      rw [bind_eq_error ht]
      exact ⟨hturn, hoptions⟩
    | ok more s₂ =>
      rw [ht] at hturn hoptions
      rw [bind_eq_ok ht]
      cases more with
      | true =>
        obtain ⟨hledger, hkept⟩ := ih hturn
        exact ⟨hledger, hkept.trans hoptions⟩
      | false => exact ⟨hturn, hoptions⟩

/-! ### Runs -/

def Emits (s : Session) : Prop :=
  ∃ path files b, s.options.outputPath = .text path ∧
    Backend.emit path s.files s.generator.backend = .ok (some files) b

theorem outputPath_eq_ok {path : String} (h : outputPath s = .ok path s') :
    s.options.outputPath = .text path ∧ s' = s := by
  unfold outputPath at h
  rw [bind_eq_ok (get_eq_ok s)] at h
  cases ho : s.options.outputPath with
  | text p =>
    rw [ho] at h
    cases h
    exact ⟨rfl, rfl⟩
  | dropped =>
    rw [ho] at h
    cases h

theorem onBackend_of_eq_ok {α : Type} {x : BackendM α} {a : α} (h : onBackend x s = .ok a s') :
    ∃ b, x s.generator.backend = .ok a b := by
  unfold onBackend onGenerator Generator.onBackend at h
  cases hx : x s.generator.backend with
  | ok a' b =>
    rw [hx] at h
    cases h
    exact ⟨b, rfl⟩
  | error e b =>
    rw [hx] at h
    cases h

theorem verdict_eq_ok {written : Option FileTree} {ok : Bool}
    (h : verdict written s = .ok ok s') : ok = (written.isSome && s'.failures == 0) := by
  cases h
  rfl

theorem finishObject_eq_ok {ok : Bool} (h : finishObject s = .ok ok s') :
    ok = true ↔ s'.failures = 0 ∧ Emits s := by
  obtain ⟨path, s₁, hpath, hrest⟩ := exists_of_bind_eq_ok h
  obtain ⟨_, s₂, hget, hrest⟩ := exists_of_bind_eq_ok hrest
  obtain ⟨written, s₃, hemit, hrest⟩ := exists_of_bind_eq_ok hrest
  obtain ⟨_, s₄, -, hverdict⟩ := exists_of_bind_eq_ok hrest
  obtain ⟨hoptions, rfl⟩ := outputPath_eq_ok hpath
  cases hget
  obtain ⟨b, hb⟩ := onBackend_of_eq_ok hemit
  have hwritten : written.isSome = true ↔ Emits s₁ := by
    constructor
    · intro hw
      obtain ⟨files, rfl⟩ := Option.isSome_iff_exists.1 hw
      exact ⟨path, files, b, hoptions, hb⟩
    · rintro ⟨path', files, b', hoptions', hb'⟩
      rw [hoptions, OptionValue.text.injEq] at hoptions'
      subst hoptions'
      rw [hb] at hb'
      cases hb'
      rfl
  rw [verdict_eq_ok hverdict, Bool.and_eq_true, beq_iff_eq, hwritten, and_comm]

theorem run_eq_ok {text : Source} {ok : Bool} (h : run text s = .ok ok s') :
    ∃ s₁ s₂, loop { s with parser := .ofSource text s.options.file } = .ok () s₁ ∧
      finish s₁ = .ok ok s' ∧ finishText s₁ = .ok () s₂ ∧ finishObject s₂ = .ok ok s' := by
  rw [run_eq] at h
  obtain ⟨_, s₁, hloop, hfinish⟩ := exists_of_bind_eq_ok h
  have hparts := hfinish
  rw [finish_eq] at hparts
  obtain ⟨_, s₂, htext, hobject⟩ := exists_of_bind_eq_ok hparts
  exact ⟨s₁, s₂, hloop, hfinish, htext, hobject⟩

end

/-! ### Runs that come to an end -/

end Session

theorem FileTree.follow_ne_nullInPath (t : FileTree) (dir parts : List String) :
    t.follow dir parts ≠ .error .nullInPath := by
  induction parts generalizing dir with
  | nil => simp [follow]
  | cons part parts ih =>
    cases parts with
    | nil =>
      rw [follow]
      split <;> simp
    | cons next parts =>
      simp only [follow]
      split_ifs
      · simp
      · exact ih _
      · simp
      · simp

theorem FileTree.resolve_ne_nullInPath (t : FileTree) {path : String} (h : '\x00' ∉ path.toList) :
    t.resolve path ≠ .error .nullInPath := by
  unfold resolve
  rw [if_neg (by simpa using h)]
  split_ifs
  · simp
  · simp
  · exact t.follow_ne_nullInPath _ _

theorem FileTree.permit_ne_nullInPath (refused : List (List String × SystemError))
    (parts : List String) : permit refused parts ≠ .error .nullInPath := by
  unfold permit
  cases refused.lookup parts <;> simp

theorem FileTree.bind_ne_nullInPath {α β : Type} {x : Except FileError α}
    {k : α → Except FileError β} (hx : x ≠ .error .nullInPath)
    (hk : ∀ a, k a ≠ .error .nullInPath) : x >>= k ≠ .error .nullInPath := by
  cases x with
  | ok a => exact hk a
  | error e => simpa [bind, Except.bind] using hx

theorem FileTree.openForWriting_ne_nullInPath (t : FileTree) {path : String}
    (h : '\x00' ∉ path.toList) : t.openForWriting path ≠ .error .nullInPath := by
  refine bind_ne_nullInPath (t.resolve_ne_nullInPath h) fun parts =>
    bind_ne_nullInPath (permit_ne_nullInPath _ _) fun _ => ?_
  split
  · simp [bind, Except.bind, throw, throwThe, MonadExceptOf.throw]
  · simp [pure, Except.pure]

structure Options.Openable (o : Options) : Prop where
  output : ∃ path, o.outputPath = .text path ∧ '\x00' ∉ path.toList
  text : ∀ path, o.textPath.bind OptionValue.text? = some path → '\x00' ∉ path.toList

namespace Session

section

variable {v : Verifier} {us : List TopLevel} {s : Session}

theorem emit_total {path : String} (h : '\x00' ∉ path.toList) (t : FileTree) (b : Backend) :
    ∃ written b', Backend.emit path t b = .ok written b' := by
  have hopen := t.openForWriting_ne_nullInPath h
  unfold Backend.emit
  rw [bind_eq_ok (Backend.sealRegistered_run b), bind_eq_ok (get_eq_ok _)]
  simp only
  cases (b.module.sealAll b.module.registered).fault? with
  | some fault => exact ⟨_, _, rfl⟩
  | none =>
    unfold FileTree.write
    cases ho : t.openForWriting path with
    | ok parts => exact ⟨_, _, rfl⟩
    | error e =>
      cases e with
      | nullInPath => exact absurd ho hopen
      | _ => exact ⟨_, _, rfl⟩

theorem finishText_total
    (h : ∀ path, s.options.textPath.bind OptionValue.text? = some path → '\x00' ∉ path.toList) :
    ∃ s', finishText s = .ok () s' ∧ s'.options = s.options := by
  unfold finishText
  rw [bind_eq_ok (get_eq_ok s)]
  cases hp : s.options.textPath.bind OptionValue.text? with
  | none => exact ⟨s, rfl, rfl⟩
  | some path =>
    have hopen := s.files.openForWriting_ne_nullInPath (h path hp)
    by_cases hne : path ≠ ""
    · simp only [if_pos hne]
      unfold writeText
      rw [bind_eq_ok (get_eq_ok s)]
      cases ho : s.files.openForWriting path with
      | error e =>
        cases e with
        | nullInPath => exact absurd ho hopen
        | _ => exact ⟨_, rfl, rfl⟩
      | ok parts =>
        have hmodule := Generator.onBackend_eq_ok (Backend.moduleText_run s.generator.backend)
        simp only
        rw [onBackend, bind_eq_ok (onGenerator_eq_ok hmodule)]
        refine ⟨_, rfl, ?_⟩
        dsimp only
        split <;> rfl
    · simp only [if_neg hne]
      exact ⟨s, rfl, rfl⟩

theorem finishObject_total (h : s.options.Openable) : ∃ ok s', finishObject s = .ok ok s' := by
  obtain ⟨path, hpath, hnull⟩ := h.output
  obtain ⟨written, b, hemit⟩ := emit_total hnull s.files s.generator.backend
  have houtput : outputPath s = .ok path s := by
    unfold outputPath
    rw [bind_eq_ok (get_eq_ok s)]
    simp only [hpath]
    rfl
  unfold finishObject
  rw [bind_eq_ok houtput, bind_eq_ok (get_eq_ok s), onBackend,
    bind_eq_ok (onGenerator_eq_ok (Generator.onBackend_eq_ok hemit))]
  cases written with
  | some files => exact ⟨_, _, rfl⟩
  | none =>
    obtain ⟨a, _, s', hs', -⟩ := reporting_quiet.reportBackend
      (flushJournal { s with generator := { s.generator with backend := b } })
    exact ⟨_, _, bind_eq_ok hs'⟩

end

/-! ### The audit -/

section

variable {v : Verifier} {past unwritten : Nat} {s : Session}

theorem Ledger.loop (h : Ledger v past unwritten s) {s' : Session}
    (hl : Session.loop s = .ok () s') : Ledger v past unwritten s' ∧ s'.options = s.options := by
  have hloop := h.loopAt (s.parser.weight + 1)
  have heq : Session.loop s = Session.loopAt (s.parser.weight + 1) s := rfl
  rw [← heq, hl] at hloop
  exact hloop

theorem Ledger.loop_total (h : Ledger v past unwritten s) {text : Source}
    (hc : text.ending = .closed) : ∃ s₁,
      Session.loop { s with parser := .ofSource text s.options.file } = .ok () s₁ ∧
        s₁.options = s.options := by
  have hsource := h.source text
  obtain ⟨us, hus⟩ := hsource.exists_history
  obtain ⟨rows, s₁, hrounds, hrows⟩ := hus.exists_rounds hc
  have hloop := hrounds.loop hrows
  exact ⟨s₁, hloop, (hsource.loop hloop).2⟩

theorem run_of_loop {text : Source} {s₁ : Session}
    (h : Session.loop { s with parser := .ofSource text s.options.file } = .ok () s₁) :
    run text s = (finishText >>= fun _ => finishObject) s₁ := by
  rw [run_eq, bind_eq_ok h, finish_eq]

/-- A run over a text that is all there comes to an end. -/
theorem Ledger.run_total (h : Ledger v past unwritten s) {text : Source}
    (hc : text.ending = .closed) (ho : s.options.Openable) : ∃ ok s', run text s = .ok ok s' := by
  obtain ⟨s₁, hloop, hkept⟩ := h.loop_total hc
  obtain ⟨s₂, htext, hkept'⟩ := finishText_total (hkept ▸ ho.text)
  obtain ⟨ok, s₃, hobject⟩ := finishObject_total (s := s₂) (by rw [hkept', hkept]; exact ho)
  exact ⟨ok, s₃, by rw [run_of_loop hloop, bind_eq_ok htext, hobject]⟩

/-- What the books of a session tell at any point. -/
structure Audit (v : Verifier) (past unwritten : Nat) (s : Session) : Prop where
  turn : ∀ s', handleNext s = .ok true s' → ∃! fate : Fate, fate.Fits s s'
  goesOn : s.parser.lexer.ending = .closed → (look s.parser.tokens).kind ≠ .endOfInput →
    ∃ s', handleNext s = .ok true s'
  prompt : Session.prompt s = .ok () { s with events := prompts s.options ++ s.events }
  total : s.failures = past + s.parser.errors.length + s.generator.errors.length + unwritten
  returns : ∀ text : Source, text.ending = .closed → s.options.Openable →
    ∃ ok s', run text s = .ok ok s'
  status : ∀ text ok s', run text s = .ok ok s' → ∃ s₁ s₂ past' unwritten',
    loop { s with parser := .ofSource text s.options.file } = .ok () s₁ ∧
    finishText s₁ = .ok () s₂ ∧ past' = past + s.parser.errors.length ∧
    unwritten' = unwritten + (if s₁.textRefused then 1 else 0) ∧ Ledger v past' unwritten' s' ∧
    (exitStatus ok = 0 ↔
      past' + s'.parser.errors.length + s'.generator.errors.length + unwritten' = 0 ∧ Emits s₂)

theorem exitStatus_eq_zero {ok : Bool} : exitStatus ok = 0 ↔ ok = true := by
  cases ok <;> decide

/-- Every unit is accounted for once, so that the failures of a session are its errors, and a run
ends well if there are none and its object file is written. -/
theorem Ledger.audit (h : Ledger v past unwritten s) : Audit v past unwritten s := by
  obtain ⟨us, hus⟩ := h.exists_history
  have htotal {past unwritten : Nat} {s : Session} (h : Ledger v past unwritten s) :
      s.failures = past + s.parser.errors.length + s.generator.errors.length + unwritten := by
    have hbalanced : s.failures =
      past + unwritten + s.parser.errors.length + s.generator.errors.length := h.balanced
    omega
  refine ⟨fun s' hs' => ?_, fun hc hend => ?_, prompt_run s, htotal h,
    fun text hc ho => h.run_total hc ho, fun text ok s' hs' => ?_⟩
  · obtain hskipped | haccepted | hrejected := h.turnover.fate s' hs'
    · exact ⟨.skipped, hskipped, fun _ hb => Fate.unique hb hskipped⟩
    · exact ⟨.accepted, haccepted, fun _ hb => Fate.unique hb haccepted⟩
    · exact ⟨.rejected, hrejected, fun _ hb => Fate.unique hb hrejected⟩
  · obtain ⟨s', hs', -⟩ := hus.traced.handleNext_turn hc hend
    exact ⟨s', hs'⟩
  · obtain ⟨s₁, s₂, hloop, hfinish, htext, hobject⟩ := run_eq_ok hs'
    have hended := ((h.source text).loop hloop).1.finish
    rw [hfinish] at hended
    have hledger : Ledger v (past + s.parser.errors.length)
      (unwritten + if s₁.textRefused then 1 else 0) s' := hended
    refine ⟨s₁, s₂, _, _, hloop, htext, rfl, rfl, hledger, ?_⟩
    rw [exitStatus_eq_zero, finishObject_eq_ok hobject, htotal hledger]

/-- The first source has an error of grammar, the second calls a function that is not there. -/
theorem audit_twoFailures : ∃ past s, Ledger .checking past 0 s ∧ past = 1 ∧ s.failures = 2 ∧
    s.generator.errors.length = 1 ∧ Audit .checking past 0 s := by
  have hstart : Ledger .checking 0 0 _ :=
    .start (rfl : start { showCode := false, evaluate := false } .empty .checking = .ok _)
  have h := ((hstart.source (.ofString "def f(x")).turn.source (.ofString "; g(1)")).turn.turn
  exact ⟨_, _, h, by decide +kernel, by decide +kernel, by decide +kernel, h.audit⟩

end

end Session

end ExprCompiler
