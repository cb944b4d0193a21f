import ExprCompiler.Proofs.BrokenSessions
import ExprCompiler.Proofs.Decoding
import ExprCompiler.Proofs.Ledger

/-!
# Commands that name a source

Such a command reports a target that is not known and a source that cannot be
opened or read to its end, and else it compiles the source and returns. But
nothing catches that the source is no text, or that there is no path for the
object file. The stack is taken to be as deep as the nesting of the source
asks for.
-/

namespace ExprCompiler

def FileContent.toBytes? : FileContent → Option (List UInt8)
  | bytes content => some content
  | text content => some content.toUTF8.toList
  | object code => some code.toUTF8.toList
  | broken _ _ => none

theorem FileContent.exists_broken {c : FileContent} (h : c.toBytes? = none) :
    ∃ bytes e, c = .broken bytes e := by
  cases c <;> cases h
  exact ⟨_, _, rfl⟩

theorem FileTree.read_ne_nullInPath (t : FileTree) {path : String} (h : '\x00' ∉ path.toList) :
    t.read path ≠ .error .nullInPath := by
  refine bind_ne_nullInPath (t.resolve_ne_nullInPath h) fun parts =>
    bind_ne_nullInPath (permit_ne_nullInPath _ _) fun _ => ?_
  simp only [bind, Except.bind, throw, throwThe, MonadExceptOf.throw, pure, Except.pure]
  split_ifs
  · simp
  all_goals cases t.lookup parts <;> simp

namespace Session

/-! ### Runs that break off -/

section

variable {v : Verifier} {past unwritten : Nat} {s : Session} {text : Source}

/-- A run over a text that breaks off fails to read on. -/
theorem Ledger.run_unread (h : Ledger v past unwritten s) {f : ReadFailure}
    (hf : text.ending.failure? = some f) : ∃ s', run text s = .error (.unread f) s' := by
  obtain ⟨s₁, hloop, -⟩ :=
    h.loop_total (rfl : ({ text with ending := .closed } : Source).ending = .closed)
  have hunfinished : (Parser.ofSource text s.options.file).Unfinished := fun _ t ht => by cases ht
  obtain ⟨s', hs'⟩ := loop_unread (s := { s with parser := .ofSource text s.options.file })
    hf hunfinished hloop
  exact ⟨s', by rw [run_eq, bind_eq_error hs']⟩

theorem Ledger.run_pathless (h : Ledger v past unwritten s) (hc : text.ending = .closed)
    (htext : ∀ path, s.options.textPath.bind OptionValue.text? = some path →
      '\x00' ∉ path.toList)
    (hout : s.options.outputPath = .dropped) :
    ∃ s', run text s = .error (.generator (.refused .noPath)) s' := by
  obtain ⟨s₁, hloop, hkept⟩ := h.loop_total hc
  obtain ⟨s₂, hwritten, hkept'⟩ := finishText_total (hkept ▸ htext)
  have houtput : outputPath s₂ = .error (.generator (.refused .noPath)) s₂ := by
    unfold outputPath
    rw [bind_eq_ok (get_eq_ok s₂), hkept', hkept, hout]
    rfl
  refine ⟨s₂, ?_⟩
  rw [run_of_loop hloop, bind_eq_ok hwritten, finishObject, bind_eq_error houtput]

end

end Session

namespace CommandLine

theorem sourceOfContent_eq {c : FileContent} {bytes : List UInt8} (h : c.toBytes? = some bytes) :
    sourceOfContent c = sourceOfBytes bytes := by
  cases c <;> cases h <;> rfl

def Arguments.paths (a : Arguments) : List String :=
  a.source.toList ++ [some a.output, a.textPath].filterMap (·.bind OptionValue.text?)

/-- The command gets as far as to open the file with these bytes. -/
def Opens (a : Arguments) (path : String) (files : FileTree) (bytes : List UInt8) : Prop :=
  (∃ s, Session.start (a.options false) files .checking = .ok s) ∧
    ∃ c, files.read path = .ok c ∧ c.toBytes? = some bytes

/-- The command gets as far as to open the file, and behind these bytes reading fails. -/
def Breaks (a : Arguments) (path : String) (files : FileTree) (bytes : List UInt8)
    (e : SystemError) : Prop :=
  (∃ s, Session.start (a.options false) files .checking = .ok s) ∧
    files.read path = .ok (.broken bytes e)

/-- How a command ends that is to compile the file at this path. It can be opened or not, and then
it is read to its end or only up to a failure of the system. -/
structure Ends (a : Arguments) (path : String) (files : FileTree) (o : Outcome) : Prop where
  untargeted : ∀ e, Session.start (a.options false) files .checking = .error e →
    o = ⟨.status 1, [.err e.diagnostic.text], files⟩
  unreadable : ∀ s e, Session.start (a.options false) files .checking = .ok s →
    files.read path = .error e →
      o = ⟨.status 1, visibleEvents a.verbose s.events.reverse ++ [.err (cannotRead path e.reason)],
        files⟩
  /-- The file is no text, which nothing catches. -/
  undecodable : ∀ bytes, Opens a path files bytes → ¬ bytes.toByteArray.IsValidUTF8 →
    o.result = .raised (.unread .undecodable)
  /-- There is nowhere to write to, which nothing catches. -/
  pathless : ∀ bytes, Opens a path files bytes → bytes.toByteArray.IsValidUTF8 →
    a.output = .dropped → o.result = .raised (.generator (.refused .noPath))
  returns : ∀ bytes output, Opens a path files bytes → bytes.toByteArray.IsValidUTF8 →
    a.output = .text output → ∃ ok, o.result = .status (Session.exitStatus ok)
  /-- Reading fails, which is reported behind all that has been shown before. -/
  broken : ∀ bytes e, Breaks a path files bytes e → Text.Utf8.BeginsText bytes →
    o.result = .status 1 ∧ o.events.getLast? = some (.err (cannotRead path e.reason))
  undecodableFront : ∀ bytes e, Breaks a path files bytes e → ¬ Text.Utf8.BeginsText bytes →
    o.result = .raised (.unread .undecodable)

section

variable {a : Arguments} {files : FileTree} {path : String} {input : StandardInput}
  {bytes : List UInt8}

theorem Arguments.mem_paths_of_source (h : a.source = some path) : path ∈ a.paths := by
  simp [paths, h]

theorem Arguments.mem_paths_of_output (h : a.output = .text path) : path ∈ a.paths := by
  simp [paths, h, OptionValue.text?]

theorem Arguments.mem_paths_of_textPath (h : a.textPath.bind OptionValue.text? = some path) :
    path ∈ a.paths :=
  List.mem_append_right _ (List.mem_filterMap.2 ⟨a.textPath, by simp, h⟩)

theorem start_of_opens (h : Opens a path files bytes) :
    ∃ s, Session.start (a.options false) files .checking = .ok s ∧ s.options = a.options false := by
  obtain ⟨⟨s, hs⟩, -⟩ := h
  obtain ⟨triple, rfl⟩ := Session.start_eq_ok hs
  exact ⟨_, hs, rfl⟩

theorem not_interactive (h : a.source = some path) :
    (a.source.isNone && input.terminal) = false := by
  rw [h]
  rfl

theorem compile_of_unreadable (hsource : a.source = some path) (hnull : '\x00' ∉ path.toList)
    {s : Session} {e : FileError} (hs : Session.start (a.options false) files .checking = .ok s)
    (he : files.read path = .error e) : compile a files input = ⟨.status 1,
      visibleEvents a.verbose s.events.reverse ++ [.err (cannotRead path e.reason)], files⟩ := by
  have hfind : findSource a files input = .error e := by
    rw [findSource, hsource]
    simp only [he, Except.map]
  unfold compile
  simp only [not_interactive hsource, hs, hfind]
  cases e with
  | nullInPath => exact absurd he (files.read_ne_nullInPath hnull)
  | _ => rw [Arguments.sourceName, hsource]; rfl

theorem compile_of_read (hsource : a.source = some path) {c : FileContent}
    (hread : files.read path = .ok c) {s : Session}
    (hs : Session.start (a.options false) files .checking = .ok s) :
    compile a files input = finishRun a (Session.run (sourceOfContent c) s) := by
  have hfind : findSource a files input = .ok (sourceOfContent c) := by
    rw [findSource, hsource]
    simp only [hread, Except.map]
  unfold compile
  simp only [not_interactive hsource, hs, hfind]

theorem compile_of_opens (hsource : a.source = some path) (h : Opens a path files bytes)
    {s : Session} (hs : Session.start (a.options false) files .checking = .ok s) :
    compile a files input = finishRun a (Session.run (sourceOfBytes bytes) s) := by
  obtain ⟨-, c, hread, hbytes⟩ := h
  rw [compile_of_read hsource hread hs, sourceOfContent_eq hbytes]

theorem compile_of_breaks (hsource : a.source = some path) {e : SystemError}
    (h : Breaks a path files bytes e) {f : ReadFailure}
    (hf : (sourceOfFront bytes e.reason).ending.failure? = some f) :
    ∃ s, compile a files input = finishRun a (.error (.unread f) s) := by
  obtain ⟨⟨s, hs⟩, hread⟩ := h
  obtain ⟨s', hs'⟩ := (Session.Ledger.start hs).run_unread hf
  exact ⟨s', by rw [compile_of_read hsource hread hs, sourceOfContent, hs']⟩

theorem compile_ends (hsource : a.source = some path)
    (hpaths : ∀ p ∈ a.paths, '\x00' ∉ p.toList) : Ends a path files (compile a files input) := by
  have htext (p : String) (hp : a.textPath.bind OptionValue.text? = some p) :
      '\x00' ∉ p.toList := hpaths p (Arguments.mem_paths_of_textPath hp)
  constructor
  case untargeted =>
    intro e he
    unfold compile
    simp only [not_interactive hsource, he]
  case unreadable =>
    intro s e hs he
    exact compile_of_unreadable hsource (hpaths path (Arguments.mem_paths_of_source hsource)) hs he
  case undecodable =>
    intro bytes hopens hinvalid
    obtain ⟨s, hs, -⟩ := start_of_opens hopens
    have hfailure : (sourceOfBytes bytes).ending.failure? = some .undecodable := by
      rw [ending_of_invalid hinvalid]
      rfl
    obtain ⟨s', hs'⟩ := (Session.Ledger.start hs).run_unread hfailure
    rw [compile_of_opens hsource hopens hs, hs']
    rfl
  case pathless =>
    intro bytes hopens hvalid hdropped
    obtain ⟨s, hs, hoptions⟩ := start_of_opens hopens
    obtain ⟨s', hs'⟩ := (Session.Ledger.start hs).run_pathless (ending_of_valid hvalid)
      (hoptions ▸ htext) (hoptions ▸ hdropped)
    rw [compile_of_opens hsource hopens hs, hs']
    rfl
  case returns =>
    intro bytes output hopens hvalid houtput
    obtain ⟨s, hs, hoptions⟩ := start_of_opens hopens
    have hopenable : (a.options false).Openable :=
      ⟨⟨output, houtput, hpaths output (Arguments.mem_paths_of_output houtput)⟩, htext⟩
    obtain ⟨ok, s', hs'⟩ :=
      (Session.Ledger.start hs).run_total (ending_of_valid hvalid) (hoptions ▸ hopenable)
    rw [compile_of_opens hsource hopens hs, hs']
    exact ⟨ok, rfl⟩
  case broken =>
    intro bytes e hbreaks hfront
    have hfailure : (sourceOfFront bytes e.reason).ending.failure? = some (.failed e.reason) := by
      rw [ending_of_front hfront]
      rfl
    obtain ⟨s, hs⟩ := compile_of_breaks hsource hbreaks hfailure
    rw [hs, finishRun, Arguments.sourceName, hsource]
    exact ⟨rfl, List.getLast?_concat⟩
  case undecodableFront =>
    intro bytes e hbreaks hfront
    have hfailure : (sourceOfFront bytes e.reason).ending.failure? = some .undecodable := by
      rw [ending_of_noFront hfront]
      rfl
    obtain ⟨s, hs⟩ := compile_of_breaks hsource hbreaks hfailure
    rw [hs]
    rfl

theorem exitStatus_le_one (ok : Bool) : Session.exitStatus ok ≤ 1 := by
  cases ok <;> decide

theorem Ends.returns_iff {o : Outcome} (h : Ends a path files o) :
    (∃ n ≤ 1, o.result = .status n) ↔
      (∀ bytes, Opens a path files bytes →
        bytes.toByteArray.IsValidUTF8 ∧ a.output ≠ .dropped) ∧
      ∀ bytes e, Breaks a path files bytes e → Text.Utf8.BeginsText bytes := by
  constructor
  · rintro ⟨n, -, hstatus⟩
    refine ⟨fun bytes hopens => ?_, fun bytes e hbreaks => ?_⟩
    · have hvalid : bytes.toByteArray.IsValidUTF8 := by
        by_contra hinvalid
        rw [h.undecodable bytes hopens hinvalid] at hstatus
        cases hstatus
      refine ⟨hvalid, fun hdropped => ?_⟩
      rw [h.pathless bytes hopens hvalid hdropped] at hstatus
      cases hstatus
    · by_contra hfront
      rw [h.undecodableFront bytes e hbreaks hfront] at hstatus
      cases hstatus
  · rintro ⟨hgood, hfronts⟩
    cases hs : Session.start (a.options false) files .checking with
    | error e => exact ⟨1, Nat.le_refl 1, by rw [h.untargeted e hs]⟩
    | ok s =>
      cases hr : files.read path with
      | error e => exact ⟨1, Nat.le_refl 1, by rw [h.unreadable s e hs hr]⟩
      | ok c =>
        cases hc : c.toBytes? with
        | none =>
          obtain ⟨bytes, e, rfl⟩ := FileContent.exists_broken hc
          have hbreaks : Breaks a path files bytes e := ⟨⟨s, hs⟩, hr⟩
          exact ⟨1, Nat.le_refl 1, (h.broken bytes e hbreaks (hfronts bytes e hbreaks)).1⟩
        | some bytes =>
          have hopens : Opens a path files bytes := ⟨⟨s, hs⟩, c, hr, hc⟩
          obtain ⟨hvalid, hpath⟩ := hgood _ hopens
          cases houtput : a.output with
          | dropped => exact absurd houtput hpath
          | text output =>
            obtain ⟨ok, hok⟩ := h.returns _ output hopens hvalid houtput
            exact ⟨_, exitStatus_le_one ok, hok⟩

/-- A command that names a source returns 0 or 1, unless it opens a file that is no text or has
nowhere to write to. What keeps it from opening the file or from reading on, it reports. No limit
of a stack is taken into account. -/
theorem runCommand_source {argv : List String} (ha : readArguments argv = .ok a)
    (hsource : a.source = some path) (hpaths : ∀ p ∈ a.paths, '\x00' ∉ p.toList) :
    Ends a path files (runCommand argv files input) ∧
      ((∃ n ≤ 1, (runCommand argv files input).result = .status n) ↔
        (∀ bytes, Opens a path files bytes →
          bytes.toByteArray.IsValidUTF8 ∧ a.output ≠ .dropped) ∧
        ∀ bytes e, Breaks a path files bytes e → Text.Utf8.BeginsText bytes) := by
  have hrun : runCommand argv files input = compile a files input := by
    rw [runCommand, ha]
  have hends : Ends a path files (runCommand argv files input) := hrun ▸ compile_ends hsource hpaths
  exact ⟨hends, hends.returns_iff⟩

/-- The text `def f(x` has no whole unit, yet it is compiled to its end. -/
theorem runCommand_source_faulty :
    ∃ a, readArguments ["p.toy", "-o", "p.o", "--emit-llvm=p.ll"] = .ok a ∧
      a.source = some "p.toy" ∧ (∀ p ∈ a.paths, '\x00' ∉ p.toList) ∧
      ∃ ok, (runCommand ["p.toy", "-o", "p.o", "--emit-llvm=p.ll"]
        (.insert .empty "p.toy" (.bytes [0x64, 0x65, 0x66, 0x20, 0x66, 0x28, 0x78]))
        ⟨.ofString "", false⟩).result = .status (Session.exitStatus ok) := by
  have hends : Ends _ "p.toy"
      (.insert .empty "p.toy" (.bytes [0x64, 0x65, 0x66, 0x20, 0x66, 0x28, 0x78]))
      (runCommand ["p.toy", "-o", "p.o", "--emit-llvm=p.ll"] _ ⟨.ofString "", false⟩) :=
    (runCommand_source rfl rfl (by decide)).1
  have hvalid : [0x64, 0x65, 0x66, 0x20, 0x66, 0x28, 0x78].toByteArray.IsValidUTF8 :=
    (Text.Utf8.decode_iff _).1 ⟨⟨"def f(x".toList, false⟩, rfl, rfl⟩
  exact ⟨_, rfl, rfl, by decide, hends.returns _ "p.o" ⟨⟨_, rfl⟩, _, rfl, rfl⟩ hvalid rfl⟩

/-- The byte 0xff is in no text, so the command does not return. -/
theorem runCommand_noText : readArguments ["p.toy"] = .ok { source := some "p.toy" } ∧
    (runCommand ["p.toy"] (.insert .empty "p.toy" (.bytes [0xff])) ⟨.ofString "", false⟩).result =
      .raised (.unread .undecodable) :=
  ⟨rfl, rfl⟩

example : (runCommand ["p.toy"]
    (.insert .empty "p.toy" (.broken [0x3b] ⟨5, "Input/output error"⟩)) ⟨.ofString "", false⟩).events
      = [.err "toyc: cannot read 'p.toy': Input/output error\n"] := rfl

end

end CommandLine

end ExprCompiler
