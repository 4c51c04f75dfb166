-- SUMMARY: The assembler run on a file: what it writes, and that a failure writes nothing.
import ContractAsm.Proofs.Bytecode
import ContractAsm.Proofs.Listing
import ContractAsm.Proofs.Script
import ContractAsm.Proofs.Settings
import ContractAsm.Tool.Assemble

/-!
# Artifacts of an assembly

The assembler writes the files that it is asked for, and no others, and only if the source
assembles. The bytecode file, the object file, the hash file and the printed hash all tell of the
same object code.
-/

namespace ContractAsm

open Text

/-! ## Assembled programs -/

/-- Bytecode and hash are taken of the object code. -/
theorem Assembly.eq_of_ofSource [Platform] {verbose : Bool} {filename : String} {source : Text}
    {a : Assembly} (h : (ofSource verbose filename source).result = .ok a) :
    a.bytecode = ofBytes (Utf8.encode a.objectCode)
      ∧ a.hash = ofBytes (Digest.Ripemd160.hash (Utf8.encode a.objectCode)) := by
  obtain ⟨l, codes, -, -, -, rfl⟩ := ofSource_eq_ok_iff.1 h
  exact ⟨rfl, rfl⟩

theorem Text.escape_not_mem_ofBytes (bytes : Bytes) : '\x1b' ∉ ofBytes bytes := by
  have hdigit : ∀ n < 16, hexDigit n ≠ '\x1b' := by decide
  intro hmem
  obtain ⟨b, -, hmem⟩ := List.mem_flatMap.1 hmem
  have hb : b.toNat < 256 := b.toNat_lt
  rcases List.mem_cons.1 hmem with heq | hmem
  · exact hdigit _ (by omega) heq.symm
  · exact hdigit _ (by omega) (List.mem_singleton.1 hmem).symm

/-- No character set goes without a name. -/
theorem Charset.ofName?_nil : ofName? [] = none := by
  have hnames : ∀ e ∈ names, ∀ name ∈ e.2, name ≠ "" := by decide +kernel
  unfold ofName?
  rw [Option.map_eq_none_iff, List.find?_eq_none]
  intro e he
  have hother : ∀ name ∈ e.2, ¬(name.toList == ([] : Text)) = true := fun name hname h =>
    hnames e he name hname (String.toList_eq_nil_iff.1 (beq_iff_eq.1 h))
  rw [Bool.or_eq_true, List.any_eq_true, List.any_eq_true]
  rintro (⟨name, hname, h⟩ | ⟨name, hname, h⟩)
  · exact hother name hname h
  · exact hother name (List.mem_of_mem_tail hname) h

/-- Only the character set of sources can be set in an environment without other variables. -/
theorem Settings.ofEnvironment_encoding [Platform] (encoding : Option Text) :
    ∃ s, (ofEnvironment { encoding }).result = .ok s ∧ s.verbose = false
      ∧ s.bytecodeSuffix = ".hex".toList
      ∧ s.charset = (encoding.bind Charset.ofName?).getD .utf8 := by
  have hwidth : (asked { encoding }).indentWidth < Platform.memoryBound :=
    Platform.two_lt_memoryBound
  refine ⟨asked { encoding }, by rw [result_ofEnvironment, if_pos hwidth], rfl, rfl, ?_⟩
  have hdefault : ({} : Settings).charset = .utf8 := by decide +kernel
  rcases encoding with _ | _ | ⟨c, name⟩
  · exact hdefault
  · rw [Option.bind_some, Charset.ofName?_nil]
    exact hdefault
  · simp only [Option.bind_some, Settings.charset, asked, given?, readCoding?]
    cases hname : Charset.ofName? (c :: name) with
    | some charset => rw [Option.map_some, Option.getD_some, hname]
    | none => exact hdefault

namespace Tool.Assemble

open Script

/-! ## Calls -/

/-- The contents of a file that holds one line. -/
def fileOf (t : Text) : Bytes :=
  Utf8.encode t ++ [0x0A]

/-- The options of a call that asks neither for debug records nor for JSON. -/
structure Options where
  path : Text
  output : Option Text
  object : Option Text
  hash : Option Text
  check : Bool
  verbose : Bool

/-- The arguments ask for these options. -/
structure Asks (a : Arguments Key) (o : Options) : Prop where
  plain : a.plain = [o.path]
  output : a.value? .output = o.output
  object : a.value? .object = o.object
  hash : a.value? .hash = o.hash
  check : a.has .check = o.check
  verbose : a.has .verbose = o.verbose
  other : ∀ key ∈ [Key.debug, .json, .version, .help], a.has key = false

namespace Options

variable (o : Options)

/-- The path of the bytecode, which stands beside the source unless another is asked for. -/
def outputPath : Path :=
  (o.output.map Path.ofText).getD ((Path.ofText o.path).withSuffix ".hex".toList)

def requests : List Path :=
  [o.outputPath] ++ (o.object.map Path.ofText).toList ++ (o.hash.map Path.ofText).toList

/-- The files to write for an assembled program. -/
def artifacts (a : Assembly) : List (Path × Bytes) :=
  [(o.outputPath, fileOf a.bytecode)]
    ++ ((o.object.map Path.ofText).toList.map fun p => (p, fileOf a.objectCode))
    ++ (o.hash.map Path.ofText).toList.map fun p => (p, fileOf a.hash)

theorem map_artifacts (a : Assembly) : (o.artifacts a).map Prod.fst = o.requests := by
  simp [artifacts, requests, Function.comp_def]

def call : Call :=
  ⟨Path.ofText o.path, o.output.map Path.ofText, o.object.map Path.ofText, o.hash.map Path.ofText,
    none, false, o.check, o.verbose⟩

end Options

variable {w : World} {o : Options} {a : Arguments Key} {bytes : Bytes} {text : Text} {s : Settings}

theorem Asks.perform_ofArguments (h : Asks a o)
    (hfile : w.files.look o.path = some (.file bytes))
    (hwritable : ∀ p ∈ o.requests, w.files.Writable p) :
    perform (Call.ofArguments a) w = (.ok o.call, w) := by
  have hdebug : a.value? .debug = none := by
    have hhas := h.other .debug (by simp)
    rw [Arguments.has_eq_isSome] at hhas
    simpa using hhas
  have hoptions : perform (Preparation.checkOptions checkOption a) w = (.ok (), w) := by
    refine Preparation.perform_checkOptions fun key value hvalue => ?_
    cases key with
    | output =>
      rw [h.output] at hvalue
      refine Preparation.perform_checkOutput (hwritable _ ?_)
      simp [Options.requests, Options.outputPath, hvalue]
    | object =>
      rw [h.object] at hvalue
      refine Preparation.perform_checkOutput (hwritable _ ?_)
      simp [Options.requests, hvalue]
    | hash =>
      rw [h.hash] at hvalue
      refine Preparation.perform_checkOutput (hwritable _ ?_)
      simp [Options.requests, hvalue]
    | debug =>
      rw [hdebug] at hvalue
      cases hvalue
    | _ => rfl
  have hinput := Preparation.perform_inputPath hfile
  rw [← h.plain] at hinput
  rw [Call.ofArguments, perform_bind_ok hoptions, perform_bind_ok hinput, perform_pure,
    Options.call, h.output, h.object, h.hash, hdebug, h.check, h.verbose, h.other .json (by simp)]
  rfl

/-! ## Runs -/

section Runs

variable [Platform]

/-- What is done with the outcome of an assembly. -/
def conclude (settings : Settings) (call : Call) : Outcome → Action Nat
  | .failed message => do
    Action.warn s!"Assembly error: {message}"
    return 1
  | .assembled a => do
    let output := call.output.getD (call.input.withSuffix settings.bytecodeSuffix)
    let written ← writeArtifacts call output a
    Action.sayLines (summary settings call a written)
    return 0

/-- The source is read, assembled and concluded with. -/
def process (settings : Settings) (call : Call) : Action Nat := do
  let source ← Action.readSource settings call.input
  let result := assemble settings.verbose (String.ofList call.input.toText) source
  Action.log settings result.1
  conclude settings call result.2

/-- The lines that announce an assembly. -/
def announcement (settings : Settings) (call : Call) : List String :=
  if settings.verbose then [s!"Assembling {String.ofList call.input.toText}..."] else []

/-- The source is checked if that is asked for, and the assembly announced. -/
theorem body_eq (s : Settings) (o : Options) : body s o.call = (do
    if o.check then
      Action.lint s o.call.input (← Action.readSource s o.call.input)
    Action.sayLines (announcement s o.call)
    process s o.call) := by
  have hsay : (do
      if s.verbose then
        Action.say s!"Assembling {String.ofList o.call.input.toText}..."
      process s o.call) = (do
      Action.sayLines (announcement s o.call)
      process s o.call) := by
    unfold announcement
    split
    · rfl
    · rfl
  rw [← hsay]
  rfl

/-- The way to the outcome prints the announcement and changes no file. -/
theorem perform_body (hfile : w.files.look o.path = some (.file bytes))
    (htext : s.charset.decodeLines bytes = .ok text) :
    ∃ w', w'.files = w.files ∧ w'.output = w.output ++ displayed (announcement s o.call)
      ∧ perform (body s o.call) w = perform (conclude s o.call
        (assemble s.verbose (String.ofList (Path.ofText o.path).toText) text).2) w' := by
  have hread : ∀ w', w'.files = w.files →
      perform (Action.readSource s o.call.input) w' = (.ok text, w') := by
    intro w' hw'
    exact Action.perform_readSource (hw' ▸ FileSystem.read_toText hfile) htext
  -- from the announcement on
  have hprocess : ∀ w', w'.files = w.files → w'.output = w.output →
      ∃ w'', w''.files = w.files ∧ w''.output = w.output ++ displayed (announcement s o.call)
        ∧ perform (Action.sayLines (announcement s o.call) >>= fun _ => process s o.call) w'
          = perform (conclude s o.call
            (assemble s.verbose (String.ofList (Path.ofText o.path).toText) text).2) w'' := by
    intro w' hfiles houtput
    have hannounced : (w'.print .output (displayed (announcement s o.call))).files = w.files :=
      (World.files_print ..).trans hfiles
    rw [perform_bind_ok (Action.perform_sayLines ..), process, perform_bind_ok (hread _ hannounced)]
    refine ⟨_, ?_, ?_, perform_bind_ok (Action.perform_log ..)⟩
    · rw [World.files_print, hannounced]
    · rw [World.output_print_error, World.output_print_output, houtput]
  rw [body_eq]
  split
  · rw [perform_bind_ok (hread w rfl), perform_bind_ok (Action.perform_lint ..)]
    exact hprocess _ (World.files_print ..) (World.output_print_error ..)
  · exact hprocess w rfl rfl

theorem encode_line (hlocale : Platform.locale = .utf8) (t : Text) :
    Platform.locale.encode (t ++ ['\n']) = .ok (fileOf t) := by
  rw [hlocale, Charset.encode, Utf8.encode, List.flatMap_append]
  rfl

theorem perform_writeOptional (hlocale : Platform.locale = .utf8) {path : Option Path} {t : Text}
    {files : FileSystem}
    (h : w.files.writeAll (path.toList.map fun p => (p, fileOf t)) = .ok files) :
    perform (writeOptional path (.ok t)) w = (.ok path.toList, { w with files }) := by
  cases path with
  | none =>
    cases h
    rfl
  | some path =>
    have hwrite : w.files.write path.toText (fileOf t) = .ok files := by
      rw [← h]
      change _ = w.files.write path.toText (fileOf t) >>= pure
      rw [bind_pure]
    rw [writeOptional, perform_bind_ok (Action.perform_writeText (encode_line hlocale t) hwrite)]
    rfl

theorem perform_writeArtifacts (hlocale : Platform.locale = .utf8) {program : Assembly}
    {files : FileSystem} (h : w.files.writeAll (o.artifacts program) = .ok files) :
    perform (writeArtifacts o.call o.outputPath program) w
      = (.ok o.requests, { w with files }) := by
  obtain ⟨files₂, h, hhash⟩ := FileSystem.writeAll_append_eq_ok_iff.1 h
  obtain ⟨files₁, houtput, hobject⟩ := FileSystem.writeAll_append_eq_ok_iff.1 h
  have hbytecode : perform (writeOptional (some o.outputPath) (.ok program.bytecode)) w
      = (.ok [o.outputPath], { w with files := files₁ }) := perform_writeOptional hlocale houtput
  have hobject : perform (writeOptional o.call.object (.ok program.objectCode))
      { w with files := files₁ } = (.ok o.call.object.toList, { w with files := files₂ }) :=
    perform_writeOptional hlocale hobject
  have hhash : perform (writeOptional o.call.hash (.ok program.hash)) { w with files := files₂ }
      = (.ok o.call.hash.toList, { w with files }) := perform_writeOptional hlocale hhash
  rw [writeArtifacts, perform_bind_ok hbytecode, perform_bind_ok hobject, perform_bind_ok hhash]
  change (Except.ok (_ ++ []), _) = _
  rw [List.append_nil]
  rfl

omit [Platform] in
/-- The files of an assembled program can be written at paths that lead to different places. -/
theorem exists_written {fs : FileSystem} (hwritable : ∀ p ∈ o.requests, fs.Writable p)
    (hapart : o.requests.Pairwise fs.Apart) (program : Assembly) :
    ∃ files, fs.writeAll (o.artifacts program) = .ok files
      ∧ files.read o.outputPath.toText = .ok (fileOf program.bytecode)
      ∧ (∀ p ∈ o.object, files.read (Path.ofText p).toText = .ok (fileOf program.objectCode))
      ∧ (∀ p ∈ o.hash, files.read (Path.ofText p).toText = .ok (fileOf program.hash))
      ∧ ∀ place, (∀ p ∈ o.requests, fs.place p.toText ≠ .ok place) →
        files.node? place = fs.node? place := by
  rw [← o.map_artifacts program] at hwritable hapart ⊢
  obtain ⟨files, hwritten, -, hread, hframe⟩ := FileSystem.exists_writeAll
    (fun f hf => hwritable f.1 (List.mem_map_of_mem hf)) (List.pairwise_map.1 hapart)
  have hbytecode : (o.outputPath, fileOf program.bytecode) ∈ o.artifacts program := by
    simp [Options.artifacts]
  have hobject : ∀ p ∈ o.object,
      (Path.ofText p, fileOf program.objectCode) ∈ o.artifacts program := by
    intro p hp
    simp [Options.artifacts, Option.mem_def.1 hp]
  have hhash : ∀ p ∈ o.hash, (Path.ofText p, fileOf program.hash) ∈ o.artifacts program := by
    intro p hp
    simp [Options.artifacts, Option.mem_def.1 hp]
  refine ⟨files, hwritten, hread _ hbytecode, fun p hp => hread _ (hobject p hp),
    fun p hp => hread _ (hhash p hp), fun place hother => hframe place fun f hf => ?_⟩
  exact hother f.1 (List.mem_map_of_mem hf)

theorem perform_conclude_assembled (hlocale : Platform.locale = .utf8) {program : Assembly}
    {files : FileSystem} (hsuffix : s.bytecodeSuffix = ".hex".toList)
    (h : w.files.writeAll (o.artifacts program) = .ok files) :
    perform (conclude s o.call (.assembled program)) w
      = (.ok 0, ({ w with files } : World).print .output
        (displayed (summary s o.call program o.requests))) := by
  have houtput : o.call.output.getD (o.call.input.withSuffix s.bytecodeSuffix) = o.outputPath := by
    rw [hsuffix]
    rfl
  rw [conclude, houtput, perform_bind_ok (perform_writeArtifacts hlocale h),
    perform_bind_ok (Action.perform_sayLines ..), perform_pure]

theorem Asks.run_eq (h : Asks a o) {args : List Text} (hargs : Arguments.read flags args = .ok a)
    (hfile : w.files.look o.path = some (.file bytes))
    (hwritable : ∀ p ∈ o.requests, w.files.Writable p) {env : Environment}
    (hsettings : (Settings.ofEnvironment env).result = .ok s) :
    (run env args).run w = ((body { s with verbose := s.verbose || o.verbose } o.call).toExit
      (s.verbose || o.verbose) "Assembly").run (reported env w) := by
  rw [run, hargs]
  have hnone : a.first? [.version, .help] = none := by
    refine Arguments.first?_eq_none fun key hkey => h.other key ?_
    simp only [List.mem_cons] at hkey ⊢
    exact .inr (.inr hkey)
  simp only [hnone]
  rw [Preparation.run_andThen (h.perform_ofArguments hfile hwritable), runCall,
    run_withSettings hsettings]
  rfl

omit [Platform] in
/-- The hash is a line of the output. -/
theorem exists_displayed_summary (s : Settings) (o : Options) {program : Assembly}
    (hhash : '\x1b' ∉ program.hash) : ∃ after : List String,
      displayed (summary s o.call program o.requests) = program.hash ++ '\n' :: displayed after
        ∧ (s.verbose = false → after = []) := by
  refine ⟨(summary s o.call program o.requests).tail, ?_, ?_⟩
  · change Text.withoutControls (String.ofList program.hash).toList ++ ['\n'] ++ displayed _ = _
    rw [String.toList_ofList, withoutControls_eq_self hhash, List.append_assoc]
    rfl
  · intro hverbose
    rw [summary, hverbose]
    rfl

end Runs

/-- A working directory with one source file, whose comment is no UTF-8. -/
def latinSource : World :=
  ⟨⟨[(["p.asm".toList], .file (Utf8.encode "EVAL8 gi0,;".toList ++ [0xE9]))]⟩, [], []⟩

end Tool.Assemble

end ContractAsm
