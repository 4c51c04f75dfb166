-- SUMMARY: The formatter run on a file: comparing with the layout, and writing the layout back.
import ContractAsm.Proofs.Charset
import ContractAsm.Proofs.Layout
import ContractAsm.Proofs.Script
import ContractAsm.Tool.Format

/-!
# Checking and rewriting a file

The formatter compares a file with its layout, or writes the layout back. Texts are compared, in
which all line ends are line feeds, but bytes are written. So a file whose text is laid out is
written back as it was just if there is no carriage return in it.
-/

namespace ContractAsm

open Text

/-! ## Layouts as bytes -/

namespace Layout

variable {indent source : Text} {c : Char}

theorem mem_of_mem_formatLine {line : Text} (h : c ∈ formatLine indent line) :
    c ∈ indent ∨ c ∈ line := by
  rcases formatLine_eq indent line with hline | hline
  · exact .inr (mem_of_mem_trim (hline ▸ h))
  · rw [hline, List.mem_append] at h
    exact h.imp_right mem_of_mem_trim

/-- A layout adds no characters but indentations. -/
theorem mem_of_mem_format (h : c ∈ format indent source) :
    c ∈ indent ∨ c ∈ source ∨ c = '\n' := by
  by_cases hc : c = '\n'
  · exact .inr (.inr hc)
  · rw [format, ofLines, mem_intercalate_iff hc] at h
    obtain ⟨line, hline, hmem⟩ := h
    obtain ⟨raw, hraw, rfl⟩ := List.mem_map.1 hline
    exact (mem_of_mem_formatLine hmem).imp_right fun hmem => .inl ((mem_splitOn hraw).2 c hmem)

theorem return_not_mem_format (hindent : ∀ c ∈ indent, c = ' ') (hsource : '\r' ∉ source) :
    '\r' ∉ format indent source := by
  intro hmem
  rcases mem_of_mem_format hmem with hmem | hmem | hmem
  · exact absurd (hindent _ hmem) (by decide)
  · exact hsource hmem
  · exact absurd hmem (by decide)

end Layout

/-- Where there are bytes for a text, there are bytes for its layout. -/
theorem Charset.exists_encode_format [Platform] {charset : Charset} {raw indent : Text}
    (hcharset : charset.isBuiltIn = true) (hindent : ∀ c ∈ indent, c = ' ')
    (hraw : ∃ bytes, charset.encode raw = .ok bytes) :
    ∃ written, charset.encode (Layout.format indent (unifyNewlines raw)) = .ok written := by
  rw [exists_encode_iff hcharset] at hraw ⊢
  intro c hc
  rcases Layout.mem_of_mem_format hc with hc | hc | rfl
  · rw [hindent c hc]
    exact holds_of_lt hcharset (by decide)
  · rcases mem_of_mem_unifyNewlines hc with hc | rfl
    · exact hraw c hc
    · exact holds_of_lt hcharset (by decide)
  · exact holds_of_lt hcharset (by decide)

/-- The layout of a file has bytes. They are those of the file just if its text is laid out and its
line ends are line feeds already. -/
theorem Charset.encode_format [Platform] {charset : Charset} {bytes : Bytes} {text indent : Text}
    (hcharset : charset.isBuiltIn = true) (hindent : ∀ c ∈ indent, c = ' ')
    (htext : charset.decodeLines bytes = .ok text) :
    ∃ written, charset.encode (Layout.format indent text) = .ok written
      ∧ (written = bytes ↔ Layout.format indent text = text ∧ 0x0D ∉ bytes) := by
  obtain ⟨raw, hraw, rfl⟩ := decodeLines_eq_ok_iff.1 htext
  have hencode := (decode_eq_ok_iff hcharset).1 hraw
  obtain ⟨written, hwritten⟩ := exists_encode_format hcharset hindent ⟨bytes, hencode⟩
  refine ⟨written, hwritten, ?_⟩
  rw [return_mem_iff_of_encode hcharset hencode]
  constructor
  · rintro rfl
    -- the bytes are decoded to the layout, so the file was laid out from the start
    have hlaid := (decode_eq_ok_iff hcharset).2 hwritten
    have heq : raw = Layout.format indent (unifyNewlines raw) := Except.ok.inj (hraw ▸ hlaid)
    have hreturn : '\r' ∉ raw := by
      rw [heq]
      exact Layout.return_not_mem_format hindent (return_not_mem_unifyNewlines raw)
    rw [unifyNewlines_eq_self hreturn] at heq ⊢
    exact ⟨heq.symm, hreturn⟩
  · rintro ⟨hlaid, hreturn⟩
    rw [hlaid, unifyNewlines_eq_self hreturn, hencode] at hwritten
    exact (Except.ok.inj hwritten).symm

/-! ## Calls -/

namespace Tool.Format

open Script

/-- The options of a call, apart from the way to use the layout. -/
structure Options where
  path : Text
  indent : Option Nat
  validate : Bool
  verbose : Bool

/-- The arguments ask for one way to use the layout, and for these options. -/
structure Asks (a : Arguments Key) (way : Key) (o : Options) : Prop where
  plain : a.plain = [o.path]
  indent : (a.value? .indent).map Settings.readWidth? = o.indent.map some
  validate : a.has .validate = o.validate
  verbose : a.has .verbose = o.verbose
  way : ∀ key ∈ [Key.output, .inPlace, .check, .version, .help], a.has key = (key == way)

def Options.call (o : Options) (way : Key) : Call :=
  ⟨Path.ofText o.path, none, .inPlace == way, .check == way, o.indent, o.validate, o.verbose⟩

section Runs

variable [Platform]

/-- The settings that a call works with, unless an indentation cannot be made. -/
def Options.settings (o : Options) (env : Environment) : Except WidthFault Settings := do
  let settings ← (Settings.ofEnvironment env).result
  let width ← o.indent.mapM Text.checkWidth
  return { settings with
    verbose := settings.verbose || o.verbose
    indentWidth := width.getD settings.indentWidth }

variable {env : Environment} {w : World} {o : Options} {a : Arguments Key} {way : Key}
  {bytes : Bytes} {text : Text} {s : Settings}

omit [Platform] in
theorem Asks.perform_ofArguments (h : Asks a way o) (hway : way ≠ .output)
    (hfile : w.files.look o.path = some (.file bytes)) :
    perform (Call.ofArguments a) w = (.ok (o.call way), w) := by
  have houtput : a.value? .output = none := by
    have hhas := h.way .output (by simp)
    rw [Arguments.has_eq_isSome, beq_eq_false_iff_ne.2 hway.symm] at hhas
    simpa using hhas
  have hoptions : perform (Preparation.checkOptions checkOption a) w = (.ok (), w) := by
    refine Preparation.perform_checkOptions fun key value hvalue => ?_
    cases key with
    | output =>
      rw [houtput] at hvalue
      cases hvalue
    | indent =>
      have hwidth := h.indent
      rw [hvalue] at hwidth
      obtain ⟨width, -, hread⟩ := Option.map_eq_some_iff.1 hwidth.symm
      rw [checkOption, ← hread]
      rfl
    | _ => rfl
  have hinput := Preparation.perform_inputPath hfile
  rw [← h.plain] at hinput
  have hindent : (a.value? .indent).bind Settings.readWidth? = o.indent := by
    simpa [Option.bind_map, Function.comp_def] using congrArg (Option.bind · id) h.indent
  rw [Call.ofArguments, perform_bind_ok hoptions, perform_bind_ok hinput, perform_pure]
  rw [Options.call, houtput, hindent, h.way .inPlace (by simp), h.way .check (by simp),
    h.validate, h.verbose]
  rfl

theorem Asks.run_eq (h : Asks a way o) (hway : way = .check ∨ way = .inPlace) {args : List Text}
    (hargs : Arguments.read flags args = .ok a)
    (hfile : w.files.look o.path = some (.file bytes)) :
    (run env args).run w = (runConsistent env (o.call way)).run w := by
  have houtput : way ≠ .output := by rcases hway with rfl | rfl <;> simp
  have hversion : Key.version ≠ way := by rcases hway with rfl | rfl <;> simp
  have hhelp : Key.help ≠ way := by rcases hway with rfl | rfl <;> simp
  have hconsistent : (o.call way).isConsistent = true := by rcases hway with rfl | rfl <;> rfl
  have hfirst : a.first? [.version, .help] = none := by
    refine Arguments.first?_eq_none fun key hkey => ?_
    rw [h.way key (List.mem_of_mem_drop (i := 3) hkey), beq_eq_false_iff_ne]
    rcases List.mem_pair.1 hkey with rfl | rfl
    · exact hversion
    · exact hhelp
  rw [run, hargs]
  simp only [hfirst]
  rw [Preparation.run_andThen (h.perform_ofArguments houtput hfile), runCall, if_pos hconsistent]

/-- The settings are those of the environment, unless its indentation or the one that is asked for
cannot be made. -/
theorem Options.settings_cases (o : Options) (env : Environment) :
    (∃ f, (Settings.ofEnvironment env).result = .error f ∧ o.settings env = .error f)
    ∨ (∃ s f, (Settings.ofEnvironment env).result = .ok s
      ∧ o.indent.mapM Text.checkWidth = .error f ∧ o.settings env = .error f)
    ∨ ∃ s width, (Settings.ofEnvironment env).result = .ok s
      ∧ o.indent.mapM Text.checkWidth = .ok width
      ∧ o.settings env = .ok { s with
        verbose := s.verbose || o.verbose
        indentWidth := width.getD s.indentWidth } := by
  unfold Options.settings
  cases (Settings.ofEnvironment env).result with
  | error f => exact .inl ⟨f, rfl, rfl⟩
  | ok s =>
    cases o.indent.mapM Text.checkWidth with
    | error f => exact .inr (.inl ⟨s, f, rfl, rfl, rfl⟩)
    | ok width => exact .inr (.inr ⟨s, width, rfl, rfl, rfl⟩)

/-- Without an indentation nothing is done. -/
theorem run_runConsistent_of_error {f : WidthFault} (h : o.settings env = .error f) :
    ((runConsistent env (o.call way)).run w).1 = .crash (.indent f)
      ∧ ((runConsistent env (o.call way)).run w).2.files = w.files := by
  rcases o.settings_cases env with ⟨f', hs, hf⟩ | ⟨s, f', hs, hwidth, hf⟩ | ⟨s, width, -, -, hok⟩
  · cases h.symm.trans hf
    unfold runConsistent withSettings
    simp only [hs]
    exact ⟨rfl, rfl⟩
  · cases h.symm.trans hf
    rw [runConsistent, run_withSettings hs]
    simp only [Options.call, hwidth]
    exact ⟨rfl, World.files_print ..⟩
  · cases h.symm.trans hok

theorem run_runConsistent_of_ok (h : o.settings env = .ok s) :
    (runConsistent env (o.call way)).run w
      = ((body s (o.call way)).toExit s.verbose "Format").run (reported env w) := by
  rcases o.settings_cases env with ⟨f, -, hf⟩ | ⟨s', f, -, -, hf⟩ | ⟨s', width, hs, hwidth, hok⟩
  · cases h.symm.trans hf
  · cases h.symm.trans hf
  · cases h.symm.trans hok
    rw [runConsistent, run_withSettings hs]
    simp only [Options.call, hwidth]

/-! ## Ways to use the layout -/

theorem perform_body (way : Key) (hfile : w.files.look o.path = some (.file bytes))
    (htext : s.charset.decodeLines bytes = .ok text) :
    ∃ w', w'.files = w.files ∧ perform (body s (o.call way)) w
      = perform (deliver s (o.call way) text (Layout.format s.indent text)) w' := by
  have hread : perform (Action.readSource s (o.call way).input) w = (.ok text, w) :=
    Action.perform_readSource (FileSystem.read_toText hfile) htext
  rw [body, perform_bind_ok hread]
  split
  · exact ⟨_, World.files_print .., perform_bind_ok (Action.perform_lint ..)⟩
  · exact ⟨w, rfl, rfl⟩

omit [Platform] in
theorem perform_compare (input source formatted : Text) :
    ∃ w', w'.files = w.files ∧ perform (compare s input source formatted) w
      = (.ok (if formatted = source then 0 else 1), w') := by
  unfold compare
  split
  · split
    · exact ⟨_, World.files_print .., perform_bind_ok (Action.perform_say ..)⟩
    · exact ⟨w, rfl, rfl⟩
  · exact ⟨_, World.files_print .., perform_bind_ok (Action.perform_warn ..)⟩

theorem perform_writeTo {path : Path} {formatted : Text} {files : FileSystem}
    (hbytes : s.charset.encode formatted = .ok bytes)
    (h : w.files.write path.toText bytes = .ok files) (done : String) :
    ∃ w', w'.files = files ∧ perform (writeTo s path formatted done) w = (.ok 0, w') := by
  rw [writeTo, perform_bind_ok (Action.perform_writeText hbytes h)]
  split
  · exact ⟨_, World.files_print .., perform_bind_ok (Action.perform_say ..)⟩
  · exact ⟨_, rfl, rfl⟩

/-- A run that compares tells whether the text of the file is laid out. -/
theorem run_check (hfile : w.files.look o.path = some (.file bytes)) (h : o.settings env = .ok s)
    (htext : s.charset.decodeLines bytes = .ok text) :
    ((runConsistent env (o.call .check)).run w).1
      = .status (if Layout.format s.indent text = text then 0 else 1) := by
  rw [← files_reported env] at hfile
  obtain ⟨w₁, -, hbody⟩ := perform_body .check hfile htext
  obtain ⟨w₂, -, hcompare⟩ := perform_compare (w := w₁) (s := s) (o.call .check).input.toText text
    (Layout.format s.indent text)
  rw [run_runConsistent_of_ok h, Action.run_toExit (hbody.trans hcompare)]

/-- A run that writes back puts the layout into the file. -/
theorem run_inPlace {place : Place} {written : Bytes} (hplace : w.files.place o.path = .ok place)
    (hfile : w.files.node? place = some (.file bytes)) (h : o.settings env = .ok s)
    (htext : s.charset.decodeLines bytes = .ok text)
    (hwritten : s.charset.encode (Layout.format s.indent text) = .ok written) :
    ((runConsistent env (o.call .inPlace)).run w).1 = .status 0
      ∧ ((runConsistent env (o.call .inPlace)).run w).2.files
        = w.files.put place (.file written) := by
  have hlook : (reported env w).files.look o.path = some (.file bytes) := by
    rw [files_reported, FileSystem.look_eq_some_iff]
    exact ⟨place, hplace, hfile⟩
  obtain ⟨w₁, hw₁, hbody⟩ := perform_body .inPlace hlook htext
  rw [files_reported] at hw₁
  have hwrite : w₁.files.write (Path.ofText o.path).toText written
      = .ok (w.files.put place (.file written)) := by
    rw [hw₁]
    exact FileSystem.write_eq (FileSystem.place_toText hplace) (by simp [hfile])
  obtain ⟨w₂, hw₂, hdone⟩ := perform_writeTo hwritten hwrite "Formatted"
  rw [run_runConsistent_of_ok h, Action.run_toExit (hbody.trans hdone)]
  exact ⟨rfl, hw₂⟩

omit [Platform] in
theorem keeps_compare (settings : Settings) (input source formatted : Text) :
    (compare settings input source formatted).run.Keeps := by
  unfold compare
  split
  · split
    · exact .bindOf (.lift (.displayLines _ _)) fun _ _ _ _ => .pure _
    · exact .pure _
  · exact .bindOf (.lift (.displayLines _ _)) fun _ _ _ _ => .pure _

theorem keeps_runCall {call : Call} (h : call.check = true) : (runCall env call).Keeps := by
  have hbody : ∀ settings, (body settings call).run.Keeps := by
    intro settings
    refine .bindOf (Action.keeps_readSource _ _) fun _ source _ _ => ?_
    have hdeliver : (deliver settings call source
        (Layout.format settings.indent source)).run.Keeps := by
      rw [deliver, if_pos h]
      exact keeps_compare _ _ _ _
    split
    · exact .bindOf (Action.keeps_lint _ _ _) fun _ _ _ _ => hdeliver
    · exact hdeliver
  unfold runCall
  split
  · refine keeps_withSettings fun settings => ?_
    simp only
    split
    · exact .done _
    · exact keeps_toExit (hbody _) _ _
  · exact .bind (.lines .error [_]) fun _ => .done _

/-- A call that compares changes no file, whatever else it asks for. -/
theorem keeps_run_of_check {args : List Text} (hargs : Arguments.read flags args = .ok a)
    (hcheck : a.has .check = true) : (run env args).Keeps := by
  -- only a call that compares comes out of the arguments
  have hcall : ∀ w call w', perform (Call.ofArguments a) w = (.ok call, w') →
      call.check = true := by
    intro w call w' h
    obtain ⟨_, w₁, -, h⟩ := exists_of_perform_bind h
    obtain ⟨input, w₂, -, h⟩ := exists_of_perform_bind h
    cases h
    exact hcheck
  have hprepared : (Call.ofArguments a).run.Keeps := by
    refine .bindOf (Preparation.keeps_checkOptions ?_ a) fun _ _ _ _ =>
      .bindOf (Preparation.keeps_inputPath _) fun _ _ _ _ => .pure _
    intro key value
    unfold checkOption
    split
    · exact Preparation.keeps_checkOutput _
    · split
      · exact .pure _
      · exact .throw _
    · exact .pure _
  rw [run, hargs]
  simp only
  split
  · exact .bind (.lines .output [_]) fun _ => .done _
  · exact .bind (.lines .output [_]) fun _ => .done _
  · exact Preparation.keeps_andThen hprepared fun w call w' h => keeps_runCall (hcall w call w' h)

/-- A file is written back as it was just if the comparison finds it laid out and there is no
carriage return in it. Comparing changes no file, writing back no other file, and both are given up
alike if the indentation cannot be made. -/
theorem inPlace_unchanged_iff (env : Environment) (w : World) (o : Options) (bytes : Bytes)
    (checking rewriting : List Text) (a a' : Arguments Key)
    (hfile : w.files.look o.path = some (.file bytes))
    (hchecking : Arguments.read flags checking = .ok a) (ha : Asks a .check o)
    (hrewriting : Arguments.read flags rewriting = .ok a') (ha' : Asks a' .inPlace o) :
    (∀ args a w, Arguments.read flags args = .ok a → a.has .check = true →
      ((run env args).run w).2.files = w.files)
    ∧ (∀ f, o.settings env = .error f →
      ((run env checking).run w).1 = .crash (.indent f)
      ∧ ((run env rewriting).run w).1 = .crash (.indent f)
      ∧ ((run env rewriting).run w).2.files = w.files)
    ∧ ∀ s text, o.settings env = .ok s → s.charset.isBuiltIn = true →
      s.charset.decodeLines bytes = .ok text →
      ((run env checking).run w).1
          = .status (if Layout.format s.indent text = text then 0 else 1)
      ∧ ((run env rewriting).run w).1 = .status 0
      ∧ (∀ place, w.files.place o.path ≠ .ok place →
        ((run env rewriting).run w).2.files.node? place = w.files.node? place)
      ∧ (((run env rewriting).run w).2.files.look o.path = some (.file bytes)
        ↔ ((run env checking).run w).1 = .status 0 ∧ 0x0D ∉ bytes) := by
  rw [ha.run_eq (.inl rfl) hchecking hfile, ha'.run_eq (.inr rfl) hrewriting hfile]
  refine ⟨fun args a w hargs hcheck => keeps_run_of_check hargs hcheck w, ?_, ?_⟩
  · intro f hf
    obtain ⟨hexit, hfiles⟩ := run_runConsistent_of_error hf
    exact ⟨(run_runConsistent_of_error hf).1, hexit, hfiles⟩
  · intro s text hs hcharset htext
    obtain ⟨place, hplace, hnode⟩ := FileSystem.look_eq_some_iff.1 hfile
    have hdirectory : w.files.node? place ≠ some .directory := by simp [hnode]
    have hindent : ∀ c ∈ s.indent, c = ' ' := fun c hc => List.eq_of_mem_replicate hc
    obtain ⟨written, hwritten, hsame⟩ := Charset.encode_format hcharset hindent htext
    obtain ⟨hexit, hfiles⟩ := run_inPlace hplace hnode hs htext hwritten
    have hcheck := run_check hfile hs htext
    rw [hcheck, hfiles]
    refine ⟨rfl, hexit, ?_, ?_⟩
    · intro place' hne
      refine FileSystem.node?_put_of_ne _ _ ?_
      rintro rfl
      exact hne hplace
    · -- what is written are the bytes of the layout, so they decide
      rw [FileSystem.look_put hplace hdirectory, Option.some.injEq, Node.file.injEq, hsame]
      split
      · next hlaid => simp [hlaid]
      · next hlaid => simp [hlaid]

end Runs

/-- A working directory that holds one file. -/
def holding (bytes : Bytes) : World :=
  ⟨⟨[(["f.asm".toList], .file bytes)]⟩, [], []⟩

theorem inPlace_unchanged_iff_latin :
    ((run { encoding := some "latin-1".toList }
        ["--indent".toList, "1".toList, "f.asm".toList, "--check".toList]).run
        (holding [0x20, 0x4E, 0xE9, 0x0A])).1 = .status 0
      ∧ ((run { encoding := some "latin-1".toList }
          ["-i".toList, "--indent=1".toList, "f.asm".toList]).run
          (holding [0x20, 0x4E, 0xE9, 0x0A])).2.files.look "f.asm".toList
        = some (.file [0x20, 0x4E, 0xE9, 0x0A]) := by
  obtain ⟨-, -, hok⟩ := inPlace_unchanged_iff { encoding := some "latin-1".toList }
    (holding [0x20, 0x4E, 0xE9, 0x0A]) ⟨"f.asm".toList, some 1, false, false⟩
    [0x20, 0x4E, 0xE9, 0x0A]
    ["--indent".toList, "1".toList, "f.asm".toList, "--check".toList]
    ["-i".toList, "--indent=1".toList, "f.asm".toList]
    ⟨[(.indent, ['1']), (.check, [])], ["f.asm".toList]⟩
    ⟨[(.inPlace, []), (.indent, ['1'])], ["f.asm".toList]⟩
    (by decide +kernel) (by rfl) ⟨rfl, by decide +kernel, rfl, rfl, by decide⟩
    (by rfl) ⟨rfl, by decide +kernel, rfl, rfl, by decide⟩
  obtain ⟨hcheck, -, -, hunchanged⟩ := hok
    { indentWidth := 1, encoding := "latin-1".toList } [' ', 'N', 'é', '\n']
    (by decide +kernel) (by decide +kernel) (by decide +kernel)
  rw [if_pos (by decide +kernel)] at hcheck
  exact ⟨hcheck, hunchanged.2 ⟨hcheck, by decide⟩⟩

/-- A carriage return is lost although the comparison finds nothing to do. -/
theorem inPlace_changed_of_check :
    ((run {} ["--check".toList, "f.asm".toList]).run
        (holding (Utf8.encode "  NOP\r\n".toList))).1 = .status 0
      ∧ ((run {} ["-i".toList, "f.asm".toList]).run
          (holding (Utf8.encode "  NOP\r\n".toList))).2.files.look "f.asm".toList
        ≠ some (.file (Utf8.encode "  NOP\r\n".toList)) := by
  decide +kernel

end Tool.Format

end ContractAsm
