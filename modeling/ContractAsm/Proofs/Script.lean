-- SUMMARY: Scripts run on a world of files, and which of them change no file.
import ContractAsm.Proofs.FileSystem
import ContractAsm.Tool.Action

/-!
# Running scripts

A script that may be stopped is run to what it gives or what stopped it. There is one rule for a
sequence and one for each request, so a run is followed step by step. Printing leaves the files
alone, and so does every script that never asks for a write.
-/

namespace ContractAsm.Tool

open Script

variable {α β ε : Type} {w w' : World}

/-! ## Printing -/

namespace Script

@[simp] theorem World.files_print (w : World) (stream : Stream) (text : Text) :
    (w.print stream text).files = w.files := by
  cases stream with
  | output => rfl
  | error => rfl

@[simp] theorem World.output_print_error (w : World) (text : Text) :
    (w.print .error text).output = w.output := rfl

@[simp] theorem World.output_print_output (w : World) (text : Text) :
    (w.print .output text).output = w.output ++ text := rfl

@[simp] theorem World.print_nil (w : World) (stream : Stream) : w.print stream [] = w := by
  cases stream with
  | output => simp [World.print]
  | error => simp [World.print]

/-- Printing two texts is printing them one after the other. -/
theorem World.print_append (w : World) (stream : Stream) (s t : Text) :
    w.print stream (s ++ t) = (w.print stream s).print stream t := by
  cases stream with
  | output => simp [World.print]
  | error => simp [World.print]

/-- The text of lines. -/
def shown (texts : List String) : Text :=
  texts.flatMap fun text => text.toList ++ ['\n']

/-- The text of lines without their control sequences. -/
def displayed (texts : List String) : Text :=
  texts.flatMap fun text => Text.withoutControls text.toList ++ ['\n']

/-- Lines are printed as they are. -/
theorem run_lines (stream : Stream) (texts : List String) (w : World) :
    (lines stream texts).run w = ((), w.print stream (shown texts)) := by
  induction texts generalizing w with
  | nil => simp [lines, run, shown]
  | cons text texts ih =>
    have hline : (lines stream (text :: texts)).run w
        = (lines stream texts).run (w.print stream (text.toList ++ ['\n'])) := rfl
    rw [hline, ih, ← World.print_append]
    rfl

/-- Displayed lines are printed with their halves escaped. -/
theorem run_displayLines (stream : Stream) (texts : List String) (w : World) :
    (displayLines stream texts).run w = ((), w.print stream (displayed texts)) := by
  rw [displayLines, run_lines, shown, displayed, List.flatMap_map]
  simp

end Script

/-! ## Sequences -/

/-- Runs a script that may be stopped. -/
def perform (x : ExceptT ε Script α) (w : World) : Except ε α × World :=
  x.run.run w

@[simp] theorem perform_pure (a : α) (w : World) :
    perform (pure a : ExceptT ε Script α) w = (.ok a, w) := rfl

@[simp] theorem perform_lift (s : Script α) (w : World) :
    perform (ExceptT.lift s : ExceptT ε Script α) w = (.ok (s.run w).1, (s.run w).2) := by
  change (s >>= fun a => pure (Except.ok a)).run w = _
  rw [run_bind, run_pure]

/-- The second step runs where the first one left the world, unless that failed. -/
theorem perform_bind (x : ExceptT ε Script α) (f : α → ExceptT ε Script β) (w : World) :
    perform (x >>= f) w = match perform x w with
      | (.ok a, w') => perform (f a) w'
      | (.error e, w') => (.error e, w') := by
  change (x.run >>= ExceptT.bindCont f).run w = _
  rw [run_bind, perform]
  cases x.run.run w with
  | mk result w' =>
    cases result with
    | ok a => rfl
    | error e => rfl

theorem perform_bind_ok {x : ExceptT ε Script α} {f : α → ExceptT ε Script β} {a : α}
    (h : perform x w = (.ok a, w')) : perform (x >>= f) w = perform (f a) w' := by
  rw [perform_bind, h]

/-- A sequence that is not stopped goes through both of its parts. -/
theorem exists_of_perform_bind {x : ExceptT ε Script α} {f : α → ExceptT ε Script β} {b : β}
    (h : perform (x >>= f) w = (.ok b, w')) :
    ∃ a w₁, perform x w = (.ok a, w₁) ∧ perform (f a) w₁ = (.ok b, w') := by
  rw [perform_bind] at h
  split at h
  · next a w₁ hx => exact ⟨a, w₁, hx, h⟩
  · cases h

/-- Steps that change nothing, one after the other. -/
theorem perform_forM {f : β → ExceptT ε Script PUnit} {l : List β}
    (h : ∀ b ∈ l, perform (f b) w = (.ok ⟨⟩, w)) : perform (l.forM f) w = (.ok ⟨⟩, w) := by
  induction l with
  | nil => rfl
  | cons b l ih =>
    change perform (f b >>= fun _ => l.forM f) w = _
    rw [perform_bind_ok (h b (List.mem_cons_self ..))]
    exact ih fun b' hb' => h b' (List.mem_cons_of_mem b hb')

/-! ## Requests -/

namespace Action

variable {settings : Settings} {path : Path} {bytes : Bytes} {text : Text}

@[simp] theorem perform_sayLines (texts : List String) (w : World) :
    perform (sayLines texts) w = (.ok (), w.print .output (displayed texts)) := by
  rw [sayLines, perform_lift, run_displayLines]

@[simp] theorem perform_say (text : String) (w : World) :
    perform (say text) w = (.ok (), w.print .output (displayed [text])) :=
  perform_sayLines [text] w

@[simp] theorem perform_warnLines (texts : List String) (w : World) :
    perform (warnLines texts) w = (.ok (), w.print .error (displayed texts)) := by
  rw [warnLines, perform_lift, run_displayLines]

@[simp] theorem perform_warn (text : String) (w : World) :
    perform (warn text) w = (.ok (), w.print .error (displayed [text])) :=
  perform_warnLines [text] w

@[simp] theorem perform_log (settings : Settings) (entries : List LogEntry) (w : World) :
    perform (log settings entries) w
      = (.ok (), w.print .error (shown (settings.logLines entries))) := by
  rw [log, perform_lift, run_lines]

/-- What is shown for the findings of a source. -/
def lintText (settings : Settings) (path : Path) (source : Text) : Text :=
  shown (settings.logLines (Lint.report (Lint.check source)))
    ++ displayed ((Lint.check source).map fun f =>
      s!"Warning: {String.ofList path.toText}: {f.message}")

@[simp] theorem perform_lint (settings : Settings) (path : Path) (source : Text) (w : World) :
    perform (lint settings path source) w
      = (.ok (), w.print .error (lintText settings path source)) := by
  rw [lint, perform_bind_ok (perform_log ..), perform_warnLines, lintText, World.print_append]

/-- A readable file in the right encoding gives its text. -/
theorem perform_readSource [Platform] (hread : w.files.read path.toText = .ok bytes)
    (htext : settings.charset.decodeLines bytes = .ok text) :
    perform (readSource settings path) w = (.ok text, w) := by
  have hlook : perform (ExceptT.lift (Script.read path.toText .done) :
      ExceptT Fault Script (Except FileFault Bytes)) w = (.ok (.ok bytes), w) := by
    rw [perform_lift, Script.run, hread]
    rfl
  rw [readSource, perform_bind_ok hlook]
  simp only [htext]
  rfl

/-- Writing changes the files and nothing else. -/
theorem perform_writeFile [Platform] {contents : Bytes} {files : FileSystem}
    (h : w.files.write path.toText contents = .ok files) :
    perform (writeFile path contents) w = (.ok (), { w with files }) := by
  have hwrite : perform (ExceptT.lift (Script.write path.toText contents .done) :
      ExceptT Fault Script (Except FileFault Unit)) w = (.ok (.ok ()), { w with files }) := by
    rw [perform_lift, Script.run, h]
    rfl
  rw [writeFile, perform_bind_ok hwrite]
  rfl

/-- A text is written as its bytes. -/
theorem perform_writeText [Platform] {charset : Charset} {text : Text} {contents : Bytes}
    {files : FileSystem}
    (hencode : charset.encode text = .ok contents)
    (h : w.files.write path.toText contents = .ok files) :
    perform (writeText charset path text) w = (.ok (), { w with files }) := by
  rw [writeText, hencode]
  exact perform_writeFile h

/-- An action that ends well gives its own status. -/
theorem run_toExit {x : Action Nat} {n : Nat} (h : perform x w = (.ok n, w')) (verbose : Bool)
    (activity : String) : (x.toExit verbose activity).run w = (.status n, w') := by
  rw [perform] at h
  rw [toExit, run_bind, h]
  rfl

end Action

namespace Preparation

theorem run_andThen {p : Preparation α} {f : α → Script Exit} {a : α}
    (h : perform p w = (.ok a, w')) : (p.andThen f).run w = (f a).run w' := by
  rw [perform] at h
  rw [andThen, run_bind, h]

theorem perform_look {path : Text} (h : '\x00' ∉ path) (w : World) :
    perform (look path) w = (.ok (w.files.look path), w) := by
  rw [look, if_neg h, perform_lift]
  rfl

/-- A writable path passes its check. -/
theorem perform_checkOutput {path : Text} (h : w.files.Writable (Path.ofText path)) :
    perform (checkOutput path) w = (.ok (), w) := by
  obtain ⟨hnull, hdirectory⟩ := h.look_ne
  rw [checkOutput, perform_bind_ok (perform_look hnull w)]
  split
  · next hlook => exact absurd hlook hdirectory
  · rfl

/-- Options whose values pass their checks pass together. -/
theorem perform_checkOptions {κ : Type} [BEq κ] {check : κ → Text → Preparation Unit}
    {a : Arguments κ}
    (h : ∀ key value, a.value? key = some value → perform (check key value) w = (.ok (), w)) :
    perform (checkOptions check a) w = (.ok (), w) :=
  perform_forM fun (key, value) hgiven => h key value (Arguments.value?_of_mem_given hgiven)

/-- An existing file is taken as input. -/
theorem perform_inputPath {path : Text} {bytes : Bytes}
    (h : w.files.look path = some (.file bytes)) :
    perform (inputPath [path]) w = (.ok (Path.ofText path), w) := by
  rw [inputPath, perform_bind_ok (perform_look (FileSystem.null_not_mem_of_look h) w), h]
  rfl

end Preparation

/-! ## Scripts that keep the files -/

namespace Script

/-- Running the script changes no file. -/
def Keeps (s : Script α) : Prop :=
  ∀ w, (s.run w).2.files = w.files

theorem Keeps.done (a : α) : (Script.done a).Keeps := fun _ => rfl

/-- Steps that keep the files keep them together. -/
theorem Keeps.bind {s : Script α} {f : α → Script β} (hs : s.Keeps)
    (hf : ∀ a, (f a).Keeps) : (s >>= f).Keeps := by
  intro w
  rw [run_bind, hf, hs]

theorem Keeps.lines (stream : Stream) (texts : List String) :
    (Script.lines stream texts).Keeps := by
  intro w
  rw [run_lines, World.files_print]

theorem Keeps.displayLines (stream : Stream) (texts : List String) :
    (Script.displayLines stream texts).Keeps :=
  .lines stream _

/-- In a sequence that may be stopped, the second part has to keep the files only after what the
first one gives. -/
theorem Keeps.bindOf {x : ExceptT ε Script α} {f : α → ExceptT ε Script β} (hx : x.run.Keeps)
    (hf : ∀ w a w', perform x w = (.ok a, w') → (f a).run.Keeps) : (x >>= f).run.Keeps := by
  intro w
  change (perform (x >>= f) w).2.files = w.files
  have hfirst : (perform x w).2.files = w.files := hx w
  rw [perform_bind]
  split
  · next a w' h =>
    rw [h] at hfirst
    exact (hf w a w' h w').trans hfirst
  · next e w' h => rwa [h] at hfirst

theorem Keeps.lift {s : Script α} (h : s.Keeps) :
    (ExceptT.lift s : ExceptT ε Script α).run.Keeps := by
  intro w
  change (perform (ExceptT.lift s : ExceptT ε Script α) w).2.files = w.files
  rw [perform_lift]
  exact h w

theorem Keeps.pure (a : α) : (Pure.pure a : ExceptT ε Script α).run.Keeps := fun _ => rfl

theorem Keeps.throw (e : ε) : (MonadExcept.throw e : ExceptT ε Script α).run.Keeps := fun _ => rfl

theorem Keeps.forM {f : β → ExceptT ε Script PUnit} {l : List β} (h : ∀ b ∈ l, (f b).run.Keeps) :
    (l.forM f).run.Keeps := by
  induction l with
  | nil => exact .pure _
  | cons b l ih =>
    exact .bindOf (h b (List.mem_cons_self ..)) fun _ _ _ _ =>
      ih fun b' hb' => h b' (List.mem_cons_of_mem b hb')

end Script

namespace Preparation

theorem keeps_look (path : Text) : (look path).run.Keeps := by
  rw [look]
  split
  · exact .throw _
  · exact .lift fun _ => rfl

theorem keeps_checkOutput (path : Text) : (checkOutput path).run.Keeps := by
  refine .bindOf (keeps_look path) fun _ node _ _ => ?_
  split
  · exact .throw _
  · exact .pure _

theorem keeps_checkOptions {κ : Type} [BEq κ] {check : κ → Text → Preparation Unit}
    (h : ∀ key value, (check key value).run.Keeps) (a : Arguments κ) :
    (checkOptions check a).run.Keeps :=
  .forM fun (key, value) _ => h key value

theorem keeps_inputPath (plain : List Text) : (inputPath plain).run.Keeps := by
  unfold inputPath
  split
  · exact .throw _
  · refine .bindOf (keeps_look _) fun _ node _ _ => ?_
    split
    · split
      · exact .pure _
      · exact .throw _
    · exact .throw _

/-- A prepared action keeps the files if it does so whenever its preparation is done. -/
theorem keeps_andThen {p : Preparation α} {f : α → Script Exit} (hp : p.run.Keeps)
    (hf : ∀ w a w', perform p w = (.ok a, w') → (f a).Keeps) : (p.andThen f).Keeps := by
  intro w
  have hfirst : (p.run.run w).2.files = w.files := hp w
  rw [andThen, run_bind]
  cases h : p.run.run w with
  | mk result w' =>
    rw [h] at hfirst
    cases result with
    | ok a => exact (hf w a w' h w').trans hfirst
    | error exit => exact hfirst

end Preparation

namespace Action

/-- Reading keeps the files. -/
theorem keeps_readSource [Platform] (settings : Settings) (path : Path) :
    (readSource settings path).run.Keeps := by
  refine .bindOf (.lift fun _ => rfl) fun _ result _ _ => ?_
  split
  · exact .throw _
  · split
    · exact .pure _
    · exact .throw _

/-- Linting keeps the files. -/
theorem keeps_lint (settings : Settings) (path : Path) (source : Text) :
    (lint settings path source).run.Keeps :=
  .bindOf (.lift (.lines _ _)) fun _ _ _ _ => .lift (.displayLines _ _)

end Action

/-- However an action ends, reporting it keeps the files. -/
theorem keeps_toExit {x : Action Nat} (h : x.run.Keeps) (verbose : Bool) (activity : String) :
    (x.toExit verbose activity).Keeps := by
  refine .bind h fun result => ?_
  split
  · exact .done _
  · exact .bind (.displayLines _ _) fun _ => .done _

/-- Reading the settings keeps the files. -/
theorem keeps_withSettings [Platform] {env : Environment} {f : Settings → Script Exit}
    (h : ∀ s, (f s).Keeps) : (withSettings env f).Keeps := by
  unfold withSettings
  simp only
  split
  · exact .bind (.lines _ _) fun _ => h _
  · exact .done _

/-- The reports about the settings, printed. -/
def reported [Platform] (env : Environment) (w : World) : World :=
  w.print .error (shown (({} : Settings).logLines (Settings.ofEnvironment env).log))

@[simp] theorem files_reported [Platform] (env : Environment) (w : World) :
    (reported env w).files = w.files :=
  World.files_print ..

/-- With valid settings the tool runs behind what was reported about them. -/
theorem run_withSettings [Platform] {env : Environment} {s : Settings}
    (h : (Settings.ofEnvironment env).result = .ok s) (f : Settings → Script Exit) (w : World) :
    (withSettings env f).run w = (f s).run (reported env w) := by
  unfold withSettings
  simp only [h]
  rw [run_bind, run_lines, reported]

end ContractAsm.Tool
