-- SUMMARY: Settings of the tools, taken from environment variables.
import ContractAsm.Log
import ContractAsm.Number.Numeral
import ContractAsm.Text.Capital
import ContractAsm.Text.Charset
import ContractAsm.Text.Width

/-!
# Settings

The tools take their settings from environment variables. A variable with a value that makes no
sense is reported, and its setting stays as it is by default.
-/

namespace ContractAsm

/-- The settings of the tools, with their defaults. The indentation is a number of spaces. -/
structure Settings where
  verbose : Bool := false
  logLevel : Level := .warning
  indentWidth : Nat := 2
  bytecodeSuffix : Text := ".hex".toList
  hashSuffix : Text := ".hash".toList
  objectSuffix : Text := ".obj".toList
  debugSuffix : Text := ".dbg.json".toList
  encoding : Text := "utf-8".toList
  deriving DecidableEq, Repr

/-- The environment variables that hold settings. An empty variable counts as unset. -/
structure Environment where
  verbose : Option Text := none
  logLevel : Option Text := none
  indent : Option Text := none
  encoding : Option Text := none
  deriving DecidableEq, Repr

namespace Environment

def verboseName : String := "SMALLC_ASM_VERBOSE"

def logLevelName : String := "SMALLC_ASM_LOG_LEVEL"

def indentName : String := "SMALLC_ASM_INDENT"

def encodingName : String := "SMALLC_ASM_ENCODING"

/-- Takes the variables from a whole environment. -/
def ofVariables [Monad m] (get : String → m (Option Text)) : m Environment := do
  return {
    verbose := ← get verboseName
    logLevel := ← get logLevelName
    indent := ← get indentName
    encoding := ← get encodingName }

end Environment

namespace Settings

/-! ## Reading the variables -/

def readVerbose? (value : Text) : Option Bool :=
  let value := Text.toSmall (Text.trim value)
  if ["1", "true", "yes", "on"].any (·.toList == value) then some true
  else if ["0", "false", "no", "off"].any (·.toList == value) then some false
  else none

/-- The level of a name, in any case. -/
def readLevel? (value : Text) : Option Level :=
  Level.all.find? fun level => level.name.toList == Text.toCapitals value

/-- A width, which is not negative. -/
def readWidth? (value : Text) : Option Nat :=
  match Numeral.ofSetting? value with
  | some (.ofNat n) => some n
  | _ => none

/-- Applies a variable, if it is set. A value that cannot be read is reported. -/
def applyVariable (name : String) (read? : Text → Option α) (set : α → Logged WidthFault Settings)
    (settings : Settings) : Option Text → Logged WidthFault Settings
  | none => pure settings
  | some [] => pure settings
  | some value =>
    match read? value with
    | some a => set a
    | none => do
      Logged.report .warning s!"Invalid {name}: {String.ofList value}"
      return settings

def ofEnvironment [Platform] (env : Environment) : Logged WidthFault Settings := do
  let s : Settings := {}
  let s ← applyVariable Environment.verboseName readVerbose?
    (fun verbose => pure { s with verbose }) s env.verbose
  let s ← applyVariable Environment.logLevelName readLevel?
    (fun logLevel => pure { s with logLevel }) s env.logLevel
  let s ← applyVariable Environment.indentName readWidth?
    (fun width => do return { s with indentWidth := ← Logged.ofExcept (Text.checkWidth width) })
    s env.indent
  applyVariable Environment.encodingName Charset.ofName?
    (fun _ => pure { s with encoding := env.encoding.getD s.encoding }) s env.encoding

/-! ## Views -/

def indent (s : Settings) : Text :=
  Text.spaces s.indentWidth

def charset (s : Settings) : Charset :=
  (Charset.ofName? s.encoding).getD .utf8

/-- The lines that reports come out as. Only those of enough weight are shown, and with their
level if the settings are verbose. -/
def logLines (s : Settings) (log : List LogEntry) : List String :=
  let threshold := if s.verbose then Level.debug else s.logLevel
  (log.filter fun e => threshold.weight ≤ e.level.weight).map fun e =>
    if s.verbose then s!"{e.level.name}: {e.message}" else e.message

end Settings

end ContractAsm
