-- SUMMARY: What the tools have in common: printing, files, settings and the checks of a call.
import ContractAsm.Lint
import ContractAsm.Tool.Fault
import ContractAsm.Tool.Path
import ContractAsm.Tool.Script

/-!
# Actions of tools

What the tools have in common: printing, reading sources, writing files, looking at the paths of a
call, and the way from settings to an exit status.
-/

namespace ContractAsm.Tool

/-- A script that faults can stop. -/
abbrev Action := ExceptT Fault Script

def Fault.display (f : Fault) (verbose : Bool) (activity : Option String) : Script Unit :=
  Script.displayLines .error (f.lines verbose activity)

namespace Action

/-! ## Printing -/

def sayLines (texts : List String) : Action Unit :=
  ExceptT.lift (Script.displayLines .output texts)

def say (text : String) : Action Unit :=
  sayLines [text]

def warnLines (texts : List String) : Action Unit :=
  ExceptT.lift (Script.displayLines .error texts)

def warn (text : String) : Action Unit :=
  warnLines [text]

/-- Prints the reports of a computation, with all that is in them. -/
def log (settings : Settings) (entries : List LogEntry) : Action Unit :=
  ExceptT.lift (Script.lines .error (settings.logLines entries))

/-- Checks the syntax of a source and prints what is found. -/
def lint (settings : Settings) (path : Path) (source : Text) : Action Unit := do
  let findings := Lint.check source
  log settings (Lint.report findings)
  warnLines (findings.map fun f => s!"Warning: {String.ofList path.toText}: {f.message}")

/-! ## Files -/

section

variable [Platform]

/-- Reads a source file: decodes its bytes and unifies its line ends. -/
def readSource (settings : Settings) (path : Path) : Action Text := do
  match ← ExceptT.lift (Script.read path.toText .done) with
  | .error f => throw (.ofFile f path.toText)
  | .ok bytes =>
    match settings.charset.decodeLines bytes with
    | .ok text => return text
    | .error f => throw (.ofDecoding f)

def writeFile (path : Path) (contents : Bytes) : Action Unit := do
  match ← ExceptT.lift (Script.write path.toText contents .done) with
  | .error f => throw (.ofFile f path.toText)
  | .ok () => return ()

/-- Writes a text to a file. The file is empty if the text has no bytes in the character set. -/
def writeText (charset : Charset) (path : Path) (text : Text) : Action Unit :=
  match charset.encode text with
  | .ok bytes => writeFile path bytes
  | .error f => do
    writeFile path []
    throw (.internal f.message)

end

/-! ## Running -/

/-- Runs an action to its exit status; a fault is shown. -/
def toExit (a : Action Nat) (verbose : Bool) (activity : String) : Script Exit := do
  match ← a.run with
  | .ok n => return .status n
  | .error f =>
    f.display verbose activity
    return .status f.status

end Action

/-- Goes on with the settings of an environment. Reports about them are printed bare, if they are
warnings or worse. -/
def withSettings [Platform] (env : Environment) (f : Settings → Script Exit) : Script Exit := do
  let settings := Settings.ofEnvironment env
  match settings.result with
  | .ok s =>
    Script.lines .error (({} : Settings).logLines settings.log)
    f s
  | .error f => return .crash (.indent f)

/-! ## Calls -/

/-- The steps before the settings are read. The run may end there. -/
abbrev Preparation := ExceptT Exit Script

namespace Preparation

def misuse (m : Misuse) : Preparation α :=
  throw (.misuse m)

/-- Looks at the path of a parameter. A path with the null character ends the run. -/
def look (path : Text) : Preparation (Option Node) :=
  if '\x00' ∈ path then throw (.crash (.path .nullCharacter path))
  else ExceptT.lift (Script.look path .done)

/-- Checks the path of a file that need not exist; a directory is none. -/
def checkOutput (path : Text) : Preparation Unit := do
  match ← look path with
  | some .directory => misuse .badValue
  | _ => return ()

/-- Checks the options of a call, in the order in which they were given. -/
def checkOptions [BEq κ] (check : κ → Text → Preparation Unit) (a : Arguments κ) :
    Preparation Unit :=
  a.given.forM fun (key, value) => check key value

/-- The path of the one plain argument, which has to be a file. -/
def inputPath (plain : List Text) : Preparation Path :=
  match plain with
  | [] => misuse .missingInput
  | path :: rest => do
    match ← look path with
    | some (.file _) => if rest.isEmpty then return Path.ofText path else misuse .extraArgument
    | _ => misuse .badValue

/-- Goes on with what was prepared, unless the run ended. -/
def andThen (p : Preparation α) (f : α → Script Exit) : Script Exit := do
  match ← p.run with
  | .ok a => f a
  | .error exit => return exit

end Preparation

def version : String := "1.0.0"

def printVersion (tool : String) : Script Exit := do
  Script.line .output s!"{tool}, version {version}"
  return .status 0

def printUsage (tool : String) : Script Exit := do
  Script.line .output s!"Usage: {tool} [OPTIONS] INPUT_FILE"
  return .status 0

end ContractAsm.Tool
