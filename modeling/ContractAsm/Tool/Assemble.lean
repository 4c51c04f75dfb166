-- SUMMARY: The assembler as a command-line tool.
import ContractAsm.Assembly
import ContractAsm.Json.Printer
import ContractAsm.Tool.Action

/-!
# The assembler as a tool

Assembles a source file, writes its bytecode and whatever else is asked for, and prints the content
hash. A source that fails to assemble leaves all files as they are.
-/

namespace ContractAsm.Tool.Assemble

def name : String := "scasm"

inductive Key where
  | output
  | object
  | hash
  | debug
  | json
  | check
  | verbose
  | version
  | help
  deriving DecidableEq, Repr

def flags : List (Flag Key) := [
  ⟨.output, some 'o', "--output", true⟩,
  ⟨.object, none, "--object", true⟩,
  ⟨.hash, none, "--hash", true⟩,
  ⟨.debug, some 'g', "--debug", true⟩,
  ⟨.json, none, "--json", false⟩,
  ⟨.check, none, "--check", false⟩,
  ⟨.verbose, some 'v', "--verbose", false⟩,
  ⟨.version, none, "--version", false⟩,
  ⟨.help, none, "--help", false⟩]

/-- A call of the tool, its paths looked at. -/
structure Call where
  input : Path
  output : Option Path
  object : Option Path
  hash : Option Path
  debug : Option Path
  json : Bool
  check : Bool
  verbose : Bool

def checkOption (key : Key) (value : Text) : Preparation Unit :=
  match key with
  | .output | .object | .hash | .debug => Preparation.checkOutput value
  | _ => pure ()

def Call.ofArguments (a : Arguments Key) : Preparation Call := do
  Preparation.checkOptions checkOption a
  let input ← Preparation.inputPath a.plain
  return {
    input
    output := (a.value? .output).map Path.ofText
    object := (a.value? .object).map Path.ofText
    hash := (a.value? .hash).map Path.ofText
    debug := (a.value? .debug).map Path.ofText
    json := a.has .json, check := a.has .check, verbose := a.has .verbose }

section

variable [Platform]

/-- Writes a text with a line feed at its end to a file, if there is a path for it, and gives the
path back. -/
def writeOptional (path : Option Path) (contents : Except Limit Text) : Action (List Path) :=
  match path with
  | none => return []
  | some path =>
    match contents with
    | .ok text => do
      Action.writeText Platform.locale path (text ++ ['\n'])
      return [path]
    | .error l => throw (.internal l.message)

/-- Writes everything that is asked for, the bytecode first, and gives the paths written. -/
def writeArtifacts (call : Call) (output : Path) (a : Assembly) : Action (List Path) := do
  let bytecode ← writeOptional (some output) (.ok a.bytecode)
  let object ← writeOptional call.object (.ok a.objectCode)
  let hash ← writeOptional call.hash (.ok a.hash)
  let debug ← writeOptional call.debug (Json.print (.array (a.debugInfo.map Region.toJson)))
  return bytecode ++ object ++ hash ++ debug

def printJson (outcome : Outcome) : Action Unit :=
  match Json.print outcome.toJson with
  | .ok text => Action.say (String.ofList text)
  | .error l => throw (.internal l.message)

/-- The lines about an assembled program. -/
def summary (settings : Settings) (call : Call) (a : Assembly) (written : List Path) :
    List String :=
  (if call.json then [] else [String.ofList a.hash])
  ++ if settings.verbose then
      written.map (fun path => s!"Wrote {String.ofList path.toText}")
      ++ [s!"Assembly complete: {a.bytecode.length / 2} bytes, "
          ++ s!"{a.debugInfo.length} debug records"]
    else []

def body (settings : Settings) (call : Call) : Action Nat := do
  let input := String.ofList call.input.toText
  if call.check then
    Action.lint settings call.input (← Action.readSource settings call.input)
  if settings.verbose then
    Action.say s!"Assembling {input}..."
  let source ← Action.readSource settings call.input
  let (log, outcome) := assemble settings.verbose input source
  Action.log settings log
  if call.json then
    printJson outcome
  match outcome with
  | .failed message =>
    Action.warn s!"Assembly error: {message}"
    return 1
  | .assembled a =>
    let output := call.output.getD (call.input.withSuffix settings.bytecodeSuffix)
    let written ← writeArtifacts call output a
    Action.sayLines (summary settings call a written)
    return 0

def runCall (env : Environment) (call : Call) : Script Exit :=
  withSettings env fun settings =>
    let settings := { settings with verbose := settings.verbose || call.verbose }
    (body settings call).toExit settings.verbose "Assembly"

/-- Runs the tool on its arguments. Of the options that only print something, the one given first
counts. -/
def run (env : Environment) (args : List Text) : Script Exit :=
  match Arguments.read flags args with
  | .error m => return .misuse m
  | .ok a =>
    match a.first? [.version, .help] with
    | some .version => printVersion name
    | some _ => printUsage name
    | none => (Call.ofArguments a).andThen (runCall env)

end

end ContractAsm.Tool.Assemble
