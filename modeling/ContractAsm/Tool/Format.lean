-- SUMMARY: The formatter as a command-line tool.
import ContractAsm.Layout
import ContractAsm.Tool.Action

/-!
# The formatter as a tool

Lays out a source file. The result is printed, written to another file, or written back; or it is
only compared with the file.
-/

namespace ContractAsm.Tool.Format

def name : String := "scfmt"

inductive Key where
  | output
  | inPlace
  | check
  | indent
  | validate
  | verbose
  | version
  | help
  deriving DecidableEq, Repr

def flags : List (Flag Key) := [
  ⟨.output, some 'o', "--output", true⟩,
  ⟨.inPlace, some 'i', "--in-place", false⟩,
  ⟨.check, none, "--check", false⟩,
  ⟨.indent, none, "--indent", true⟩,
  ⟨.validate, none, "--validate", false⟩,
  ⟨.verbose, some 'v', "--verbose", false⟩,
  ⟨.version, none, "--version", false⟩,
  ⟨.help, none, "--help", false⟩]

/-- A call of the tool, its paths looked at. -/
structure Call where
  input : Path
  output : Option Path
  inPlace : Bool
  check : Bool
  indent : Option Nat
  validate : Bool
  verbose : Bool

def checkOption (key : Key) (value : Text) : Preparation Unit :=
  match key with
  | .output => Preparation.checkOutput value
  | .indent => if (Settings.readWidth? value).isSome then pure () else Preparation.misuse .badValue
  | _ => pure ()

def Call.ofArguments (a : Arguments Key) : Preparation Call := do
  Preparation.checkOptions checkOption a
  let input ← Preparation.inputPath a.plain
  return {
    input
    output := (a.value? .output).map Path.ofText
    indent := (a.value? .indent).bind Settings.readWidth?
    inPlace := a.has .inPlace, check := a.has .check
    validate := a.has .validate, verbose := a.has .verbose }

/-- At most one of the three ways to use the result is asked for. -/
def Call.isConsistent (call : Call) : Bool :=
  [call.output.isSome, call.inPlace, call.check].count true ≤ 1

/-- Compares the layout with the source, and tells the status. -/
def compare (settings : Settings) (input source formatted : Text) : Action Nat :=
  if formatted = source then do
    if settings.verbose then
      Action.say s!"{String.ofList input} is formatted"
    return 0
  else do
    Action.warn s!"{String.ofList input} would be reformatted"
    return 1

section

variable [Platform]

def writeTo (settings : Settings) (path : Path) (formatted : Text) (done : String) :
    Action Nat := do
  Action.writeText settings.charset path formatted
  if settings.verbose then
    Action.say s!"{done} {String.ofList path.toText}"
  return 0

/-- Uses the layout of a source in the way that is asked for. -/
def deliver (settings : Settings) (call : Call) (source formatted : Text) : Action Nat :=
  if call.check then compare settings call.input.toText source formatted
  else if call.inPlace then writeTo settings call.input formatted "Formatted"
  else match call.output with
    | some output => writeTo settings output formatted "Wrote"
    | none => do
      ExceptT.lift (Script.display .output formatted)
      return 0

def body (settings : Settings) (call : Call) : Action Nat := do
  let source ← Action.readSource settings call.input
  if call.validate then
    Action.lint settings call.input source
  deliver settings call source (Layout.format settings.indent source)

def runConsistent (env : Environment) (call : Call) : Script Exit :=
  withSettings env fun settings =>
    let settings := { settings with verbose := settings.verbose || call.verbose }
    match call.indent.mapM Text.checkWidth with
    | .error f => return .crash (.indent f)
    | .ok width =>
      let settings := { settings with indentWidth := width.getD settings.indentWidth }
      (body settings call).toExit settings.verbose "Format"

def runCall (env : Environment) (call : Call) : Script Exit :=
  if call.isConsistent then runConsistent env call
  else do
    Script.line .error "Error: -o/--output, -i/--in-place and --check are mutually exclusive"
    return .status 2

/-- Runs the tool on its arguments. Of the options that only print something, the one given first
counts. -/
def run (env : Environment) (args : List Text) : Script Exit :=
  match Arguments.read flags args with
  | .error m => return .misuse m
  | .ok a =>
    match a.first? [.version, .help] with
    | some .version => printVersion name
    | some _ => printUsage name
    | none => (Call.ofArguments a).andThen (runCall env)

end

end ContractAsm.Tool.Format
