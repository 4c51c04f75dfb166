-- SUMMARY: An overview of one source file.
import ContractAsm.Assembly
import ContractAsm.Tool.Action

/-!
# Overview of a source

A report about one source file: the findings of the syntax check, or else the bytecode, the hash and
the object code of its assembly, its debug records, and the first instructions of the table.
-/

namespace ContractAsm.Tool.Overview

/-- The width of the column of region tags. -/
def tagWidth : Nat := 12

def padRight (t : Text) : Text :=
  t ++ List.replicate (tagWidth - t.length) ' '

/-- Fills a text up with spaces in front of it. -/
def padLeft (t : Text) : Text :=
  List.replicate (tagWidth - t.length) ' ' ++ t

/-- The tag of a region in its column: texts to the left, numbers to the right. Containers cannot be
put into a column. -/
def tag (code : Json) : Except Container Text :=
  if code.isNothing then .ok (padRight "<global>".toList)
  else match code with
    | .null => .ok (padRight "<global>".toList)
    | .string s => .ok (padRight s)
    | .bool b => .ok (padLeft (Numeral.decimal (Json.boolInt b)))
    | .int n => .ok (padLeft (Numeral.decimal n))
    | .float x => .ok (padLeft x.toText)
    | .array _ => .error .array
    | .object _ => .error .object

def regionLine (r : Region) : Except Container String := do
  let tag ← tag r.code
  let stop := match r.stop with
    | some n => s!"{n}"
    | none => "None"
  return s!"   {String.ofList tag} begin={r.start} end={stop} lines={r.marks.length}"

def instructionLines : List String :=
  let names := (Instruction.table.take 10).map fun i => String.ofList i.mnemonic
  [s!"\nSupported opcodes ({Instruction.table.length}):",
    "   " ++ ", ".intercalate names ++ ", ..."]

def assemblyLines (a : Assembly) : Except Container (List String) := do
  let regions ← a.debugInfo.mapM regionLine
  return [
    s!"   Bytecode: {a.bytecode.length} hex characters",
    s!"   Hash:     {String.ofList a.hash}",
    s!"   Object code:\n{String.ofList (Text.preview 200 a.objectCode)}",
    s!"   Bytecode preview:\n{String.ofList (Text.preview 100 a.bytecode)}",
    s!"\nDebug info: {a.debugInfo.length} functions"]
    ++ regions ++ instructionLines

/-- The overview of a source: an exit status and the lines of the report. The reports of its parts
come with it. -/
def ofSource [Platform] (filename : String) (source : Text) :
    List LogEntry × Except Container (Nat × List String) :=
  let heading := s!"Checking {filename}..."
  match Lint.check source with
  | [] =>
    let (log, outcome) := assemble false filename source
    let start := [heading, "   No warnings", "\nAssembling..."]
    match outcome with
    | .failed message => (log, .ok (1, start ++ [s!"   Assembly error: {message}"]))
    | .assembled a => (log, (assemblyLines a).map fun lines => (0, start ++ lines))
  | findings =>
    (Lint.report findings, .ok (1, heading :: findings.map fun f => s!"   {f.message}"))

def run [Platform] (path : Path) : Script Exit :=
  let action : Action Nat := do
    let source ← Action.readSource {} path
    match (ofSource (String.ofList path.toText) source).2 with
    | .ok (status, lines) =>
      ExceptT.lift (Script.lines .output lines)
      return status
    | .error _ => throw (.internal "a region has no tag that fits into a column")
  action.toExit false "Assembly"

end ContractAsm.Tool.Overview
