-- SUMMARY: The command line: carries out the requests of the tools.
import ContractAsm.Tool.Assemble
import ContractAsm.Tool.Format
import ContractAsm.Tool.Overview

/-!
# Command line

The first argument names the tool, and the rest are the arguments of the tool. This module only
carries out the requests of scripts.
-/

namespace ContractAsm.Main

open ContractAsm.Tool

def toBytes (contents : ByteArray) : Bytes :=
  contents.data.toList

def look (path : String) : IO (Option Node) := do
  try
    let real ← IO.FS.realPath path
    if ← real.isDir then return some .directory
    return some (.file (toBytes (← IO.FS.readBinFile path)))
  catch _ => return none

/-- The fault that a failed access to a path stands for. -/
def faultOf : IO.Error → FileFault
  | .inappropriateType .. => .notDirectory
  | .invalidArgument .. => .nameTooLong
  | _ => .notFound

def read (path : String) : IO (Except FileFault Bytes) := do
  match ← look path with
  | some .directory => return .error .isDirectory
  | _ =>
    try
      return .ok (toBytes (← IO.FS.readBinFile path))
    catch e => return .error (faultOf e)

def write (path : String) (contents : Bytes) : IO (Except FileFault Unit) := do
  match ← look path with
  | some .directory => return .error .isDirectory
  | _ =>
    try
      IO.FS.writeBinFile path ⟨contents.toArray⟩
      return .ok ()
    catch e => return .error (faultOf e)

/-- Carries out the requests of a script. -/
def perform : Script α → IO α
  | .done a => return a
  | .look path next => do perform (next (← look (String.ofList path)))
  | .read path next => do perform (next (← read (String.ofList path)))
  | .write path contents next => do
    perform (next (← write (String.ofList path) contents))
  | .print .output text next => do
    IO.print (String.ofList text)
    perform next
  | .print .error text next => do
    IO.eprint (String.ofList text)
    perform next

/-- The text shown when a tool is misused. -/
def misuseText : Misuse → String
  | .unknownOption => "No such option"
  | .optionValue => "An option lacks its value or takes none"
  | .missingInput => "Missing input file"
  | .badValue => "Invalid value of a parameter"
  | .extraArgument => "Unexpected extra argument"

def statusOf : Exit → IO UInt32
  | .status n => return n.toUInt32
  | .misuse m => do
    IO.eprintln s!"Error: {misuseText m}."
    return 2
  | .crash c => do
    IO.eprintln s!"Error: {c.message}"
    return 1

def environment : IO Environment :=
  Environment.ofVariables fun name => return (← IO.getEnv name).map (·.toList)

def runTool (tool : String) (args : List Text) : IO UInt32 := do
  let env ← environment
  match tool, args with
  | "scasm", args => statusOf (← perform (Assemble.run env args))
  | "scfmt", args => statusOf (← perform (Format.run env args))
  | "overview", [path] => statusOf (← perform (Overview.run (Path.ofText path)))
  | _, _ =>
    IO.eprintln "Usage: (scasm | scfmt | overview) ARGUMENTS"
    return 2

end ContractAsm.Main

def main (args : List String) : IO UInt32 :=
  ContractAsm.Main.runTool (args.headD "") (args.tail.map (·.toList))
