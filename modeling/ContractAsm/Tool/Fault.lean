-- SUMMARY: Faults of the tools and their exit statuses.
import ContractAsm.Settings
import ContractAsm.Text.Codec
import ContractAsm.Tool.Arguments
import ContractAsm.Tool.FileSystem

/-!
# Faults and exit statuses

Everything that stops a tool is a fault of the build, of the input, or of the tool itself. The class
of a fault decides its exit status.
-/

namespace ContractAsm.Tool

/-- What stops a tool, with its message. -/
inductive Fault where
  | build (message : String)
  | input (message : String)
  | internal (message : String)
  deriving DecidableEq, Repr

namespace Fault

def status : Fault → Nat
  | .build _ => 1
  | .input _ => 2
  | .internal _ => 3

/-- The lines shown for a fault. A fault of the build names the activity that it stopped, if there
is a name for it. -/
def lines (f : Fault) (verbose : Bool) (activity : Option String) : List String :=
  match f with
  | .build message =>
    match activity.filter (· ≠ "") with
    | some activity => [s!"{activity} error: {message}"]
    | none => [s!"Error: {message}"]
  | .input message => [s!"Error: {message}"]
  | .internal message =>
    s!"Internal error: {message}" :: (if verbose then ["<traceback>"] else [])

/-- A file that is not there is a fault of the input; other faults of paths are not foreseen. -/
def ofFile [Platform] (f : FileFault) (path : Text) : Fault :=
  match f with
  | .notFound => .input (f.message path)
  | _ => .internal (f.message path)

/-- Bytes that cannot be decoded are a fault of the input; a codec that is of no use is not
foreseen. -/
def ofDecoding (f : Charset.Fault) : Fault :=
  match f with
  | .further (.unavailable message) => .internal message
  | f => .input f.message

end Fault

/-- What ends a run at once, without a status of its own. -/
inductive Crash where
  /-- The indentation cannot be made. -/
  | indent (f : WidthFault)
  /-- The path of a parameter cannot be looked at. -/
  | path (f : FileFault) (path : Text)
  deriving DecidableEq, Repr

/-- The text shown for what ends a run at once. -/
def Crash.message [Platform] : Crash → String
  | .indent f => f.message
  | .path f p => f.message p

/-- How a run of a tool ends. -/
inductive Exit where
  | status (n : Nat)
  | misuse (m : Misuse)
  | crash (c : Crash)
  deriving DecidableEq, Repr

end ContractAsm.Tool
