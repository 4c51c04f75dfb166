-- SUMMARY: Assembling a source into object code, bytecode, content hash and debug records.
import ContractAsm.Bytecode
import ContractAsm.ObjectCode

/-!
# Assembling

An assembly takes a source to its object code, bytecode, content hash and debug records. It either
has all of them or fails with a message.
-/

namespace ContractAsm

structure Assembly where
  bytecode : Text
  hash : Text
  objectCode : Text
  debugInfo : List Region

/-- The result of an assembly. -/
inductive Outcome where
  | assembled (a : Assembly)
  | failed (message : String)

namespace Assembly

/-- The program with an object code. -/
def ofCode (code : Text) (records : List Region) : Assembly :=
  let bytes := Utf8.encode code
  ⟨Text.ofBytes bytes, Text.ofBytes (Digest.Ripemd160.hash bytes), code, records⟩

def ofSource [Platform] (verbose : Bool) (filename : String) (source : Text) :
    Logged Failure Assembly := do
  let listing ← Listing.ofSource filename source
  let code ← ObjectCode.generate listing.symbols listing.statements
  let code ← Logged.ofEncoding (Text.checkHalves code)
  let made := ofCode code listing.records
  Logged.report (if verbose then .info else .debug)
    (s!"Assembled {filename}: {listing.statements.length} statements, "
      ++ s!"{(Utf8.encode code).length} bytes, hash {String.ofList made.hash}")
  return made

end Assembly

namespace Outcome

def success : Outcome → Bool
  | .assembled _ => true
  | .failed _ => false

/-- The bytecode; empty after a failure. -/
def bytecode : Outcome → Text
  | .assembled a => a.bytecode
  | .failed _ => []

def hash : Outcome → Text
  | .assembled a => a.hash
  | .failed _ => []

def objectCode : Outcome → Text
  | .assembled a => a.objectCode
  | .failed _ => []

def debugInfo : Outcome → List Region
  | .assembled a => a.debugInfo
  | .failed _ => []

def error? : Outcome → Option String
  | .assembled _ => none
  | .failed message => some message

def toJson (o : Outcome) : Json :=
  .object <| [
    ("bytecode".toList, .string o.bytecode),
    ("hash".toList, .string o.hash),
    ("objectCode".toList, .string o.objectCode),
    ("debugInfo".toList, .array (o.debugInfo.map Region.toJson)),
    ("success".toList, .bool o.success)]
    ++ o.error?.toList.map fun message => ("error".toList, .string message.toList)

end Outcome

/-- The outcome of a logged assembly. Only an undefined variable is a fault that is foreseen;
running into a limit and having no bytes count as internal errors. -/
def Logged.toOutcome (filename : String) (x : Logged Failure Assembly) : List LogEntry × Outcome :=
  match x.result with
  | .ok a => (x.log, .assembled a)
  | .error (.undefinedVariable u) =>
    let message := u.diagnostic.render
    (x.log ++ [⟨.debug, s!"Assembly of {filename} failed: {message}"⟩], .failed message)
  | .error e =>
    (x.log ++ [⟨.error, s!"Internal error while assembling {filename}"⟩],
      .failed s!"internal error: {e.message}")

/-- Assembles a source and tells the outcome; the reports come with it. -/
def assemble [Platform] (verbose : Bool) (filename : String) (source : Text) :
    List LogEntry × Outcome :=
  (Assembly.ofSource verbose filename source).toOutcome filename

end ContractAsm
