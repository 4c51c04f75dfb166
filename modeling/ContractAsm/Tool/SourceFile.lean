-- SUMMARY: Source files read in a character set that is given by its name.
import ContractAsm.Assembly
import ContractAsm.Text.Codec
import ContractAsm.Tool.FileSystem
import ContractAsm.Tool.Path

/-!
# Source files

A source file is read in a character set that is given by its name. The name is looked up only when
the file is there, and the contents are looked at last.
-/

namespace ContractAsm.Tool

/-- Why a source file cannot be read. -/
inductive SourceFault where
  /-- The name of the character set holds the null character. -/
  | nullInName
  | file (f : FileFault)
  | unknownCharset (name : Text)
  | contents (f : Charset.Fault)
  deriving DecidableEq, Repr

namespace SourceFault

def message [Platform] (path : Path) : SourceFault → String
  | .nullInName => "embedded null character"
  | .file f => f.message path.toText
  | .unknownCharset name => s!"unknown encoding: {String.ofList name}"
  | .contents f => f.message

end SourceFault

def FileSystem.readSource [Platform] (fs : FileSystem) (path : Path) (charset : Text) :
    Except SourceFault Text := do
  if '\x00' ∈ charset then
    throw .nullInName
  let bytes ← (fs.read path.toText).mapError .file
  match Charset.ofName? charset with
  | none => throw (.unknownCharset charset)
  | some charset => (charset.decodeLines bytes).mapError .contents

/-- Assembles a source file, which is named in messages by its path. -/
def FileSystem.assembleSource [Platform] (fs : FileSystem) (path : Path) (charset : Text) :
    Except SourceFault (List LogEntry × Outcome) := do
  let source ← fs.readSource path charset
  return assemble false (String.ofList path.toText) source

end ContractAsm.Tool
