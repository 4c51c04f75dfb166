-- SUMMARY: Character sets of files and the many names they go by.
import ContractAsm.Text.Basic
import ContractAsm.Text.CharsetNames

/-!
# Character sets of source files

A character set has many names. They are compared without regard to case and to the characters
that divide their parts.
-/

namespace ContractAsm

/-- A character set: one of the three that are converted here, or a further one by its proper
name. -/
inductive Charset where
  | utf8
  | latin1
  | ascii
  | further (name : String)
  deriving DecidableEq, Repr

namespace Charset

/-- The characters that count in a name. -/
def isNameChar (c : Char) : Bool :=
  c.isAlphanum || c == '.'

/-- Joins the parts of a name by underscores, in small letters. `pending` tells that a divider is
due before the next part. -/
def joinParts (started pending : Bool) : Text → Text
  | [] => []
  | c :: cs =>
    if isNameChar c then
      if pending && started then '_' :: c.toLower :: joinParts true false cs
      else c.toLower :: joinParts true false cs
    else joinParts started true cs

/-- The names of the character sets, in the form that `joinParts` gives them; the first is the
proper one. -/
def names : List (Charset × List String) := [
  (.utf8, ["utf_8", "utf8", "utf", "u8", "utf8_ucs2", "utf8_ucs4", "cp65001"]),
  (.latin1, ["latin_1", "latin1", "latin", "l1", "8859", "iso8859", "iso8859_1", "iso_8859_1",
    "iso_8859_1_1987", "iso_ir_100", "cp819", "ibm819", "csisolatin1"]),
  (.ascii, ["ascii", "us_ascii", "us", "646", "ansi_x3.4_1968", "ansi_x3_4_1968",
    "ansi_x3.4_1986", "cp367", "ibm367", "csascii", "iso646_us", "iso_646.irv_1991", "iso_ir_6"])]
  ++ furtherNames.map fun keys => (.further (keys.headD ""), keys)

/-- The character set of a name. Except in a proper name, a point may stand for an underscore. -/
def ofName? (name : Text) : Option Charset :=
  let key := joinParts false false name
  let undotted := key.map fun c => if c = '.' then '_' else c
  let found := names.find? fun (_, keys) =>
    keys.any (·.toList == key) || keys.tail.any (·.toList == undotted)
  found.map (·.1)

/-- Whether a character set is converted here, whatever the platform. -/
def isBuiltIn : Charset → Bool
  | .further _ => false
  | _ => true

end Charset

end ContractAsm
