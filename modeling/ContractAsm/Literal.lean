-- SUMMARY: Selectors of interface functions and quoted strings, as literals of digits.
import ContractAsm.Digest.Sha256
import ContractAsm.Text.Scan
import ContractAsm.Text.Units
import ContractAsm.Text.Utf8

/-!
# Literals

Selectors of interface functions stand for the first digits of a hash of their text, and quoted
strings for the digits of their characters. Both are written as `x` followed by hexadecimal digits.
-/

namespace ContractAsm.Literal

/-! ## Selectors -/

/-- The first eight digits of the SHA-256 digest of a text. -/
def fingerprint (t : Text) : Text :=
  (Text.ofBytes (Digest.Sha256.hash (Utf8.encode t))).take 8

/-- The selector of eight digits. -/
def selector (t : Text) : Text :=
  'x' :: fingerprint t

/-- The selector of sixteen digits, the last eight of them zero. The first eight never are. -/
def wideSelector (t : Text) : Text :=
  let digits := fingerprint t
  let digits := if digits = "00000000".toList then "00000001".toList else digits
  'x' :: digits ++ "00000000".toList

/-- Recognises a call of `name` with one quoted argument, and gives the argument. -/
def call (name : Text) : Text.Recogniser Text := fun _ t =>
  match (name ++ "(\"".toList).isPrefixOf? t with
  | none => none
  | some rest =>
    let argument := rest.takeWhile (· != '"')
    match rest.dropWhile (· != '"') with
    | '"' :: ')' :: _ => some (argument, name.length + argument.length + 4)
    | _ => none

/-- Replaces the calls of both selectors; the narrow ones come first. -/
def expandSelectors (line : Text) : Text :=
  let line := Text.replaceAll (call "abi".toList) selector line
  Text.replaceAll (call "ABI".toList) wideSelector line

/-- The arguments of the calls of one selector. -/
def arguments (name line : Text) : List Text :=
  (Text.scan (call name) line).filterMap fun
    | .char _ => none
    | .found _ argument => some argument

/-- The arguments of both selectors, in the order in which they are hashed. -/
def selectorArguments (line : Text) : List Text :=
  arguments "abi".toList line
    ++ arguments "ABI".toList (Text.replaceAll (call "abi".toList) selector line)

/-- Checks that there are bytes to hash for every argument. -/
def checkArguments [Platform] (ts : List Text) : Except EncodeFault Unit :=
  ts.forM fun argument => (Text.checkHalves argument).map fun _ => ()

/-! ## Strings -/

/-- The digits of a string: at least two for each UTF-16 unit. -/
def stringDigits [Platform] (t : Text) : Text :=
  (Text.units t).flatMap (Text.hexPadded 2)

def encodeString [Platform] (t : Text) : Text :=
  'x' :: stringDigits t

/-- Recognises a quoted string that is not empty and holds no comma, and gives its contents. -/
def quotedString : Text.Recogniser Text := fun _ t =>
  match t with
  | '"' :: rest =>
    let contents := rest.takeWhile fun c => c != ',' && c != '"'
    match contents, (rest.drop contents.length).head? with
    | _ :: _, some '"' => some (contents, contents.length + 2)
    | _, _ => none
  | _ => none

/-- Replaces the quoted strings of a line. -/
def encodeStrings [Platform] (line : Text) : Text :=
  Text.replaceAll quotedString encodeString line

end ContractAsm.Literal
