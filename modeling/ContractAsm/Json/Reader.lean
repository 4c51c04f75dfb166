-- SUMMARY: A reader for JSON texts.
import ContractAsm.Json.Basic

/-!
# Reading JSON

A reader for JSON texts that also takes `NaN`, `Infinity` and `-Infinity`. It stops at the first
fault in the text. Of two members with one key the later value counts, in the place of the earlier
one.
-/

namespace ContractAsm.Json

/-- What makes a text no JSON text. -/
inductive Fault where
  | byteOrderMark
  | noValue
  | noKey
  | noColon
  | noComma
  | trailing
  | unterminatedString
  | controlCharacter
  | badEscape
  | badUnicodeEscape
  deriving DecidableEq, Repr

def Fault.message : Fault → String
  | .byteOrderMark => "Unexpected UTF-8 BOM (decode using utf-8-sig)"
  | .noValue => "Expecting value"
  | .noKey => "Expecting property name enclosed in double quotes"
  | .noColon => "Expecting ':' delimiter"
  | .noComma => "Expecting ',' delimiter"
  | .trailing => "Extra data"
  | .unterminatedString => "Unterminated string starting at"
  | .controlCharacter => "Invalid control character at"
  | .badEscape => "Invalid \\escape"
  | .badUnicodeEscape => "Invalid \\uXXXX escape"

/-- Why a text was not read: it is no JSON text, or it runs into a limit. -/
inductive ReadError where
  | fault (f : Fault)
  | limit (l : Limit)
  deriving DecidableEq, Repr

/-- The blanks of JSON texts. -/
def isSpace (c : Char) : Bool :=
  c == ' ' || c == '\t' || c == '\n' || c == '\r'

def skipSpace (t : Text) : Text :=
  t.dropWhile isSpace

/-! ## Strings -/

/-- The value of four hexadecimal digits. -/
def hexUnit? (a b c d : Char) : Option Nat := do
  let a ← Text.hexValue? a
  let b ← Text.hexValue? b
  let c ← Text.hexValue? c
  let d ← Text.hexValue? d
  return ((a * 16 + b) * 16 + c) * 16 + d

/-- The first half of a pair that stands for one character. -/
def isHighSurrogate (u : Nat) : Bool :=
  0xD800 ≤ u && u ≤ 0xDBFF

/-- The second half of such a pair. -/
def isLowSurrogate (u : Nat) : Bool :=
  0xDC00 ≤ u && u ≤ 0xDFFF

/-- The character of a single unit. A half of a pair by itself stays a half. -/
def unitChar [Platform] (u : Nat) : Char :=
  if isHighSurrogate u || isLowSurrogate u then Text.half u else Char.ofNat u

/-- The character that a pair of units stands for. -/
def pairChar (high low : Nat) : Char :=
  Char.ofNat (0x10000 + (high - 0xD800) * 0x400 + (low - 0xDC00))

/-- The character that a one-letter escape stands for. -/
def escaped? (c : Char) : Option Char :=
  match c with
  | '"' => some '"'
  | '\\' => some '\\'
  | '/' => some '/'
  | 'b' => some '\x08'
  | 'f' => some '\x0C'
  | 'n' => some '\n'
  | 'r' => some '\r'
  | 't' => some '\t'
  | _ => none

/-- Puts a character in front of what is read of the rest. -/
def consChar (c : Char) : Except Fault (Text × Text) → Except Fault (Text × Text)
  | .ok (s, rest) => .ok (c :: s, rest)
  | .error f => .error f

/-- Reads the second half of a pair that follows a first half. `none` stands for a text that goes
on without an escape by four digits, or ends with it. -/
def readLowHalf : Text → Except Fault (Option Nat)
  | '\\' :: 'u' :: a :: b :: c :: d :: _ :: _ =>
    match hexUnit? a b c d with
    | some v => .ok (if isLowSurrogate v then some v else none)
    | none => .error .badUnicodeEscape
  | _ => .ok none

/-- Reads an escape behind its backslash: the character it stands for, and its length. An escape by
four digits needs a character behind it. -/
def readEscape [Platform] : Text → Except Fault (Char × Nat)
  | [] => .error .unterminatedString
  | 'u' :: a :: b :: c :: d :: e :: rest =>
    match hexUnit? a b c d with
    | none => .error .badUnicodeEscape
    | some u =>
      if isHighSurrogate u then
        match readLowHalf (e :: rest) with
        | .ok (some v) => .ok (pairChar u v, 11)
        | .ok none => .ok (unitChar u, 5)
        | .error f => .error f
      else .ok (unitChar u, 5)
  | 'u' :: _ => .error .badUnicodeEscape
  | c :: _ =>
    match escaped? c with
    | some e => .ok (e, 1)
    | none => .error .badEscape

/-- Reads a string whose first `skip` characters belong to an escape that was already read. -/
def readStringFrom [Platform] (skip : Nat) : Text → Except Fault (Text × Text)
  | [] => .error .unterminatedString
  | c :: cs =>
    match skip with
    | k + 1 => readStringFrom k cs
    | 0 =>
      if c = '"' then .ok ([], cs)
      else if c = '\\' then
        match readEscape cs with
        | .ok (e, n) => consChar e (readStringFrom n cs)
        | .error f => .error f
      else if c.toNat < 0x20 then .error .controlCharacter
      else consChar c (readStringFrom 0 cs)

/-- Reads a string behind its opening quote, and gives the text behind its closing quote. -/
def readString [Platform] (t : Text) : Except Fault (Text × Text) :=
  readStringFrom 0 t

/-! ## Numbers -/

/-- The parts of a number as it is written: its sign, the digits before and behind the point, and
its exponent. A number without point and exponent is an integer. -/
structure NumberParts where
  negative : Bool
  whole : Text
  fraction : Option Text
  exponent : Option (Bool × Text)

/-- The digits before the point: a single zero, or a row that starts with another digit. -/
def splitWhole : Text → Option (Text × Text)
  | '0' :: rest => some (['0'], rest)
  | t => match t.takeWhile Char.isDigit with
    | [] => none
    | ds => some (ds, t.dropWhile Char.isDigit)

/-- A point with at least one digit behind it. -/
def splitFraction : Text → Option Text × Text
  | '.' :: t => match t.takeWhile Char.isDigit with
    | [] => (none, '.' :: t)
    | ds => (some ds, t.dropWhile Char.isDigit)
  | t => (none, t)

/-- An exponent: its mark, an optional sign and at least one digit. -/
def splitExponent : Text → Option (Bool × Text) × Text
  | [] => (none, [])
  | c :: t =>
    if c = 'e' ∨ c = 'E' then
      let (negative, rest) := Numeral.splitSign t
      match rest.takeWhile Char.isDigit with
      | [] => (none, c :: t)
      | ds => (some (negative, ds), rest.dropWhile Char.isDigit)
    else (none, c :: t)

def splitNumber (t : Text) : Option (NumberParts × Text) := do
  let (negative, t) := match t with
    | '-' :: rest => (true, rest)
    | _ => (false, t)
  let (whole, t) ← splitWhole t
  let (fraction, t) := splitFraction t
  let (exponent, t) := splitExponent t
  return (⟨negative, whole, fraction, exponent⟩, t)

/-- The value of a number. Only integers are limited in their digits. -/
def NumberParts.value (n : NumberParts) : Except Limit Json :=
  match n.fraction, n.exponent with
  | none, none => (Numeral.read n.whole).map fun m =>
      .int (Numeral.signed n.negative m)
  | fraction, exponent =>
    let behind := fraction.getD []
    let power : Int := match exponent with
      | some (negative, ds) => Numeral.signed negative (Numeral.value ds)
      | none => 0
    .ok (.float (.ofDecimal n.negative (Numeral.value (n.whole ++ behind))
      (power - behind.length)))

/-! ## Values -/

/-- The values with a name of their own. -/
def constants : List (Text × Json) := [
  ("null".toList, .null),
  ("true".toList, .bool true),
  ("false".toList, .bool false),
  ("NaN".toList, .float .nan),
  ("Infinity".toList, .float (.infinite false)),
  ("-Infinity".toList, .float (.infinite true))]

/-- Reads a named value or a number. -/
def readScalar (t : Text) : Except ReadError (Json × Text) :=
  match constants.findSome? fun (name, v) => (name.isPrefixOf? t).map (v, ·) with
  | some found => .ok found
  | none =>
    match splitNumber t with
    | none => .error (.fault .noValue)
    | some (n, rest) =>
      match n.value with
      | .ok v => .ok (v, rest)
      | .error l => .error (.limit l)

def readKey [Platform] (t : Text) : Except ReadError (Text × Text) :=
  match t with
  | '"' :: rest =>
    match readString rest with
    | .error f => .error (.fault f)
    | .ok (key, rest) =>
      match skipSpace rest with
      | ':' :: rest => .ok (key, skipSpace rest)
      | _ => .error (.fault .noColon)
  | _ => .error (.fault .noKey)

mutual

/-- Reads a value, with `room` for containers inside of each other. The fuel bounds the number of
values read on the way. -/
def readValue [Platform] (fuel room : Nat) (t : Text) : Except ReadError (Json × Text) :=
  match fuel with
  | 0 => .error (.fault .noValue)
  | fuel + 1 =>
    match t with
    | '"' :: rest =>
      match readString rest with
      | .ok (s, rest) => .ok (.string s, rest)
      | .error f => .error (.fault f)
    | '{' :: rest =>
      match room with
      | 0 => .error (.limit (.nesting .object))
      | room + 1 =>
        match skipSpace rest with
        | '}' :: rest => .ok (.object [], rest)
        | rest => readMembers fuel room [] rest
    | '[' :: rest =>
      match room with
      | 0 => .error (.limit (.nesting .array))
      | room + 1 =>
        match skipSpace rest with
        | ']' :: rest => .ok (.array [], rest)
        | rest => readItems fuel room [] rest
    | t => readScalar t

/-- Reads the members of an object up to its closing brace; `done` holds those read before. -/
def readMembers [Platform] (fuel room : Nat) (done : List (Text × Json)) (t : Text) :
    Except ReadError (Json × Text) :=
  match fuel with
  | 0 => .error (.fault .noKey)
  | fuel + 1 =>
    match readKey t with
    | .error e => .error e
    | .ok (key, rest) =>
      match readValue fuel room rest with
      | .error e => .error e
      | .ok (v, rest) =>
        match skipSpace rest with
        | '}' :: rest => .ok (.object (put key v done), rest)
        | ',' :: rest => readMembers fuel room (put key v done) (skipSpace rest)
        | _ => .error (.fault .noComma)

/-- Reads the items of an array up to its closing bracket; `done` holds those read before, the
last one first. -/
def readItems [Platform] (fuel room : Nat) (done : List Json) (t : Text) :
    Except ReadError (Json × Text) :=
  match fuel with
  | 0 => .error (.fault .noValue)
  | fuel + 1 =>
    match readValue fuel room t with
    | .error e => .error e
    | .ok (v, rest) =>
      match skipSpace rest with
      | ']' :: rest => .ok (.array (v :: done).reverse, rest)
      | ',' :: rest => readItems fuel room (v :: done) (skipSpace rest)
      | _ => .error (.fault .noComma)

end

/-- Reads a whole text as one JSON value. Every step consumes a character, so that the fuel of two
steps for each of them never runs out. -/
def read [Platform] (t : Text) : Except ReadError Json :=
  match t with
  | '\uFEFF' :: _ => .error (.fault .byteOrderMark)
  | t =>
    match readValue (2 * t.length + 2) Platform.depth (skipSpace t) with
    | .error e => .error e
    | .ok (v, rest) => if (skipSpace rest).isEmpty then .ok v else .error (.fault .trailing)

end ContractAsm.Json
