-- SUMMARY: Decoding and encoding of files in a character set.
import ContractAsm.Text.Half
import ContractAsm.Text.Utf8

/-!
# Codings of files

UTF-8, Latin-1 and ASCII are converted here, and any other character set by the codec that the
platform has for it.
-/

namespace ContractAsm

/-- Brings the line ends of a file to line feeds: a carriage return, alone or before a line feed,
becomes one. -/
def Text.unifyNewlines : Text → Text
  | [] => []
  | '\r' :: '\n' :: rest => '\n' :: unifyNewlines rest
  | '\r' :: rest => '\n' :: unifyNewlines rest
  | c :: rest => c :: unifyNewlines rest

namespace Charset

/-- Why bytes and a text are not converted into each other. -/
inductive Fault where
  | utf8 (f : Utf8.Fault)
  | ascii (byte : UInt8) (position : Nat)
  | characters (f : EncodeFault)
  | further (f : CodecFault)
  deriving DecidableEq, Repr

def Fault.message : Fault → String
  | .utf8 f => f.message
  | .ascii byte position =>
    s!"'ascii' codec can't decode byte 0x{String.ofList (Text.ofBytes [byte])}"
      ++ s!" in position {position}: ordinal not in range(128)"
  | .characters f => f.message
  | .further (.contents message) => message
  | .further (.unavailable message) => message

/-- One byte for each character. -/
def narrow (t : Text) : Bytes :=
  t.map fun c => UInt8.ofNat c.toNat

/-- The character of each byte. -/
def widen (bytes : Bytes) : Text :=
  bytes.map fun b => Char.ofNat b.toNat

variable [Platform]

def decode : Charset → Bytes → Except Fault Text
  | .utf8, bytes => (Utf8.decode bytes).mapError .utf8
  | .latin1, bytes => .ok (widen bytes)
  | .ascii, bytes =>
    match bytes.zipIdx.find? fun (b, _) => 0x80 ≤ b with
    | some (b, position) => .error (.ascii b position)
    | none => .ok (widen bytes)
  | .further name, bytes => ((Platform.codec name).decode bytes).mapError .further

/-- The text of a file, with unified line ends. -/
def decodeLines (charset : Charset) (bytes : Bytes) : Except Fault Text :=
  (charset.decode bytes).map Text.unifyNewlines

/-- Takes a text of characters below a bound to bytes. -/
def encodeNarrow (name : String) (bound : Nat) (t : Text) : Except Fault Bytes :=
  ((Text.checkAgainst name s!"ordinal not in range({bound})" (bound ≤ ·.toNat) t).map
    narrow).mapError .characters

/-- The bytes of a text. In UTF-8 the text is one without halves. -/
def encode : Charset → Text → Except Fault Bytes
  | .utf8, t => .ok (Utf8.encode t)
  | .latin1, t => encodeNarrow "latin-1" 0x100 t
  | .ascii, t => encodeNarrow "ascii" 0x80 t
  | .further name, t => ((Platform.codec name).encode t).mapError .further

end Charset

end ContractAsm
