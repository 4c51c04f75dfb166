-- SUMMARY: Bytecode as hexadecimal text, and the content hash of a bytecode.
import ContractAsm.Digest.Ripemd160
import ContractAsm.Text.Utf8

/-!
# Bytecode

The bytecode of an object code is its UTF-8 bytes in hexadecimal digits. The content hash is taken
of the bytes, not of the digits.
-/

namespace ContractAsm.Bytecode

/-- Why a text is no bytecode. -/
inductive Fault where
  | hex (f : Text.HexFault)
  | utf8 (f : Utf8.Fault)
  deriving DecidableEq, Repr

def Fault.message : Fault → String
  | .hex f => f.message
  | .utf8 f => f.message

def encode (code : Text) : Text :=
  Text.ofBytes (Utf8.encode code)

def decode (bytecode : Text) : Except Fault Text := do
  let bytes ← (Text.toBytes bytecode).mapError .hex
  (Utf8.decode bytes).mapError .utf8

/-- The RIPEMD-160 digest of the bytes of a bytecode, in hexadecimal digits. -/
def contentHash (bytecode : Text) : Except Text.HexFault Text :=
  (Text.toBytes bytecode).map fun bytes => Text.ofBytes (Digest.Ripemd160.hash bytes)

end ContractAsm.Bytecode
