-- SUMMARY: The table of instructions, and their encoding as single characters.
import ContractAsm.Text.Capital
import ContractAsm.Text.Scan

/-!
# Instructions

Every instruction has a mnemonic and is encoded by one character. The table is ordered, and the
order counts: the mnemonics of a statement are encoded by one pass over the text for each
instruction, from the first to the last.
-/

namespace ContractAsm

structure Instruction where
  mnemonic : Text
  opcode : Char
  takesOperands : Bool
  deriving DecidableEq, Repr

namespace Instruction

/-- An instruction that is followed by operands. -/
def operator (mnemonic : String) (opcode : Char) : Instruction :=
  ⟨mnemonic.toList, opcode, true⟩

/-- An instruction that stands alone. -/
def bare (mnemonic : String) (opcode : Char) : Instruction :=
  ⟨mnemonic.toList, opcode, false⟩

/-- The instructions in the order in which they are encoded. -/
def table : List Instruction := [
  -- evaluation
  operator "EVAL8" 'A', operator "EVAL16" 'B', operator "EVAL32" 'C', operator "EVAL64" 'D',
  operator "EVAL256" 'E', operator "CONV" 'F', operator "HASH" 'G', operator "HASH160" 'H',
  operator "SIGCHECK" 'I',
  -- control flow
  operator "IF" 'K', operator "CALL" 'L', operator "EXEC" 'M',
  -- storage and memory
  operator "LOAD" 'N', operator "STORE" 'O', operator "DEL" 'P', operator "LIBLOAD" 'Q',
  operator "MALLOC" 'R', operator "ALLOC" 'S', operator "COPY" 'T', operator "COPYIMM" 'U',
  -- termination
  bare "SELFDESTRUCT" 'W', bare "REVERT" 'X', bare "RETURN" 'Y',
  -- transaction and chain state
  operator "RECEIVED" 'a', operator "TXFEE" 'b', operator "GETCOIN" 'c', bare "NOP" 'd',
  operator "SPEND" 'e', operator "ADDDEF" 'f', operator "ADDTXOUT" 'g',
  operator "GETDEFINITION" 'h', operator "GETUTXO" 'i', operator "MINT" 'j', operator "META" 'k',
  operator "TIME" 'l', operator "HEIGHT" 'm', bare "TXIOCOUNT" 'n', bare "VERSION" 'o',
  bare "TOKENCONTRACT" 'p', bare "LOG" 'q', bare "STOP" 'z']

/-! ## Looking up -/

/-- The instruction of a name, in any case and with blanks around it. -/
def find? (name : Text) : Option Instruction :=
  table.find? fun i => i.mnemonic == Text.toCapitals (Text.trim name)

/-- The mnemonic as it is written in front of operands: with a space, if there are any. -/
def keyword (i : Instruction) : Text :=
  if i.takesOperands then i.mnemonic ++ [' '] else i.mnemonic

def describe (i : Instruction) : String :=
  s!"OpcodeInfo('{String.ofList i.mnemonic}' -> '{i.opcode}')"

/-! ## Encoding -/

/-- The characters in front of which a mnemonic and the space behind it are taken. -/
def startsOperands (c : Char) : Bool :=
  c == ' ' || c == '@' || Text.isWordChar c

/-- Recognises an instruction in a text. The mnemonic starts where no word goes on. One with
operands takes the space behind it, and then needs the start of operands; or it is the whole text,
up to a final line feed. One without operands ends where no word goes on. -/
def recognise (i : Instruction) : Text.Recogniser Unit := fun before t =>
  match i.mnemonic.isPrefixOf? t with
  | none => none
  | some rest =>
    if before.any Text.isWordChar then none
    else if i.takesOperands then
      match rest with
      | ' ' :: c :: _ => if startsOperands c then some ((), i.mnemonic.length + 1) else none
      | [] => if before.isNone then some ((), i.mnemonic.length) else none
      | ['\n'] => if before.isNone then some ((), i.mnemonic.length) else none
      | _ => none
    else if rest.head?.any Text.isWordChar then none
    else some ((), i.mnemonic.length)

/-- Encodes every occurrence of one instruction. -/
def encodeOne (i : Instruction) (line : Text) : Text :=
  Text.replaceAll i.recognise (fun _ => [i.opcode]) line

def encode (line : Text) : Text :=
  table.foldl (fun line i => i.encodeOne line) line

end Instruction

end ContractAsm
