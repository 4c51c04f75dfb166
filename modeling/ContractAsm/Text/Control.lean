-- SUMMARY: Control sequences of terminals, and texts without them.
import ContractAsm.Text.Scan

/-!
# Control sequences

A control sequence tells a terminal to change a colour or to move the cursor. It is the escape
character and an opening bracket, then parameters, then intermediate characters, then one final
character. Where text is displayed, control sequences are left out.
-/

namespace ContractAsm.Text

/-- The characters of parameters: digits, and marks from the colon to the question mark. -/
def isParameterChar (c : Char) : Bool :=
  0x30 ≤ c.toNat && c.toNat ≤ 0x3F

/-- The characters between the parameters and the end: the space and marks up to the slash. -/
def isIntermediateChar (c : Char) : Bool :=
  0x20 ≤ c.toNat && c.toNat ≤ 0x2F

/-- The characters that end a control sequence: letters and the marks around them. -/
def isFinalChar (c : Char) : Bool :=
  0x40 ≤ c.toNat && c.toNat ≤ 0x7E

/-- Recognises a control sequence. -/
def controlSequence : Recogniser Unit := fun _ t =>
  match t with
  | '\x1b' :: '[' :: rest =>
    let parameters := rest.takeWhile isParameterChar
    let rest := rest.dropWhile isParameterChar
    let intermediates := rest.takeWhile isIntermediateChar
    match rest.dropWhile isIntermediateChar with
    | c :: _ =>
      if isFinalChar c then some ((), parameters.length + intermediates.length + 3) else none
    | [] => none
  | _ => none

/-- Leaves the control sequences out of a text. What is left is not looked at again. -/
def withoutControls (t : Text) : Text :=
  replaceAll controlSequence (fun _ => []) t

/-- A text without the escape character holds no control sequence. -/
theorem withoutControls_eq_self {t : Text} (h : '\x1b' ∉ t) : withoutControls t = t := by
  refine replaceAll_eq_self fun before rest ht => ?_
  unfold controlSequence
  split
  · exact absurd (by simp [ht]) h
  · rfl

end ContractAsm.Text
