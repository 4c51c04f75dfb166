-- SUMMARY: Runs of spaces, and the widths at which none can be made.
import ContractAsm.Platform

/-!
# Widths

A run of spaces indents a line or leads to a column. Its width has to be an index, and the run has
to fit into memory.
-/

namespace ContractAsm

/-- Why a run of spaces cannot be made. -/
inductive WidthFault where
  /-- The width is no index. -/
  | tooWide
  /-- The run does not fit into memory. -/
  | tooLong
  deriving DecidableEq, Repr

/-- The text shown for a run of spaces that cannot be made. -/
def WidthFault.message : WidthFault → String
  | .tooWide => "cannot fit 'int' into an index-sized integer"
  | .tooLong => ""

namespace Text

def spaces (width : Nat) : Text :=
  List.replicate width ' '

variable [Platform]

/-- Takes a width, if a run of it can be made. -/
def checkWidth (width : Nat) : Except WidthFault Nat :=
  if Platform.indexBound ≤ width then .error .tooWide
  else if Platform.memoryBound ≤ width then .error .tooLong
  else .ok width

theorem checkWidth_of_lt {width : Nat} (h : width < Platform.memoryBound) :
    checkWidth width = .ok width := by
  have hi : ¬ Platform.indexBound ≤ width :=
    Nat.not_le.2 (Nat.lt_of_lt_of_le h Platform.memoryBound_le)
  simp [checkWidth, hi, Nat.not_le.mpr h]

/-- Memory is the bound that is met first. -/
theorem checkWidth_eq (width : Nat) :
    checkWidth width
      = (if width < Platform.memoryBound then .ok width
        else if width < Platform.indexBound then .error .tooLong
        else .error .tooWide) := by
  split
  · next hmemory => exact checkWidth_of_lt hmemory
  · next hmemory =>
    split
    · next hindex => simp [checkWidth, Nat.not_le.2 hindex, Nat.not_lt.1 hmemory]
    · next hindex => simp [checkWidth, Nat.not_lt.1 hindex]

end Text

end ContractAsm
