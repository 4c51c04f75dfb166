-- SUMMARY: Scanning a text from left to right, and replacing what is recognised.
import ContractAsm.Text.Basic

/-!
# Left-to-right scans

A scan looks for matches from left to right. A match may look at the character before it, and after
a match the scan goes on behind it, so matches never overlap.
-/

namespace ContractAsm.Text

/-- What a scan finds: a character outside of every match, or a match with the position of its
first character. -/
inductive Piece (α : Type) where
  | char (c : Char)
  | found (start : Nat) (value : α)
  deriving DecidableEq, Repr

/-- Recognises a match at one place of a text. It sees the character before that place and the
text from there on, and gives the value of the match and its length, which is at least one. -/
abbrev Recogniser (α : Type) :=
  Option Char → Text → Option (α × Nat)

/-- Scans a text whose first `skip` characters belong to a match that was already recorded. -/
def scanFrom (rule : Recogniser α) (skip start : Nat) (before : Option Char) :
    Text → List (Piece α)
  | [] => []
  | c :: cs =>
    match skip with
    | k + 1 => scanFrom rule k (start + 1) (some c) cs
    | 0 =>
      match rule before (c :: cs) with
      | some (a, n) => .found start a :: scanFrom rule (n - 1) (start + 1) (some c) cs
      | none => .char c :: scanFrom rule 0 (start + 1) (some c) cs

/-- The pieces of a text under a recogniser. -/
def scan (rule : Recogniser α) (t : Text) : List (Piece α) :=
  scanFrom rule 0 0 none t

/-- The text of a piece, given what each match is replaced by. -/
def Piece.replace (f : α → Text) : Piece α → Text
  | .char c => [c]
  | .found _ a => f a

def replaceAll (rule : Recogniser α) (f : α → Text) (t : Text) : Text :=
  (scan rule t).flatMap (Piece.replace f)

@[simp] theorem replaceAll_nil (rule : Recogniser α) (f : α → Text) :
    replaceAll rule f [] = [] := rfl

/-- A text without a match stays as it is. -/
theorem replaceAll_eq_self {rule : Recogniser α} {f : α → Text} {t : Text}
    (h : ∀ before rest, t = before ++ rest → rule before.getLast? rest = none) :
    replaceAll rule f t = t := by
  have go : ∀ (rest before : Text) (n : Nat), t = before ++ rest →
      (scanFrom rule 0 n before.getLast? rest).flatMap (Piece.replace f) = rest := by
    intro rest
    induction rest with
    | nil => intro before n _; rfl
    | cons c cs ih =>
      intro before n ht
      have hnext := ih (before ++ [c]) (n + 1) (by simp [ht])
      rw [List.getLast?_concat] at hnext
      simp [scanFrom, h before (c :: cs) ht, Piece.replace, hnext]
  exact go t [] 0 rfl

end ContractAsm.Text
