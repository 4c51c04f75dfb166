-- SUMMARY: Texts as lists of characters: blanks, words and lines.
/-!
# Text

Source text, object text and everything between are lists of characters. This module holds the
classes of characters the assembler tells apart, and trimming and splitting by them.
-/

namespace ContractAsm

/-- A text, as the list of its characters. -/
abbrev Text := List Char

namespace Text

/-! ## Character classes -/

/-- The characters that make up words: ASCII letters, digits and the underscore. -/
def isWordChar (c : Char) : Bool :=
  c.isAlphanum || c == '_'

/-- The blanks of ASCII: tab, line feed, vertical tab, form feed, carriage return and space. -/
def isAsciiBlank (c : Char) : Bool :=
  (0x09 ≤ c.toNat && c.toNat ≤ 0x0D) || c == ' '

/-- Characters with the white-space property, the four ASCII information separators among them. -/
def isBlank (c : Char) : Bool :=
  let n := c.toNat
  (0x09 ≤ n && n ≤ 0x0D) || (0x1C ≤ n && n ≤ 0x20) || n == 0x85 || n == 0xA0 || n == 0x1680
    || (0x2000 ≤ n && n ≤ 0x200A) || n == 0x2028 || n == 0x2029 || n == 0x202F || n == 0x205F
    || n == 0x3000

theorem isBlank_of_isAsciiBlank {c : Char} (h : isAsciiBlank c = true) : isBlank c = true := by
  simp only [isAsciiBlank, isBlank, Bool.or_eq_true, Bool.and_eq_true, decide_eq_true_eq,
    beq_iff_eq] at h ⊢
  rcases h with h | rfl
  · simp [h]
  · decide

/-- A word starts or ends between two neighbours of which exactly one is a word character. The
outside of the text counts as no word character. -/
def isBoundary (before after : Option Char) : Bool :=
  before.any isWordChar != after.any isWordChar

/-! ## Trimming -/

def trimStart (t : Text) : Text :=
  t.dropWhile isBlank

def trimEnd (t : Text) : Text :=
  (t.reverse.dropWhile isBlank).reverse

def trim (t : Text) : Text :=
  trimEnd (trimStart t)

/-! ## Lines -/

/-- The lines of a text; a text without line feeds is one line. -/
def lines (t : Text) : List Text :=
  t.splitOn '\n'

def ofLines (ls : List Text) : Text :=
  ['\n'].intercalate ls

/-- The part before a final line feed, and that line feed if there is one. -/
def splitFinalNewline (t : Text) : Text × Text :=
  if t.getLast? = some '\n' then (t.dropLast, ['\n']) else (t, [])

/-! ## Shortening -/

/-- Leaves a text of at most `limit` characters as it is, and cuts a longer one with an ellipsis. -/
def preview (limit : Nat) (t : Text) : Text :=
  if t.length ≤ limit then t else t.take limit ++ "...".toList

end Text

end ContractAsm
