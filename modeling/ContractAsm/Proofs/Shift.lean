-- SUMMARY: Symbol tables whose addresses differ by a fixed number of statements.
import ContractAsm.Proofs.Rewording
import ContractAsm.Proofs.Statement
import Mathlib.Data.List.Zip

/-!
# Shifted addresses

Two symbol tables hold the same names, at addresses that differ by a fixed number of statements. In
a text that names them behind points only, the distances from two statements that are just as far
apart come out the same.
-/

namespace ContractAsm

open Text

theorem Numeral.readLeading_of_isDigit {t : Text} (hne : t ≠ [])
    (h : ∀ c ∈ t, c.isDigit = true) :
    readLeading t = (read t).map fun n : Nat => some (n : Int) := by
  have htake : t.takeWhile Char.isDigit = t := List.takeWhile_eq_self_iff.2 h
  obtain ⟨c, cs, rfl⟩ := List.exists_cons_of_ne_nil hne
  have hc : c.isDigit = true := h c (List.mem_cons_self ..)
  have hblank : isAsciiBlank c ≠ true := by
    intro hblank
    have hfalse := isBlank_of_isWordChar (isWordChar_of_isDigit hc)
    cases (isBlank_of_isAsciiBlank hblank).symm.trans hfalse
  have hdrop : (c :: cs).dropWhile isAsciiBlank = c :: cs := List.dropWhile_cons_of_neg hblank
  have hsign : splitSign (c :: cs) = (false, c :: cs) := by
    unfold splitSign
    split
    · next heq =>
      obtain ⟨rfl, -⟩ := List.cons.inj heq
      cases hc
    · next heq =>
      obtain ⟨rfl, -⟩ := List.cons.inj heq
      cases hc
    · rfl
  simp only [readLeading, hdrop, hsign, htake]
  rfl

theorem Numeral.readLeading_digits {n : Nat} (h : n < 10 ^ Limit.digits) :
    readLeading (digits n) = .ok (some n) := by
  rw [readLeading_of_isDigit digits_ne_nil fun c hc => isDigit_of_mem_digits hc, read_digits h]
  rfl

/-! ## Two tables -/

namespace SymbolTable

open Numeral

/-- Two tables of addresses, the second one with all of them `k` statements further on. -/
structure Shifted (k : Nat) (table table' : SymbolTable) : Prop where
  numeric : table.Numeric
  numeric' : table'.Numeric
  locations : ∀ w, (table.get? w = none ∧ table'.get? w = none)
    ∨ ∃ n, n + k < 10 ^ Limit.digits ∧ table.get? w = some (digits n)
      ∧ table'.get? w = some (digits (n + k))

variable {k : Nat} {table table' : SymbolTable}

theorem Shifted.empty (k : Nat) : Shifted k .empty .empty where
  numeric := ⟨by simp [SymbolTable.empty], by simp [SymbolTable.empty]⟩
  numeric' := ⟨by simp [SymbolTable.empty], by simp [SymbolTable.empty]⟩
  locations := fun _ => .inl ⟨rfl, rfl⟩

theorem Shifted.insert (h : Shifted k table table') {name : Text} (hname : IsIdentifier name)
    {n : Nat} (hn : n + k < 10 ^ Limit.digits) (i i' j j' : Int) :
    Shifted k (table.insert ⟨name, digits n, i, j⟩)
      (table'.insert ⟨name, digits (n + k), i', j'⟩) where
  numeric := h.numeric.insert hname fun _ hc => isDigit_of_mem_digits hc
  numeric' := h.numeric'.insert hname fun _ hc => isDigit_of_mem_digits hc
  locations := by
    intro w
    rw [get?_insert, get?_insert]
    by_cases hw : w = name
    · exact .inr ⟨n, hn, if_pos hw, if_pos hw⟩
    · rw [if_neg hw, if_neg hw]
      exact h.locations w

/-- The size of the preamble is a number. -/
theorem Shifted.preambleSize_eq (h : Shifted k table table') :
    ∃ n : Nat, n < 10 ^ Limit.digits ∧ table'.preambleSize.result = .ok n := by
  unfold preambleSize numericValue
  rcases h.locations "BODY".toList with ⟨-, hnone⟩ | ⟨n, hn, -, hsome⟩
  · refine ⟨0, Nat.pow_pos (by decide), ?_⟩
    rw [hnone]
    rfl
  · refine ⟨n + k, hn, ?_⟩
    rw [hsome]
    simp only [Numeral.readLeading_digits hn]
    rfl

/-- Defined names stand behind points only, and no point stands in front of a digit. The text is
read from a place on, with the character in front of that place in view. -/
structure Relative (table : SymbolTable) (before : Option Char) (t : Text) : Prop where
  name : ∀ u w v, t = u ++ (w ++ v) → IsWord w → (behind before u).any isWordChar = false →
    v.head?.any isWordChar = false → table.get? w ≠ none → behind before u = some '.'
  point : ∀ u v, t = u ++ v → behind before u = some '.' → v.head?.any Char.isDigit = false

instance (table : SymbolTable) (before : Option Char) (t : Text) :
    Decidable (table.Relative before t) :=
  decidable_of_iff
    ((∀ p ∈ t.inits.zip t.tails, ∀ q ∈ p.2.inits.zip p.2.tails, IsWord q.1 →
        (behind before p.1).any isWordChar = false → q.2.head?.any isWordChar = false →
        table.get? q.1 ≠ none → behind before p.1 = some '.')
      ∧ ∀ p ∈ t.inits.zip t.tails, behind before p.1 = some '.' →
        p.2.head?.any Char.isDigit = false)
    ⟨fun h => ⟨fun u w v ht => h.1 (u, w ++ v) (List.mem_zip_inits_tails.2 ht.symm) (w, v)
        (List.mem_zip_inits_tails.2 rfl),
      fun u v ht => h.2 (u, v) (List.mem_zip_inits_tails.2 ht.symm)⟩,
    fun h => ⟨fun p hp q hq => h.name p.1 q.1 q.2 (by
        rw [List.mem_zip_inits_tails.1 hq, List.mem_zip_inits_tails.1 hp]),
      fun p hp => h.point p.1 p.2 (List.mem_zip_inits_tails.1 hp).symm⟩⟩

theorem Relative.tail {before : Option Char} {w y : Text} {c : Char}
    (h : table.Relative before (w ++ c :: y)) : table.Relative (some c) y where
  name := by
    intro u v rest hy hv hu hrest hdefined
    have hname := h.name (w ++ c :: u) v rest (by simp [hy]) hv
    simp only [behind_append, behind_cons] at hname
    exact hname hu hrest hdefined
  point := by
    intro u v hy hpoint
    refine h.point (w ++ c :: u) v (by simp [hy]) ?_
    simpa using hpoint

/-- A text behind a place, with a point in front of it if one stands there. -/
def behindPoint (before : Option Char) (t : Text) : Text :=
  if before = some '.' then '.' :: t else t

theorem behindPoint_point (t : Text) : behindPoint (some '.') t = '.' :: t :=
  if_pos rfl

theorem behindPoint_of_ne {before : Option Char} (h : before ≠ some '.') (t : Text) :
    behindPoint before t = t :=
  if_neg h

section Resolve

variable {before : Option Char} {i : Int}

theorem resolveAddresses_behindPoint_append {w x : Text} (hw : IsRow w)
    (hpoint : before = some '.' → w.head?.any Char.isDigit = false)
    (hx : x.head?.any isWordChar = false) :
    ObjectCode.resolveAddresses i (behindPoint before (w ++ x))
      = (ObjectCode.resolveAddresses i x).map (behindPoint before w ++ ·) := by
  have hcopy : ObjectCode.resolveAddresses i (w ++ x)
      = (ObjectCode.resolveAddresses i x).map (w ++ ·) :=
    ObjectCode.resolveAddresses_append (fun hmem => by cases hw '.' hmem) x
  by_cases hbefore : before = some '.'
  · subst hbefore
    rw [behindPoint_point, behindPoint_point,
      ObjectCode.resolveAddresses_point (not_isDigit_head_append (hpoint rfl) hx), hcopy]
    cases ObjectCode.resolveAddresses i x with
    | error e => rfl
    | ok t => rfl
  · rw [behindPoint_of_ne hbefore, behindPoint_of_ne hbefore, hcopy]

/-- One row of word characters, with what follows it already known to come out the same. -/
theorem Shifted.resolveAddresses_row (h : Shifted k table table') {w x x' : Text} (hw : IsRow w)
    (hname : IsWord w → table.get? w ≠ none → before = some '.')
    (hpoint : before = some '.' → w.head?.any Char.isDigit = false)
    (hx : x.head?.any isWordChar = false) (hx' : x'.head?.any isWordChar = false)
    (hrest : ObjectCode.resolveAddresses (i + k) x' = ObjectCode.resolveAddresses i x) :
    ObjectCode.resolveAddresses (i + k) (behindPoint before (mapWords table'.replacement w ++ x'))
      = ObjectCode.resolveAddresses i (behindPoint before (mapWords table.replacement w ++ x)) := by
  have hcopied : ObjectCode.resolveAddresses (i + k) (behindPoint before (w ++ x'))
      = ObjectCode.resolveAddresses i (behindPoint before (w ++ x)) := by
    rw [resolveAddresses_behindPoint_append hw hpoint hx',
      resolveAddresses_behindPoint_append hw hpoint hx, hrest]
  rcases hw.eq_nil_or_isWord with rfl | hword
  · exact hcopied
  · rw [hword.mapWords_eq, hword.mapWords_eq]
    rcases h.locations w with ⟨hnone, hnone'⟩ | ⟨n, hn, hsome, hsome'⟩
    · rw [replacement_of_undefined hnone, replacement_of_undefined hnone']
      exact hcopied
    · obtain rfl := hname hword (by simp [hsome])
      have hdistance : ((n + k : Nat) : Int) - (i + k) = n - i := by omega
      rw [replacement_of_get? hsome, replacement_of_get? hsome', behindPoint_point,
        behindPoint_point, ← List.cons_append, ← List.cons_append,
        ObjectCode.resolveAddresses_digits hn (not_isDigit_head hx'),
        ObjectCode.resolveAddresses_digits (by omega) (not_isDigit_head hx), hdistance, hrest]

/-- All addresses of a text are as far from the statement as they were. -/
theorem Shifted.resolveAddresses_eq (h : Shifted k table table') {t : Text}
    (hbefore : before.any isWordChar = false) (hrelative : table.Relative before t) :
    ObjectCode.resolveAddresses (i + k) (behindPoint before (mapWords table'.replacement t))
      = ObjectCode.resolveAddresses i (behindPoint before (mapWords table.replacement t)) := by
  induction t using break_induction generalizing before with
  | row w hw =>
    have hnil : ([] : Text).head?.any isWordChar = false := rfl
    have hrow := h.resolveAddresses_row (i := i) hw
      (fun hword hdefined => hrelative.name [] w [] (by simp) hword hbefore rfl hdefined)
      (fun hpoint => hrelative.point [] w (by simp) hpoint) hnil hnil rfl
    simpa using hrow
  | step w c y hw hc ih =>
    have hbreak : (some c).any isWordChar = false := by simpa using hc
    have hy := ih hbreak hrelative.tail
    rw [mapWords_append_break hc, mapWords_append_break hc]
    refine h.resolveAddresses_row hw (fun hword hdefined => ?_) (fun hpoint => ?_)
      (by simpa using hc)
      (by simpa using hc) ?_
    · exact hrelative.name [] w (c :: y) (by simp) hword hbefore (by simpa using hc) hdefined
    · have hhead := hrelative.point [] (w ++ c :: y) (by simp) hpoint
      cases w with
      | nil => rfl
      | cons d w => exact hhead
    · by_cases hpoint : c = '.'
      · subst hpoint
        rwa [behindPoint_point, behindPoint_point] at hy
      · rw [behindPoint_of_ne (by simpa using hpoint),
          behindPoint_of_ne (by simpa using hpoint)] at hy
        rw [ObjectCode.resolveAddresses_cons hpoint, ObjectCode.resolveAddresses_cons hpoint, hy]

end Resolve

end SymbolTable

/-! ## Statements -/

namespace ObjectCode

variable {k : Nat} {table table' : SymbolTable}

/-- What a statement is before its names are replaced. -/
def intermediate [Platform] (t : Text) : Text :=
  Literal.encodeStrings (Instruction.encode t)

theorem encodeStatement_shifted [Platform] (h : table.Shifted k table') {s : Statement}
    (hrelative : table.Relative none (intermediate s.text)) (n : Nat) :
    encodeStatement table' ⟨s.text, s.index + k, n⟩ = encodeStatement table s := by
  have hnone : ∀ t, SymbolTable.behindPoint none t = t :=
    SymbolTable.behindPoint_of_ne (by simp)
  have heq := h.resolveAddresses_eq (i := s.index) rfl hrelative
  rw [hnone, hnone, ← h.numeric.substitute_eq, ← h.numeric'.substitute_eq] at heq
  exact heq

/-- The object code of a statement starts with no blank if the statement does not. -/
theorem flush_encodeStatement [Platform] (h : table.Shifted k table') {s : Statement} {code : Text}
    (hs : Flush s.text) (hcode : encodeStatement table s = .ok code) : Flush code := by
  have hwords : ∀ w, IsWord w → IsWord (table.replacement w) := by
    intro w hw
    rcases h.locations w with ⟨hnone, -⟩ | ⟨n, -, hsome, -⟩
    · rwa [SymbolTable.replacement_of_undefined hnone]
    · rw [SymbolTable.replacement_of_get? hsome]
      exact ⟨Numeral.digits_ne_nil,
        fun c hc => isWordChar_of_isDigit (Numeral.isDigit_of_mem_digits hc)⟩
  have hencode := (Instruction.reworded_encode s.text).trans (Literal.reworded_encodeStrings _)
  have hsubstitute := hencode.trans (reworded_mapWords hwords _)
  rw [← h.numeric.substitute_eq] at hsubstitute
  exact (hsubstitute.trans (reworded_resolveAddresses hcode)).flush hs

end ObjectCode

end ContractAsm
