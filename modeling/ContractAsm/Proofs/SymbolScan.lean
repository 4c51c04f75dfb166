-- SUMMARY: Substitution and distances as one scan of the line.
import ContractAsm.Proofs.Address
import ContractAsm.Proofs.Symbol

/-!
# Symbols and addresses in one scan

The names of a line are replaced by one pass for each of them, and the addresses by another one on
what these leave. With names that are identifiers and locations that are rows of digits, a single
scan of the line does the same. It takes every defined word together with a point in front of it,
and the digits behind a point where no defined word stands. A distance that was written can be read
back.
-/

namespace ContractAsm.ObjectCode

open Text

/-! ## The scan -/

/-- What a scan finds: a defined name, by its location, or the target of a branch, by its digits. -/
inductive Mention where
  | name (location : Text)
  | target (digits : Text)
  deriving DecidableEq, Repr

/-- Recognises a defined word, with the point in front of it if there is one, or else the digits
behind a point. -/
def mention (symbols : SymbolTable) : Recogniser Mention := fun before t =>
  match t with
  | '.' :: rest =>
    let word := rest.takeWhile isWordChar
    match symbols.get? word, rest.takeWhile Char.isDigit with
    | some location, _ => some (.target location, word.length + 1)
    | none, [] => none
    | none, digits => some (.target digits, digits.length + 1)
  | t =>
    if before.any isWordChar then none
    else
      let word := t.takeWhile isWordChar
      (symbols.get? word).map fun location => (.name location, word.length)

/-- What is written for a mention: a location as it is, and the distance to a target. -/
def Mention.write (current : Int) : Mention → Except Limit Text
  | .name location => .ok location
  | .target digits => do encodeDistance (← Numeral.read digits) current

/-- Writes the mentions among the pieces of a line, and copies all else. -/
def writePieces (current : Int) : List (Piece Mention) → Except Limit Text
  | [] => .ok []
  | .char c :: rest => do
    return c :: (← writePieces current rest)
  | .found _ m :: rest => do
    let text ← m.write current
    return text ++ (← writePieces current rest)

/-- The distance that a text stands for. -/
def readDistance : Text → Int
  | 'n' :: digits => -Numeral.value digits
  | digits => Numeral.value digits

/-! ## Distances read back -/

theorem readDistance_distanceText (distance : Int) :
    readDistance (distanceText distance) = distance := by
  unfold distanceText
  split
  · rw [readDistance, Numeral.value_digits]
    omega
  · -- digits do not start with the mark of a negative distance
    have hdigits : readDistance (Numeral.digits distance.natAbs)
        = Numeral.value (Numeral.digits distance.natAbs) := by
      unfold readDistance
      split
      · next digits heq =>
        have hmark : 'n' ∈ Numeral.digits distance.natAbs := by simp [heq]
        cases Numeral.isDigit_of_mem_digits hmark
      · rfl
    rw [hdigits, Numeral.value_digits]
    omega

/-- From the statement on, the distance that was written leads to the target. -/
theorem Mention.readDistance_write {current : Int} {digits text : Text}
    (h : (Mention.target digits).write current = .ok text) :
    ∃ target, Numeral.read digits = .ok target ∧ readDistance text + current = target := by
  cases hread : Numeral.read digits with
  | error e =>
    simp only [write, hread] at h
    cases h
  | ok target =>
    simp only [write, hread] at h
    refine ⟨target, rfl, ?_⟩
    rw [encodeDistance_eq_ok h, readDistance_distanceText]
    omega

/-! ## Pieces -/

section Pieces

variable {current : Int}

theorem writePieces_chars (x : Text) (ps : List (Piece Mention)) :
    writePieces current (x.map .char ++ ps) = (writePieces current ps).map (x ++ ·) := by
  induction x with
  | nil =>
    rw [List.map_nil, List.nil_append]
    cases writePieces current ps with
    | error e => rfl
    | ok t => rfl
  | cons c x ih =>
    rw [List.map_cons, List.cons_append, writePieces, ih]
    cases writePieces current ps with
    | error e => rfl
    | ok t => rfl

theorem writePieces_name (start : Nat) (location : Text) (ps : List (Piece Mention)) :
    writePieces current (.found start (.name location) :: ps)
      = (writePieces current ps).map (location ++ ·) := by
  rw [writePieces, Mention.write]
  cases writePieces current ps with
  | error e => rfl
  | ok t => rfl

theorem writePieces_target (start : Nat) (digits : Text) (ps : List (Piece Mention)) :
    writePieces current (.found start (.target digits) :: ps) = (do
      let target ← Numeral.read digits
      let distance ← encodeDistance target current
      (writePieces current ps).map (distance ++ ·)) := by
  rw [writePieces, Mention.write]
  cases Numeral.read digits with
  | error e => rfl
  | ok target =>
    cases hdistance : encodeDistance target current with
    | error e => simp [bind, Except.bind, hdistance]
    | ok distance =>
      simp only [bind, Except.bind, hdistance]
      cases writePieces current ps with
      | error e => rfl
      | ok t => rfl

end Pieces

/-! ## Mentions at a place -/

section Mentions

variable {symbols : SymbolTable} {before : Option Char} {c : Char} {t w v : Text}

theorem mention_of_ne (hc : c ≠ '.') : mention symbols before (c :: t)
    = if before.any isWordChar then none
      else (symbols.get? ((c :: t).takeWhile isWordChar)).map
        fun location => (.name location, ((c :: t).takeWhile isWordChar).length) := by
  unfold mention
  split
  · next heq => exact absurd (List.cons.inj heq).1 hc
  · rfl

theorem ne_point_of_isWordChar (hc : isWordChar c = true) : c ≠ '.' := by
  rintro rfl
  cases hc

/-- At the start of a word, the word is found just if it is defined. -/
theorem mention_word (hw : IsWord w) (hv : v.head?.any isWordChar = false)
    (hbefore : before.any isWordChar = false) : mention symbols before (w ++ v)
      = (symbols.get? w).map fun location => (.name location, w.length) := by
  have htake := takeWhile_append_stop hw.2 hv
  obtain ⟨c, cs, rfl⟩ := List.exists_cons_of_ne_nil hw.1
  have hc := ne_point_of_isWordChar (hw.2 c (List.mem_cons_self ..))
  rw [List.cons_append] at htake ⊢
  rw [mention_of_ne hc, htake, hbefore]
  rfl

/-- Nothing is found inside of a word. -/
theorem silent_inside (hw : IsRow w) (hbefore : before.any isWordChar = true) :
    Silent (mention symbols) before w v := by
  induction w generalizing before with
  | nil => exact .nil
  | cons c w ih =>
    have hc := hw c (List.mem_cons_self ..)
    refine .cons ?_ (ih hw.tail (by simpa using hc))
    rw [mention_of_ne (ne_point_of_isWordChar hc), if_pos hbefore]

theorem silent_undefined (hw : IsWord w) (hv : v.head?.any isWordChar = false)
    (hbefore : before.any isWordChar = false) (hget : symbols.get? w = none) :
    Silent (mention symbols) before w v := by
  have hfirst : mention symbols before (w ++ v) = none := by
    rw [mention_word hw hv hbefore, hget, Option.map_none]
  obtain ⟨c, cs, rfl⟩ := List.exists_cons_of_ne_nil hw.1
  exact .cons hfirst (silent_inside hw.2.tail (by simpa using hw.2 c (List.mem_cons_self ..)))

/-- A defined word is found with the point in front of it. -/
theorem mention_point_defined (hw : IsRow w) (hv : v.head?.any isWordChar = false)
    {location : Text} (hget : symbols.get? w = some location) :
    mention symbols before ('.' :: w ++ v) = some (.target location, ('.' :: w).length) := by
  simp only [mention, List.cons_append, takeWhile_append_stop hw hv, hget, List.length_cons]

/-- In front of an undefined word, a point is found with the digits that the word starts with. -/
theorem mention_point_undefined {digits rest : Text}
    (hdigits : ∀ c ∈ digits, c.isDigit = true) (hrest : rest.head?.any Char.isDigit = false)
    (hget : symbols.get? ((digits ++ rest).takeWhile isWordChar) = none) :
    mention symbols before ('.' :: digits ++ rest)
      = if digits = [] then none else some (.target digits, ('.' :: digits).length) := by
  simp only [mention, List.cons_append, takeWhile_append_stop hdigits hrest, hget]
  cases digits with
  | nil => rfl
  | cons d ds => rfl

end Mentions

/-! ## Both rewritings -/

section Rewritings

variable {symbols : SymbolTable} {current : Int}

/-- From a place on, whatever is in front of it, one scan writes what both rewritings leave. -/
def ScansAlike (symbols : SymbolTable) (current : Int) (v : Text) : Prop :=
  ∀ n before, resolveAddresses current (mapWords symbols.replacement v)
    = writePieces current (scanFrom (mention symbols) 0 n before v)

theorem point_not_mem_of_isRow {w : Text} (hw : IsRow w) : '.' ∉ w :=
  fun hmem => ne_point_of_isWordChar (hw '.' hmem) rfl

theorem mapWords_undefined {w : Text} (hw : IsRow w) (hget : symbols.get? w = none) :
    mapWords symbols.replacement w = w := by
  rcases hw.eq_nil_or_isWord with rfl | hword
  · rfl
  · rw [hword.mapWords_eq, SymbolTable.replacement_of_undefined hget]

theorem head?_digit_mapWords {v : Text} (hv : v.head?.any isWordChar = false) :
    (mapWords symbols.replacement v).head?.any Char.isDigit = false := by
  rw [head?_mapWords hv]
  exact not_isDigit_head hv

theorem writePieces_copied {before : Option Char} {c : Char} {t : Text} (n : Nat)
    (h : mention symbols before (c :: t) = none) :
    writePieces current (scanFrom (mention symbols) 0 n before (c :: t))
      = (writePieces current (scanFrom (mention symbols) 0 (n + 1) (some c) t)).map (c :: ·) := by
  simp only [scanFrom, h]
  exact writePieces_chars [c] _

/-- The digits behind a point that start an undefined word; the rest of the word is copied. -/
theorem scan_digits {digits rest v : Text} (hne : digits ≠ [])
    (hdigits : ∀ c ∈ digits, c.isDigit = true) (hstop : rest.head?.any Char.isDigit = false)
    (hw : IsRow (digits ++ rest)) (hv : v.head?.any isWordChar = false)
    (hget : symbols.get? (digits ++ rest) = none) (hrest : ScansAlike symbols current v) (n : Nat)
    (before : Option Char) :
    resolveAddresses current ('.' :: digits ++ (rest ++ mapWords symbols.replacement v))
      = writePieces current
          (scanFrom (mention symbols) 0 n before ('.' :: digits ++ (rest ++ v))) := by
  have hrow : IsRow rest := fun c hc => hw c (List.mem_append_right _ hc)
  have hhead : (rest ++ mapWords symbols.replacement v).head?.any Char.isDigit = false :=
    not_isDigit_head_append hstop (by rwa [head?_mapWords hv])
  have hword : (digits ++ (rest ++ v)).takeWhile isWordChar = digits ++ rest := by
    rw [← List.append_assoc, takeWhile_append_stop hw hv]
  have hfound : mention symbols before ('.' :: digits ++ (rest ++ v))
      = some (.target digits, ('.' :: digits).length) := by
    rw [mention_point_undefined hdigits (not_isDigit_head_append hstop hv) (hword.symm ▸ hget),
      if_neg hne]
  have hinside : (behind before ('.' :: digits)).any isWordChar = true := by
    rw [behind_cons, behind, List.getLast?_eq_some_getLast hne, Option.some_or, Option.any_some]
    exact isWordChar_of_isDigit (hdigits _ (List.getLast_mem hne))
  rw [resolveAddresses_target hne hdigits hhead,
    resolveAddresses_append (point_not_mem_of_isRow hrow),
    scanFrom_found (List.cons_ne_nil _ _) hfound, writePieces_target,
    scanFrom_silent (silent_inside hrow hinside), writePieces_chars, hrest]

variable (hnumeric : symbols.Numeric) (hlocations : ∀ d ∈ symbols.definitions, d.location ≠ [])

include hnumeric

/-- A row of word characters at the start of a word. -/
theorem scan_row {w v : Text} (hw : IsRow w) (hv : v.head?.any isWordChar = false)
    (hrest : ScansAlike symbols current v) (n : Nat) (before : Option Char)
    (hbefore : before.any isWordChar = false) :
    resolveAddresses current (mapWords symbols.replacement (w ++ v))
      = writePieces current (scanFrom (mention symbols) 0 n before (w ++ v)) := by
  rcases hw.eq_nil_or_isWord with rfl | hword
  · exact hrest n before
  · have hfound : mention symbols before (w ++ v)
        = (symbols.get? w).map fun location => (.name location, w.length) :=
      mention_word hword hv hbefore
    rw [mapWords_append_stop hv, hword.mapWords_eq]
    cases hget : symbols.get? w with
    | some location =>
      have hrow : IsRow location :=
        fun c hc => isWordChar_of_isDigit (hnumeric.isDigit_of_get? hget c hc)
      rw [hget] at hfound
      rw [SymbolTable.replacement_of_get? hget, scanFrom_found hword.1 hfound, writePieces_name,
        resolveAddresses_append (point_not_mem_of_isRow hrow), hrest]
    | none =>
      rw [SymbolTable.replacement_of_undefined hget,
        scanFrom_silent (silent_undefined hword hv hbefore hget), writePieces_chars,
        resolveAddresses_append (point_not_mem_of_isRow hw), hrest]

include hlocations

/-- A row of word characters behind a point. -/
theorem scan_point {w v : Text} (hw : IsRow w) (hv : v.head?.any isWordChar = false)
    (hrest : ScansAlike symbols current v) (n : Nat) (before : Option Char) :
    resolveAddresses current ('.' :: mapWords symbols.replacement (w ++ v))
      = writePieces current (scanFrom (mention symbols) 0 n before ('.' :: w ++ v)) := by
  cases hget : symbols.get? w with
  | some location =>
    obtain ⟨d, hd, rfl, rfl⟩ := SymbolTable.exists_of_get? hget
    rw [mapWords_append_stop hv, (hnumeric.identifier d hd).1.mapWords_eq,
      SymbolTable.replacement_of_get? hget, ← List.cons_append,
      resolveAddresses_target (hlocations d hd) (hnumeric.digits d hd) (head?_digit_mapWords hv),
      scanFrom_found (List.cons_ne_nil _ _) (mention_point_defined hw hv hget), writePieces_target,
      hrest]
  | none =>
    obtain ⟨digits, rest, rfl, hdigits, hstop⟩ := exists_stretch Char.isDigit w
    by_cases hne : digits = []
    · -- without digits the point is copied, and the row starts a word behind it
      subst hne
      rw [List.nil_append] at hw hget
      have hword : symbols.get? ((rest ++ v).takeWhile isWordChar) = none := by
        rwa [takeWhile_append_stop hw hv]
      have hpoint : mention symbols before ('.' :: (rest ++ v)) = none :=
        mention_point_undefined hdigits (not_isDigit_head_append hstop hv) hword
      have hhead : (mapWords symbols.replacement (rest ++ v)).head?.any Char.isDigit = false := by
        rw [mapWords_append_stop hv, mapWords_undefined hw hget]
        exact not_isDigit_head_append hstop (by rwa [head?_mapWords hv])
      rw [List.nil_append, List.cons_append, resolveAddresses_point hhead,
        writePieces_copied n hpoint,
        scan_row hnumeric hw hv hrest (n + 1) (some '.') rfl]
    · have hscan := scan_digits hne hdigits hstop hw hv hget hrest n before
      rw [mapWords_append_stop hv, mapWords_undefined hw hget]
      simpa using hscan

/-- From the start of a word on, with a point in front of it or without one, one scan writes what
both rewritings leave. -/
theorem scan_from (t : Text) :
    (∀ n before, before.any isWordChar = false →
      resolveAddresses current (mapWords symbols.replacement t)
        = writePieces current (scanFrom (mention symbols) 0 n before t))
    ∧ ∀ n before, resolveAddresses current ('.' :: mapWords symbols.replacement t)
      = writePieces current (scanFrom (mention symbols) 0 n before ('.' :: t)) := by
  induction t using break_induction with
  | row w hw =>
    have hnil : ScansAlike symbols current [] := fun _ _ => rfl
    have hrow := scan_row hnumeric hw rfl hnil
    have hpoint := scan_point hnumeric hlocations hw rfl hnil
    simp only [List.append_nil] at hrow hpoint
    exact ⟨hrow, hpoint⟩
  | step w c y hw hc ih =>
    have hbreak : (c :: y).head?.any isWordChar = false := by simpa using hc
    have hrest : ScansAlike symbols current (c :: y) := by
      intro n before
      rw [mapWords_cons_break hc]
      by_cases hpoint : c = '.'
      · subst hpoint
        exact ih.2 n before
      · have hempty : symbols.get? ((c :: y).takeWhile isWordChar) = none := by
          rw [SymbolTable.get?_eq_none_iff]
          intro d hd hname
          refine (hnumeric.identifier d hd).1.1 ?_
          simpa [hc] using hname
        have hnone : mention symbols before (c :: y) = none := by
          rw [mention_of_ne hpoint, hempty]
          split
          · rfl
          · rfl
        rw [writePieces_copied n hnone, resolveAddresses_cons hpoint,
          ih.1 (n + 1) (some c) (by simpa using hc)]
    exact ⟨scan_row hnumeric hw hbreak hrest, scan_point hnumeric hlocations hw hbreak hrest⟩

end Rewritings

/-- Replacing the names of a line by their locations, and then its addresses by distances, is one
scan of the line. Every distance that it writes leads from the statement to the target. -/
theorem resolveAddresses_substitute (symbols : SymbolTable) (hnumeric : symbols.Numeric)
    (hlocations : ∀ d ∈ symbols.definitions, d.location ≠ []) (line : Text) (current : Int) :
    resolveAddresses current (symbols.substitute line)
        = writePieces current (scan (mention symbols) line)
    ∧ ∀ digits text, (Mention.target digits).write current = .ok text →
      ∃ target, Numeral.read digits = .ok target ∧ readDistance text + current = target := by
  refine ⟨?_, fun digits text htext => Mention.readDistance_write htext⟩
  rw [hnumeric.substitute_eq]
  exact (scan_from hnumeric hlocations line).1 0 none rfl

/-- A name that starts another one, and a location with leading zeros. -/
def branches : SymbolTable := ⟨[
  ⟨"loop".toList, "007".toList, 7, 1⟩, ⟨"_x1".toList, "12".toList, 12, 2⟩,
  ⟨"lo".toList, "9".toList, 9, 3⟩]⟩

theorem resolveAddresses_substitute_branches :
    branches.Numeric ∧ (∀ d ∈ branches.definitions, d.location ≠ [])
      ∧ resolveAddresses 9 (branches.substitute
          "A.loop,lo,.5abc loop .lo._x1 é._x1é ..12.loops,.".toList)
        = .ok "An2,9,n4abc 007 03 é3é .3.loops,.".toList
      ∧ (Mention.target "007".toList).write 9 = .ok "n2".toList
      ∧ readDistance "n2".toList + 9 = 7 := by
  have hnumeric : branches.Numeric := ⟨by decide, by simp [branches]⟩
  have hlocations : ∀ d ∈ branches.definitions, d.location ≠ [] := by decide
  obtain ⟨hscan, hback⟩ := resolveAddresses_substitute branches hnumeric hlocations
    "A.loop,lo,.5abc loop .lo._x1 é._x1é ..12.loops,.".toList 9
  have hwrite : (Mention.target "007".toList).write 9 = .ok "n2".toList := by decide +kernel
  obtain ⟨target, hread, htarget⟩ := hback _ _ hwrite
  have hseven : Numeral.read "007".toList = .ok 7 := by decide +kernel
  cases hread.symm.trans hseven
  exact ⟨hnumeric, hlocations, hscan.trans (by decide +kernel), hwrite, htarget⟩

end ContractAsm.ObjectCode
