-- SUMMARY: Reading integers as they are written, in the digits of any script.
import ContractAsm.Number.Numeral
import ContractAsm.Proofs.Listing

/-!
# Integers in settings

A setting brings blanks and digits of all scripts into ASCII before it reads an integer. The grammar
below says in terms of the text itself what an integer is, and reading takes exactly that.
-/

namespace ContractAsm.Numeral

open Text

/-! ## The grammar -/

/-- The blanks that may stand around an integer: all but the information separators of ASCII. -/
def isMargin (c : Char) : Bool :=
  isBlank c && !(0x1C ≤ c.toNat && c.toNat ≤ 0x1F)

/-- A row of decimal digits of any script, single underscores between some of them, and the values
of the digits. -/
inductive Row : Text → List Nat → Prop where
  | last {c : Char} {d : Nat} : digitValue? c = some d → Row [c] [d]
  | next {c : Char} {d : Nat} {t : Text} {ds : List Nat} : digitValue? c = some d → Row t ds →
      Row (c :: t) (d :: ds)
  | apart {c : Char} {d : Nat} {t : Text} {ds : List Nat} : digitValue? c = some d → Row t ds →
      Row (c :: '_' :: t) (d :: ds)

/-- The number that digits make up, the first of them counting most. -/
def ofDigits (ds : List Nat) : Nat :=
  ds.foldl (fun n d => 10 * n + d) 0

/-- A text that is an integer: not too many digits, with a sign in front or none, and blanks around
all of it. -/
def IsInteger (t : Text) (n : Int) : Prop :=
  ∃ before sign row after ds, t = before ++ (sign ++ (row ++ after))
    ∧ (∀ c ∈ before, isMargin c = true) ∧ (∀ c ∈ after, isMargin c = true)
    ∧ Row row ds ∧ ds.length ≤ Limit.digits
    ∧ ((sign = [] ∨ sign = ['+']) ∧ n = ofDigits ds ∨ sign = ['-'] ∧ n = -ofDigits ds)

/-! ## Single characters -/

/-- A digit of any script is at its distance from the zero of that script. -/
theorem digitValue?_eq_some {c : Char} {d : Nat} (h : digitValue? c = some d) :
    d < 10 ∧ ∃ z ∈ zeros, c.toNat = z + d := by
  obtain ⟨z, hz, rfl⟩ := Option.map_eq_some_iff.1 h
  have hrange := List.find?_some hz
  simp only [Bool.and_eq_true, decide_eq_true_eq] at hrange
  exact ⟨by omega, z, List.mem_of_find?_eq_some hz, by omega⟩

/-- No digit is blank. -/
theorem isBlank_of_digitValue? {c : Char} {d : Nat} (h : digitValue? c = some d) :
    isBlank c = false := by
  have hall : ∀ z ∈ zeros, ∀ d < 10, isBlank (Char.ofNat (z + d)) = false := by decide +kernel
  obtain ⟨hd, z, hz, hc⟩ := digitValue?_eq_some h
  rw [← Char.ofNat_toNat c, hc]
  exact hall z hz d hd

/-- In ASCII only the usual digits have a value, and the blanks are margins except for the
separators. -/
theorem ascii_char {c : Char} (hc : c.toNat < 0x7F) :
    digitValue? c = (if c.isDigit then some (c.toNat - '0'.toNat) else none)
      ∧ isAsciiBlank c = isMargin c := by
  have hall : ∀ k < 0x7F, digitValue? (Char.ofNat k)
      = (if (Char.ofNat k).isDigit then some ((Char.ofNat k).toNat - '0'.toNat) else none)
        ∧ isAsciiBlank (Char.ofNat k) = isMargin (Char.ofNat k) := by decide +kernel
  have h := hall c.toNat hc
  rwa [Char.ofNat_toNat] at h

theorem ofNat_digit : ∀ d < 10, (Char.ofNat ('0'.toNat + d)).isDigit = true
    ∧ (Char.ofNat ('0'.toNat + d)).toNat - '0'.toNat = d := by
  decide

theorem isAsciiBlank_of_isDigit {c : Char} (h : c.isDigit = true) : isAsciiBlank c = false := by
  have hblank := isBlank_of_isWordChar (isWordChar_of_isDigit h)
  cases hascii : isAsciiBlank c with
  | false => rfl
  | true =>
    rw [isBlank_of_isAsciiBlank hascii] at hblank
    cases hblank

/-- What a character becomes in ASCII: a blank if it is a margin, a digit of the same value if it is
a digit, and else it is a character of ASCII and stays. -/
theorem toAscii?_cases {c b : Char} (h : toAscii? c = some b) :
    (isMargin c = true ∧ isAsciiBlank b = true)
    ∨ (digitValue? c = some (b.toNat - '0'.toNat) ∧ b.isDigit = true ∧ isAsciiBlank b = false)
    ∨ (c = b ∧ isAsciiBlank b = false ∧ b.isDigit = false) := by
  unfold toAscii? at h
  split at h
  · next hc =>
    cases h
    obtain ⟨hvalue, hblank⟩ := ascii_char hc
    cases hdigit : c.isDigit with
    | true =>
      exact .inr (.inl ⟨by rw [hvalue, if_pos hdigit], rfl, isAsciiBlank_of_isDigit hdigit⟩)
    | false =>
      cases hmargin : isMargin c with
      | true => exact .inl ⟨rfl, hblank.trans hmargin⟩
      | false => exact .inr (.inr ⟨rfl, hblank.trans hmargin, rfl⟩)
  · next hc =>
    split at h
    · next hblank =>
      cases h
      refine .inl ⟨?_, rfl⟩
      simp only [isMargin, hblank, Bool.true_and, Bool.not_eq_true', Bool.and_eq_false_imp,
        decide_eq_true_eq, decide_eq_false_iff_not]
      omega
    · obtain ⟨d, hvalue, rfl⟩ := Option.map_eq_some_iff.1 h
      obtain ⟨hdigit, hd⟩ := ofNat_digit d (digitValue?_eq_some hvalue).1
      exact .inr (.inl ⟨by rw [hd, hvalue], hdigit, isAsciiBlank_of_isDigit hdigit⟩)

/-- A margin becomes an ASCII blank. -/
theorem toAscii?_of_isMargin {c : Char} (h : isMargin c = true) :
    ∃ b, toAscii? c = some b ∧ isAsciiBlank b = true := by
  unfold toAscii?
  split
  · next hc => exact ⟨c, rfl, (ascii_char hc).2.trans h⟩
  · rw [if_pos (Bool.and_eq_true_iff.1 h).1]
    exact ⟨' ', rfl, rfl⟩

/-- A digit becomes the ASCII digit of its value. -/
theorem toAscii?_of_digitValue? {c : Char} {d : Nat} (h : digitValue? c = some d) :
    ∃ b, toAscii? c = some b ∧ b.isDigit = true ∧ b.toNat - '0'.toNat = d := by
  unfold toAscii?
  split
  · next hc =>
    rw [(ascii_char hc).1] at h
    split at h
    · next hdigit => exact ⟨c, rfl, hdigit, Option.some.inj h⟩
    · cases h
  · obtain ⟨hdigit, hd⟩ := ofNat_digit d (digitValue?_eq_some h).1
    rw [if_neg (by simp [isBlank_of_digitValue? h]), h]
    exact ⟨_, rfl, hdigit, hd⟩

/-- Nothing but a digit becomes an ASCII digit. -/
theorem digitValue?_of_toAscii? {c b : Char} (h : toAscii? c = some b) (hb : b.isDigit = true) :
    digitValue? c = some (b.toNat - '0'.toNat) := by
  rcases toAscii?_cases h with ⟨-, hblank⟩ | ⟨hvalue, -⟩ | ⟨-, -, hdigit⟩
  · rw [isAsciiBlank_of_isDigit hb] at hblank
    cases hblank
  · exact hvalue
  · rw [hb] at hdigit
    cases hdigit

/-- A character of ASCII that is no blank and no digit comes from itself only. -/
theorem eq_of_toAscii? {c b : Char} (h : toAscii? c = some b) (hblank : isAsciiBlank b = false)
    (hdigit : b.isDigit = false) : c = b := by
  rcases toAscii?_cases h with ⟨-, hb⟩ | ⟨-, hb, -⟩ | ⟨heq, -⟩
  · rw [hblank] at hb
    cases hb
  · rw [hdigit] at hb
    cases hb
  · exact heq

/-! ## Texts -/

/-- A text and what it becomes in ASCII. -/
def Becomes (t a : Text) : Prop :=
  t.map toAscii? = a.map some

section Becomes

variable {t u a b : Text} {c d : Char}

/-- A text becomes ASCII character by character. -/
theorem mapM_toAscii?_eq_some_iff : t.mapM toAscii? = some a ↔ Becomes t a := by
  unfold Becomes
  induction t generalizing a with
  | nil => cases a <;> simp
  | cons c t ih =>
    rw [List.mapM_cons, List.map_cons]
    cases toAscii? c with
    | none => cases a <;> simp
    | some b =>
      cases a with
      | nil => cases t.mapM toAscii? <;> simp
      | cons d a => cases ht : t.mapM toAscii? <;> simp [← ih, ht]

theorem Becomes.cons (hc : toAscii? c = some d) (ht : Becomes t a) : Becomes (c :: t) (d :: a) := by
  rw [Becomes, List.map_cons, List.map_cons, hc, ht]

theorem Becomes.append (ht : Becomes t a) (hu : Becomes u b) : Becomes (t ++ u) (a ++ b) := by
  rw [Becomes, List.map_append, List.map_append, ht, hu]

theorem Becomes.eq_nil (h : Becomes t []) : t = [] :=
  List.map_eq_nil_iff.1 h

theorem Becomes.of_cons (h : Becomes t (d :: a)) :
    ∃ c u, t = c :: u ∧ toAscii? c = some d ∧ Becomes u a := by
  rw [Becomes, List.map_cons] at h
  exact List.map_eq_cons_iff.1 h

theorem Becomes.of_append (h : Becomes t (a ++ b)) :
    ∃ u v, t = u ++ v ∧ Becomes u a ∧ Becomes v b := by
  rw [Becomes, List.map_append] at h
  exact List.map_eq_append_iff.1 h

/-- Only margins become ASCII blanks. -/
theorem Becomes.isMargin (h : Becomes t a) (ha : ∀ d ∈ a, isAsciiBlank d = true) :
    ∀ c ∈ t, isMargin c = true := by
  induction a generalizing t with
  | nil =>
    rw [h.eq_nil]
    simp
  | cons d a ih =>
    obtain ⟨c, u, rfl, hc, hu⟩ := h.of_cons
    obtain ⟨hd, ha⟩ := List.forall_mem_cons.1 ha
    refine List.forall_mem_cons.2 ⟨?_, ih hu ha⟩
    rcases toAscii?_cases hc with ⟨hmargin, -⟩ | ⟨-, -, hblank⟩ | ⟨-, hblank, -⟩
    · exact hmargin
    · rw [hd] at hblank
      cases hblank
    · rw [hd] at hblank
      cases hblank

theorem exists_becomes_of_isMargin (h : ∀ c ∈ t, isMargin c = true) :
    ∃ a, Becomes t a ∧ ∀ d ∈ a, isAsciiBlank d = true := by
  induction t with
  | nil => exact ⟨[], rfl, by simp⟩
  | cons c t ih =>
    obtain ⟨hc, ht⟩ := List.forall_mem_cons.1 h
    obtain ⟨a, ha, hblanks⟩ := ih ht
    obtain ⟨d, hd, hblank⟩ := toAscii?_of_isMargin hc
    exact ⟨d :: a, ha.cons hd, List.forall_mem_cons.2 ⟨hblank, hblanks⟩⟩

end Becomes

/-! ## Rows of digits -/

section Row

variable {t a digits : Text} {ds : List Nat}

/-- The value of an ASCII digit. -/
def digitOf (c : Char) : Nat :=
  c.toNat - '0'.toNat

/-- The value of digits is positional. -/
theorem value_eq_ofDigits (digits : Text) : value digits = ofDigits (digits.map digitOf) := by
  rw [value, ofDigits, List.foldl_map]
  rfl

/-- Groups of digits that join are a row of digits. -/
theorem row_of_joinGroups (ha : joinGroups a = some digits) (ht : Becomes t a) :
    Row t (digits.map digitOf) := by
  fun_induction joinGroups a generalizing t digits with
  | case1 => cases ha
  | case2 d hd =>
    cases ha
    obtain ⟨c, u, rfl, hc, hu⟩ := ht.of_cons
    rw [hu.eq_nil]
    exact .last (digitValue?_of_toAscii? hc hd)
  | case3 => cases ha
  | case4 d rest hd ih =>
    obtain ⟨ds, hds, rfl⟩ := Option.map_eq_some_iff.1 ha
    obtain ⟨c, u, rfl, hc, hu⟩ := ht.of_cons
    obtain ⟨c', u, rfl, hc', hu⟩ := hu.of_cons
    rw [eq_of_toAscii? hc' rfl rfl]
    exact .apart (digitValue?_of_toAscii? hc hd) (ih hds hu)
  | case5 => cases ha
  | case6 d rest _ _ hd ih =>
    obtain ⟨ds, hds, rfl⟩ := Option.map_eq_some_iff.1 ha
    obtain ⟨c, u, rfl, hc, hu⟩ := ht.of_cons
    exact .next (digitValue?_of_toAscii? hc hd) (ih hds hu)
  | case7 => cases ha

/-- A row of digits is made of groups that join. -/
theorem Row.exists_joinGroups (h : Row t ds) : ∃ a digits, Becomes t a
    ∧ joinGroups a = some digits ∧ digits.map digitOf = ds
    ∧ a.head?.any Char.isDigit = true ∧ a.getLast?.any Char.isDigit = true := by
  induction h with
  | last hc =>
    obtain ⟨b, hb, hdigit, rfl⟩ := toAscii?_of_digitValue? hc
    exact ⟨[b], [b], .cons hb rfl, by simp [joinGroups, hdigit], rfl, by simp [hdigit],
      by simp [hdigit]⟩
  | next hc _ ih =>
    obtain ⟨b, hb, hdigit, rfl⟩ := toAscii?_of_digitValue? hc
    obtain ⟨a, digits, ha, hjoin, rfl, hhead, hlast⟩ := ih
    cases a with
    | nil => cases hhead
    | cons d a =>
      -- the next character is a digit, so it does not divide
      have hd : d.isDigit = true := by simpa using hhead
      have hne : d ≠ '_' := by
        rintro rfl
        cases hd
      refine ⟨b :: d :: a, b :: digits, ha.cons hb, ?_, rfl, by simp [hdigit], ?_⟩
      · rw [joinGroups.eq_4 _ _ (by simp) (by simp [hne])]
        simp [hdigit, hjoin]
      · rwa [List.getLast?_cons_cons]
  | apart hc _ ih =>
    obtain ⟨b, hb, hdigit, rfl⟩ := toAscii?_of_digitValue? hc
    obtain ⟨a, digits, ha, hjoin, rfl, hhead, hlast⟩ := ih
    have hunderscore : toAscii? '_' = some '_' := rfl
    refine ⟨b :: '_' :: a, b :: digits, (ha.cons hunderscore).cons hb, ?_, rfl, by simp [hdigit],
      ?_⟩
    · simp [joinGroups, hdigit, hjoin]
    · cases a with
      | nil => cases hhead
      | cons d a => rwa [List.getLast?_cons_cons, List.getLast?_cons_cons]

end Row

/-! ## Integers -/

/-- The sign is split off at the front. -/
theorem exists_sign (t : Text) : ∃ sign, t = sign ++ (splitSign t).2
    ∧ ((sign = [] ∨ sign = ['+']) ∧ (splitSign t).1 = false
      ∨ sign = ['-'] ∧ (splitSign t).1 = true) := by
  unfold splitSign
  split
  · exact ⟨['-'], rfl, .inr ⟨rfl, rfl⟩⟩
  · exact ⟨['+'], rfl, .inl ⟨.inr rfl, rfl⟩⟩
  · exact ⟨[], rfl, .inl ⟨.inl rfl, rfl⟩⟩

/-- A digit is no sign. -/
theorem splitSign_of_isDigit {t : Text} (h : t.head?.any Char.isDigit = true) :
    splitSign t = (false, t) := by
  unfold splitSign
  split
  · cases h
  · cases h
  · rfl

/-- Digits are read as their value, unless there are too many of them. -/
theorem read_eq_ok_iff {digits : Text} {n : Nat} :
    read digits = .ok n ↔ digits.length ≤ Limit.digits ∧ value digits = n := by
  unfold read
  split
  · next hle => simp [hle]
  · next hle => simp [hle]

/-- The text without the blanks of ASCII at both ends. -/
def inner (a : Text) : Text :=
  ((a.dropWhile isAsciiBlank).reverse.dropWhile isAsciiBlank).reverse

/-- A setting is a number just if its inner part is a sign and groups of digits. -/
theorem ofSetting?_eq_some {t : Text} {n : Int} : ofSetting? t = some n
    ↔ ∃ a digits, Becomes t a ∧ joinGroups (splitSign (inner a)).2 = some digits
      ∧ digits.length ≤ Limit.digits
      ∧ n = signed (splitSign (inner a)).1 (ofDigits (digits.map digitOf)) := by
  simp only [ofSetting?, Option.bind_eq_bind, Option.bind_eq_some_iff, mapM_toAscii?_eq_some_iff,
    inner]
  refine exists_congr fun a => ?_
  rw [← exists_and_left]
  refine exists_congr fun digits => and_congr_right fun _ => and_congr_right fun _ => ?_
  rw [← value_eq_ofDigits]
  cases hread : read digits with
  | ok m =>
    obtain ⟨hlength, rfl⟩ := read_eq_ok_iff.1 hread
    simp [hlength, eq_comm]
  | error l =>
    have hlength : ¬digits.length ≤ Limit.digits := by
      intro hle
      rw [read_eq_ok_iff.2 ⟨hle, rfl⟩] at hread
      cases hread
    simp [hlength]

theorem inner_eq {before after sign a : Text} (hbefore : ∀ c ∈ before, isAsciiBlank c = true)
    (hafter : ∀ c ∈ after, isAsciiBlank c = true) (hsign : sign.head?.any isAsciiBlank = false)
    (hhead : a.head?.any Char.isDigit = true) (hlast : a.getLast?.any Char.isDigit = true) :
    inner (before ++ (sign ++ (a ++ after))) = sign ++ a := by
  have hdigit : ∀ o : Option Char, o.any Char.isDigit = true → o.any isAsciiBlank = false := by
    intro o ho
    cases o with
    | none => cases ho
    | some c => exact isAsciiBlank_of_isDigit ho
  have hne : a ≠ [] := by
    rintro rfl
    cases hhead
  rw [← List.append_assoc sign, inner]
  apply dropWhile_surround hbefore hafter (by simp [hne])
  · cases sign with
    | nil => exact hdigit _ hhead
    | cons c sign => exact hsign
  · rw [List.getLast?_append_of_ne_nil _ hne]
    exact hdigit _ hlast

/-- Reading takes exactly the integers of the grammar. -/
theorem ofSetting?_eq_some_iff {t : Text} {n : Int} : ofSetting? t = some n ↔ IsInteger t n := by
  rw [ofSetting?_eq_some]
  constructor
  · rintro ⟨a, digits, ha, hjoin, hlength, rfl⟩
    obtain ⟨before, after, hsplit, hbefore, hafter⟩ := exists_surround isAsciiBlank a
    obtain ⟨sign, hsign, hcases⟩ := exists_sign (inner a)
    rw [← inner, hsign, List.append_assoc] at hsplit
    rw [hsplit] at ha
    -- the text falls into the same parts as its ASCII form
    obtain ⟨t₁, t', rfl, h₁, ha⟩ := ha.of_append
    obtain ⟨t₂, t', rfl, h₂, ha⟩ := ha.of_append
    obtain ⟨t₃, t₄, rfl, h₃, h₄⟩ := ha.of_append
    have hrow := row_of_joinGroups hjoin h₃
    refine ⟨t₁, t₂, t₃, t₄, _, rfl, h₁.isMargin hbefore, h₄.isMargin hafter, hrow, by simpa, ?_⟩
    rcases hcases with ⟨rfl | rfl, hpositive⟩ | ⟨rfl, hnegative⟩
    · exact .inl ⟨.inl h₂.eq_nil, by rw [hpositive]; rfl⟩
    · obtain ⟨c, u, rfl, hc, hu⟩ := h₂.of_cons
      rw [eq_of_toAscii? hc rfl rfl, hu.eq_nil]
      exact .inl ⟨.inr rfl, by rw [hpositive]; rfl⟩
    · obtain ⟨c, u, rfl, hc, hu⟩ := h₂.of_cons
      rw [eq_of_toAscii? hc rfl rfl, hu.eq_nil]
      exact .inr ⟨rfl, by rw [hnegative]; rfl⟩
  · rintro ⟨before, sign, row, after, ds, rfl, hbefore, hafter, hrow, hlength, hsign⟩
    obtain ⟨a₁, h₁, hblanks₁⟩ := exists_becomes_of_isMargin hbefore
    obtain ⟨a, digits, ha, hjoin, rfl, hhead, hlast⟩ := hrow.exists_joinGroups
    obtain ⟨a₂, h₂, hblanks₂⟩ := exists_becomes_of_isMargin hafter
    rw [List.length_map] at hlength
    -- a sign stands for itself and is no blank
    have hread : Becomes sign sign ∧ sign.head?.any isAsciiBlank = false
        ∧ (splitSign (sign ++ a)).2 = a
        ∧ n = signed (splitSign (sign ++ a)).1 (ofDigits (digits.map digitOf)) := by
      rcases hsign with ⟨rfl | rfl, rfl⟩ | ⟨rfl, rfl⟩
      · rw [List.nil_append, splitSign_of_isDigit hhead]
        exact ⟨rfl, rfl, rfl, rfl⟩
      · exact ⟨rfl, rfl, rfl, rfl⟩
      · exact ⟨rfl, rfl, rfl, rfl⟩
    obtain ⟨hkept, hnotBlank, hrest, hn⟩ := hread
    refine ⟨a₁ ++ (sign ++ (a ++ a₂)), digits, h₁.append (hkept.append (ha.append h₂)), ?_⟩
    rw [inner_eq hblanks₁ hblanks₂ hnotBlank hhead hlast, hrest]
    exact ⟨hjoin, hlength, hn⟩

end ContractAsm.Numeral
