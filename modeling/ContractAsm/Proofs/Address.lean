-- SUMMARY: Digits of addresses, and addresses that become distances.
import ContractAsm.ObjectCode
import ContractAsm.Proofs.Scan
import Mathlib.Algebra.Group.Nat.Defs

/-!
# Addresses and distances

Numbers below the limit of conversion are written and read back. The addresses of a line are
resolved from left to right: text without a point is copied, and the digits behind a point become a
distance.
-/

namespace ContractAsm

namespace Numeral

variable {n : Nat}

theorem isDigit_of_mem_digits {c : Char} (hc : c ∈ digits n) : c.isDigit = true :=
  Nat.isDigit_of_mem_toDigits (by decide) (by decide) hc

theorem digits_ne_nil : digits n ≠ [] :=
  Nat.toDigits_ne_nil

theorem length_digits_le (h : n < 10 ^ Limit.digits) : (digits n).length ≤ Limit.digits :=
  (Nat.length_toDigits_le_iff (by decide) (by decide)).2 h

/-- An integer with few enough digits is written out. -/
theorem write_of_lt (h : n < 10 ^ Limit.digits) : write n = .ok (digits n) := by
  have hlength : (digits (n : Int).natAbs).length ≤ Limit.digits := length_digits_le h
  rw [write, if_pos hlength, decimal, if_neg (by omega), Int.natAbs_natCast]

/-- What is written are the digits. -/
theorem eq_digits_of_write {t : Text} (h : write n = .ok t) : t = digits n := by
  unfold write at h
  split at h
  · cases h
    rw [decimal, if_neg (by omega), Int.natAbs_natCast]
  · cases h

/-- The digits of an integer are read as that integer. -/
theorem read_digits (h : n < 10 ^ Limit.digits) : read (digits n) = .ok n := by
  rw [read, if_pos (length_digits_le h), value_digits]

end Numeral

namespace ObjectCode

open Text

/-! ## Distances -/

/-- A signed distance as it is written: its digits, behind an `n` if it is negative. -/
def distanceText (distance : Int) : Text :=
  if distance < 0 then 'n' :: Numeral.digits distance.natAbs else Numeral.digits distance.natAbs

theorem encodeDistance_of_lt {target current : Int}
    (h : (target - current).natAbs < 10 ^ Limit.digits) :
    encodeDistance target current = .ok (distanceText (target - current)) := by
  simp only [encodeDistance, distanceText, Numeral.write_of_lt h]
  rfl

/-- A distance that is encoded at all is encoded by its text. -/
theorem encodeDistance_eq_ok {target current : Int} {text : Text}
    (h : encodeDistance target current = .ok text) : text = distanceText (target - current) := by
  cases hwrite : Numeral.write (target - current).natAbs with
  | error e =>
    simp only [encodeDistance, hwrite] at h
    cases h
  | ok digits =>
    simp only [encodeDistance, hwrite] at h
    cases h
    rw [Numeral.eq_digits_of_write hwrite, distanceText]

/-- A distance starts with a digit, or has an `n` and a digit. -/
theorem distanceText_shape (distance : Int) :
    (∃ c cs, distanceText distance = c :: cs ∧ c.isDigit = true)
      ∨ ∃ c cs, distanceText distance = 'n' :: c :: cs := by
  obtain ⟨c, cs, hdigits⟩ :=
    List.exists_cons_of_ne_nil (Numeral.digits_ne_nil (n := distance.natAbs))
  have hc : c.isDigit = true := Numeral.isDigit_of_mem_digits (by rw [hdigits]; simp)
  unfold distanceText
  rw [hdigits]
  split
  · exact .inr ⟨c, cs, rfl⟩
  · exact .inl ⟨c, cs, rfl, hc⟩

/-! ## Addresses of a line -/

variable {current : Int} {before : Option Char}

/-- An address starts with a point. -/
theorem address_of_ne {c : Char} {cs : Text} (hc : c ≠ '.') : address before (c :: cs) = none := by
  unfold address
  split
  · next heq => exact absurd (List.cons.inj heq).1 hc
  · rfl

/-- A point with digits behind it is an address. -/
theorem address_digits {digits rest : Text} (hne : digits ≠ [])
    (hdigits : ∀ c ∈ digits, c.isDigit = true) (hrest : rest.head?.any Char.isDigit = false) :
    address before ('.' :: digits ++ rest) = some (digits, ('.' :: digits).length) := by
  have htake := takeWhile_append_stop hdigits hrest
  unfold address
  simp only [List.cons_append, htake]
  cases digits with
  | nil => exact absurd rfl hne
  | cons c digits => rfl

theorem resolvePieces_char (c : Char) (ps : List (Piece Text)) :
    resolvePieces current (.char c :: ps) = (resolvePieces current ps).map (c :: ·) := by
  rw [resolvePieces]
  cases resolvePieces current ps with
  | error e => rfl
  | ok t => rfl

/-- An address is read, and then replaced by the distance to it. -/
theorem resolvePieces_found {start : Nat} {digits : Text} (ps : List (Piece Text)) :
    resolvePieces current (.found start digits :: ps) = (do
      let target ← Numeral.read digits
      let distance ← encodeDistance target current
      (resolvePieces current ps).map (distance ++ ·)) := by
  rw [resolvePieces]
  cases Numeral.read digits with
  | error e => rfl
  | ok target =>
    cases hdistance : encodeDistance target current with
    | error e => simp [bind, Except.bind, hdistance]
    | ok distance =>
      simp only [bind, Except.bind, hdistance]
      cases resolvePieces current ps with
      | error e => rfl
      | ok t => rfl

theorem resolvePieces_found_eq_ok {start : Nat} {digits : Text} {ps : List (Piece Text)}
    {text : Text} (h : resolvePieces current (.found start digits :: ps) = .ok text) :
    ∃ distance rest, text = distanceText distance ++ rest
      ∧ resolvePieces current ps = .ok rest := by
  rw [resolvePieces_found] at h
  cases hread : Numeral.read digits with
  | error e =>
    rw [hread] at h
    cases h
  | ok target =>
    cases hdistance : encodeDistance target current with
    | error e =>
      simp only [hread, bind, Except.bind, hdistance] at h
      cases h
    | ok distance =>
      simp only [hread, bind, Except.bind, hdistance] at h
      cases hps : resolvePieces current ps with
      | error e =>
        rw [hps] at h
        cases h
      | ok rest =>
        rw [hps] at h
        cases h
        exact ⟨target - current, rest, by rw [encodeDistance_eq_ok hdistance], rfl⟩

/-- Neither the position nor the character in front counts for an address. -/
theorem resolvePieces_scanFrom (skip start : Nat) (t : Text) :
    resolvePieces current (scanFrom address skip start before t)
      = resolvePieces current (scanFrom address skip 0 none t) := by
  induction t generalizing skip start before with
  | nil => rfl
  | cons c cs ih =>
    cases skip with
    | succ k =>
      simp only [scanFrom]
      rw [ih k (start + 1), ih k (0 + 1)]
    | zero =>
      -- the character in front is never looked at
      have hsame : address before (c :: cs) = address none (c :: cs) := rfl
      simp only [scanFrom, hsame]
      cases address none (c :: cs) with
      | none =>
        simp only [resolvePieces_char]
        rw [ih 0 (start + 1), ih 0 (0 + 1)]
      | some found =>
        simp only [resolvePieces_found]
        rw [ih (found.2 - 1) (start + 1), ih (found.2 - 1) (0 + 1)]

theorem resolvePieces_chars (x : Text) (ps : List (Piece Text)) :
    resolvePieces current (x.map .char ++ ps) = (resolvePieces current ps).map (x ++ ·) := by
  induction x with
  | nil =>
    rw [List.map_nil, List.nil_append]
    cases resolvePieces current ps with
    | error e => rfl
    | ok t => rfl
  | cons c x ih =>
    rw [List.map_cons, List.cons_append, resolvePieces_char, ih]
    cases resolvePieces current ps with
    | error e => rfl
    | ok t => rfl

/-- Text without a point is copied. -/
theorem resolveAddresses_append {x : Text} (hx : '.' ∉ x) (y : Text) :
    resolveAddresses current (x ++ y) = (resolveAddresses current y).map (x ++ ·) := by
  have hsilent : Silent address none x y :=
    .of_not_mem (fun _ _ _ hc => address_of_ne hc) hx
  rw [resolveAddresses, scan, scanFrom_silent hsilent, resolvePieces_chars,
    resolvePieces_scanFrom, resolveAddresses, scan]

/-- Characters other than points are copied. -/
theorem resolveAddresses_cons {c : Char} (hc : c ≠ '.') (y : Text) :
    resolveAddresses current (c :: y) = (resolveAddresses current y).map (c :: ·) :=
  resolveAddresses_append (x := [c]) (by simpa using hc.symm) y

/-- A line without points stays as it is. -/
theorem resolveAddresses_eq_self {x : Text} (hx : '.' ∉ x) :
    resolveAddresses current x = .ok x := by
  have hall : resolveAddresses current (x ++ []) = _ := resolveAddresses_append hx []
  rw [List.append_nil] at hall
  rw [hall, resolveAddresses, scan, scanFrom, resolvePieces, Except.map, List.append_nil]

theorem resolvePieces_eq_nil {ps : List (Piece Text)} (h : resolvePieces current ps = .ok []) :
    ps = [] := by
  cases ps with
  | nil => rfl
  | cons p ps =>
    cases p with
    | char c =>
      rw [resolvePieces_char] at h
      cases hps : resolvePieces current ps with
      | error e =>
        rw [hps] at h
        cases h
      | ok t =>
        rw [hps] at h
        cases h
    | found start digits =>
      obtain ⟨distance, t, htext, -⟩ := resolvePieces_found_eq_ok h
      rcases distanceText_shape distance with ⟨c, cs, hd, -⟩ | ⟨c, cs, hd⟩
      · rw [hd] at htext
        cases htext
      · rw [hd] at htext
        cases htext

/-- Addresses leave one character that is no digit just if the line is that character. -/
theorem resolveAddresses_eq_char_iff {t : Text} {c : Char} (hdot : c ≠ '.')
    (hdigit : c.isDigit = false) : resolveAddresses current t = .ok [c] ↔ t = [c] := by
  constructor
  · intro h
    unfold resolveAddresses at h
    apply scan_eq_char
    cases hscan : scan address t with
    | nil =>
      rw [hscan] at h
      cases h
    | cons p ps =>
      rw [hscan] at h
      cases p with
      | char d =>
        rw [resolvePieces_char] at h
        cases hps : resolvePieces current ps with
        | error e =>
          rw [hps] at h
          cases h
        | ok rest =>
          rw [hps] at h
          cases h
          rw [resolvePieces_eq_nil hps]
      | found start digits =>
        -- a distance starts with a digit or has more than one character
        obtain ⟨distance, rest, htext, -⟩ := resolvePieces_found_eq_ok h
        rcases distanceText_shape distance with ⟨d, cs, hd, hd'⟩ | ⟨d, cs, hd⟩
        · rw [hd, List.cons_append] at htext
          obtain ⟨rfl, -⟩ := List.cons.inj htext
          rw [hdigit] at hd'
          cases hd'
        · rw [hd] at htext
          cases htext
  · rintro rfl
    exact resolveAddresses_eq_self (by simpa using hdot.symm)

/-- A point that no digit follows is copied. -/
theorem resolveAddresses_point {current : Int} {rest : Text}
    (hrest : rest.head?.any Char.isDigit = false) :
    resolveAddresses current ('.' :: rest) = (resolveAddresses current rest).map ('.' :: ·) := by
  have hnone : address none ('.' :: rest) = none := by
    cases rest with
    | nil => rfl
    | cons c rest =>
      have hc : c.isDigit = false := by simpa using hrest
      simp [address, hc]
  rw [resolveAddresses, scan, scanFrom, hnone, resolvePieces_char, resolvePieces_scanFrom]
  rfl

/-- The digits behind a point are read, and the distance to that target is written. -/
theorem resolveAddresses_target {current : Int} {digits rest : Text} (hne : digits ≠ [])
    (hdigits : ∀ c ∈ digits, c.isDigit = true) (hrest : rest.head?.any Char.isDigit = false) :
    resolveAddresses current ('.' :: digits ++ rest) = (do
      let target ← Numeral.read digits
      let distance ← encodeDistance target current
      (resolveAddresses current rest).map (distance ++ ·)) := by
  have hfound : address none ('.' :: digits ++ rest) = _ := address_digits hne hdigits hrest
  rw [resolveAddresses, scan, scanFrom_found (List.cons_ne_nil _ _) hfound, resolvePieces_found,
    resolvePieces_scanFrom]
  rfl

/-- Only the distance counts for what is written in the place of an address. -/
theorem resolveAddresses_digits {current : Int} {n : Nat} {rest : Text} (hn : n < 10 ^ Limit.digits)
    (hrest : rest.head?.any Char.isDigit = false) :
    resolveAddresses current ('.' :: Numeral.digits n ++ rest) = (do
      let distance ← encodeDistance (n - current) 0
      (resolveAddresses current rest).map (distance ++ ·)) := by
  rw [resolveAddresses_target Numeral.digits_ne_nil
    (fun c hc => Numeral.isDigit_of_mem_digits hc) hrest, Numeral.read_digits hn]
  simp only [encodeDistance, Int.sub_zero]
  rfl

/-- The digits behind a point become the distance to the place that they name. -/
theorem resolveAddresses_address {n : Nat} {rest : Text} (hn : n < 10 ^ Limit.digits)
    (hdistance : ((n : Int) - current).natAbs < 10 ^ Limit.digits)
    (hrest : rest.head?.any Char.isDigit = false) :
    resolveAddresses current ('.' :: Numeral.digits n ++ rest)
      = (resolveAddresses current rest).map (distanceText (n - current) ++ ·) := by
  have hzero : ((n : Int) - current - 0).natAbs < 10 ^ Limit.digits := by rwa [Int.sub_zero]
  rw [resolveAddresses_digits hn hrest, encodeDistance_of_lt hzero, Int.sub_zero]
  rfl

end ObjectCode

end ContractAsm
