-- SUMMARY: Bytecode and object code are taken to each other without loss.
import ContractAsm.Bytecode
import ContractAsm.Proofs.Word

/-!
# Bytecode and object code

A text has one row of bytes, and a row of bytes one plain row of pairs of digits. Reading gives back
what was written, and what can be read differs from what would be written by blanks and capital
letters only. The reader of bytes refuses whatever is not a row of the sequences below.
-/

namespace ContractAsm

/-! ## Pairs of digits -/

namespace Text

/-- A row of pairs in its plain form: without blanks, and in small letters. -/
def plainPairs (t : Text) : Text :=
  (t.filter (!isAsciiBlank ·)).map Char.toLower

theorem hexValue?_hexDigit : ∀ n < 16, hexValue? (hexDigit n) = some n := by
  decide

theorem toNat_hexDigit_lt : ∀ n < 16, (hexDigit n).toNat < 0x80 := by
  decide

/-- Hexadecimal digits are in ASCII. -/
theorem toNat_lt_of_hexValue? {c : Char} {n : Nat} (h : hexValue? c = some n) : c.toNat < 0x80 := by
  unfold hexValue? at h
  split at h
  · next hdigit =>
    have hle := (isDigit_iff.1 hdigit).2
    omega
  · split at h
    · next hsmall =>
      have hle : c.toNat ≤ 'f'.toNat := hsmall.2
      have hf : 'f'.toNat = 0x66 := rfl
      omega
    · split at h
      · next hcapital =>
        have hle : c.toNat ≤ 'F'.toNat := hcapital.2
        have hf : 'F'.toNat = 0x46 := rfl
        omega
      · cases h

/-- A digit is no blank, and its small form is written for its value. -/
theorem hexDigit_of_hexValue? {c : Char} {n : Nat} (h : hexValue? c = some n) :
    n < 16 ∧ hexDigit n = c.toLower ∧ isAsciiBlank c = false := by
  have hall : ∀ k < 0x80, (hexValue? (Char.ofNat k)).all fun n =>
      decide (n < 16 ∧ hexDigit n = (Char.ofNat k).toLower
        ∧ isAsciiBlank (Char.ofNat k) = false) := by
    decide +kernel
  have hc := hall c.toNat (toNat_lt_of_hexValue? h)
  rw [Char.ofNat_toNat, h] at hc
  exact of_decide_eq_true hc

theorem ofBytes_cons (b : UInt8) (bytes : Bytes) :
    ofBytes (b :: bytes) = hexDigit (b.toNat / 16) :: hexDigit (b.toNat % 16) :: ofBytes bytes :=
  rfl

/-- Two digits are read as one byte. -/
theorem readPairs_pair {c d : Char} {high low : Nat} (hc : hexValue? c = some high)
    (hd : hexValue? d = some low) (position : Nat) (ds : Text) :
    readPairs position (c :: d :: ds)
      = (readPairs (position + 2) ds).map (UInt8.ofNat (high * 16 + low) :: ·) := by
  rw [readPairs.eq_def]
  simp only [hc, hd, (hexDigit_of_hexValue? hc).2.2, Bool.false_eq_true, if_false]

/-- Bytes are read from the digits that are written for them. -/
theorem readPairs_ofBytes (bytes : Bytes) (position : Nat) :
    readPairs position (ofBytes bytes) = .ok bytes := by
  induction bytes generalizing position with
  | nil => rfl
  | cons b bytes ih =>
    have hb : b.toNat < 256 := b.toNat_lt
    have hhigh : b.toNat / 16 < 16 := by omega
    have hlow : b.toNat % 16 < 16 := by omega
    have hjoin : b.toNat / 16 * 16 + b.toNat % 16 = b.toNat := by omega
    rw [ofBytes_cons, readPairs_pair (hexValue?_hexDigit _ hhigh) (hexValue?_hexDigit _ hlow), ih,
      hjoin, UInt8.ofNat_toNat]
    rfl

/-- What can be read starts with a blank or with a pair of digits. -/
theorem readPairs_cons_eq_ok {position : Nat} {c : Char} {cs : Text} {bytes : Bytes}
    (h : readPairs position (c :: cs) = .ok bytes) :
    (isAsciiBlank c = true ∧ readPairs (position + 1) cs = .ok bytes)
    ∨ ∃ d ds high low rest, cs = d :: ds ∧ hexValue? c = some high ∧ hexValue? d = some low
      ∧ readPairs (position + 2) ds = .ok rest
      ∧ bytes = UInt8.ofNat (high * 16 + low) :: rest := by
  rw [readPairs.eq_def] at h
  by_cases hblank : isAsciiBlank c = true
  · simp only [hblank, if_true] at h
    exact .inl ⟨hblank, h⟩
  · cases hhigh : hexValue? c with
    | none => simp [hblank, hhigh] at h
    | some high =>
      cases cs with
      | nil => simp [hblank, hhigh] at h
      | cons d ds =>
        cases hlow : hexValue? d with
        | none => simp [hblank, hhigh, hlow] at h
        | some low =>
          cases hread : readPairs (position + 2) ds with
          | error f => simp [hblank, hhigh, hlow, hread, Except.map] at h
          | ok rest =>
            simp only [if_neg hblank, hhigh, hlow, hread] at h
            cases h
            exact .inr ⟨d, ds, high, low, rest, rfl, rfl, hlow, hread, rfl⟩

/-- What is read from two digits is written as the same digits, in small letters. -/
theorem ofBytes_pair {c d : Char} {high low : Nat} (hhigh : hexValue? c = some high)
    (hlow : hexValue? d = some low) (rest : Bytes) :
    ofBytes (UInt8.ofNat (high * 16 + low) :: rest) = c.toLower :: d.toLower :: ofBytes rest := by
  obtain ⟨hhighlt, hc, -⟩ := hexDigit_of_hexValue? hhigh
  obtain ⟨hlowlt, hd, -⟩ := hexDigit_of_hexValue? hlow
  have htoNat : (UInt8.ofNat (high * 16 + low)).toNat = high * 16 + low := by
    rw [UInt8.toNat_ofNat']
    omega
  have hdiv : (high * 16 + low) / 16 = high := by omega
  have hmod : (high * 16 + low) % 16 = low := by omega
  rw [ofBytes_cons, htoNat, hdiv, hmod, hc, hd]

/-- What is read is written in the plain form. -/
theorem ofBytes_of_readPairs {position : Nat} {t : Text} {bytes : Bytes}
    (h : readPairs position t = .ok bytes) : ofBytes bytes = plainPairs t := by
  -- a step reads one character or two, so the induction is on the length
  induction hlength : t.length using Nat.strongRecOn generalizing position t bytes with
  | ind n ih =>
    cases t with
    | nil =>
      cases h
      rfl
    | cons c cs =>
      rw [List.length_cons] at hlength
      rcases readPairs_cons_eq_ok h with
        ⟨hblank, hread⟩ | ⟨d, ds, high, low, rest, rfl, hhigh, hlow, hread, rfl⟩
      · rw [ih cs.length (by omega) hread rfl]
        simp [plainPairs, hblank]
      · rw [List.length_cons] at hlength
        rw [ofBytes_pair hhigh hlow, ih ds.length (by omega) hread rfl]
        simp [plainPairs, (hexDigit_of_hexValue? hhigh).2.2, (hexDigit_of_hexValue? hlow).2.2]

theorem readPairs_of_toBytes {t : Text} {bytes : Bytes} (h : toBytes t = .ok bytes) :
    readPairs 0 t = .ok bytes := by
  unfold toBytes at h
  split at h
  · cases h
  · exact h

theorem toBytes_ofBytes (bytes : Bytes) : toBytes (ofBytes bytes) = .ok bytes := by
  have hascii : (ofBytes bytes).findIdx? (0x7F < ·.toNat) = none := by
    rw [List.findIdx?_eq_none_iff]
    intro c hc
    obtain ⟨b, -, hc⟩ := List.mem_flatMap.1 hc
    have hb : b.toNat < 256 := b.toNat_lt
    have hlt : c.toNat < 0x80 := by
      rcases List.mem_cons.1 hc with rfl | hc
      · exact toNat_hexDigit_lt _ (by omega)
      · rw [List.mem_singleton.1 hc]
        exact toNat_hexDigit_lt _ (by omega)
    simpa using Nat.le_of_lt_succ hlt
  rw [toBytes, hascii, readPairs_ofBytes]

end Text

/-! ## Sequences of bytes -/

namespace Utf8

theorem not_lt_iff {a b : UInt8} : ¬ a < b ↔ b.toNat ≤ a.toNat :=
  UInt8.not_lt.trans UInt8.le_iff_toNat_le

theorem isContinuation_iff {b : UInt8} :
    isContinuation b = true ↔ 0x80 ≤ b.toNat ∧ b.toNat ≤ 0xBF := by
  simp [isContinuation, UInt8.le_iff_toNat_le]

/-- Behind two of the leading bytes the second byte is restricted, against overlong sequences and
surrogates. -/
theorem isSecondOfThree_iff {a b : UInt8} : isSecondOfThree a b = true
    ↔ (0x80 ≤ b.toNat ∧ b.toNat ≤ 0xBF) ∧ (a.toNat = 0xE0 → 0xA0 ≤ b.toNat)
      ∧ (a.toNat = 0xED → b.toNat ≤ 0x9F) := by
  simp [isSecondOfThree, isContinuation_iff, UInt8.le_iff_toNat_le, ← UInt8.toNat_inj, and_assoc,
    Decidable.imp_iff_not_or]

/-- Behind two other leading bytes it is restricted against overlong sequences and code points that
are too large. -/
theorem isSecondOfFour_iff {a b : UInt8} : isSecondOfFour a b = true
    ↔ (0x80 ≤ b.toNat ∧ b.toNat ≤ 0xBF) ∧ (a.toNat = 0xF0 → 0x90 ≤ b.toNat)
      ∧ (a.toNat = 0xF4 → b.toNat ≤ 0x8F) := by
  simp [isSecondOfFour, isContinuation_iff, UInt8.le_iff_toNat_le, ← UInt8.toNat_inj, and_assoc,
    Decidable.imp_iff_not_or]

/-- The byte sequences that stand for characters, with their code points. -/
inductive Sequence : Bytes → Nat → Prop where
  | one {a : UInt8} (ha : a.toNat < 0x80) : Sequence [a] a.toNat
  | two {a b : UInt8} (ha : 0xC2 ≤ a.toNat ∧ a.toNat < 0xE0) (hb : isContinuation b = true) :
    Sequence [a, b] (a.toNat % 0x20 * 0x40 + payload b)
  | three {a b c : UInt8} (ha : 0xE0 ≤ a.toNat ∧ a.toNat < 0xF0) (hb : isSecondOfThree a b = true)
      (hc : isContinuation c = true) :
    Sequence [a, b, c] ((a.toNat % 0x10 * 0x40 + payload b) * 0x40 + payload c)
  | four {a b c d : UInt8} (ha : 0xF0 ≤ a.toNat ∧ a.toNat < 0xF5) (hb : isSecondOfFour a b = true)
      (hc : isContinuation c = true) (hd : isContinuation d = true) :
    Sequence [a, b, c, d]
      (((a.toNat % 0x08 * 0x40 + payload b) * 0x40 + payload c) * 0x40 + payload d)

theorem toNat_val_ofNat {n : Nat} (h : n.isValidChar) : (Char.ofNat n).val.toNat = n := by
  rw [Char.ofNat, dif_pos h]
  rfl

theorem uint8_ofNat_eq {n : Nat} {b : UInt8} (h : n = b.toNat) : UInt8.ofNat n = b := by
  rw [h, UInt8.ofNat_toNat]

/-- A sequence is what its character is encoded as. -/
theorem Sequence.encode_eq {bytes : Bytes} {n : Nat} (h : Sequence bytes n) :
    String.utf8EncodeChar (Char.ofNat n) = bytes := by
  cases h with
  | @one a ha =>
    have hvalid : a.toNat.isValidChar := .inl (by omega)
    simp only [String.utf8EncodeChar, toNat_val_ofNat hvalid]
    rw [if_pos (by omega), UInt8.ofNat_toNat]
  | @two a b ha hb =>
    have hb := isContinuation_iff.1 hb
    unfold payload
    have hvalid : (a.toNat % 0x20 * 0x40 + b.toNat % 0x40).isValidChar := .inl (by omega)
    simp only [String.utf8EncodeChar, toNat_val_ofNat hvalid]
    rw [if_neg (by omega), if_pos (by omega), uint8_ofNat_eq (b := a) (by omega),
      uint8_ofNat_eq (b := b) (by omega)]
  | @three a b c ha hb hc =>
    have hb := isSecondOfThree_iff.1 hb
    have hc := isContinuation_iff.1 hc
    unfold payload
    have hvalid : ((a.toNat % 0x10 * 0x40 + b.toNat % 0x40) * 0x40
        + c.toNat % 0x40).isValidChar := by
      unfold Nat.isValidChar
      omega
    simp only [String.utf8EncodeChar, toNat_val_ofNat hvalid]
    rw [if_neg (by omega), if_neg (by omega), if_pos (by omega), uint8_ofNat_eq (b := a) (by omega),
      uint8_ofNat_eq (b := b) (by omega), uint8_ofNat_eq (b := c) (by omega)]
  | @four a b c d ha hb hc hd =>
    have hb := isSecondOfFour_iff.1 hb
    have hc := isContinuation_iff.1 hc
    have hd := isContinuation_iff.1 hd
    unfold payload
    have hvalid : (((a.toNat % 0x08 * 0x40 + b.toNat % 0x40) * 0x40 + c.toNat % 0x40) * 0x40
        + d.toNat % 0x40).isValidChar := by
      unfold Nat.isValidChar
      omega
    simp only [String.utf8EncodeChar, toNat_val_ofNat hvalid]
    rw [if_neg (by omega), if_neg (by omega), if_neg (by omega), uint8_ofNat_eq (b := a) (by omega),
      uint8_ofNat_eq (b := b) (by omega), uint8_ofNat_eq (b := c) (by omega),
      uint8_ofNat_eq (b := d) (by omega)]

theorem toNat_uint8_ofNat {n : Nat} (h : n < 0x100) : (UInt8.ofNat n).toNat = n :=
  UInt8.toNat_ofNat_of_lt' h

theorem isContinuation_ofNat {n : Nat} (h : n < 0x40) :
    isContinuation (UInt8.ofNat (n + 128)) = true := by
  rw [isContinuation_iff, toNat_uint8_ofNat (by omega)]
  omega

section Encode

variable {v : Nat}

/-- A code point up to U+007F is one byte. -/
theorem sequence_one (hv : v ≤ 0x7F) : Sequence [UInt8.ofNat v] v := by
  have ha : (UInt8.ofNat v).toNat = v := toNat_uint8_ofNat (by omega)
  have hseq := Sequence.one (a := UInt8.ofNat v) (by omega)
  rwa [ha] at hseq

/-- A code point up to U+07FF is two bytes. -/
theorem sequence_two (hlow : 0x7F < v) (hhigh : v ≤ 0x7FF) :
    Sequence [UInt8.ofNat (v / 64 % 32 + 192), UInt8.ofNat (v % 64 + 128)] v := by
  have ha : (UInt8.ofNat (v / 64 % 32 + 192)).toNat = _ := toNat_uint8_ofNat (by omega)
  have hb : (UInt8.ofNat (v % 64 + 128)).toNat = _ := toNat_uint8_ofNat (by omega)
  have hseq := Sequence.two (a := UInt8.ofNat (v / 64 % 32 + 192)) (by omega)
    (isContinuation_ofNat (Nat.mod_lt v (by decide)))
  have hpoint : (v / 64 % 32 + 192) % 0x20 * 0x40 + (v % 64 + 128) % 0x40 = v := by omega
  rwa [payload, ha, hb, hpoint] at hseq

/-- A code point up to U+FFFF is three bytes. -/
theorem sequence_three (hlow : 0x7FF < v) (hhigh : v ≤ 0xFFFF) (hvalid : v.isValidChar) :
    Sequence [UInt8.ofNat (v / 4096 % 16 + 224), UInt8.ofNat (v / 64 % 64 + 128),
      UInt8.ofNat (v % 64 + 128)] v := by
  have ha : (UInt8.ofNat (v / 4096 % 16 + 224)).toNat = _ := toNat_uint8_ofNat (by omega)
  have hb : (UInt8.ofNat (v / 64 % 64 + 128)).toNat = _ := toNat_uint8_ofNat (by omega)
  have hc : (UInt8.ofNat (v % 64 + 128)).toNat = _ := toNat_uint8_ofNat (by omega)
  -- a surrogate would start with ED and go on above 9F
  have hsecond : isSecondOfThree (UInt8.ofNat (v / 4096 % 16 + 224))
      (UInt8.ofNat (v / 64 % 64 + 128)) = true := by
    unfold Nat.isValidChar at hvalid
    rw [isSecondOfThree_iff]
    omega
  have hseq := Sequence.three (by omega) hsecond (isContinuation_ofNat (Nat.mod_lt v (by decide)))
  have hpoint : ((v / 4096 % 16 + 224) % 0x10 * 0x40 + (v / 64 % 64 + 128) % 0x40) * 0x40
      + (v % 64 + 128) % 0x40 = v := by omega
  rwa [payload, payload, ha, hb, hc, hpoint] at hseq

/-- Any other code point is four bytes. -/
theorem sequence_four (hlow : 0xFFFF < v) (hvalid : v.isValidChar) :
    Sequence [UInt8.ofNat (v / 262144 % 8 + 240), UInt8.ofNat (v / 4096 % 64 + 128),
      UInt8.ofNat (v / 64 % 64 + 128), UInt8.ofNat (v % 64 + 128)] v := by
  have hhigh : v < 0x110000 := by
    unfold Nat.isValidChar at hvalid
    omega
  have ha : (UInt8.ofNat (v / 262144 % 8 + 240)).toNat = _ := toNat_uint8_ofNat (by omega)
  have hb : (UInt8.ofNat (v / 4096 % 64 + 128)).toNat = _ := toNat_uint8_ofNat (by omega)
  have hc : (UInt8.ofNat (v / 64 % 64 + 128)).toNat = _ := toNat_uint8_ofNat (by omega)
  have hd : (UInt8.ofNat (v % 64 + 128)).toNat = _ := toNat_uint8_ofNat (by omega)
  have hsecond : isSecondOfFour (UInt8.ofNat (v / 262144 % 8 + 240))
      (UInt8.ofNat (v / 4096 % 64 + 128)) = true := by
    rw [isSecondOfFour_iff]
    omega
  have hseq := Sequence.four (by omega) hsecond
    (isContinuation_ofNat (Nat.mod_lt (v / 64) (by decide)))
    (isContinuation_ofNat (Nat.mod_lt v (by decide)))
  have hpoint : (((v / 262144 % 8 + 240) % 0x08 * 0x40 + (v / 4096 % 64 + 128) % 0x40) * 0x40
      + (v / 64 % 64 + 128) % 0x40) * 0x40 + (v % 64 + 128) % 0x40 = v := by omega
  rwa [payload, payload, payload, ha, hb, hc, hd, hpoint] at hseq

end Encode

/-- Every character is encoded as a sequence that stands for it. -/
theorem sequence_encode (c : Char) : Sequence (String.utf8EncodeChar c) c.toNat := by
  have hvalid : c.toNat.isValidChar := c.valid
  unfold String.utf8EncodeChar
  change Sequence (if c.toNat ≤ 0x7F then _ else _) c.toNat
  split
  · next hone => exact sequence_one hone
  · next hone =>
    split
    · next htwo => exact sequence_two (Nat.lt_of_not_le hone) htwo
    · next htwo =>
      split
      · next hthree => exact sequence_three (Nat.lt_of_not_le htwo) hthree hvalid
      · next hthree => exact sequence_four (Nat.lt_of_not_le hthree) hvalid

/-- A sequence in front of other bytes is decoded to its character. -/
theorem Sequence.decodeFrom_append {bytes : Bytes} {n : Nat} (h : Sequence bytes n) (position : Nat)
    (rest : Bytes) : decodeFrom position (bytes ++ rest)
      = (decodeFrom (position + bytes.length) rest).map (Char.ofNat n :: ·) := by
  cases h with
  | @one a ha =>
    have hone : a < 0x80 := UInt8.lt_iff_toNat_lt.2 ha
    rw [List.singleton_append, decodeFrom.eq_def]
    simp only [hone, if_true]
    rfl
  | @two a b ha hb =>
    have hone : ¬ a < 0x80 := not_lt_iff.2 (Nat.le_trans (by decide) ha.1)
    have hbound : ¬ a < 0xC2 := not_lt_iff.2 (Nat.le_trans (by decide) ha.1)
    have htwo : a < 0xE0 := UInt8.lt_iff_toNat_lt.2 ha.2
    rw [List.cons_append, decodeFrom.eq_def]
    simp only [List.singleton_append, hone, hbound, htwo, hb, if_true, if_false]
    rfl
  | @three a b c ha hb hc =>
    have hone : ¬ a < 0x80 := not_lt_iff.2 (Nat.le_trans (by decide) ha.1)
    have hbound : ¬ a < 0xC2 := not_lt_iff.2 (Nat.le_trans (by decide) ha.1)
    have htwo : ¬ a < 0xE0 := not_lt_iff.2 (Nat.le_trans (by decide) ha.1)
    have hthree : a < 0xF0 := UInt8.lt_iff_toNat_lt.2 ha.2
    rw [List.cons_append, decodeFrom.eq_def]
    simp only [List.cons_append, List.nil_append, hone, hbound, htwo, hthree, hb, hc, if_true,
      if_false]
    rfl
  | @four a b c d ha hb hc hd =>
    have hone : ¬ a < 0x80 := not_lt_iff.2 (Nat.le_trans (by decide) ha.1)
    have hbound : ¬ a < 0xC2 := not_lt_iff.2 (Nat.le_trans (by decide) ha.1)
    have htwo : ¬ a < 0xE0 := not_lt_iff.2 (Nat.le_trans (by decide) ha.1)
    have hthree : ¬ a < 0xF0 := not_lt_iff.2 (Nat.le_trans (by decide) ha.1)
    have hfour : a < 0xF5 := UInt8.lt_iff_toNat_lt.2 ha.2
    rw [List.cons_append, decodeFrom.eq_def]
    simp only [List.cons_append, List.nil_append, hone, hbound, htwo, hthree, hfour, hb, hc, hd,
      if_true, if_false]
    rfl

/-- A text is decoded from its bytes. -/
theorem decodeFrom_encode (s : Text) (position : Nat) : decodeFrom position (encode s) = .ok s := by
  induction s generalizing position with
  | nil => rfl
  | cons c s ih =>
    have hencode : encode (c :: s) = String.utf8EncodeChar c ++ encode s := rfl
    rw [hencode, (sequence_encode c).decodeFrom_append, ih, Char.ofNat_toNat]
    rfl

/-- A sequence that was decoded is encoded again in front of the rest. -/
theorem Sequence.encode_of_map {bytes rest : Bytes} {n : Nat} (hbytes : Sequence bytes n)
    {x : Except Fault Text} {s : Text} (h : x.map (Char.ofNat n :: ·) = .ok s)
    (hrest : ∀ s, x = .ok s → encode s = rest) : encode s = bytes ++ rest := by
  cases x with
  | error f => cases h
  | ok t =>
    cases h
    rw [← hrest t rfl, ← hbytes.encode_eq]
    rfl

/-- Whatever is decoded is the encoding of its text. -/
theorem encode_of_decodeFrom {position : Nat} {bytes : Bytes} {s : Text}
    (h : decodeFrom position bytes = .ok s) : encode s = bytes := by
  fun_induction decodeFrom position bytes generalizing s with
  | case1 position =>
    cases h
    rfl
  | case2 position a rest hone ih =>
    exact (Sequence.one (UInt8.lt_iff_toNat_lt.1 hone)).encode_of_map h fun _ => ih
  | case5 position a _ hbound htwo b rest hb ih =>
    have ha : 0xC2 ≤ a.toNat ∧ a.toNat < 0xE0 := ⟨not_lt_iff.1 hbound, UInt8.lt_iff_toNat_lt.1 htwo⟩
    exact (Sequence.two ha hb).encode_of_map h fun _ => ih
  | case9 position a _ _ htwo hthree b hb c rest hc ih =>
    have ha : 0xE0 ≤ a.toNat ∧ a.toNat < 0xF0 := ⟨not_lt_iff.1 htwo, UInt8.lt_iff_toNat_lt.1 hthree⟩
    exact (Sequence.three ha hb hc).encode_of_map h fun _ => ih
  | case15 position a _ _ _ hthree hfour b hb c hc d rest hd ih =>
    have ha : 0xF0 ≤ a.toNat ∧ a.toNat < 0xF5 :=
      ⟨not_lt_iff.1 hthree, UInt8.lt_iff_toNat_lt.1 hfour⟩
    exact (Sequence.four ha hb hc hd).encode_of_map h fun _ => ih
  | _ => cases h

end Utf8

/-! ## Bytecode -/

namespace Bytecode

open Text

theorem decode_encode (s : Text) : decode (encode s) = .ok s := by
  rw [decode, encode, toBytes_ofBytes]
  exact congrArg (Except.mapError Fault.utf8) (Utf8.decodeFrom_encode s 0)

/-- The bytes of a bytecode are those of its object code. -/
theorem toBytes_of_decode {b s : Text} (h : decode b = .ok s) :
    toBytes b = .ok (Utf8.encode s) := by
  unfold decode at h
  cases hbytes : toBytes b with
  | error f =>
    rw [hbytes] at h
    cases h
  | ok bytes =>
    rw [hbytes] at h
    cases hdecode : Utf8.decode bytes with
    | error f =>
      simp only [Except.mapError, bind, Except.bind, hdecode] at h
      cases h
    | ok t =>
      simp only [Except.mapError, bind, Except.bind, hdecode] at h
      cases h
      rw [Utf8.encode_of_decodeFrom hdecode]

/-- The content hash is the digest of the bytes that the digits stand for. -/
theorem contentHash_of_toBytes {b : Text} {bytes : Bytes} (h : toBytes b = .ok bytes) :
    contentHash b = .ok (ofBytes (Digest.Ripemd160.hash bytes)) := by
  rw [contentHash, h]
  rfl

/-- Decoding undoes encoding. What can be decoded is, up to blanks and capital letters, the encoding
of its object code, and has the same content hash: the digest of the bytes of the object code. -/
theorem encode_decode (s : Text) : decode (encode s) = .ok s
    ∧ ∀ b, decode b = .ok s → encode s = plainPairs b ∧ contentHash b = contentHash (encode s)
      ∧ contentHash b = .ok (ofBytes (Digest.Ripemd160.hash (Utf8.encode s))) := by
  refine ⟨decode_encode s, fun b hb => ?_⟩
  have hbytes := toBytes_of_decode hb
  have hhash := contentHash_of_toBytes hbytes
  have hhash' := contentHash_of_toBytes (toBytes_ofBytes (Utf8.encode s))
  exact ⟨ofBytes_of_readPairs (readPairs_of_toBytes hbytes), hhash.trans hhash'.symm, hhash⟩

/-- A character of each length, in pairs of both cases with blanks between them. -/
theorem encode_decode_mixed :
    decode "24 C3a9\n\tE282AC F09F9880 ".toList = .ok "$é€😀".toList
      ∧ encode "$é€😀".toList = "24c3a9e282acf09f9880".toList
      ∧ contentHash "24 C3a9\n\tE282AC F09F9880 ".toList
        = contentHash "24c3a9e282acf09f9880".toList := by
  have hdecode : decode "24 C3a9\n\tE282AC F09F9880 ".toList = .ok "$é€😀".toList := by
    decide +kernel
  have hplain : plainPairs "24 C3a9\n\tE282AC F09F9880 ".toList
      = "24c3a9e282acf09f9880".toList := by
    decide +kernel
  obtain ⟨-, hall⟩ := encode_decode "$é€😀".toList
  obtain ⟨hencode, hhash, -⟩ := hall _ hdecode
  rw [hplain] at hencode
  rw [hencode] at hhash
  exact ⟨hdecode, hencode, hhash⟩

end Bytecode

end ContractAsm
