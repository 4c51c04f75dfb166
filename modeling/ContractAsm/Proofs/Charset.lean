-- SUMMARY: Decoding and encoding in the built-in character sets are inverse to each other.
import ContractAsm.Proofs.Bytecode
import ContractAsm.Text.Codec

/-!
# Character sets

In the character sets that are converted here, bytes are decoded to a text just if they are the
encoding of that text, and a text is encoded just if its characters belong to the set. Line ends
stay as they are just if there is no carriage return, which is the same byte in every character
set.
-/

namespace ContractAsm

/-! ## Line ends -/

namespace Text

/-- No carriage return is left. -/
theorem return_not_mem_unifyNewlines (t : Text) : '\r' ∉ unifyNewlines t := by
  fun_induction unifyNewlines t with
  | case1 => simp
  | case2 rest ih => simpa using ih
  | case3 rest _ ih => simpa using ih
  | case4 c rest _ hc ih =>
    rw [List.mem_cons]
    exact not_or_intro (fun h => hc h.symm) ih

/-- Nothing but line feeds comes in. -/
theorem mem_of_mem_unifyNewlines {t : Text} {c : Char} (h : c ∈ unifyNewlines t) :
    c ∈ t ∨ c = '\n' := by
  fun_induction unifyNewlines t with
  | case1 => cases h
  | case2 rest ih => grind
  | case3 rest _ ih => grind
  | case4 d rest _ _ ih => grind

/-- Without carriage returns there is nothing to unify. -/
theorem unifyNewlines_eq_self {t : Text} (h : '\r' ∉ t) : unifyNewlines t = t := by
  fun_induction unifyNewlines t with
  | case1 => rfl
  | case2 rest => simp at h
  | case3 rest => simp at h
  | case4 c rest _ _ ih => rw [ih fun hmem => h (List.mem_cons_of_mem c hmem)]

end Text

/-! ## Bytes -/

/-- Bytes are decoded just to the text that they encode. -/
theorem Utf8.decode_eq_ok_iff {bytes : Bytes} {t : Text} :
    Utf8.decode bytes = .ok t ↔ Utf8.encode t = bytes := by
  constructor
  · exact encode_of_decodeFrom
  · rintro rfl
    exact decodeFrom_encode t 0

/-- The sequences of other characters hold no byte of ASCII. -/
theorem Utf8.Sequence.mem_ascii_iff {bytes : Bytes} {n : Nat} (h : Sequence bytes n) {b : UInt8}
    (hb : b.toNat < 0x80) : b ∈ bytes ↔ b.toNat = n := by
  cases h with
  | one ha => simp [← UInt8.toNat_inj]
  | two ha hsecond =>
    rw [isContinuation_iff] at hsecond
    simp only [List.mem_cons, List.not_mem_nil, or_false, ← UInt8.toNat_inj]
    omega
  | three ha hsecond hthird =>
    rw [isSecondOfThree_iff] at hsecond
    rw [isContinuation_iff] at hthird
    simp only [List.mem_cons, List.not_mem_nil, or_false, ← UInt8.toNat_inj, payload]
    omega
  | four ha hsecond hthird hfourth =>
    rw [isSecondOfFour_iff] at hsecond
    rw [isContinuation_iff] at hthird hfourth
    simp only [List.mem_cons, List.not_mem_nil, or_false, ← UInt8.toNat_inj, payload]
    omega

/-- Below U+0100, characters and bytes are the same numbers. -/
theorem Charset.widen_eq_iff {bytes : Bytes} {t : Text} :
    widen bytes = t ↔ narrow t = bytes ∧ ∀ c ∈ t, c.toNat < 0x100 := by
  unfold widen narrow
  have hpoint : ∀ b : UInt8, (Char.ofNat b.toNat).toNat = b.toNat := fun b =>
    Utf8.toNat_val_ofNat (.inl (b.toNat_lt.trans (by decide)))
  constructor
  · rintro rfl
    refine ⟨?_, ?_⟩
    · rw [List.map_map]
      exact List.map_id'' (fun b => Utf8.uint8_ofNat_eq (hpoint b)) bytes
    · intro c hc
      obtain ⟨b, -, rfl⟩ := List.mem_map.1 hc
      rw [hpoint]
      exact b.toNat_lt
  · rintro ⟨rfl, ht⟩
    rw [List.map_map]
    conv_rhs => rw [← List.map_id t]
    refine List.map_congr_left fun c hc => ?_
    change Char.ofNat (UInt8.ofNat c.toNat).toNat = c
    rw [Utf8.toNat_uint8_ofNat (ht c hc), Char.ofNat_toNat]

namespace Charset

open Text

variable [Platform] {charset : Charset} {bytes : Bytes} {t : Text}

/-- The characters of a built-in character set. -/
def Holds : Charset → Char → Prop
  | .utf8, _ => True
  | .latin1, c => c.toNat < 0x100
  | .ascii, c => c.toNat < 0x80
  | .further _, _ => False

omit [Platform] in
/-- The characters of ASCII are in every built-in character set. -/
theorem holds_of_lt (h : charset.isBuiltIn = true) {c : Char} (hc : c.toNat < 0x80) :
    charset.Holds c := by
  cases charset with
  | utf8 => exact trivial
  | latin1 => exact hc.trans (by decide)
  | ascii => exact hc
  | further name => cases h

/-- A text has one byte for each character just if all of them are below the bound. -/
theorem encodeNarrow_eq_ok_iff {name : String} {bound : Nat} :
    encodeNarrow name bound t = .ok bytes ↔ narrow t = bytes ∧ ∀ c ∈ t, c.toNat < bound := by
  unfold encodeNarrow checkAgainst
  split
  · next hany =>
    obtain ⟨c, hc, hbound⟩ := List.any_eq_true.1 hany
    refine iff_of_false (fun h => by cases h) fun h => ?_
    exact absurd (h.2 c hc) (Nat.not_lt.2 (by simpa using hbound))
  · next hany =>
    have hall : ∀ c ∈ t, c.toNat < bound := by simpa using hany
    exact ⟨fun h => ⟨Except.ok.inj h, hall⟩, fun h => congrArg Except.ok h.1⟩

/-- Bytes are ASCII just if they are below 0x80. -/
theorem decode_ascii_eq_ok_iff : Charset.ascii.decode bytes = .ok t
    ↔ widen bytes = t ∧ ∀ b ∈ bytes, b.toNat < 0x80 := by
  rw [decode]
  split
  · next b position hfound =>
    have hmem : b ∈ bytes := by
      have hpair := List.mem_map_of_mem (f := Prod.fst) (List.mem_of_find?_eq_some hfound)
      rwa [List.zipIdx_map_fst] at hpair
    have hb : 0x80 ≤ b.toNat := by
      simpa [UInt8.le_iff_toNat_le] using List.find?_some hfound
    simp only [reduceCtorEq, false_iff, not_and, not_forall]
    exact fun _ => ⟨b, hmem, Nat.not_lt.2 hb⟩
  · next hnone =>
    have hall : ∀ b ∈ bytes, b.toNat < 0x80 := by
      intro b hb
      rw [← List.zipIdx_map_fst 0 bytes] at hb
      obtain ⟨⟨b', position⟩, hpair, rfl⟩ := List.mem_map.1 hb
      simpa [UInt8.le_iff_toNat_le] using List.find?_eq_none.1 hnone _ hpair
    rw [Except.ok.injEq]
    exact ⟨fun h => ⟨h, hall⟩, fun h => h.1⟩

/-- Decoding is the inverse of encoding. -/
theorem decode_eq_ok_iff (h : charset.isBuiltIn = true) :
    charset.decode bytes = .ok t ↔ charset.encode t = .ok bytes := by
  cases charset with
  | utf8 =>
    have hdecode : Charset.utf8.decode bytes = .ok t ↔ Utf8.decode bytes = .ok t := by
      rw [decode]
      cases Utf8.decode bytes with
      | error f => simp [Except.mapError]
      | ok s => simp [Except.mapError]
    rw [hdecode, Utf8.decode_eq_ok_iff, encode, Except.ok.injEq]
  | latin1 => rw [decode, encode, encodeNarrow_eq_ok_iff, Except.ok.injEq, widen_eq_iff]
  | ascii =>
    rw [decode_ascii_eq_ok_iff, encode, encodeNarrow_eq_ok_iff, widen_eq_iff]
    constructor
    · rintro ⟨⟨rfl, ht⟩, hall⟩
      refine ⟨rfl, fun c hc => ?_⟩
      have hb := hall _ (List.mem_map_of_mem hc)
      rwa [Utf8.toNat_uint8_ofNat (ht c hc)] at hb
    · rintro ⟨rfl, ht⟩
      have hlarge : ∀ c ∈ t, c.toNat < 0x100 := fun c hc => (ht c hc).trans (by decide)
      refine ⟨⟨rfl, hlarge⟩, fun b hb => ?_⟩
      obtain ⟨c, hc, rfl⟩ := List.mem_map.1 hb
      rw [Utf8.toNat_uint8_ofNat (hlarge c hc)]
      exact ht c hc
  | further name => cases h

/-- A text is encoded just if its characters belong to the set. -/
theorem exists_encode_iff (h : charset.isBuiltIn = true) :
    (∃ bytes, charset.encode t = .ok bytes) ↔ ∀ c ∈ t, charset.Holds c := by
  cases charset with
  | utf8 => exact iff_of_true ⟨_, rfl⟩ fun _ _ => trivial
  | latin1 | ascii =>
    simp only [encode, encodeNarrow_eq_ok_iff]
    exact ⟨fun ⟨_, _, hall⟩ => hall, fun hall => ⟨_, rfl, hall⟩⟩
  | further name => cases h

theorem decodeLines_eq_ok_iff : charset.decodeLines bytes = .ok t
    ↔ ∃ raw, charset.decode bytes = .ok raw ∧ unifyNewlines raw = t := by
  unfold decodeLines
  cases charset.decode bytes with
  | error f => simp [Except.map]
  | ok raw => simp [Except.map]

/-- A carriage return in the bytes is one in the text. -/
theorem return_mem_iff_of_encode (h : charset.isBuiltIn = true)
    (hbytes : charset.encode t = .ok bytes) : 0x0D ∈ bytes ↔ '\r' ∈ t := by
  have hreturn : ∀ c : Char, 13 = c.toNat ↔ '\r' = c := fun c => by
    rw [← Char.toNat_inj]
    rfl
  have hnarrow {name : String} {bound : Nat} (hbound : bound ≤ 0x100)
      (hbytes : encodeNarrow name bound t = .ok bytes) : 0x0D ∈ bytes ↔ '\r' ∈ t := by
    obtain ⟨rfl, hsmall⟩ := encodeNarrow_eq_ok_iff.1 hbytes
    rw [narrow, List.mem_map]
    constructor
    · rintro ⟨c, hc, heq⟩
      have hcode := congrArg UInt8.toNat heq
      rw [Utf8.toNat_uint8_ofNat ((hsmall c hc).trans_le hbound)] at hcode
      rwa [(hreturn c).1 hcode.symm]
    · exact fun hmem => ⟨'\r', hmem, rfl⟩
  cases charset with
  | utf8 =>
    cases hbytes
    change 0x0D ∈ t.flatMap String.utf8EncodeChar ↔ '\r' ∈ t
    rw [List.mem_flatMap]
    constructor
    · rintro ⟨c, hc, hmem⟩
      have hcode := ((Utf8.sequence_encode c).mem_ascii_iff (by decide)).1 hmem
      rwa [(hreturn c).1 hcode]
    · exact fun hmem => ⟨'\r', hmem, by decide⟩
  | latin1 => exact hnarrow (by decide) hbytes
  | ascii => exact hnarrow (by decide) hbytes
  | further name => cases h

end Charset

end ContractAsm
