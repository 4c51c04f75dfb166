-- SUMMARY: The digits of strings, and reading them back.
import ContractAsm.Proofs.Charset
import ContractAsm.Proofs.Literal

/-!
# Digits of strings

The digits of a string are those of its characters, one after the other. A character of a single
byte has two, so the digits of a text of such characters are those of its bytes, and reading them in
pairs gives the text back. A character from U+0100 on has more of them, and nothing tells where the
digits of the next one start.
-/

namespace ContractAsm.Literal

open Text

/-- A text in which every character is a single byte. -/
def SingleByte (t : Text) : Prop :=
  ∀ c ∈ t, c.toNat ≤ 0xFF

instance (t : Text) : Decidable (SingleByte t) :=
  decidable_of_iff (t.all (·.toNat ≤ 0xFF) = true) (by simp [SingleByte])

variable {s t : Text}

theorem hexPadded_two_of_lt : ∀ n < 256, hexPadded 2 n =
    [hexDigit (n / 16), hexDigit (n % 16)] := by
  decide +kernel

theorem hexDigit_mem : ∀ n < 16, hexDigit n ∈ "0123456789abcdef".toList := by
  decide

section Digits

variable [Platform]

theorem stringDigits_singleton {c : Char} (hc : c.toNat ≤ 0xFF) :
    stringDigits [c] = [hexDigit (c.toNat / 16), hexDigit (c.toNat % 16)] := by
  have hunit : charUnits c = [c.toNat] := charUnits_of_lt (by omega)
  simp only [stringDigits, units, List.flatMap_cons, List.flatMap_nil, List.append_nil, hunit]
  exact hexPadded_two_of_lt _ (by omega)

theorem SingleByte.stringDigits_eq (h : SingleByte s) :
    stringDigits s = s.flatMap fun c => [hexDigit (c.toNat / 16), hexDigit (c.toNat % 16)] := by
  induction s with
  | nil => rfl
  | cons c s ih =>
    obtain ⟨hc, hs⟩ := List.forall_mem_cons.1 h
    rw [← List.singleton_append, stringDigits_append, stringDigits_singleton hc, ih hs]
    rfl

theorem SingleByte.stringDigits_eq_ofBytes (h : SingleByte s) :
    stringDigits s = ofBytes (Charset.narrow s) := by
  rw [h.stringDigits_eq, Charset.narrow, ofBytes, List.flatMap_map]
  refine List.flatMap_congr fun c hc => ?_
  rw [Utf8.toNat_uint8_ofNat (Nat.lt_succ_of_le (h c hc))]

/-- Reading the digits in pairs, as bytes of characters, gives the text. -/
theorem SingleByte.exists_bytes (h : SingleByte s) :
    ∃ bytes, toBytes (stringDigits s) = .ok bytes ∧ Charset.latin1.decode bytes = .ok s := by
  have hbound : ∀ c ∈ s, c.toNat < 0x100 := fun c hc => Nat.lt_succ_of_le (h c hc)
  refine ⟨Charset.narrow s, ?_, ?_⟩
  · rw [h.stringDigits_eq_ofBytes, toBytes_ofBytes]
  · exact (Charset.decode_eq_ok_iff rfl).2 (Charset.encodeNarrow_eq_ok_iff.2 ⟨rfl, hbound⟩)

theorem SingleByte.eq_of_stringDigits_eq (hs : SingleByte s) (ht : SingleByte t)
    (h : stringDigits s = stringDigits t) : s = t := by
  obtain ⟨bytes, hbytes, hdecode⟩ := hs.exists_bytes
  obtain ⟨bytes', hbytes', hdecode'⟩ := ht.exists_bytes
  rw [h, hbytes'] at hbytes
  cases hbytes
  rw [hdecode] at hdecode'
  cases hdecode'
  rfl

/-- A literal is put together from those of the parts of a text. For a text of single-byte
characters it has two small hexadecimal digits for each of them, which give the text back when they
are read in pairs; so no two such texts have the same literal. -/
theorem encodeString_faithful :
    (∀ s t, ∃ digits, encodeString t = 'x' :: digits
      ∧ encodeString (s ++ t) = encodeString s ++ digits)
    ∧ (∀ s, SingleByte s → ∃ digits, encodeString s = 'x' :: digits
      ∧ digits = (s.flatMap fun c => [hexDigit (c.toNat / 16), hexDigit (c.toNat % 16)])
      ∧ (∀ d ∈ digits, d ∈ "0123456789abcdef".toList)
      ∧ ∃ bytes, toBytes digits = .ok bytes ∧ Charset.latin1.decode bytes = .ok s)
    ∧ ∀ s t, SingleByte s → SingleByte t → encodeString s = encodeString t → s = t := by
  refine ⟨fun s t => ⟨stringDigits t, rfl, ?_⟩, fun s hs => ?_, fun s t hs ht h => ?_⟩
  · rw [encodeString, stringDigits_append, ← List.cons_append, encodeString]
  · refine ⟨stringDigits s, rfl, hs.stringDigits_eq, fun d hd => ?_, hs.exists_bytes⟩
    rw [hs.stringDigits_eq] at hd
    obtain ⟨c, hc, hd⟩ := List.mem_flatMap.1 hd
    have hbyte := hs c hc
    rcases List.mem_cons.1 hd with rfl | hd
    · exact hexDigit_mem _ (by omega)
    · rw [List.mem_singleton.1 hd]
      exact hexDigit_mem _ (by omega)
  · exact hs.eq_of_stringDigits_eq ht (List.cons.inj h).2

end Digits

theorem encodeString_faithful_latin :
    SingleByte "é\x00\"ÿZ".toList ∧ encodeString "é\x00\"ÿZ".toList = "xe90022ff5a".toList
      ∧ encodeString "é\x00\"ÿZ".toList ≠ encodeString "é\x00\"ÿz".toList
      ∧ encodeString ("€".toList ++ "𝄞é".toList)
        = encodeString "€".toList ++ "d834dd1ee9".toList := by
  have hs : SingleByte "é\x00\"ÿZ".toList := by decide
  have ht : SingleByte "é\x00\"ÿz".toList := by decide
  obtain ⟨happend, hdigits, hinjective⟩ := encodeString_faithful
  refine ⟨hs, ?_, fun h => ?_, ?_⟩
  · obtain ⟨digits, hstring, rfl, -⟩ := hdigits _ hs
    rw [hstring]
    decide
  · exact absurd (hinjective _ _ hs ht h) (by decide)
  · obtain ⟨digits, hstring, hjoined⟩ := happend "€".toList "𝄞é".toList
    have hknown : encodeString "𝄞é".toList = 'x' :: "d834dd1ee9".toList := by decide +kernel
    rw [hknown] at hstring
    rw [hjoined, (List.cons.inj hstring).2]

/-- From U+0100 on the digits of two texts can be the same. -/
example : encodeString "\u0123\x04".toList = encodeString "\x12\u0304".toList := by decide +kernel

end ContractAsm.Literal
