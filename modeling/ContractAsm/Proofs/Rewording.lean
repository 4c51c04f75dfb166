-- SUMMARY: What replaces parts of a line consists of word characters.
import ContractAsm.Proofs.Instruction
import ContractAsm.Proofs.Listing
import ContractAsm.Proofs.Source
import ContractAsm.Proofs.Symbol

/-!
# Rewordings

Selectors, instructions, strings, names and addresses are all replaced by words. So whatever a line
goes through on its way to the object code, the characters that come in are word characters, and no
blank comes to the front.
-/

namespace ContractAsm

namespace Text

/-! ## Texts that start with no blank -/

/-- A text that starts with a character other than a blank. -/
def Flush (t : Text) : Prop :=
  ∃ c cs, t = c :: cs ∧ isBlank c = false

/-- What follows does not matter. -/
theorem Flush.append {t : Text} (h : Flush t) (rest : Text) : Flush (t ++ rest) := by
  obtain ⟨c, cs, rfl, hc⟩ := h
  exact ⟨c, cs ++ rest, rfl, hc⟩

theorem IsWord.flush {w : Text} (hw : IsWord w) : Flush w := by
  obtain ⟨c, cs, rfl⟩ := List.exists_cons_of_ne_nil hw.1
  exact ⟨c, cs, rfl, isBlank_of_isWordChar (hw.2 c (List.mem_cons_self ..))⟩

theorem Flush.of_append {t rest : Text} (hne : t ≠ []) (h : Flush (t ++ rest)) : Flush t := by
  obtain ⟨d, ds, rfl⟩ := List.exists_cons_of_ne_nil hne
  obtain ⟨c, cs, hcons, hc⟩ := h
  obtain ⟨rfl, -⟩ := List.cons.inj hcons
  exact ⟨d, ds, rfl, hc⟩

/-! ## Rewordings -/

/-- A text in which stretches of another one are replaced by words. -/
structure Reworded (t t' : Text) : Prop where
  chars : ∀ c ∈ t', c ∈ t ∨ isWordChar c = true
  flush : Flush t → Flush t'

/-- Every text is a rewording of itself. -/
theorem Reworded.refl (t : Text) : Reworded t t :=
  ⟨fun _ hc => .inl hc, id⟩

/-- Rewordings compose. -/
theorem Reworded.trans {t u v : Text} (h : Reworded t u) (h' : Reworded u v) : Reworded t v where
  chars := by
    intro c hc
    rcases h'.chars c hc with hc | hc
    · exact h.chars c hc
    · exact .inr hc
  flush := h'.flush ∘ h.flush

/-- A rewording keeps to one line. -/
theorem Reworded.newline_not_mem {t t' : Text} (h : Reworded t t') (ht : '\n' ∉ t) : '\n' ∉ t' := by
  intro hmem
  rcases h.chars '\n' hmem with hmem | hword
  · exact ht hmem
  · cases hword

/-- The characters that a scan leaves over are those of the text. -/
theorem mem_of_char_mem_scanFrom {α : Type} {rule : Recogniser α} {skip n : Nat}
    {before : Option Char} {t : Text} {c : Char} (h : .char c ∈ scanFrom rule skip n before t) :
    c ∈ t := by
  induction t generalizing skip n before with
  | nil => cases h
  | cons d t ih =>
    cases skip with
    | succ k => exact List.mem_cons_of_mem d (ih h)
    | zero =>
      cases hrule : rule before (d :: t) with
      | some found =>
        simp only [scanFrom, hrule, List.mem_cons, reduceCtorEq, false_or] at h
        exact List.mem_cons_of_mem d (ih h)
      | none =>
        simp only [scanFrom, hrule, List.mem_cons, Piece.char.injEq] at h
        rcases h with rfl | h
        · exact List.mem_cons_self ..
        · exact List.mem_cons_of_mem d (ih h)

/-- A character of the result is one of the text or of a replacement. -/
theorem mem_replaceAll {α : Type} {rule : Recogniser α} {f : α → Text} {t : Text} {c : Char}
    (h : c ∈ replaceAll rule f t) : c ∈ t ∨ ∃ a, c ∈ f a := by
  obtain ⟨p, hp, hc⟩ := List.mem_flatMap.1 h
  cases p with
  | char d =>
    obtain rfl := List.mem_singleton.1 hc
    exact .inl (mem_of_char_mem_scanFrom hp)
  | found start a => exact .inr ⟨a, hc⟩

/-- Replacing by words is a rewording, whatever is replaced. -/
theorem reworded_replaceAll {α : Type} {rule : Recogniser α} {f : α → Text}
    (hf : ∀ a, IsWord (f a)) (t : Text) : Reworded t (replaceAll rule f t) where
  chars := by
    intro c hc
    rcases mem_replaceAll hc with hc | ⟨a, hc⟩
    · exact .inl hc
    · exact .inr ((hf a).2 c hc)
  flush := by
    rintro ⟨c, cs, rfl, hc⟩
    rw [replaceAll, scan, scanFrom]
    split
    · exact (hf _).flush.append _
    · exact ⟨c, _, rfl, hc⟩

/-- Words may also be replaced one by one. -/
theorem reworded_mapWords {g : Text → Text} (hg : ∀ w, IsWord w → IsWord (g w)) (t : Text) :
    Reworded t (mapWords g t) := by
  have hrow : ∀ w, IsRow w → (w = [] ∧ mapWords g w = []) ∨ IsWord (mapWords g w) := by
    intro w hw
    rcases hw.eq_nil_or_isWord with rfl | hw
    · exact .inl ⟨rfl, rfl⟩
    · rw [hw.mapWords_eq]
      exact .inr (hg w hw)
  induction t using break_induction with
  | row w hw =>
    rcases hrow w hw with ⟨rfl, hnil⟩ | hword
    · rw [hnil]
      exact .refl []
    · exact ⟨fun c hc => .inr (hword.2 c hc), fun _ => hword.flush⟩
  | step w c y hw hc ih =>
    rw [mapWords_append_break hc]
    refine ⟨?_, fun hflush => ?_⟩
    · intro d hd
      rcases List.mem_append.1 hd with hd | hd
      · rcases hrow w hw with ⟨-, hnil⟩ | hword
        · rw [hnil] at hd
          cases hd
        · exact .inr (hword.2 d hd)
      · rcases List.mem_cons.1 hd with rfl | hd
        · exact .inl (by simp)
        · rcases ih.chars d hd with hd | hd
          · exact .inl (by simp [hd])
          · exact .inr hd
    · rcases hrow w hw with ⟨rfl, hnil⟩ | hword
      · -- the text starts with the break, which stays
        obtain ⟨b, bs, hcons, hb⟩ := hflush
        obtain ⟨rfl, -⟩ := List.cons.inj hcons
        rw [hnil]
        exact ⟨c, _, rfl, hb⟩
      · exact hword.flush.append _

end Text

/-! ## Literals -/

namespace Literal

open Text

theorem isRow_ofBytes (bytes : Bytes) : IsRow (ofBytes bytes) := by
  have hdigit : ∀ n < 16, isWordChar (hexDigit n) = true := by decide
  intro c hc
  obtain ⟨b, -, hc⟩ := List.mem_flatMap.1 hc
  have hb : b.toNat < 256 := b.toNat_lt
  rcases List.mem_cons.1 hc with rfl | hc
  · exact hdigit _ (by omega)
  · rw [List.mem_singleton.1 hc]
    exact hdigit _ (by omega)

/-- A fingerprint is a row of word characters. -/
theorem isRow_fingerprint (t : Text) : IsRow (fingerprint t) :=
  fun c hc => isRow_ofBytes _ c (List.mem_of_mem_take hc)

/-- A selector is a word. -/
theorem isWord_selector (t : Text) : IsWord (selector t) :=
  ⟨List.cons_ne_nil _ _, .cons (by decide) (isRow_fingerprint t)⟩

/-- A wide selector is a word. -/
theorem isWord_wideSelector (t : Text) : IsWord (wideSelector t) := by
  refine ⟨List.cons_ne_nil _ _, .cons (by decide) ?_⟩
  intro c hc
  rcases List.mem_append.1 hc with hc | hc
  · split at hc
    · exact (by decide : IsRow "00000001".toList) c hc
    · exact isRow_fingerprint t c hc
  · exact (by decide : IsRow "00000000".toList) c hc

/-- The code of a string is a word. -/
theorem isWord_encodeString [Platform] (t : Text) : IsWord (encodeString t) := by
  refine ⟨List.cons_ne_nil _ _, .cons (by decide) fun c hc => ?_⟩
  rw [isWordChar, isAlphanum_of_mem_stringDigits hc, Bool.true_or]

theorem reworded_expandSelectors (t : Text) : Reworded t (expandSelectors t) :=
  (reworded_replaceAll isWord_selector t).trans (reworded_replaceAll isWord_wideSelector _)

theorem reworded_encodeStrings [Platform] (t : Text) : Reworded t (encodeStrings t) :=
  reworded_replaceAll isWord_encodeString t

end Literal

/-! ## Instructions -/

namespace Instruction

open Text

/-- Encoding the mnemonics is a rewording. -/
theorem reworded_encode (t : Text) : Reworded t (encode t) := by
  have hfold : ∀ js ⊆ table, ∀ t, Reworded t (js.foldl (fun line i => i.encodeOne line) t) := by
    intro js
    induction js with
    | nil => exact fun _ t => .refl t
    | cons i js ih =>
      intro hjs t
      have hi : i ∈ table := hjs (List.mem_cons_self ..)
      have hone : Reworded t (i.encodeOne t) :=
        reworded_replaceAll (fun _ => (regular_of_mem hi).isWord_opcode) t
      exact hone.trans (ih (fun j hj => hjs (List.mem_cons_of_mem i hj)) _)
  exact hfold table (List.Subset.refl _) t

end Instruction

/-! ## Addresses -/

namespace ObjectCode

open Text

theorem isWord_distanceText (distance : Int) : IsWord (distanceText distance) := by
  have hdigits : IsWord (Numeral.digits distance.natAbs) :=
    ⟨Numeral.digits_ne_nil, fun c hc => isWordChar_of_isDigit (Numeral.isDigit_of_mem_digits hc)⟩
  unfold distanceText
  split
  · exact ⟨List.cons_ne_nil _ _, .cons (by decide) hdigits.2⟩
  · exact hdigits

/-- Each piece is resolved to itself or to a word. -/
theorem resolvePieces_cons_eq_ok {current : Int} {p : Piece Text} {ps : List (Piece Text)}
    {r : Text} (h : resolvePieces current (p :: ps) = .ok r) :
    ∃ first rest, r = first ++ rest ∧ resolvePieces current ps = .ok rest
      ∧ ((∃ c, p = .char c ∧ first = [c]) ∨ IsWord first) := by
  cases p with
  | char c =>
    rw [resolvePieces_char] at h
    cases hps : resolvePieces current ps with
    | error e =>
      rw [hps] at h
      cases h
    | ok rest =>
      rw [hps] at h
      cases h
      exact ⟨[c], rest, rfl, rfl, .inl ⟨c, rfl, rfl⟩⟩
  | found start digits =>
    obtain ⟨distance, rest, hr, hps⟩ := resolvePieces_found_eq_ok h
    exact ⟨distanceText distance, rest, hr, hps, .inr (isWord_distanceText distance)⟩

/-- A character of the result is left over from the line or part of a word. -/
theorem chars_resolvePieces {current : Int} {ps : List (Piece Text)} {r : Text}
    (h : resolvePieces current ps = .ok r) : ∀ c ∈ r, .char c ∈ ps ∨ isWordChar c = true := by
  induction ps generalizing r with
  | nil =>
    cases h
    exact fun c hc => absurd hc (List.not_mem_nil)
  | cons p ps ih =>
    obtain ⟨first, rest, rfl, hps, hfirst⟩ := resolvePieces_cons_eq_ok h
    intro c hc
    rcases List.mem_append.1 hc with hc | hc
    · rcases hfirst with ⟨d, rfl, rfl⟩ | hword
      · exact .inl (by simp [List.mem_singleton.1 hc])
      · exact .inr (hword.2 c hc)
    · rcases ih hps c hc with hc | hc
      · exact .inl (List.mem_cons_of_mem p hc)
      · exact .inr hc

/-- Resolving the addresses is a rewording. -/
theorem reworded_resolveAddresses {current : Int} {t r : Text}
    (h : resolveAddresses current t = .ok r) : Reworded t r where
  chars := by
    intro c hc
    rcases chars_resolvePieces h c hc with hc | hc
    · exact .inl (mem_of_char_mem_scanFrom hc)
    · exact .inr hc
  flush := by
    rintro ⟨c, cs, rfl, hc⟩
    unfold resolveAddresses scan scanFrom at h
    cases haddress : address none (c :: cs) with
    | none =>
      simp only [haddress] at h
      obtain ⟨first, rest, rfl, -, ⟨d, heq, rfl⟩ | hword⟩ := resolvePieces_cons_eq_ok h
      · cases heq
        exact ⟨c, rest, rfl, hc⟩
      · exact hword.flush.append rest
    | some found =>
      simp only [haddress] at h
      obtain ⟨first, rest, rfl, -, ⟨d, heq, rfl⟩ | hword⟩ := resolvePieces_cons_eq_ok h
      · cases heq
      · exact hword.flush.append rest

end ObjectCode

/-! ## Code of a line -/

namespace Text

/-- A part of a split has no separator, and only characters of the text. -/
theorem mem_splitOn {x : Char} {t w : Text} (h : w ∈ t.splitOn x) :
    x ∉ w ∧ ∀ c ∈ w, c ∈ t := by
  induction t generalizing w with
  | nil =>
    rw [List.splitOn_nil, List.mem_singleton] at h
    simp [h]
  | cons d t ih =>
    obtain ⟨first, rest, hsplit⟩ := List.exists_cons_of_ne_nil (List.splitOn_ne_nil x t)
    have htail : ∀ v ∈ rest, x ∉ v ∧ ∀ c ∈ v, c ∈ d :: t := by
      intro v hv
      obtain ⟨hx, hchars⟩ := ih (hsplit ▸ List.mem_cons_of_mem first hv)
      exact ⟨hx, fun c hc => List.mem_cons_of_mem d (hchars c hc)⟩
    obtain ⟨hx, hchars⟩ := ih (hsplit ▸ List.mem_cons_self ..)
    rw [List.splitOn_cons_eq_if_modifyHead, hsplit] at h
    split at h
    · rcases List.mem_cons.1 h with rfl | h
      · simp
      · rcases List.mem_cons.1 h with rfl | h
        · exact ⟨hx, fun c hc => List.mem_cons_of_mem d (hchars c hc)⟩
        · exact htail w h
    · next hd =>
      rcases List.mem_cons.1 h with rfl | h
      · refine ⟨?_, ?_⟩
        · simpa [hx] using fun heq => hd (by simp [heq])
        · intro c hc
          rcases List.mem_cons.1 hc with rfl | hc
          · exact List.mem_cons_self ..
          · exact List.mem_cons_of_mem d (hchars c hc)
      · exact htail w h

/-- A text splits into one part more than it has separators. -/
theorem length_splitOn (x : Char) (t : Text) : (t.splitOn x).length = t.count x + 1 := by
  induction t with
  | nil => rfl
  | cons d t ih =>
    rw [List.splitOn_cons_eq_if_modifyHead]
    by_cases hd : d = x
    · rw [if_pos (by simpa using hd), List.length_cons, ih, hd, List.count_cons_self]
    · rw [if_neg (by simpa using hd), List.length_modifyHead, ih, List.count_cons_of_ne hd]

theorem newline_not_mem_line {source line : Text} (h : line ∈ lines source) : '\n' ∉ line :=
  (mem_splitOn h).1

theorem exists_trimEnd_append (t : Text) : ∃ rest, t = trimEnd t ++ rest := by
  obtain ⟨blanks, hblanks⟩ := List.dropWhile_suffix (l := t.reverse) isBlank
  refine ⟨blanks.reverse, ?_⟩
  rw [trimEnd, ← List.reverse_append, hblanks, List.reverse_reverse]

theorem flush_trimStart {t : Text} (hne : trimStart t ≠ []) : Flush (trimStart t) := by
  exact ⟨_, _, (List.cons_head_tail hne).symm, List.head_dropWhile_not isBlank hne⟩

/-- A trimmed text starts at the margin. -/
theorem flush_trim {t : Text} (hne : trim t ≠ []) : Flush (trim t) := by
  obtain ⟨blanks, hblanks⟩ := exists_trimEnd_append (trimStart t)
  rw [← trim] at hblanks
  have hstart : Flush (trimStart t) :=
    flush_trimStart (by rw [hblanks]; exact List.append_ne_nil_of_left_ne_nil hne _)
  rw [hblanks] at hstart
  exact hstart.of_append hne

/-- A text is trimmed to nothing just if it is blank. -/
theorem trim_eq_nil_iff {t : Text} : trim t = [] ↔ ∀ c ∈ t, isBlank c = true := by
  have hstart : trimStart t = [] ↔ ∀ c ∈ t, isBlank c = true := List.dropWhile_eq_nil_iff
  rw [trim, trimEnd, List.reverse_eq_nil_iff, List.dropWhile_eq_nil_iff, ← hstart]
  constructor
  · intro hall
    by_contra hne
    obtain ⟨c, cs, hcons, hc⟩ := flush_trimStart hne
    rw [hall c (by simp [hcons])] at hc
    cases hc
  · intro hnil
    simp [hnil]

theorem trim_ne_nil_iff {t : Text} : trim t ≠ [] ↔ ∃ c ∈ t, isBlank c = false := by
  simp [trim_eq_nil_iff]

end Text

namespace Source

open Text

variable {line t : Text}

/-- Stripping a comment cuts off the end of the line. -/
theorem exists_stripComment_append (h : '\n' ∉ line) :
    ∃ rest, line = Listing.stripComment line ++ rest := by
  rw [Listing.stripComment_of_oneLine h]
  split
  · obtain ⟨rest, hrest⟩ := exists_trimEnd_append (line.takeWhile (· != ';'))
    refine ⟨rest ++ line.dropWhile (· != ';'), ?_⟩
    rw [← List.append_assoc, ← hrest, List.takeWhile_append_dropWhile]
  · exact ⟨[], by simp⟩

/-- The code of a line starts with no blank. -/
theorem flush_code? (hline : '\n' ∉ line) (h : code? line = some t) : Flush t := by
  obtain ⟨-, hne, rfl⟩ := code?_eq_some h
  obtain ⟨comment, hcomment⟩ :=
    exists_stripComment_append fun hmem => hline (mem_of_mem_trim hmem)
  have htrim : Flush (trim line) :=
    flush_trim (by rw [hcomment]; exact List.append_ne_nil_of_left_ne_nil hne _)
  rw [hcomment] at htrim
  exact (Literal.reworded_expandSelectors _).flush (htrim.of_append hne)

/-- What a line holds is made of its characters and of word characters. -/
theorem mem_code? (hline : '\n' ∉ line) (h : code? line = some t) {c : Char} (hc : c ∈ t) :
    c ∈ line ∨ isWordChar c = true := by
  obtain ⟨-, -, rfl⟩ := code?_eq_some h
  rcases (Literal.reworded_expandSelectors _).chars c hc with hc | hc
  · obtain ⟨comment, hcomment⟩ :=
      exists_stripComment_append fun hmem => hline (mem_of_mem_trim hmem)
    exact .inl (mem_of_mem_trim (hcomment ▸ List.mem_append_left comment hc))
  · exact .inr hc

theorem newline_not_mem_code? (hline : '\n' ∉ line) (h : code? line = some t) : '\n' ∉ t := by
  intro hmem
  rcases mem_code? hline h hmem with hmem | hword
  · exact hline hmem
  · cases hword

end Source

end ContractAsm
