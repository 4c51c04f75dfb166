-- SUMMARY: The words of a text, and rewriting it word by word.
import ContractAsm.Proofs.Scan

/-!
# Words

The words of a text are its longest runs of word characters. A rewriting that only touches whole
words treats the stretches between two other characters one by one, so a text can be taken apart at
any character that belongs to no word.
-/

namespace ContractAsm.Text

/-! ## Classes of characters by number -/

theorem isUpper_iff {c : Char} : c.isUpper = true ↔ 65 ≤ c.toNat ∧ c.toNat ≤ 90 := by
  unfold Char.isUpper
  simp [UInt32.le_iff_toNat_le]

theorem isLower_iff {c : Char} : c.isLower = true ↔ 97 ≤ c.toNat ∧ c.toNat ≤ 122 := by
  unfold Char.isLower
  simp [UInt32.le_iff_toNat_le]

theorem isDigit_iff {c : Char} : c.isDigit = true ↔ 48 ≤ c.toNat ∧ c.toNat ≤ 57 := by
  unfold Char.isDigit
  simp [UInt32.le_iff_toNat_le]

theorem isAlpha_iff {c : Char} :
    c.isAlpha = true ↔ (65 ≤ c.toNat ∧ c.toNat ≤ 90) ∨ (97 ≤ c.toNat ∧ c.toNat ≤ 122) := by
  unfold Char.isAlpha
  rw [Bool.or_eq_true, isUpper_iff, isLower_iff]

theorem isWordChar_of_isAlpha {c : Char} (h : c.isAlpha = true) : isWordChar c = true := by
  simp [isWordChar, Char.isAlphanum, h]

theorem isWordChar_of_isDigit {c : Char} (h : c.isDigit = true) : isWordChar c = true := by
  simp [isWordChar, Char.isAlphanum, h]

theorem isWordChar_of_isUpper {c : Char} (h : c.isUpper = true) : isWordChar c = true :=
  isWordChar_of_isAlpha (isAlpha_iff.2 (.inl (isUpper_iff.1 h)))

/-- Small letters and digits belong to words. -/
theorem isWordChar_of_small {c : Char} (h : (c.isLower || c.isDigit) = true) :
    isWordChar c = true := by
  rcases Bool.or_eq_true_iff.1 h with h | h
  · exact isWordChar_of_isAlpha (isAlpha_iff.2 (.inr (isLower_iff.1 h)))
  · exact isWordChar_of_isDigit h

theorem isUpper_of_small {c : Char} (h : (c.isLower || c.isDigit) = true) : c.isUpper = false := by
  rw [← Bool.not_eq_true, isUpper_iff]
  rcases Bool.or_eq_true_iff.1 h with h | h
  · have := isLower_iff.1 h
    omega
  · have := isDigit_iff.1 h
    omega

/-- Word characters are in ASCII. -/
theorem toNat_of_isWordChar {c : Char} (h : isWordChar c = true) :
    48 ≤ c.toNat ∧ c.toNat ≤ 122 := by
  rcases Bool.or_eq_true_iff.1 h with h | h
  · rcases Bool.or_eq_true_iff.1 h with h | h
    · have := isAlpha_iff.1 h
      omega
    · have := isDigit_iff.1 h
      omega
  · rw [beq_iff_eq.1 h]
    decide

theorem isBlank_of_isWordChar {c : Char} (h : isWordChar c = true) : isBlank c = false := by
  have hnumber := toNat_of_isWordChar h
  simp [isBlank]
  omega

/-! ## Rows and words -/

/-- A row of word characters. -/
def IsRow (w : Text) : Prop :=
  ∀ c ∈ w, isWordChar c = true

/-- A row of word characters that is not empty. -/
def IsWord (w : Text) : Prop :=
  w ≠ [] ∧ IsRow w

instance (w : Text) : Decidable (IsRow w) :=
  decidable_of_iff (w.all isWordChar = true) List.all_eq_true

instance (w : Text) : Decidable (IsWord w) :=
  inferInstanceAs (Decidable (w ≠ [] ∧ IsRow w))

theorem IsRow.cons {c : Char} {w : Text} (hc : isWordChar c = true) (hw : IsRow w) :
    IsRow (c :: w) :=
  List.forall_mem_cons.2 ⟨hc, hw⟩

theorem IsRow.tail {c : Char} {w : Text} (hw : IsRow (c :: w)) : IsRow w :=
  fun x hx => hw x (List.mem_cons_of_mem c hx)

/-- A row is empty or a word. -/
theorem IsRow.eq_nil_or_isWord {w : Text} (hw : IsRow w) : w = [] ∨ IsWord w := by
  by_cases hne : w = []
  · exact .inl hne
  · exact .inr ⟨hne, hw⟩

/-- Every text is a row of word characters, or starts with one that ends at another character. -/
theorem break_induction {P : Text → Prop} (t : Text) (row : ∀ w, IsRow w → P w)
    (step : ∀ w c y, IsRow w → isWordChar c = false → P y → P (w ++ c :: y)) : P t := by
  -- on the text, with the row `w` that has been read in front of it
  have go : ∀ (t w : Text), IsRow w → P (w ++ t) := by
    intro t
    induction t with
    | nil =>
      intro w hw
      rw [List.append_nil]
      exact row w hw
    | cons c t ih =>
      intro w hw
      cases hc : isWordChar c with
      | true =>
        have hwc : IsRow (w ++ [c]) := by
          intro x hx
          rcases List.mem_append.1 hx with hx | hx
          · exact hw x hx
          · rw [List.mem_singleton.1 hx, hc]
        simpa using ih (w ++ [c]) hwc
      | false => exact step w c t hw hc (ih [] (by simp [IsRow]))
  exact go t [] (by simp [IsRow])

/-- Two rows of word characters that start one text and both end at a break are the same. -/
theorem row_unique {v w r s : Text} (hv : IsRow v) (hw : IsRow w)
    (hr : r.head?.any isWordChar = false) (hs : s.head?.any isWordChar = false)
    (h : v ++ r = w ++ s) : v = w := by
  induction v generalizing w with
  | nil =>
    cases w with
    | nil => rfl
    | cons d w =>
      -- the second row would go on where the first one is at its break
      rw [List.nil_append] at h
      subst h
      have hd := hw d (List.mem_cons_self ..)
      simp [hd] at hr
  | cons c v ih =>
    cases w with
    | nil =>
      rw [List.nil_append] at h
      subst h
      have hc := hv c (List.mem_cons_self ..)
      simp [hc] at hs
    | cons d w =>
      rw [List.cons_append, List.cons_append] at h
      obtain ⟨rfl, htail⟩ := List.cons.inj h
      rw [ih hv.tail hw.tail htail]

/-- Where no word goes on, no digit stands. -/
theorem not_isDigit_head {x : Text} (hx : x.head?.any isWordChar = false) :
    x.head?.any Char.isDigit = false := by
  cases x with
  | nil => rfl
  | cons c x =>
    have hc : isWordChar c = false := by simpa using hx
    cases hdigit : c.isDigit with
    | false => simpa using hdigit
    | true =>
      rw [isWordChar_of_isDigit hdigit] at hc
      cases hc

theorem not_isDigit_head_append {w x : Text} (hw : w.head?.any Char.isDigit = false)
    (hx : x.head?.any isWordChar = false) : (w ++ x).head?.any Char.isDigit = false := by
  cases w with
  | nil => exact not_isDigit_head hx
  | cons c w => exact hw

/-! ## Reading word by word -/

section Reading

variable {β : Type}

/-- What a word gives when its end is reached; between two breaks there may be none. -/
def closeWord (onWord : Text → List β) (word : Text) : List β :=
  if word = [] then [] else onWord word

/-- Reads a text word by word, where a part of its first word has been read already. -/
def readWords (onWord : Text → List β) (onBreak : Char → List β) (word : Text) : Text → List β
  | [] => closeWord onWord word
  | c :: cs =>
    if isWordChar c then readWords onWord onBreak (word ++ [c]) cs
    else closeWord onWord word ++ onBreak c ++ readWords onWord onBreak [] cs

variable (onWord : Text → List β) (onBreak : Char → List β)

/-- Word characters are gathered until a word ends. -/
theorem readWords_row {w : Text} (hw : IsRow w) (v t : Text) :
    readWords onWord onBreak v (w ++ t) = readWords onWord onBreak (v ++ w) t := by
  induction w generalizing v with
  | nil => simp
  | cons c w ih =>
    have hc := hw c (List.mem_cons_self ..)
    rw [List.cons_append, readWords, if_pos hc, ih hw.tail, List.append_assoc,
      List.singleton_append]

/-- A word ends at the first character that belongs to none. -/
theorem readWords_row_break {w : Text} (hw : IsRow w) {c : Char} (hc : isWordChar c = false)
    (y : Text) : readWords onWord onBreak [] (w ++ c :: y)
      = closeWord onWord w ++ onBreak c ++ readWords onWord onBreak [] y := by
  rw [readWords_row onWord onBreak hw, List.nil_append, readWords, if_neg (by simp [hc])]

/-- A text is read on both sides of a break apart. -/
theorem readWords_append_break {c : Char} (hc : isWordChar c = false) (x y : Text) :
    readWords onWord onBreak [] (x ++ c :: y)
      = readWords onWord onBreak [] x ++ onBreak c ++ readWords onWord onBreak [] y := by
  induction x using break_induction with
  | row w hw =>
    have hrow := readWords_row onWord onBreak hw [] []
    rw [List.append_nil, List.nil_append, readWords] at hrow
    rw [readWords_row_break onWord onBreak hw hc, hrow]
  | step w d x hw hd ih =>
    rw [List.append_assoc, List.cons_append, readWords_row_break onWord onBreak hw hd, ih,
      readWords_row_break onWord onBreak hw hd]
    simp only [List.append_assoc]

/-- A word alone is read as one. -/
theorem readWords_word {w : Text} (hw : IsWord w) : readWords onWord onBreak [] w = onWord w := by
  have hrow := readWords_row onWord onBreak hw.2 [] []
  rwa [List.append_nil, List.nil_append, readWords, closeWord, if_neg hw.1] at hrow

end Reading

/-- The words of a text, in order. -/
def words (t : Text) : List Text :=
  readWords (fun w => [w]) (fun _ => []) [] t

/-- Rewrites every word of a text and copies all other characters. -/
def mapWords (g : Text → Text) (t : Text) : Text :=
  readWords g (fun c => [c]) [] t

/-! ## The words of a text -/

@[simp] theorem words_nil : words [] = [] := rfl

/-- The words on the two sides of a break are found apart from each other. -/
theorem words_append_break {c : Char} (hc : isWordChar c = false) (x y : Text) :
    words (x ++ c :: y) = words x ++ words y := by
  rw [words, readWords_append_break _ _ hc, List.append_nil, words, words]

theorem words_cons_break {c : Char} (hc : isWordChar c = false) (y : Text) :
    words (c :: y) = words y :=
  words_append_break hc [] y

theorem IsWord.words_eq {w : Text} (hw : IsWord w) : words w = [w] :=
  readWords_word _ _ hw

/-- The only word of a row is the row itself. -/
theorem eq_of_mem_words_row {v w : Text} (hv : IsRow v) (hw : w ∈ words v) : w = v ∧ IsWord v := by
  rcases hv.eq_nil_or_isWord with rfl | hword
  · simp at hw
  · rw [hword.words_eq, List.mem_singleton] at hw
    exact ⟨hw, hword⟩

/-- The words of a text are words, of its characters. -/
theorem mem_words {t w : Text} (hw : w ∈ words t) : IsWord w ∧ ∀ c ∈ w, c ∈ t := by
  induction t using break_induction with
  | row v hv =>
    obtain ⟨rfl, hword⟩ := eq_of_mem_words_row hv hw
    exact ⟨hword, fun c hc => hc⟩
  | step v c y hv hc ih =>
    rw [words_append_break hc, List.mem_append] at hw
    rcases hw with hw | hw
    · obtain ⟨rfl, hword⟩ := eq_of_mem_words_row hv hw
      exact ⟨hword, fun d hd => List.mem_append_left _ hd⟩
    · obtain ⟨hword, hsub⟩ := ih hw
      exact ⟨hword, fun d hd => List.mem_append_right _ (List.mem_cons_of_mem c (hsub d hd))⟩

/-- A character in front of a text is part of its first word only. -/
theorem mem_words_cons {c : Char} (hc : isWordChar c = true) {t w : Text}
    (hw : w ∈ words (c :: t)) : ∃ v, (∀ d ∈ v, d ∈ t) ∧ (w = c :: v ∨ w = v) := by
  induction t using break_induction with
  | row v hv => exact ⟨v, fun d hd => hd, .inl (eq_of_mem_words_row (hv.cons hc) hw).1⟩
  | step v b y hv hb _ =>
    rw [← List.cons_append, words_append_break hb, List.mem_append] at hw
    rcases hw with hw | hw
    · exact ⟨v, fun d hd => List.mem_append_left _ hd,
        .inl (eq_of_mem_words_row (hv.cons hc) hw).1⟩
    · refine ⟨w, fun d hd => List.mem_append_right _ ?_, .inr rfl⟩
      exact List.mem_cons_of_mem b ((mem_words hw).2 d hd)

/-- A word between two characters that belong to none is one of the words of the text. -/
theorem mem_words_between {u w v : Text} (hw : IsWord w) (hu : u.getLast?.any isWordChar = false)
    (hv : v.head?.any isWordChar = false) : w ∈ words (u ++ (w ++ v)) := by
  have hafter : w ∈ words (w ++ v) := by
    cases v with
    | nil => simp [hw.words_eq]
    | cons c v =>
      have hc : isWordChar c = false := by simpa using hv
      simp [words_append_break hc, hw.words_eq]
  -- what comes in front of the word ends with a break, so it can be read apart
  rcases List.eq_nil_or_concat u with rfl | ⟨u, c, rfl⟩
  · exact hafter
  · have hc : isWordChar c = false := by simpa using hu
    rw [List.concat_eq_append, List.append_assoc, List.singleton_append, words_append_break hc]
    exact List.mem_append_right _ hafter

/-! ## Rewriting word by word -/

variable {g h : Text → Text}

@[simp] theorem mapWords_nil : mapWords g [] = [] := rfl

/-- A word alone is rewritten as a whole. -/
theorem IsWord.mapWords_eq {w : Text} (hw : IsWord w) : mapWords g w = g w :=
  readWords_word _ _ hw

/-- The two sides of a break are rewritten apart from each other. -/
theorem mapWords_append_break {c : Char} (hc : isWordChar c = false) (x y : Text) :
    mapWords g (x ++ c :: y) = mapWords g x ++ c :: mapWords g y := by
  rw [mapWords, readWords_append_break _ _ hc, List.append_assoc, List.singleton_append, mapWords,
    mapWords]

theorem mapWords_cons_break {c : Char} (hc : isWordChar c = false) (y : Text) :
    mapWords g (c :: y) = c :: mapWords g y :=
  mapWords_append_break hc [] y

/-- Two texts are rewritten apart from each other if the second one goes on with no word. -/
theorem mapWords_append_stop {y : Text} (hy : y.head?.any isWordChar = false) (x : Text) :
    mapWords g (x ++ y) = mapWords g x ++ mapWords g y := by
  cases y with
  | nil => simp
  | cons c y =>
    have hc : isWordChar c = false := by simpa using hy
    rw [mapWords_append_break hc, mapWords_cons_break hc]

theorem head?_mapWords {t : Text} (ht : t.head?.any isWordChar = false) :
    (mapWords g t).head? = t.head? := by
  cases t with
  | nil => rfl
  | cons c t =>
    have hc : isWordChar c = false := by simpa using ht
    rw [mapWords_cons_break hc, List.head?_cons, List.head?_cons]

theorem mapWords_row_congr {v : Text} (hv : IsRow v) (hgh : ∀ w ∈ words v, g w = h w) :
    mapWords g v = mapWords h v := by
  rcases hv.eq_nil_or_isWord with rfl | hword
  · rfl
  · rw [hword.mapWords_eq, hword.mapWords_eq]
    exact hgh v (by simp [hword.words_eq])

/-- A rewriting depends on what it makes of the words in the text only. -/
theorem mapWords_congr {t : Text} (hgh : ∀ w ∈ words t, g w = h w) :
    mapWords g t = mapWords h t := by
  induction t using break_induction with
  | row v hv => exact mapWords_row_congr hv hgh
  | step v c y hv hc ih =>
    rw [words_append_break hc] at hgh
    rw [mapWords_append_break hc, mapWords_append_break hc,
      mapWords_row_congr hv (fun w hw => hgh w (List.mem_append_left _ hw)),
      ih (fun w hw => hgh w (List.mem_append_right _ hw))]

theorem mapWords_id (t : Text) : mapWords id t = t := by
  have hrow : ∀ v, IsRow v → mapWords id v = v := by
    intro v hv
    rcases hv.eq_nil_or_isWord with rfl | hword
    · rfl
    · rw [hword.mapWords_eq, id]
  induction t using break_induction with
  | row v hv => exact hrow v hv
  | step v c y hv hc ih => rw [mapWords_append_break hc, hrow v hv, ih]

/-- A rewriting that keeps each word of a text keeps the text. -/
theorem mapWords_eq_self {t : Text} (hg : ∀ w ∈ words t, g w = w) : mapWords g t = t := by
  rw [mapWords_congr (h := id) hg, mapWords_id]

/-- What a word is rewritten to stays between its breaks, so two rewritings are one. -/
theorem mapWords_mapWords (t : Text) :
    mapWords g (mapWords h t) = mapWords (fun w => mapWords g (h w)) t := by
  have hrow : ∀ v, IsRow v →
      mapWords g (mapWords h v) = mapWords (fun w => mapWords g (h w)) v := by
    intro v hv
    rcases hv.eq_nil_or_isWord with rfl | hword
    · rfl
    · rw [hword.mapWords_eq, hword.mapWords_eq]
  induction t using break_induction with
  | row v hv => exact hrow v hv
  | step v c y hv hc ih =>
    rw [mapWords_append_break hc, mapWords_append_break hc, mapWords_append_break hc, hrow v hv, ih]

/-- Rewriting makes no word out of what is none: it keeps every break. -/
theorem isWord_of_isWord_mapWords {t : Text} (ht : IsWord (mapWords g t)) : IsWord t := by
  refine ⟨?_, ?_⟩
  · rintro rfl
    exact ht.1 mapWords_nil
  · intro c hc
    cases hbreak : isWordChar c with
    | true => rfl
    | false =>
      obtain ⟨x, y, rfl⟩ := List.append_of_mem hc
      have hkept := ht.2 c (by rw [mapWords_append_break hbreak]; simp)
      rw [hbreak] at hkept
      cases hkept

/-! ## Recognising one word -/

/-- Recognises a name that stands as a word of its own. -/
def wordRule (name : Text) : Recogniser Unit := fun before t =>
  match name.isPrefixOf? t with
  | none => none
  | some rest =>
    if before.any isWordChar || rest.head?.any isWordChar then none else some ((), name.length)

section WordRule

variable {name : Text} {before : Option Char} {f : Unit → Text}

/-- A name is not recognised inside of a word. -/
theorem wordRule_inside {t : Text} (hb : before.any isWordChar = true) :
    wordRule name before t = none := by
  unfold wordRule
  cases name.isPrefixOf? t with
  | none => rfl
  | some rest => simp [hb]

/-- A name is not recognised at a break. -/
theorem wordRule_break {c : Char} {y : Text} (hn : IsWord name) (hc : isWordChar c = false) :
    wordRule name before (c :: y) = none := by
  unfold wordRule
  cases hp : name.isPrefixOf? (c :: y) with
  | none => rfl
  | some rest =>
    rw [List.isPrefixOf?_eq_some_iff_append_eq] at hp
    cases name with
    | nil => exact absurd rfl hn.1
    | cons d name =>
      obtain ⟨rfl, -⟩ := List.cons.inj hp
      have hd := hn.2 d (List.mem_cons_self ..)
      simp [hc] at hd

/-- At the start of a word the rule matches just if the word is the name. -/
theorem wordRule_row {w v : Text} (hn : IsWord name) (hb : before.any isWordChar = false)
    (hw : IsRow w) (hv : v.head?.any isWordChar = false) :
    wordRule name before (w ++ v) = if w = name then some ((), name.length) else none := by
  unfold wordRule
  cases hp : name.isPrefixOf? (w ++ v) with
  | none =>
    have hne : w ≠ name := by
      rintro rfl
      have hself : w.isPrefixOf? (w ++ v) = some v :=
        List.isPrefixOf?_eq_some_iff_append_eq.2 rfl
      rw [hp] at hself
      cases hself
    rw [if_neg hne]
  | some rest =>
    rw [List.isPrefixOf?_eq_some_iff_append_eq] at hp
    -- the name is a start of the word; it is all of it just if it ends at a break
    cases hr : rest.head?.any isWordChar with
    | false =>
      have hsame := row_unique hn.2 hw hr hv hp
      simp [hb, hr, hsame]
    | true =>
      have hne : w ≠ name := by
        rintro rfl
        rw [List.append_cancel_left hp, hv] at hr
        cases hr
      simp [hr, hne]

/-- Inside of a word nothing is recognised. -/
theorem wordRule_silent_row {c : Char} (hc : isWordChar c = true) {w : Text} (hw : IsRow w)
    (v : Text) : Silent (wordRule name) (some c) w v := by
  induction w generalizing c with
  | nil => exact .nil
  | cons d w ih =>
    exact .cons (wordRule_inside (by simpa using hc))
      (ih (hw d (List.mem_cons_self ..)) hw.tail)

/-- At the start of a word, the word is replaced if it is the name, and copied if it is not. -/
theorem replaceFrom_wordRule_row {w v : Text} (hn : IsWord name)
    (hb : before.any isWordChar = false) (hw : IsRow w) (hv : v.head?.any isWordChar = false) :
    replaceFrom (wordRule name) f before (w ++ v)
      = mapWords (fun w => if w = name then f () else w) w
        ++ replaceFrom (wordRule name) f (behind before w) v := by
  have hrule := wordRule_row hn hb hw hv
  cases w with
  | nil => rfl
  | cons c w =>
    rw [IsWord.mapWords_eq ⟨List.cons_ne_nil c w, hw⟩]
    by_cases hname : c :: w = name
    · rw [if_pos hname, ← hname] at hrule
      rw [if_pos hname, ← hname, replaceFrom_found (List.cons_ne_nil c w) hrule]
    · -- no match starts later on, inside of the word
      rw [if_neg hname] at hrule
      have hsilent : Silent (wordRule name) before (c :: w) v :=
        .cons hrule (wordRule_silent_row (hw c (List.mem_cons_self ..)) hw.tail v)
      rw [if_neg hname, replaceFrom_silent hsilent]

/-- Replacing a name wherever it stands as a word is a rewriting word by word. -/
theorem replaceFrom_wordRule (hn : IsWord name) (hb : before.any isWordChar = false) (t : Text) :
    replaceFrom (wordRule name) f before t
      = mapWords (fun w => if w = name then f () else w) t := by
  induction t using break_induction generalizing before with
  | row w hw =>
    have hrow := replaceFrom_wordRule_row (f := f) (v := []) hn hb hw rfl
    rwa [replaceFrom_nil, List.append_nil, List.append_nil] at hrow
  | step w c y hw hc ih =>
    rw [replaceFrom_wordRule_row hn hb hw (by simpa using hc),
      replaceFrom_cons (wordRule_break hn hc), ih (by simpa using hc), mapWords_append_break hc]

/-- Replacing a name as a word of its own is a rewriting word by word. -/
theorem replaceAll_wordRule (hn : IsWord name) (t : Text) :
    replaceAll (wordRule name) f t = mapWords (fun w => if w = name then f () else w) t :=
  replaceFrom_wordRule hn rfl t

end WordRule

end ContractAsm.Text
