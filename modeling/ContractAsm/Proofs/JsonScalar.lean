-- SUMMARY: The grammar of JSON strings and numbers, and reading by it.
import ContractAsm.Json.Reader
import ContractAsm.Proofs.Listing

/-!
# Strings and numbers in JSON texts

The grammar of the JSON values that hold no others, said without regard to how they are read.
Reading takes a string to its closing quote, and a number as far as it goes, which in a JSON text is
up to a blank or a mark of punctuation.
-/

namespace ContractAsm.Json

open Text

/-! ## Strings -/

/-- A text that starts with an escape for the second half of a pair. -/
def StartsLow (t : Text) : Prop :=
  ∃ a b c d v rest, t = '\\' :: 'u' :: a :: b :: c :: d :: rest ∧ hexUnit? a b c d = some v
    ∧ isLowSurrogate v = true

/-- What stands between the quotes of a string, and the characters that it stands for. Two halves
of a pair that follow each other are never taken one by one. -/
inductive StringBody [Platform] : Text → Text → Prop where
  | nil : StringBody [] []
  | plain {c : Char} {w s : Text} : c ≠ '"' → c ≠ '\\' → 0x20 ≤ c.toNat → StringBody w s →
      StringBody (c :: w) (c :: s)
  | letter {c e : Char} {w s : Text} : escaped? c = some e → StringBody w s →
      StringBody ('\\' :: c :: w) (e :: s)
  | unit {a b c d : Char} {u : Nat} {w s : Text} : hexUnit? a b c d = some u →
      (isHighSurrogate u = true → ¬StartsLow w) → StringBody w s →
      StringBody ('\\' :: 'u' :: a :: b :: c :: d :: w) (unitChar u :: s)
  | pair {a b c d a' b' c' d' : Char} {u v : Nat} {w s : Text} : hexUnit? a b c d = some u →
      isHighSurrogate u = true → hexUnit? a' b' c' d' = some v → isLowSurrogate v = true →
      StringBody w s →
      StringBody ('\\' :: 'u' :: a :: b :: c :: d :: '\\' :: 'u' :: a' :: b' :: c' :: d' :: w)
        (pairChar u v :: s)

def IsString [Platform] (w s : Text) : Prop :=
  ∃ body, w = '"' :: (body ++ ['"']) ∧ StringBody body s

/-- Skipping characters is dropping them. -/
theorem readStringFrom_eq [Platform] (skip : Nat) (t : Text) :
    readStringFrom skip t = readString (t.drop skip) := by
  induction t generalizing skip with
  | nil =>
    rw [List.drop_nil]
    rfl
  | cons c cs ih =>
    cases skip with
    | zero => rfl
    | succ k => exact ih k

/-- What an escape is, behind its backslash. -/
theorem readEscape_cases [Platform] {t : Text} {e : Char} {n : Nat}
    (h : readEscape t = .ok (e, n)) :
    (∃ c rest, t = c :: rest ∧ n = 1 ∧ escaped? c = some e)
    ∨ (∃ a b c d u rest, t = 'u' :: a :: b :: c :: d :: rest ∧ n = 5 ∧ hexUnit? a b c d = some u
        ∧ (isHighSurrogate u = true → readLowHalf rest = .ok none) ∧ e = unitChar u)
    ∨ ∃ a b c d u rest v, t = 'u' :: a :: b :: c :: d :: rest ∧ n = 11
        ∧ hexUnit? a b c d = some u ∧ isHighSurrogate u = true
        ∧ readLowHalf rest = .ok (some v) ∧ e = pairChar u v := by
  unfold readEscape at h
  split at h
  · cases h
  · split at h
    · cases h
    · next u hu =>
      split at h
      · next hhigh =>
        split at h
        · next v hlow =>
          obtain ⟨he, hn⟩ := Prod.mk.inj (Except.ok.inj h)
          exact .inr (.inr ⟨_, _, _, _, u, _, v, rfl, hn.symm, hu, hhigh, hlow, he.symm⟩)
        · next hlow =>
          obtain ⟨he, hn⟩ := Prod.mk.inj (Except.ok.inj h)
          exact .inr (.inl ⟨_, _, _, _, u, _, rfl, hn.symm, hu, fun _ => hlow, he.symm⟩)
        · cases h
      · next hhigh =>
        obtain ⟨he, hn⟩ := Prod.mk.inj (Except.ok.inj h)
        exact .inr (.inl ⟨_, _, _, _, u, _, rfl, hn.symm, hu, fun h => absurd h hhigh, he.symm⟩)
  · cases h
  · split at h
    · next he =>
      cases h
      exact .inl ⟨_, _, rfl, rfl, he⟩
    · cases h

/-- A low surrogate is read from its escape only. -/
theorem readLowHalf_eq_some {t : Text} {v : Nat} (h : readLowHalf t = .ok (some v)) :
    ∃ a b c d rest, t = '\\' :: 'u' :: a :: b :: c :: d :: rest ∧ hexUnit? a b c d = some v
      ∧ isLowSurrogate v = true := by
  unfold readLowHalf at h
  split at h
  · split at h
    · next hv =>
      split at h
      · next hlow =>
        cases h
        exact ⟨_, _, _, _, _, rfl, hv, hlow⟩
      · cases h
    · cases h
  · cases h

theorem not_startsLow {w rest : Text} (h : readLowHalf (w ++ '"' :: rest) = .ok none) :
    ¬StartsLow w := by
  rintro ⟨a, b, c, d, v, w, rfl, hv, hlow⟩
  -- the closing quote is there at least, behind the four digits
  obtain ⟨e, w', hw⟩ : ∃ e w', w ++ '"' :: rest = e :: w' := by cases w <;> simp
  simp [readLowHalf, hw, hv, hlow] at h

theorem consChar_eq_ok {e : Char} {x : Except Fault (Text × Text)} {s rest : Text}
    (h : consChar e x = .ok (s, rest)) : ∃ s', x = .ok (s', rest) ∧ s = e :: s' := by
  cases x with
  | error f => cases h
  | ok read =>
    cases h
    exact ⟨_, rfl, rfl⟩

/-- An escape in front of the body of a string is the start of one. -/
theorem StringBody.behind_escape [Platform] {t w s rest : Text} {e : Char} {n : Nat}
    (hescape : readEscape t = .ok (e, n)) (hw : t.drop n = w ++ '"' :: rest)
    (hbody : StringBody w s) :
    ∃ w', '\\' :: t = w' ++ '"' :: rest ∧ StringBody w' (e :: s) := by
  rcases readEscape_cases hescape with ⟨c, after, rfl, rfl, he⟩
    | ⟨a, b, c, d, u, after, rfl, rfl, hu, hlow, he⟩
    | ⟨a, b, c, d, u, after, v, rfl, rfl, hu, hhigh, hlow, he⟩
  · obtain rfl : after = w ++ '"' :: rest := hw
    exact ⟨'\\' :: c :: w, rfl, .letter he hbody⟩
  · obtain rfl : after = w ++ '"' :: rest := hw
    rw [he]
    exact ⟨'\\' :: 'u' :: a :: b :: c :: d :: w, rfl,
      .unit hu (fun hhigh => not_startsLow (hlow hhigh)) hbody⟩
  · obtain ⟨a', b', c', d', behind, rfl, hv, hsecond⟩ := readLowHalf_eq_some hlow
    obtain rfl : behind = w ++ '"' :: rest := hw
    rw [he]
    exact ⟨_, rfl, .pair hu hhigh hv hsecond hbody⟩

/-- What is read up to the closing quote is the body of a string. -/
theorem exists_body [Platform] {t s rest : Text} (h : readString t = .ok (s, rest)) :
    ∃ w, t = w ++ '"' :: rest ∧ StringBody w s := by
  -- an escape is up to twelve characters long, so the tail is not what is read next
  induction hn : t.length using Nat.strong_induction_on generalizing t s with
  | _ n ih =>
  subst hn
  cases t with
  | nil => cases h
  | cons c cs =>
    -- one character or escape is read, and the rest is a string that is shorter
    have hnext : ∀ {e k}, consChar e (readString (cs.drop k)) = .ok (s, rest) →
        ∃ s' w, s = e :: s' ∧ cs.drop k = w ++ '"' :: rest ∧ StringBody w s' := by
      intro e k hread
      obtain ⟨s', hcs, rfl⟩ := consChar_eq_ok hread
      have hshorter : (cs.drop k).length < (c :: cs).length := by
        rw [List.length_drop, List.length_cons]
        omega
      obtain ⟨w, hw, hbody⟩ := ih (cs.drop k).length hshorter hcs rfl
      exact ⟨s', w, rfl, hw, hbody⟩
    unfold readString readStringFrom at h
    simp only [readStringFrom_eq] at h
    split at h
    · next hquote =>
      cases h
      exact ⟨[], by rw [hquote]; rfl, .nil⟩
    · next hquote =>
      split at h
      · next hback =>
        split at h
        · next e k hescape =>
          obtain ⟨s', w, rfl, hw, hbody⟩ := hnext h
          rw [hback]
          exact hbody.behind_escape hescape hw
        · cases h
      · next hback =>
        split at h
        · cases h
        · next hcontrol =>
          obtain ⟨s', w, rfl, hw, hbody⟩ := hnext (k := 0) h
          exact ⟨c :: w, by rw [← List.drop_zero (l := cs), hw]; rfl,
            .plain hquote hback (Nat.not_lt.1 hcontrol) hbody⟩

/-- Behind a backslash an escape is read first. -/
theorem readString_backslash [Platform] {t : Text} {e : Char} {n : Nat}
    (h : readEscape t = .ok (e, n)) :
    readString ('\\' :: t) = consChar e (readString (t.drop n)) := by
  rw [← readStringFrom_eq, readString, readStringFrom]
  simp [h]

/-- A letter escapes the character it stands for. -/
theorem readEscape_letter [Platform] {c e : Char} (h : escaped? c = some e) (t : Text) :
    readEscape (c :: t) = .ok (e, 1) := by
  have hu : c ≠ 'u' := by
    rintro rfl
    cases h
  unfold readEscape
  split
  · next heq => cases heq
  · next heq => exact absurd (List.cons.inj heq).1 hu
  · next heq => exact absurd (List.cons.inj heq).1 hu
  · next heq =>
    cases heq
    rw [h]

/-- An escape by four digits that is no first half, or is not followed by a second one. -/
theorem readEscape_unit [Platform] {a b c d : Char} {u : Nat} {t : Text}
    (hu : hexUnit? a b c d = some u)
    (ht : t ≠ []) (hlow : isHighSurrogate u = true → readLowHalf t = .ok none) :
    readEscape ('u' :: a :: b :: c :: d :: t) = .ok (unitChar u, 5) := by
  obtain ⟨e, t, rfl⟩ := List.exists_cons_of_ne_nil ht
  simp only [readEscape, hu]
  split
  · next hhigh => rw [hlow hhigh]
  · rfl

/-- Two surrogates escape one character. -/
theorem readEscape_pair [Platform] {a b c d : Char} {u v : Nat} {t : Text}
    (hu : hexUnit? a b c d = some u)
    (hhigh : isHighSurrogate u = true) (ht : t ≠ []) (hlow : readLowHalf t = .ok (some v)) :
    readEscape ('u' :: a :: b :: c :: d :: t) = .ok (pairChar u v, 11) := by
  obtain ⟨e, t, rfl⟩ := List.exists_cons_of_ne_nil ht
  simp only [readEscape, hu, if_pos hhigh, hlow]

theorem readLowHalf_escape {a b c d : Char} {v : Nat} {t : Text} (hv : hexUnit? a b c d = some v)
    (ht : t ≠ []) :
    readLowHalf ('\\' :: 'u' :: a :: b :: c :: d :: t)
      = .ok (if isLowSurrogate v then some v else none) := by
  obtain ⟨e, t, rfl⟩ := List.exists_cons_of_ne_nil ht
  simp only [readLowHalf, hv]

/-- Unless the body starts with a low surrogate, none is read. -/
theorem StringBody.readLowHalf_eq_none [Platform] {w s : Text} (h : StringBody w s)
    (hlow : ¬StartsLow w)
    (rest : Text) : readLowHalf (w ++ '"' :: rest) = .ok none := by
  cases h with
  | nil => rfl
  | plain hquote hback hcontrol hbody =>
    unfold readLowHalf
    split
    · next heq => exact absurd (List.cons.inj heq).1 hback
    · rfl
  | letter he hbody =>
    unfold readLowHalf
    split
    · next heq =>
      -- no letter of an escape is the mark of four digits
      obtain rfl := (List.cons.inj (List.cons.inj heq).2).1
      cases he
    · rfl
  | @unit a b c d u w s hu _ hbody =>
    have hu' : isLowSurrogate u ≠ true := fun hu' => hlow ⟨a, b, c, d, u, w, rfl, hu, hu'⟩
    exact (readLowHalf_escape hu (by simp)).trans (by rw [if_neg hu'])
  | @pair a b c d a' b' c' d' u v w s hu hhigh hv hsecond hbody =>
    have hu' : isLowSurrogate u ≠ true := fun hu' => hlow ⟨a, b, c, d, u, _, rfl, hu, hu'⟩
    exact (readLowHalf_escape hu (by simp)).trans (by rw [if_neg hu'])

/-- The body of a string is read up to the closing quote. -/
theorem StringBody.readString [Platform] {w s : Text} (h : StringBody w s) (rest : Text) :
    readString (w ++ '"' :: rest) = .ok (s, rest) := by
  induction h with
  | nil => rfl
  | @plain c w s hquote hback hcontrol _ ih =>
    have hstep : Json.readString (c :: (w ++ '"' :: rest))
        = consChar c (Json.readString (w ++ '"' :: rest)) := by
      rw [Json.readString, readStringFrom, if_neg hquote, if_neg hback, if_neg (by omega),
        readStringFrom_eq, List.drop_zero]
    exact hstep.trans (congrArg (consChar c) ih)
  | letter he _ ih =>
    exact (readString_backslash (readEscape_letter he _)).trans (congrArg (consChar _) ih)
  | unit hu hlow hbody ih =>
    refine (readString_backslash (readEscape_unit hu (by simp) fun hhigh => ?_)).trans ?_
    · exact hbody.readLowHalf_eq_none (hlow hhigh) rest
    · exact congrArg (consChar _) ih
  | @pair a b c d a' b' c' d' u v w s hu hhigh hv hlow _ ih =>
    have hsecond : readLowHalf ('\\' :: 'u' :: a' :: b' :: c' :: d' :: (w ++ '"' :: rest))
        = .ok (some v) := by
      rw [readLowHalf_escape hv (by simp), if_pos hlow]
    exact (readString_backslash (readEscape_pair hu hhigh (by simp) hsecond)).trans
      (congrArg (consChar _) ih)

/-! ## Numbers -/

def IsDigits (w : Text) : Prop :=
  w ≠ [] ∧ ∀ c ∈ w, c.isDigit = true

/-- The digits before the point: no other digit follows a zero in front. -/
def IsWhole (w : Text) : Prop :=
  IsDigits w ∧ (w.head? = some '0' → w = ['0'])

/-- The fraction of a number, which may be absent. -/
inductive IsFraction : Text → Option Text → Prop where
  | absent : IsFraction [] none
  | present {ds : Text} : IsDigits ds → IsFraction ('.' :: ds) (some ds)

/-- A sign, which may be absent. -/
inductive IsSign : Text → Bool → Prop where
  | absent : IsSign [] false
  | plus : IsSign ['+'] false
  | minus : IsSign ['-'] true

/-- The exponent of a number, which may be absent. -/
inductive IsExponent : Text → Option (Bool × Text) → Prop where
  | absent : IsExponent [] none
  | present {mark : Char} {sign ds : Text} {negative : Bool} : mark = 'e' ∨ mark = 'E' →
      IsSign sign negative → IsDigits ds → IsExponent (mark :: (sign ++ ds)) (some (negative, ds))

/-- The sign in front of a number. -/
def minus (negative : Bool) : Text :=
  if negative then ['-'] else []

/-- A number and its parts. -/
def IsNumber (w : Text) (n : NumberParts) : Prop :=
  ∃ f e, w = minus n.negative ++ (n.whole ++ (f ++ e)) ∧ IsWhole n.whole ∧ IsFraction f n.fraction
    ∧ IsExponent e n.exponent

/-- A value that is neither a string nor a container. -/
def IsScalar (w : Text) (v : Json) : Prop :=
  (w, v) ∈ constants ∨ ∃ n, IsNumber w n ∧ n.value = .ok v

/-! ### What is read is a number -/

theorem takeWhile_isDigits {t ds : Text} (h : t.takeWhile Char.isDigit = ds) (hne : ds ≠ []) :
    IsDigits ds ∧ t = ds ++ t.dropWhile Char.isDigit := by
  subst h
  exact ⟨⟨hne, fun c hc => List.mem_takeWhile_imp hc⟩, List.takeWhile_append_dropWhile.symm⟩

/-- What is split off first is a whole part. -/
theorem isWhole_of_splitWhole {t whole rest : Text} (h : splitWhole t = some (whole, rest)) :
    t = whole ++ rest ∧ IsWhole whole := by
  unfold splitWhole at h
  split at h
  · cases h
    exact ⟨rfl, ⟨by simp, by simp⟩, fun _ => rfl⟩
  · next hzero =>
    split at h
    · cases h
    · next hne =>
      cases h
      obtain ⟨hdigits, ht⟩ := takeWhile_isDigits rfl hne
      refine ⟨ht, hdigits, fun hhead => ?_⟩
      obtain ⟨ds, hds⟩ := List.head?_eq_some_iff.1 hhead
      rw [hds] at ht
      exact (hzero _ ht).elim

/-- What is split off next is a fraction, or nothing. -/
theorem isFraction_splitFraction (t : Text) :
    ∃ w, t = w ++ (splitFraction t).2 ∧ IsFraction w (splitFraction t).1 := by
  unfold splitFraction
  split
  · split
    · exact ⟨[], rfl, .absent⟩
    · next hne =>
      obtain ⟨hdigits, ht⟩ := takeWhile_isDigits rfl hne
      exact ⟨_, congrArg ('.' :: ·) ht, .present hdigits⟩
  · exact ⟨[], rfl, .absent⟩

theorem isSign_splitSign (t : Text) :
    ∃ w, t = w ++ (Numeral.splitSign t).2 ∧ IsSign w (Numeral.splitSign t).1 := by
  unfold Numeral.splitSign
  split
  · exact ⟨['-'], rfl, .minus⟩
  · exact ⟨['+'], rfl, .plus⟩
  · exact ⟨[], rfl, .absent⟩

/-- What is split off last is an exponent, or nothing. -/
theorem isExponent_splitExponent (t : Text) :
    ∃ w, t = w ++ (splitExponent t).2 ∧ IsExponent w (splitExponent t).1 := by
  unfold splitExponent
  split
  · exact ⟨[], rfl, .absent⟩
  · next c t =>
    split
    · next hmark =>
      obtain ⟨sign, ht, hsign⟩ := isSign_splitSign t
      dsimp only
      split
      · exact ⟨[], rfl, .absent⟩
      · next hne =>
        obtain ⟨hdigits, hrest⟩ := takeWhile_isDigits rfl hne
        refine ⟨_, ?_, .present hmark hsign hdigits⟩
        rw [List.cons_append, List.append_assoc, ← hrest, ← ht]
    · exact ⟨[], rfl, .absent⟩

/-- Splits the parts of a number behind its sign off the front of a text. -/
def splitParts (negative : Bool) (t : Text) : Option (NumberParts × Text) :=
  (splitWhole t).map fun whole =>
    let fraction := splitFraction whole.2
    let exponent := splitExponent fraction.2
    (⟨negative, whole.1, fraction.1, exponent.1⟩, exponent.2)

theorem splitNumber_minus (t : Text) : splitNumber ('-' :: t) = splitParts true t := by
  simp only [splitNumber, splitParts]
  cases splitWhole t <;> rfl

theorem splitNumber_of_ne {t : Text} (h : t.head? ≠ some '-') :
    splitNumber t = splitParts false t := by
  unfold splitNumber splitParts
  split
  · next heq =>
    split at heq
    · exact absurd rfl h
    · cases heq
      cases splitWhole t <;> rfl

theorem isNumber_of_splitParts {negative : Bool} {t rest : Text} {n : NumberParts}
    (h : splitParts negative t = some (n, rest)) :
    ∃ w, t = w ++ rest ∧ IsNumber (minus negative ++ w) n := by
  obtain ⟨⟨whole, t'⟩, hwhole, heq⟩ := Option.map_eq_some_iff.1 h
  obtain ⟨ht, hwhole⟩ := isWhole_of_splitWhole hwhole
  obtain ⟨f, ht', hfraction⟩ := isFraction_splitFraction t'
  obtain ⟨e, hrest, hexponent⟩ := isExponent_splitExponent (splitFraction t').2
  obtain ⟨hn, hrest'⟩ := Prod.mk.inj heq
  dsimp only at hrest'
  subst hn
  refine ⟨whole ++ (f ++ e), ?_, f, e, rfl, hwhole, hfraction, hexponent⟩
  rw [List.append_assoc, List.append_assoc, ← hrest', ← hrest, ← ht', ← ht]

/-- What is split off is a number. -/
theorem isNumber_of_splitNumber {t rest : Text} {n : NumberParts}
    (h : splitNumber t = some (n, rest)) : ∃ w, t = w ++ rest ∧ IsNumber w n := by
  by_cases hhead : t.head? = some '-'
  · obtain ⟨t, rfl⟩ := List.head?_eq_some_iff.1 hhead
    rw [splitNumber_minus] at h
    obtain ⟨w, rfl, hw⟩ := isNumber_of_splitParts h
    exact ⟨'-' :: w, rfl, hw⟩
  · rw [splitNumber_of_ne hhead] at h
    obtain ⟨w, rfl, hw⟩ := isNumber_of_splitParts h
    exact ⟨w, rfl, hw⟩

/-! ### A number is read as far as it goes -/

/-- The characters that may follow a value. -/
def stops : Text :=
  [' ', '\t', '\n', '\r', ',', '}', ']']

/-- What follows a value: the end of the text, a blank or a mark of punctuation. -/
def Stops (rest : Text) : Prop :=
  ∀ c ∈ rest.head?, c ∈ stops

/-- A number ends where none of its characters can follow. -/
theorem Stops.any_eq_false {rest : Text} (h : Stops rest) {p : Char → Bool}
    (hp : stops.any p = false) : rest.head?.any p = false := by
  cases rest with
  | nil => rfl
  | cons c rest => exact Bool.eq_false_iff.2 (List.any_eq_false.1 hp c (h c rfl))

theorem IsDigits.exists_cons {w : Text} (h : IsDigits w) :
    ∃ d ds, w = d :: ds ∧ d.isDigit = true := by
  obtain ⟨d, ds, rfl⟩ := List.exists_cons_of_ne_nil h.1
  exact ⟨d, ds, rfl, h.2 d (List.mem_cons_self ..)⟩

variable {rest : Text}

/-- Of a text that starts with a row of digits, just the row is taken. -/
theorem IsDigits.takeWhile_append {w : Text} (h : IsDigits w)
    (hrest : rest.head?.any Char.isDigit = false) :
    (w ++ rest).takeWhile Char.isDigit = w ∧ (w ++ rest).dropWhile Char.isDigit = rest :=
  ⟨takeWhile_append_stop h.2 hrest, dropWhile_append_stop h.2 hrest⟩

/-- A whole part is split off up to the next character that is no digit. -/
theorem IsWhole.splitWhole_append {w : Text} (h : IsWhole w)
    (hrest : rest.head?.any Char.isDigit = false) : splitWhole (w ++ rest) = some (w, rest) := by
  obtain ⟨hdigits, hzero⟩ := h
  obtain ⟨htake, hdrop⟩ := hdigits.takeWhile_append hrest
  obtain ⟨d, ds, rfl, -⟩ := hdigits.exists_cons
  unfold splitWhole
  split
  · next heq =>
    obtain ⟨rfl, rfl⟩ := List.cons.inj heq
    cases hzero rfl
    rfl
  · rw [htake, hdrop]

/-- A fraction is split off as a whole. -/
theorem IsFraction.splitFraction_append {w : Text} {f : Option Text} (h : IsFraction w f)
    (hrest : rest.head?.any Char.isDigit = false) (hpoint : rest.head? ≠ some '.') :
    splitFraction (w ++ rest) = (f, rest) := by
  cases h with
  | absent =>
    unfold splitFraction
    split
    · next heq => exact absurd (congrArg List.head? heq) hpoint
    · rfl
  | present hdigits =>
    obtain ⟨htake, hdrop⟩ := hdigits.takeWhile_append hrest
    obtain ⟨d, ds, rfl, -⟩ := hdigits.exists_cons
    rw [List.cons_append, splitFraction, htake, hdrop]

theorem IsSign.splitSign_append {w ds : Text} {negative : Bool} (h : IsSign w negative)
    (hds : IsDigits ds) : Numeral.splitSign (w ++ (ds ++ rest)) = (negative, ds ++ rest) := by
  cases h with
  | plus => rfl
  | minus => rfl
  | absent =>
    obtain ⟨d, ds, rfl, hd⟩ := hds.exists_cons
    unfold Numeral.splitSign
    split
    · next heq =>
      obtain ⟨rfl, -⟩ := List.cons.inj heq
      cases hd
    · next heq =>
      obtain ⟨rfl, -⟩ := List.cons.inj heq
      cases hd
    · rfl

/-- An exponent is split off as a whole. -/
theorem IsExponent.splitExponent_append {w : Text} {e : Option (Bool × Text)}
    (h : IsExponent w e) (hrest : rest.head?.any Char.isDigit = false)
    (hmark : rest.head?.any (fun c => c == 'e' || c == 'E') = false) :
    splitExponent (w ++ rest) = (e, rest) := by
  cases h with
  | absent =>
    cases rest with
    | nil => rfl
    | cons c rest =>
      have hc : ¬(c = 'e' ∨ c = 'E') := by simpa using hmark
      exact if_neg hc
  | @present mark sign ds negative hm hsign hdigits =>
    obtain ⟨htake, hdrop⟩ := hdigits.takeWhile_append hrest
    rw [List.cons_append, List.append_assoc, splitExponent, if_pos hm,
      hsign.splitSign_append hdigits]
    obtain ⟨d, ds, rfl, -⟩ := hdigits.exists_cons
    simp only [htake, hdrop]

/-- The three parts of a number are split off one after the other. -/
theorem splitParts_append {negative : Bool} {whole f e : Text} {fraction : Option Text}
    {exponent : Option (Bool × Text)} (hwhole : IsWhole whole) (hfraction : IsFraction f fraction)
    (hexponent : IsExponent e exponent) (hrest : Stops rest) :
    splitParts negative (whole ++ (f ++ (e ++ rest)))
      = some (⟨negative, whole, fraction, exponent⟩, rest) := by
  -- neither the digits before the point nor those behind it go on into the next part
  have hbehind : (e ++ rest).head?.any (fun c => c.isDigit || c == '.') = false := by
    cases hexponent with
    | absent => exact hrest.any_eq_false (by decide)
    | present hmark => rcases hmark with rfl | rfl <;> rfl
  have hdigit : (e ++ rest).head?.any Char.isDigit = false := by
    cases hhead : (e ++ rest).head? <;> simp_all
  have hpoint : (e ++ rest).head? ≠ some '.' := by
    intro hhead
    rw [hhead] at hbehind
    cases hbehind
  have hfront : (f ++ (e ++ rest)).head?.any Char.isDigit = false := by
    cases hfraction with
    | absent => exact hdigit
    | present => rfl
  simp only [splitParts, hwhole.splitWhole_append hfront, Option.map_some,
    hfraction.splitFraction_append hdigit hpoint,
    hexponent.splitExponent_append (hrest.any_eq_false (by decide))
      (hrest.any_eq_false (by decide))]

/-- A number is split off as a whole. -/
theorem IsNumber.splitNumber_append {w : Text} {n : NumberParts} (h : IsNumber w n)
    (hrest : Stops rest) : splitNumber (w ++ rest) = some (n, rest) := by
  obtain ⟨f, e, rfl, hwhole, hfraction, hexponent⟩ := h
  obtain ⟨negative, whole, fraction, exponent⟩ := n
  rw [List.append_assoc, List.append_assoc, List.append_assoc]
  cases negative with
  | true => exact (splitNumber_minus _).trans (splitParts_append hwhole hfraction hexponent hrest)
  | false =>
    have hhead : (whole ++ (f ++ (e ++ rest))).head? ≠ some '-' := by
      obtain ⟨d, ds, rfl, hd⟩ := hwhole.1.exists_cons
      intro hhead
      cases hhead
      cases hd
    exact (splitNumber_of_ne hhead).trans (splitParts_append hwhole hfraction hexponent hrest)

/-! ### Scalars -/

/-- A number has a digit among its first two characters. -/
theorem IsNumber.exists_digit {w : Text} {n : NumberParts} (h : IsNumber w n) (rest : Text) :
    ∃ d ∈ (w ++ rest).take 2, d.isDigit = true := by
  obtain ⟨f, e, rfl, hwhole, -, -⟩ := h
  obtain ⟨d, ds, hds, hd⟩ := hwhole.1.exists_cons
  rw [hds, minus]
  split
  · exact ⟨d, by simp, hd⟩
  · exact ⟨d, by simp, hd⟩

/-- What is read is a number or a constant. -/
theorem isScalar_of_readScalar {t : Text} {v : Json} (h : readScalar t = .ok (v, rest)) :
    ∃ w, t = w ++ rest ∧ IsScalar w v := by
  unfold readScalar at h
  split at h
  · next found hfound =>
    cases h
    obtain ⟨⟨name, value⟩, hmem, hprefix⟩ := List.exists_of_findSome?_eq_some hfound
    obtain ⟨rest, hrest, heq⟩ := Option.map_eq_some_iff.1 hprefix
    cases heq
    exact ⟨name, (List.isPrefixOf?_eq_some_iff_append_eq.1 hrest).symm, .inl hmem⟩
  · split at h
    · cases h
    · next n rest' hsplit =>
      split at h
      · next hvalue =>
        cases h
        obtain ⟨w, ht, hnumber⟩ := isNumber_of_splitNumber hsplit
        exact ⟨w, ht, .inr ⟨n, hnumber, hvalue⟩⟩
      · cases h

/-- A number or a constant is read as a whole. -/
theorem IsScalar.readScalar_append {w : Text} {v : Json} (h : IsScalar w v) (hrest : Stops rest) :
    readScalar (w ++ rest) = .ok (v, rest) := by
  rcases h with hconstant | ⟨n, hnumber, hvalue⟩
  · simp only [constants, List.mem_cons, List.not_mem_nil, or_false] at hconstant
    rcases hconstant with heq | heq | heq | heq | heq | heq <;> cases heq <;> rfl
  · have hnames : ∀ name ∈ constants.map (·.1), 2 ≤ name.length
        ∧ (name.take 2).any Char.isDigit = false := by decide
    unfold readScalar
    split
    · next hfound =>
      -- the named values are tried first, and `-Infinity` starts like a number
      obtain ⟨⟨name, value⟩, hmem, hprefix⟩ := List.exists_of_findSome?_eq_some hfound
      obtain ⟨rest', hprefix, -⟩ := Option.map_eq_some_iff.1 hprefix
      obtain ⟨hlength, hnondigit⟩ := hnames name (List.mem_map_of_mem hmem)
      obtain ⟨d, hmem, hd⟩ := hnumber.exists_digit rest
      rw [← List.isPrefixOf?_eq_some_iff_append_eq.1 hprefix,
        List.take_append_of_le_length hlength] at hmem
      exact absurd hd (List.any_eq_false.1 hnondigit d hmem)
    · simp only [hnumber.splitNumber_append hrest, hvalue]

end ContractAsm.Json
