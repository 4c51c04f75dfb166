-- SUMMARY: Selectors and quoted strings in a line, and the digits of strings.
import ContractAsm.Literal
import ContractAsm.Proofs.Scan

/-!
# Literals in a line

Selectors and strings are the only things that a quote can start, so a line without quotes holds
neither. A string between two quotes is replaced by its digits, each of which is a hexadecimal one.
-/

namespace ContractAsm.Literal

open Text

variable {before : Option Char} {line : Text}

/-! ## Selectors -/

/-- A call has two quotes, and a closing bracket behind the second one. -/
theorem call_eq_some {name t argument : Text} {n : Nat}
    (h : call name before t = some (argument, n)) :
    ∃ rest, t = name ++ '(' :: '"' :: argument ++ '"' :: ')' :: rest := by
  unfold call at h
  split at h
  · cases h
  · next rest hrest =>
    rw [List.isPrefixOf?_eq_some_iff_append_eq] at hrest
    simp only at h
    split at h
    · next tail htail =>
      obtain ⟨hargument, -⟩ := Prod.mk.inj (Option.some.inj h)
      refine ⟨tail, ?_⟩
      have hsplit := List.takeWhile_append_dropWhile (p := (· != '"')) (l := rest)
      rw [hargument, htail] at hsplit
      rw [← hrest, ← hsplit]
      simp
    · cases h

/-- A line in which nowhere two quotes come before a closing bracket. -/
def NoCall (line : Text) : Prop :=
  ∀ x y rest, line ≠ x ++ '"' :: y ++ '"' :: ')' :: rest

namespace NoCall

/-- Without a quote there is no call. -/
theorem of_no_quote (h : '"' ∉ line) : NoCall line := by
  rintro x y rest rfl
  exact h (by simp)

/-- One string between texts without quotes is no argument of a call, unless a bracket follows. -/
theorem quoted {x t y : Text} (hx : '"' ∉ x) (ht : '"' ∉ t) (hy : '"' ∉ y)
    (hbracket : y.head? ≠ some ')') : NoCall (x ++ '"' :: (t ++ '"' :: y)) := by
  intro x' y' rest h
  have hsplit : (x ++ '"' :: t) ++ '"' :: y = (x' ++ '"' :: y') ++ '"' :: ')' :: rest := by
    simpa using h
  -- the quote in front of the bracket is the last one, or it comes before that
  rcases List.append_eq_append_iff.1 hsplit with ⟨s, hs, hlast⟩ | ⟨s, hs, hlast⟩
  · cases s with
    | nil => exact hbracket (by simp [(List.cons.inj hlast).2])
    | cons c s => exact hy (by simp [(List.cons.inj hlast).2])
  · cases s with
    | nil => exact hbracket (by simp [← (List.cons.inj hlast).2])
    | cons c s =>
      obtain ⟨rfl, -⟩ := List.cons.inj hlast
      obtain ⟨hx', -, -⟩ := (List.append_cons_inj_of_notMem hx ht).1 hs
      exact hx (by simp [hx'])

/-- No selector is recognised in such a line. -/
theorem silent (h : NoCall line) (name : Text) : Silent (call name) none line [] := by
  intro u v huv _
  cases hcall : call name (behind none u) (v ++ []) with
  | none => rfl
  | some found =>
    obtain ⟨argument, n⟩ := found
    obtain ⟨rest, hv⟩ := call_eq_some hcall
    refine absurd ?_ (h (u ++ name ++ ['(']) argument rest)
    rw [List.append_nil] at hv
    rw [huv, hv]
    simp

theorem replaceAll_call (h : NoCall line) (name : Text) (f : Text → Text) :
    replaceAll (call name) f line = line :=
  replaceFrom_eq_self (h.silent name)

theorem expandSelectors_eq (h : NoCall line) : expandSelectors line = line := by
  rw [expandSelectors, h.replaceAll_call, h.replaceAll_call]

theorem arguments_eq_nil (h : NoCall line) (name : Text) : arguments name line = [] := by
  rw [arguments, scan_silent (h.silent name), List.filterMap_map]
  exact List.filterMap_eq_nil_iff.2 fun _ _ => rfl

theorem selectorArguments_eq_nil (h : NoCall line) : selectorArguments line = [] := by
  rw [selectorArguments, h.replaceAll_call, h.arguments_eq_nil, h.arguments_eq_nil,
    List.append_nil]

end NoCall

/-- Arguments can be hashed just if there is no half in them. -/
theorem checkArguments_eq_ok_iff [Platform] {ts : List Text} :
    checkArguments ts = .ok () ↔ ∀ t ∈ ts, t.any isHalf = false := by
  unfold checkArguments
  induction ts with
  | nil => simp [pure, Except.pure]
  | cons t ts ih =>
    rw [List.forM, List.forall_mem_cons, ← ih]
    cases h : t.any isHalf with
    | true =>
      rw [checkHalves_of_any h]
      simp [bind, Except.bind, Except.map]
    | false =>
      rw [checkHalves_of_any_eq_false h]
      simp [bind, Except.bind, Except.map]

/-- What cannot be hashed is the first argument with a half in it. -/
theorem find?_of_checkArguments [Platform] {ts : List Text} {f : EncodeFault}
    (h : checkArguments ts = .error f) :
    ∃ t, ts.find? (·.any isHalf) = some t ∧ f = halfFault t := by
  unfold checkArguments at h
  induction ts with
  | nil => cases h
  | cons t ts ih =>
    rw [List.forM] at h
    cases hhalf : t.any isHalf with
    | true =>
      rw [checkHalves_of_any hhalf] at h
      cases h
      exact ⟨t, List.find?_cons_of_pos hhalf, rfl⟩
    | false =>
      rw [checkHalves_of_any_eq_false hhalf] at h
      rw [List.find?_cons_of_neg (by simp [hhalf])]
      exact ih h

/-! ## Strings -/

/-- A text in front of a quote has all of a start that holds no quote. -/
theorem exists_append_of_quote {t m r y : Text} (hm : '"' ∉ m) (h : t ++ '"' :: y = m ++ r) :
    ∃ v, t = m ++ v ∧ r = v ++ '"' :: y := by
  rcases List.append_eq_append_iff.1 h with ⟨s, hs, hr⟩ | ⟨s, hs, hr⟩
  · cases s with
    | nil => exact ⟨[], by simpa using hs.symm, by simpa using hr.symm⟩
    | cons c s =>
      obtain ⟨rfl, -⟩ := List.cons.inj hr
      exact absurd (by simp [hs]) hm
  · exact ⟨s, hs, hr⟩

/-- A string starts with a quote. -/
theorem quotedString_of_ne {c : Char} {cs : Text} (hc : c ≠ '"') :
    quotedString before (c :: cs) = none := by
  unfold quotedString
  split
  · next heq => exact absurd (List.cons.inj heq).1 hc
  · rfl

theorem silent_quotedString {x rest : Text} (hx : '"' ∉ x) :
    Silent quotedString before x rest :=
  .of_not_mem (fun _ _ _ hc => quotedString_of_ne hc) hx

/-- A line without quotes stays as it is. -/
theorem encodeStrings_of_no_quote [Platform] (h : '"' ∉ line) : encodeStrings line = line :=
  replaceFrom_eq_self (silent_quotedString h)

/-- A text between two quotes is a string, unless there is a comma in it. -/
theorem quotedString_eq {t rest : Text} (hne : t ≠ []) (hcomma : ',' ∉ t) (hquote : '"' ∉ t) :
    quotedString before ('"' :: (t ++ ['"']) ++ rest)
      = some (t, ('"' :: (t ++ ['"'])).length) := by
  -- the contents are taken up to the closing quote, for they hold no comma
  have hinside : ∀ c ∈ t, (c != ',' && c != '"') = true := by
    intro c hc
    have hc₁ : c ≠ ',' := fun h => hcomma (h ▸ hc)
    have hc₂ : c ≠ '"' := fun h => hquote (h ▸ hc)
    simp [hc₁, hc₂]
  have htake : (t ++ '"' :: rest).takeWhile (fun c => c != ',' && c != '"') = t := by
    rw [List.takeWhile_append_of_pos hinside]
    simp
  obtain ⟨c, cs, rfl⟩ := List.exists_cons_of_ne_nil hne
  unfold quotedString
  simp only [List.cons_append, List.append_assoc, List.nil_append] at htake ⊢
  simp only [htake]
  simp

/-- One string between texts without quotes is replaced by its digits. -/
theorem encodeStrings_one [Platform] {x t y : Text} (hx : '"' ∉ x) (hy : '"' ∉ y) (hne : t ≠ [])
    (hcomma : ',' ∉ t) (hquote : '"' ∉ t) :
    encodeStrings (x ++ '"' :: (t ++ '"' :: y)) = x ++ (encodeString t ++ y) := by
  have hline : x ++ '"' :: (t ++ '"' :: y) = x ++ ('"' :: (t ++ ['"']) ++ y) := by simp
  rw [hline, encodeStrings, replaceAll_eq_replaceFrom, replaceFrom_silent (silent_quotedString hx),
    replaceFrom_found (List.cons_ne_nil _ _) (quotedString_eq hne hcomma hquote),
    replaceFrom_eq_self (silent_quotedString hy)]

/-! ## Digits of a string -/

/-- The digits of a text are those of its parts. -/
theorem stringDigits_append [Platform] (s t : Text) :
    stringDigits (s ++ t) = stringDigits s ++ stringDigits t := by
  rw [stringDigits, units_append, List.flatMap_append, stringDigits, stringDigits]

theorem length_stringDigits_cons [Platform] (c : Char) (cs : Text) :
    (stringDigits (c :: cs)).length = (stringDigits [c]).length + (stringDigits cs).length := by
  rw [← List.singleton_append, stringDigits_append, List.length_append]

theorem isAlphanum_of_mem_toDigits {c : Char} {n : Nat} (hc : c ∈ Nat.toDigits 16 n) :
    c.isAlphanum = true := by
  have hdigit : ∀ m < 16, m.digitChar.isAlphanum = true := by decide
  -- on the number: its last digit is apart, and the others belong to a smaller one
  induction n using Nat.strongRecOn with
  | _ n ih =>
    rw [Nat.toDigits_eq_if (by decide)] at hc
    split at hc
    · next hlt =>
      rw [List.mem_singleton.1 hc]
      exact hdigit n hlt
    · next hge =>
      rcases List.mem_append.1 hc with hc | hc
      · exact ih (n / 16) (Nat.div_lt_self (by omega) (by decide)) hc
      · rw [List.mem_singleton.1 hc]
        exact hdigit (n % 16) (Nat.mod_lt n (by decide))

/-- The digits of a string are word characters. -/
theorem isAlphanum_of_mem_stringDigits [Platform] {c : Char} {t : Text} (hc : c ∈ stringDigits t) :
    c.isAlphanum = true := by
  obtain ⟨unit, -, hc⟩ := List.mem_flatMap.1 hc
  unfold hexPadded at hc
  rcases List.mem_append.1 hc with hc | hc
  · rw [List.eq_of_mem_replicate hc]
    decide
  · exact isAlphanum_of_mem_toDigits hc

theorem two_le_length_hexPadded (n : Nat) : 2 ≤ (hexPadded 2 n).length := by
  simp only [hexPadded, List.length_append, List.length_replicate]
  omega

/-- Every character has a unit, and every unit two digits at least. -/
theorem two_le_length_stringDigits_singleton [Platform] (c : Char) : 2 ≤
    (stringDigits [c]).length := by
  obtain ⟨unit, rest, hunits⟩ : ∃ unit rest, charUnits c = unit :: rest := by
    unfold charUnits
    split
    · exact ⟨_, _, rfl⟩
    · simp only
      split
      · exact ⟨_, _, rfl⟩
      · exact ⟨_, _, rfl⟩
  have hfirst := two_le_length_hexPadded unit
  simp only [stringDigits, units, List.flatMap_cons, List.flatMap_nil, List.append_nil, hunits,
    List.length_append]
  omega

/-- A character of one byte has two digits. -/
theorem length_stringDigits_singleton [Platform] {c : Char} (hc : c.toNat < 256) :
    (stringDigits [c]).length = 2 := by
  have hlength : (Nat.toDigits 16 c.toNat).length ≤ 2 :=
    (Nat.length_toDigits_le_iff (by decide) (by decide)).2 hc
  simp only [stringDigits, units, List.flatMap_cons, List.flatMap_nil, List.append_nil,
    charUnits_of_lt (hc.trans (by decide)), hexPadded, List.length_append, List.length_replicate]
  omega

/-- There are at least two digits for each character. -/
theorem two_mul_length_le [Platform] (t : Text) : 2 * t.length ≤ (stringDigits t).length := by
  induction t with
  | nil => exact Nat.zero_le _
  | cons c cs ih =>
    have hc := two_le_length_stringDigits_singleton c
    rw [length_stringDigits_cons, List.length_cons]
    omega

end ContractAsm.Literal
