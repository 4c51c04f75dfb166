-- SUMMARY: Quotes pair up from the left, and what is between them becomes a literal.
import ContractAsm.Proofs.Rewording

/-!
# Strings of a line

A quote does not tell whether it opens or closes a string. The quotes of a line are paired from the
front. The scan for strings keeps to these pairs as long as a comma stands between any two of them:
behind the quote that closes a string it then finds no string that starts there, whether or not the
string itself was taken.
-/

namespace ContractAsm.Literal

open Text

/-! ## Pairs of quotes -/

/-- Takes texts in turns from inside and from outside of quotes: each string, with what is behind
it. -/
def pairUp : List Text → List (Text × Text)
  | inside :: outside :: rest => (inside, outside) :: pairUp rest
  | _ => []

/-- What is in front of the first quote of a line. -/
def leading (line : Text) : Text :=
  (line.splitOn '"').headD []

/-- The strings of a line, with its quotes paired from the front. Each string comes with the text
behind it, up to the next string or to the end. -/
def strings (line : Text) : List (Text × Text) :=
  pairUp (line.splitOn '"').tail

/-- A string as it is written. -/
def stringText (contents : Text) : Text :=
  '"' :: (contents ++ ['"'])

/-- The contents of strings that are literals. -/
def IsContents (contents : Text) : Prop :=
  contents ≠ [] ∧ ',' ∉ contents

instance (contents : Text) : Decidable (IsContents contents) :=
  inferInstanceAs (Decidable (_ ∧ _))

/-- What a string between two quotes is to become. -/
def stringCode [Platform] (contents : Text) : Text :=
  if IsContents contents then encodeString contents else stringText contents

theorem mem_of_mem_pairUp {parts : List Text} {s : Text × Text} (h : s ∈ pairUp parts) :
    s.1 ∈ parts ∧ s.2 ∈ parts := by
  fun_induction pairUp parts with
  | case1 inside outside rest ih =>
    rcases List.mem_cons.1 h with rfl | h
    · simp
    · obtain ⟨hinside, houtside⟩ := ih h
      simp [hinside, houtside]
  | case2 => cases h

/-- An even number of texts behind the first one are joined as strings. -/
theorem intercalate_pairUp {parts : List Text} (h : parts.length % 2 = 0) (lead : Text) :
    ['"'].intercalate (lead :: parts)
      = lead ++ (pairUp parts).flatMap fun s => stringText s.1 ++ s.2 := by
  fun_induction pairUp parts generalizing lead with
  | case1 inside outside rest ih =>
    have hrest : rest.length % 2 = 0 := by
      simp only [List.length_cons] at h
      omega
    rw [List.intercalate_cons_cons, List.intercalate_cons_cons, ih hrest]
    simp [stringText]
  | case2 parts hparts =>
    cases parts with
    | nil => simp
    | cons part parts =>
      cases parts with
      | nil => simp at h
      | cons other parts => exact absurd rfl (hparts part other parts)

/-- A line with an even number of quotes is its strings and what is around them. -/
theorem eq_append_strings {line : Text} (h : line.count '"' % 2 = 0) :
    line = leading line ++ (strings line).flatMap (fun s => stringText s.1 ++ s.2)
      ∧ '"' ∉ leading line ∧ ∀ s ∈ strings line, '"' ∉ s.1 ∧ '"' ∉ s.2 := by
  obtain ⟨lead, parts, hsplit⟩ := List.exists_cons_of_ne_nil (List.splitOn_ne_nil '"' line)
  have hplain : ∀ part ∈ lead :: parts, '"' ∉ part :=
    fun part hpart => (mem_splitOn (hsplit ▸ hpart)).1
  have hlength : parts.length % 2 = 0 := by
    have hcount := length_splitOn '"' line
    rw [hsplit, List.length_cons] at hcount
    omega
  have hleading : leading line = lead := by rw [leading, hsplit, List.headD_cons]
  have hstrings : strings line = pairUp parts := by rw [strings, hsplit, List.tail_cons]
  rw [hleading, hstrings]
  refine ⟨?_, hplain lead (List.mem_cons_self ..), fun s hs => ?_⟩
  · rw [← intercalate_pairUp hlength, ← hsplit, List.intercalate_splitOn]
  · obtain ⟨hinside, houtside⟩ := mem_of_mem_pairUp hs
    exact ⟨hplain _ (List.mem_cons_of_mem lead hinside),
      hplain _ (List.mem_cons_of_mem lead houtside)⟩

/-! ## Where no string starts -/

variable {before : Option Char} {contents gap rest : Text}

theorem exists_of_quotedString {t : Text} {found : Text × Nat}
    (h : quotedString before ('"' :: t) = some found) :
    ∃ contents rest, t = contents ++ '"' :: rest ∧ IsContents contents ∧ '"' ∉ contents := by
  unfold quotedString at h
  simp only at h
  split at h
  · next c cs hcontents hclosing =>
    obtain ⟨rest, hrest⟩ := List.head?_eq_some_iff.1 hclosing
    have hinside : ∀ d ∈ t.takeWhile fun c => c != ',' && c != '"', d ≠ ',' ∧ d ≠ '"' :=
      fun d hd => by simpa using List.mem_takeWhile_imp hd
    refine ⟨t.takeWhile fun c => c != ',' && c != '"', rest, ?_, ⟨by simp [hcontents], ?_⟩, ?_⟩
    · rw [← hrest, List.prefix_iff_eq_append.1 (List.takeWhile_prefix _)]
    · exact fun hcomma => (hinside _ hcomma).1 rfl
    · exact fun hquote => (hinside _ hquote).2 rfl
  · cases h

/-- Nothing starts at a quote if what follows it up to the next one is empty or holds a comma. -/
theorem quotedString_opening (hquote : '"' ∉ contents) (h : ¬IsContents contents) :
    quotedString before ('"' :: (contents ++ '"' :: rest)) = none := by
  cases hfound : quotedString before ('"' :: (contents ++ '"' :: rest)) with
  | none => rfl
  | some found =>
    obtain ⟨contents', rest', htext, hcontents, hquote'⟩ := exists_of_quotedString hfound
    obtain ⟨v, rfl, -⟩ := exists_append_of_quote hquote' htext
    obtain ⟨v', hv, -⟩ := exists_append_of_quote hquote htext.symm
    have hnil : v = [] := by
      have hlength := congrArg List.length hv
      simp only [List.length_append] at hlength
      exact List.length_eq_zero_iff.1 (by omega)
    rw [hnil, List.append_nil] at h
    exact absurd hcontents h

/-- Nothing starts at a quote that a comma follows with no quote in front of it. -/
theorem quotedString_closing (hquote : '"' ∉ gap) (hcomma : ',' ∈ gap) :
    quotedString before ('"' :: (gap ++ rest)) = none := by
  cases hfound : quotedString before ('"' :: (gap ++ rest)) with
  | none => rfl
  | some found =>
    obtain ⟨contents, rest', htext, hcontents, -⟩ := exists_of_quotedString hfound
    obtain ⟨v, rfl, -⟩ := exists_append_of_quote hquote htext.symm
    exact absurd (List.mem_append_left v hcomma) hcontents.2

theorem quotedString_last (hquote : '"' ∉ gap) : quotedString before ('"' :: gap) = none := by
  cases hfound : quotedString before ('"' :: gap) with
  | none => rfl
  | some found =>
    obtain ⟨contents, rest, rfl, -⟩ := exists_of_quotedString hfound
    exact absurd (by simp) hquote

/-- A string that is no literal is copied, if nothing starts at its closing quote. -/
theorem silent_stringText (hquote : '"' ∉ contents) (h : ¬IsContents contents)
    (hclosing : ∀ b, quotedString b ('"' :: rest) = none) :
    Silent quotedString before (stringText contents) rest := by
  have hopening : quotedString before ('"' :: (contents ++ ['"'] ++ rest)) = none := by
    rw [List.append_assoc]
    exact quotedString_opening hquote h
  refine .cons hopening fun u v huv hv => ?_
  -- the place is in the contents, where there is no quote, or it is the closing quote
  rcases List.append_eq_append_iff.1 huv with ⟨s, rfl, hs⟩ | ⟨s, rfl, rfl⟩
  · cases s with
    | nil =>
      rw [List.nil_append] at hs
      subst hs
      exact hclosing _
    | cons c s =>
      obtain ⟨-, hv'⟩ := List.append_eq_nil_iff.1 (List.cons.inj hs).2.symm
      exact absurd hv' hv
  · cases s with
    | nil => exact hclosing _
    | cons c s => exact quotedString_of_ne fun heq => hquote (by simp [heq])

/-! ## The scan -/

/-- With the quotes paired, and a comma between any two pairs, every pair is replaced by itself. -/
theorem replaceFrom_strings [Platform] {ss : List (Text × Text)} {lead : Text} (hlead : '"' ∉ lead)
    (hplain : ∀ s ∈ ss, '"' ∉ s.1 ∧ '"' ∉ s.2) (hdivided : ∀ s ∈ ss.dropLast, ',' ∈ s.2)
    (before : Option Char) :
    replaceFrom quotedString encodeString before
        (lead ++ ss.flatMap fun s => stringText s.1 ++ s.2)
      = lead ++ ss.flatMap fun s => stringCode s.1 ++ s.2 := by
  induction ss generalizing lead before with
  | nil =>
    rw [List.flatMap_nil, List.append_nil, List.flatMap_nil, List.append_nil]
    exact replaceFrom_eq_self (silent_quotedString hlead)
  | cons s ss ih =>
    obtain ⟨contents, gap⟩ := s
    obtain ⟨hcontents, hgap⟩ := hplain _ (List.mem_cons_self ..)
    have hlater : ∀ s ∈ ss.dropLast, ',' ∈ s.2 := by
      intro s hs
      cases ss with
      | nil => cases hs
      | cons s' ss => exact hdivided s (List.mem_cons_of_mem _ hs)
    have hrest := fun before =>
      ih hgap (fun s hs => hplain s (List.mem_cons_of_mem _ hs)) hlater before
    rw [List.flatMap_cons, List.flatMap_cons, replaceFrom_silent (silent_quotedString hlead),
      List.append_assoc, List.append_assoc, stringCode]
    split
    · next h =>
      rw [stringText, replaceFrom_found (List.cons_ne_nil _ _)
        (quotedString_eq h.1 h.2 hcontents), hrest]
    · next h =>
      have hclosing : ∀ b, quotedString b
          ('"' :: (gap ++ ss.flatMap fun s => stringText s.1 ++ s.2)) = none := by
        intro b
        cases ss with
        | nil => simpa using quotedString_last hgap
        | cons s ss => exact quotedString_closing hgap (hdivided _ (List.mem_cons_self ..))
      rw [replaceFrom_silent (silent_stringText hcontents h hclosing), hrest]

/-- A line with an even number of quotes is its strings and the texts around them, none of which
holds a quote. If there is a comma between any two strings, exactly the strings that are literals
are replaced, and all else is copied. -/
theorem encodeStrings_strings [Platform] (line : Text) (heven : line.count '"' % 2 = 0)
    (hdivided : ∀ s ∈ (strings line).dropLast, ',' ∈ s.2) :
    (line = leading line ++ (strings line).flatMap (fun s => stringText s.1 ++ s.2)
      ∧ '"' ∉ leading line ∧ ∀ s ∈ strings line, '"' ∉ s.1 ∧ '"' ∉ s.2)
    ∧ encodeStrings line
      = leading line ++ (strings line).flatMap fun s => stringCode s.1 ++ s.2 := by
  obtain ⟨hline, hlead, hplain⟩ := eq_append_strings heven
  refine ⟨⟨hline, hlead, hplain⟩, ?_⟩
  conv_lhs => rw [hline]
  exact replaceFrom_strings hlead hplain hdivided none

/-- A literal between a string with a comma, an empty string and another literal. -/
def fourStrings : Text :=
  "EVAL8 \"a,b\",\"ab\",\"\" ,x\"é\"".toList

theorem encodeStrings_strings_four :
    strings fourStrings = [("a,b".toList, ",".toList), ("ab".toList, ",".toList),
      ([], " ,x".toList), ("é".toList, [])]
    ∧ encodeStrings fourStrings = "EVAL8 \"a,b\",x6162,\"\" ,xxe9".toList := by
  have hstrings : strings fourStrings = [("a,b".toList, ",".toList), ("ab".toList, ",".toList),
      ([], " ,x".toList), ("é".toList, [])] := by decide +kernel
  have hdivided : ∀ s ∈ (strings fourStrings).dropLast, ',' ∈ s.2 := by
    rw [hstrings]
    decide
  obtain ⟨-, hcode⟩ := encodeStrings_strings fourStrings (by decide +kernel) hdivided
  refine ⟨hstrings, ?_⟩
  rw [hcode, hstrings]
  decide +kernel

end ContractAsm.Literal
