-- SUMMARY: No backslash is left in the listing of a source whose references pass the check.
import ContractAsm.Lint
import ContractAsm.Proofs.Layout
import ContractAsm.Proofs.Numbering

/-!
# Checked references

The check of the syntax looks at a line as it is written. The assembler looks for references once
the comment is gone and the selectors are expanded. Neither of these cuts a reference in two, so in
a line that passes the check, the assembler finds every reference that is left. If the locations
bring in no backslash, there is none in the listing.
-/

namespace ContractAsm

open Text

namespace Variable

/-! ## Texts whose backslashes start references -/

/-- A text that starts with a name and a comma. -/
def StartsName (t : Text) : Prop :=
  ∃ name tail, IsWord name ∧ t = name ++ ',' :: tail

/-- A text in which a name and a comma follow every backslash. -/
def Referring (t : Text) : Prop :=
  ∀ front rest, t = front ++ '\\' :: rest → StartsName rest

theorem takeWhile_name {name : Text} (hname : IsRow name) (tail : Text) :
    (name ++ ',' :: tail).takeWhile isWordChar = name := by
  rw [List.takeWhile_append_of_pos hname, List.takeWhile_cons_of_neg (by decide), List.append_nil]

/-- A backslash starts a reference just if a name and a comma follow. -/
theorem reference_backslash_isSome_iff (before : Option Char) {t : Text} :
    (reference before ('\\' :: t)).isSome = true ↔ StartsName t := by
  constructor
  · intro h
    unfold reference at h
    simp only at h
    split at h
    · next c cs hname hcomma =>
      have hrow : IsRow (t.takeWhile isWordChar) := fun c hc => List.mem_takeWhile_imp hc
      obtain ⟨tail, htail⟩ := List.head?_eq_some_iff.1 hcomma
      refine ⟨t.takeWhile isWordChar, tail, ⟨by simp [hname], hrow⟩, ?_⟩
      conv_lhs => rw [← List.take_append_drop (t.takeWhile isWordChar).length t]
      rw [htail, ← List.prefix_iff_eq_take.1 (List.takeWhile_prefix _)]
    · cases h
  · rintro ⟨name, tail, hname, rfl⟩
    obtain ⟨c, cs, rfl⟩ := List.exists_cons_of_ne_nil hname.1
    unfold reference
    simp only [takeWhile_name hname.2]
    simp

theorem referring_nil : Referring [] := by
  intro front rest h
  simp at h

theorem referring_cons_iff {c : Char} {t : Text} :
    Referring (c :: t) ↔ (c = '\\' → StartsName t) ∧ Referring t := by
  constructor
  · intro h
    refine ⟨?_, ?_⟩
    · rintro rfl
      exact h [] t rfl
    · rintro front rest rfl
      exact h (c :: front) rest rfl
  · rintro ⟨hc, ht⟩ front rest h
    cases front with
    | nil =>
      obtain ⟨rfl, rfl⟩ := List.cons.inj h
      exact hc rfl
    | cons d front =>
      obtain ⟨-, rfl⟩ := List.cons.inj h
      exact ht front rest rfl

theorem Referring.append_of_not_mem {s t : Text} (hs : '\\' ∉ s) (ht : Referring t) :
    Referring (s ++ t) := by
  induction s with
  | nil => exact ht
  | cons c s ih =>
    obtain ⟨hc, hs⟩ := List.ne_and_not_mem_of_not_mem_cons hs
    exact referring_cons_iff.2 ⟨fun heq => absurd heq.symm hc, ih hs⟩

/-- The end of a text may be cut off in front of a character that belongs to no reference. -/
theorem Referring.of_append {s rest : Text} (h : Referring (s ++ rest))
    (hrest : ∀ c, rest.head? = some c → isWordChar c = false ∧ c ≠ ',') : Referring s := by
  rintro front t rfl
  obtain ⟨name, tail, hname, ht⟩ := h front (t ++ rest) (by simp)
  have hsplit : t ++ rest = (name ++ [',']) ++ tail := by simp [ht]
  rcases List.append_eq_append_iff.1 hsplit with ⟨cut, hcut, rfl⟩ | ⟨tail, rfl, -⟩
  · cases cut with
    | nil => exact ⟨name, [], hname, by simpa using hcut.symm⟩
    | cons c cut =>
      -- the cut would go through the name, or in front of its comma
      obtain ⟨hword, hcomma⟩ := hrest c rfl
      have hc : c ∈ name ++ [','] := by simp [hcut]
      rcases List.mem_append.1 hc with hc | hc
      · rw [hname.2 c hc] at hword
        cases hword
      · exact absurd (List.mem_singleton.1 hc) hcomma
  · exact ⟨name, tail, hname, by simp⟩

/-- The check of a text says whether its backslashes start references. -/
theorem hasInvalidReference_eq_false_iff {t : Text} :
    Lint.hasInvalidReference t = false ↔ Referring t := by
  induction t with
  | nil => simp [Lint.hasInvalidReference, referring_nil]
  | cons c t ih =>
    rw [referring_cons_iff, Lint.hasInvalidReference, Bool.or_eq_false_iff, ih]
    refine and_congr_left fun _ => ?_
    by_cases hc : c = '\\'
    · subst hc
      rw [← reference_backslash_isSome_iff none]
      simp
    · simp [hc]

/-- The scan for references leaves no backslash. -/
theorem backslash_not_mem_scanFrom {t : Text} (h : Referring t) (skip n : Nat)
    (before : Option Char) : .char '\\' ∉ scanFrom reference skip n before t := by
  induction t generalizing skip n before with
  | nil => exact List.not_mem_nil
  | cons c t ih =>
    obtain ⟨hc, ht⟩ := referring_cons_iff.1 h
    cases skip with
    | succ k => exact ih ht k _ _
    | zero =>
      rw [scanFrom]
      cases hreference : reference before (c :: t) with
      | some found => simpa using ih ht (found.2 - 1) (n + 1) (some c)
      | none =>
        have hne : c ≠ '\\' := by
          rintro rfl
          have hsome := (reference_backslash_isSome_iff before).2 (hc rfl)
          rw [hreference] at hsome
          cases hsome
        simpa [hne.symm] using ih ht 0 (n + 1) (some c)

theorem backslash_not_mem_remainder {t : Text} (h : Referring t) : '\\' ∉ remainder t := by
  intro hmem
  obtain ⟨p, hp, hc⟩ := List.mem_filterMap.1 hmem
  cases p with
  | char c =>
    cases hc
    exact backslash_not_mem_scanFrom h _ _ _ hp
  | found start name => cases hc

end Variable

/-! ## Selectors -/

namespace Literal

open Variable

/-- No call starts in the name of a reference, or at its comma. -/
theorem silent_call {fn name : Text} (hfn : IsWord fn) (hname : IsRow name) (before : Option Char)
    (rest : Text) : Silent (call fn) before (name ++ [',']) rest := by
  intro u v huv hv
  obtain ⟨row, hrow, rfl⟩ : ∃ row, IsRow row ∧ v = row ++ [','] := by
    rcases List.append_eq_append_iff.1 huv with ⟨s, -, hs⟩ | ⟨row, rfl, hv⟩
    · cases s with
      | nil => exact ⟨[], by simp [IsRow], hs.symm⟩
      | cons c s =>
        have hempty := List.append_eq_nil_iff.1 (List.cons.inj hs).2.symm
        exact absurd hempty.2 hv
    · exact ⟨row, fun c hc => hname c (List.mem_append_right u hc), hv⟩
  cases hcall : call fn (behind before u) (row ++ [','] ++ rest) with
  | none => rfl
  | some found =>
    -- two rows at the start of one text, one of them in front of a comma, the other of a bracket
    obtain ⟨tail, htail⟩ := call_eq_some hcall
    simp only [List.append_assoc, List.cons_append] at htail
    obtain rfl := row_unique hrow hfn.2 rfl rfl htail
    simp at htail

/-- A call is replaced as a whole, together with the references in it. All others stay. -/
theorem referring_replaceAll {fn : Text} {f : Text → Text} (hfn : IsWord fn)
    (hf : ∀ a, IsWord (f a)) {t : Text} (h : Referring t) :
    Referring (replaceAll (call fn) f t) := by
  have go : ∀ (skip start : Nat) (before : Option Char),
      Referring ((scanFrom (call fn) skip start before t).flatMap (Piece.replace f)) := by
    induction t with
    | nil => exact fun _ _ _ => referring_nil
    | cons c t ih =>
      intro skip start before
      obtain ⟨hc, ht⟩ := referring_cons_iff.1 h
      cases skip with
      | succ k => exact ih ht k _ _
      | zero =>
        rw [scanFrom]
        cases call fn before (c :: t) with
        | some found =>
          have hword : '\\' ∉ f found.1 := fun hmem => by cases (hf found.1).2 _ hmem
          exact (ih ht _ _ _).append_of_not_mem hword
        | none =>
          simp only [List.flatMap_cons, Piece.replace, List.singleton_append]
          refine referring_cons_iff.2 ⟨fun heq => ?_, ih ht _ _ _⟩
          -- what follows the backslash is copied up to the comma
          obtain ⟨name, tail, hname, rfl⟩ := hc heq
          have hsplit : name ++ ',' :: tail = (name ++ [',']) ++ tail := by simp
          rw [hsplit, scanFrom_silent (silent_call hfn hname.2 _ _), List.flatMap_append,
            flatMap_replace_char, List.append_assoc]
          exact ⟨name, _, hname, rfl⟩
  exact go 0 0 none

theorem referring_expandSelectors {t : Text} (h : Referring t) : Referring (expandSelectors t) :=
  referring_replaceAll (by decide) isWord_wideSelector
    (referring_replaceAll (by decide) isWord_selector h)

end Literal

/-! ## Lines that pass the check -/

namespace Lint

theorem exists_mem_checkLines {ls : List Text} {raw : Text} {p : Problem} (hraw : raw ∈ ls)
    (hp : p ∈ problems (trim raw)) (n : Nat) : ∃ f ∈ checkLines n ls, f.problem = p := by
  induction ls generalizing n with
  | nil => cases hraw
  | cons line ls ih =>
    rcases List.mem_cons.1 hraw with rfl | hraw
    · exact ⟨⟨n, p⟩, List.mem_append_left _ (List.mem_map_of_mem hp), rfl⟩
    · obtain ⟨f, hf, rfl⟩ := ih hraw (n + 1)
      exact ⟨f, List.mem_append_right _ hf, rfl⟩

/-- A line that is checked and has no problem with its references. -/
theorem referring_of_not_mem_problems {line : Text} (hne : line ≠ [])
    (hcomment : line.head? ≠ some ';') (h : .variableSyntax ∉ problems line) :
    Variable.Referring line := by
  rw [← Variable.hasInvalidReference_eq_false_iff]
  cases hinvalid : hasInvalidReference line with
  | false => rfl
  | true =>
    refine absurd ?_ h
    simp [problems, hne, hcomment, hinvalid]

end Lint

namespace Listing

/-- Behind a line without its comment comes a blank or the comment. -/
theorem exists_stripComment_break {line : Text} (h : '\n' ∉ line) :
    ∃ rest, line = stripComment line ++ rest
      ∧ ∀ c, rest.head? = some c → isBlank c = true ∨ c = ';' := by
  rw [stripComment_of_oneLine h]
  split
  · obtain ⟨blanks, hblanks, hall⟩ := exists_blanks_trimEnd (line.takeWhile (· != ';'))
    refine ⟨blanks ++ line.dropWhile (· != ';'), ?_, fun c hc => ?_⟩
    · rw [← List.append_assoc, ← hblanks, List.takeWhile_append_dropWhile]
    · cases blanks with
      | cons b bs =>
        obtain rfl := Option.some.inj hc
        exact .inl (hall b (List.mem_cons_self ..))
      | nil =>
        have hstop := List.head?_dropWhile_not (· != ';') line
        rw [List.nil_append] at hc
        rw [hc] at hstop
        exact .inr (by simpa using hstop)
  · exact ⟨[], by simp⟩

theorem referring_stripComment {line : Text} (hline : '\n' ∉ line) (h : Variable.Referring line) :
    Variable.Referring (stripComment line) := by
  obtain ⟨rest, hrest, hbreak⟩ := exists_stripComment_break hline
  rw [hrest] at h
  refine h.of_append fun c hc => ?_
  rcases hbreak c hc with hblank | rfl
  · refine ⟨Bool.eq_false_iff.2 fun hword => ?_, ?_⟩
    · rw [isBlank_of_isWordChar hword] at hblank
      cases hblank
    · rintro rfl
      cases hblank
  · decide

end Listing

namespace Source

theorem referring_code? {line t : Text} (hline : '\n' ∉ line)
    (hchecked : .variableSyntax ∉ Lint.problems (trim line)) (hcode : code? line = some t) :
    Variable.Referring t := by
  obtain ⟨-, hne, rfl⟩ := code?_eq_some hcode
  have htrim : '\n' ∉ trim line := fun hmem => hline (mem_of_mem_trim hmem)
  refine Literal.referring_expandSelectors (Listing.referring_stripComment htrim ?_)
  refine Lint.referring_of_not_mem_problems ?_ ?_ hchecked
  · rintro hnil
    rw [hnil] at hne
    exact hne rfl
  · intro hcomment
    obtain ⟨cs, hcs⟩ := List.head?_eq_some_iff.1 hcomment
    rw [hcs] at hne htrim
    exact hne (Listing.stripComment_comment fun hmem => htrim (List.mem_cons_of_mem _ hmem))

theorem Place.backslash_not_mem_remainder {x : Place} (hline : '\n' ∉ x.line)
    (hchecked : .variableSyntax ∉ Lint.problems (trim x.line)) : '\\' ∉ x.remainder := by
  unfold Place.remainder
  cases hcode : code? x.line with
  | none => exact List.not_mem_nil
  | some t => exact Variable.backslash_not_mem_remainder (referring_code? hline hchecked hcode)

end Source

/-! ## Definitions -/

theorem mem_of_mem_defineOperands? {t operands : Text} (h : defineOperands? t = some operands)
    {c : Char} (hc : c ∈ operands) : c ∈ t := by
  unfold defineOperands? at h
  split at h
  · next d rest hrest =>
    rw [List.isPrefixOf?_eq_some_iff_append_eq] at hrest
    have hfinal : ∀ u : Text, c ∈ (splitFinalNewline u).1 → c ∈ u := by
      intro u hu
      unfold splitFinalNewline at hu
      split at hu
      · exact List.dropLast_subset _ hu
      · exact hu
    split at h
    · simp only at h
      split at h
      · cases h
      · cases h
        have hmem : c ∈ rest := (List.dropWhile_sublist _).subset (hfinal _ hc)
        rw [← hrest]
        simp [hmem]
    · cases h
  · cases h

theorem SymbolTable.mem_of_target? {operands name target : Text}
    (h : target? operands = some (name, target)) :
    (∀ c ∈ name, c ∈ operands) ∧ ∀ c ∈ target, c ∈ operands := by
  unfold target? at h
  split at h
  · cases h
  · next first parts hsplit =>
    obtain ⟨last, hlast, heq⟩ := Option.map_eq_some_iff.1 h
    cases heq
    refine ⟨(mem_splitOn (x := ' ') ?_).2, (mem_splitOn (x := ' ') ?_).2⟩
    · simp [hsplit]
    · rw [hsplit]
      exact List.mem_cons_of_mem _ (List.mem_of_getLast? hlast)

namespace Source

/-- The name and the location of a definition come from the text of the line, or from a number. -/
theorem Place.mem_of_definition? [Platform] {x : Place} {d : Definition}
    (h : x.definition? = some d) :
    ∃ t, x.text? = some t ∧ (∀ c ∈ d.name, c ∈ t)
      ∧ ∀ c ∈ d.location, c ∈ t ∨ c.isDigit = true := by
  obtain ⟨target, htarget, -, -, hlocation⟩ := target?_of_definition? h
  obtain ⟨operands, hoperands, hparts⟩ := Option.bind_eq_some_iff.1 htarget
  obtain ⟨t, ht, hdefine⟩ := Option.bind_eq_some_iff.1 hoperands
  obtain ⟨hname, htarget⟩ := SymbolTable.mem_of_target? hparts
  refine ⟨t, ht, fun c hc => mem_of_mem_defineOperands? hdefine (hname c hc), fun c hc => ?_⟩
  rw [hlocation] at hc
  split at hc
  · exact .inr (Numeral.isDigit_of_mem_digits hc)
  · exact .inl (mem_of_mem_defineOperands? hdefine (htarget c hc))

/-! ## Listings -/

/-- Whenever a source has a listing, its references pass the check, and no location that one of them
is replaced by holds a backslash, then there is no backslash in the statements and symbols of the
listing. On each line, the assembler found all references that were not part of a selector. -/
theorem backslash_not_mem_listing [Platform] (filename : String) (source : Text) (l : Listing)
    (h : (Listing.ofSource filename source).result = .ok l)
    (hchecked : ∀ f ∈ Lint.check source, f.problem ≠ .variableSyntax)
    (hlocations : ∀ x ∈ places (lines source), ∀ t ∈ x.locations, '\\' ∉ t) :
    (∀ s ∈ l.statements, '\\' ∉ s.text)
      ∧ (∀ d ∈ l.symbols.definitions, '\\' ∉ d.name ∧ '\\' ∉ d.location)
      ∧ ∀ x ∈ places (lines source), '\\' ∉ x.remainder := by
  obtain ⟨rfl, hsound⟩ := listing_eq h
  have hremainder : ∀ x ∈ places (lines source), '\\' ∉ x.remainder := by
    intro x hx
    obtain ⟨front, rest, hls, -⟩ := mem_placesFrom_iff.1 hx
    have hline : x.line ∈ lines source := by simp [hls]
    refine Place.backslash_not_mem_remainder (newline_not_mem_line hline) fun hmem => ?_
    obtain ⟨f, hf, hproblem⟩ := Lint.exists_mem_checkLines hline hmem 1
    exact hchecked f hf hproblem
  have htext : ∀ x ∈ places (lines source), ∀ t, x.text? = some t → '\\' ∉ t := by
    intro x hx t ht hmem
    have hresolved := Place.unresolved?_of_fault? (hsound x hx).1
    rcases List.mem_append.1 ((Place.mem_text?_iff hresolved ht).1 hmem) with hmem | hmem
    · exact hremainder x hx hmem
    · obtain ⟨location, hlocation, hmem⟩ := List.mem_flatten.1 hmem
      exact hlocations x hx location hlocation hmem
  refine ⟨?_, ?_, hremainder⟩
  · intro s hs
    obtain ⟨x, hx, hstatement, -⟩ := mem_statements_iff.1 hs
    exact htext x hx _ (text?_of_statement? hstatement)
  · intro d hd
    obtain ⟨x, hx, hmade⟩ := List.mem_filterMap.1 (mem_definitions_of_mem_symbols hd)
    obtain ⟨t, ht, hname, hlocation⟩ := Place.mem_of_definition? hmade
    refine ⟨fun hmem => htext x hx t ht (hname _ hmem), fun hmem => ?_⟩
    rcases hlocation _ hmem with hmem | hdigit
    · exact htext x hx t ht hmem
    · cases hdigit

/-- References of all kinds: in a statement, in a selector, in a comment and in a definition. -/
def manyReferences : Text :=
  ofLines [";#\x7b\"code\":\"f\",\"vars\":[\x7b\"v\":\x7b\"loc\":\"gi0,\"\x7d\x7d]\x7d".toList,
    "EVAL8 \\v,abi(\"f(\\w,)\"),\\v, ; as \\u,".toList,
    "define \\v,x \\v,".toList,
    "STOP".toList]

theorem backslash_not_mem_listing_manyReferences :
    ∃ l, (Listing.ofSource "main.asm" manyReferences).result = .ok l
      ∧ (∀ f ∈ Lint.check manyReferences, f.problem ≠ .variableSyntax)
      ∧ (∀ x ∈ places (lines manyReferences), ∀ t ∈ x.locations, '\\' ∉ t)
      ∧ (∀ s ∈ l.statements, '\\' ∉ s.text)
      ∧ (∀ d ∈ l.symbols.definitions, '\\' ∉ d.name ∧ '\\' ∉ d.location)
      ∧ l.symbols.definitions = [⟨"gi0,x".toList, "gi0,".toList, 1, 3⟩] := by
  obtain ⟨l, hl⟩ := exists_of_isOk (x := (Listing.ofSource "main.asm" manyReferences).result)
    (by decide +kernel)
  have hchecked : ∀ f ∈ Lint.check manyReferences, f.problem ≠ .variableSyntax := by decide +kernel
  have hlocations : ∀ x ∈ places (lines manyReferences), ∀ t ∈ x.locations, '\\' ∉ t := by
    decide +kernel
  obtain ⟨hstatements, hsymbols, -⟩ :=
    backslash_not_mem_listing "main.asm" manyReferences l hl hchecked hlocations
  refine ⟨l, hl, hchecked, hlocations, hstatements, hsymbols, ?_⟩
  rw [(listing_eq hl).1]
  decide +kernel

end Source

end ContractAsm
