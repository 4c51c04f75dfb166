-- SUMMARY: On which line of the object code a statement stands.
import ContractAsm.Proofs.Reading
import ContractAsm.Proofs.Rewording

/-!
# Statements and lines of the object code

A statement is numbered before its references are looked at, and has a line in the object code if it
is not blank. The index of a statement is the number of its line as long as every statement has a
character other than a blank and no line feed. A line without references is always like that. One
with references depends on the locations that they are replaced by.
-/

namespace ContractAsm

open Text

/-! ## What references leave of a text -/

namespace Variable

/-- What a text holds besides its references. -/
def remainder (t : Text) : Text :=
  (scan reference t).filterMap fun
    | .char c => some c
    | .found _ _ => none

theorem mem_replaceAll_iff {f : Text → Text} {t : Text} {c : Char} :
    c ∈ replaceAll reference f t ↔ c ∈ remainder t ∨ ∃ r ∈ references t, c ∈ f r.2 := by
  unfold replaceAll remainder references
  induction scan reference t with
  | nil => simp
  | cons p ps ih =>
    cases p with
    | char d => simp [Piece.replace, ih, or_assoc]
    | found start name =>
      simp only [List.flatMap_cons, Piece.replace, List.mem_append, ih, List.filterMap_cons,
        List.mem_cons, exists_eq_or_imp]
      exact or_left_comm

theorem newline_not_mem_remainder {t : Text} (h : '\n' ∉ t) : '\n' ∉ remainder t := by
  intro hmem
  obtain ⟨p, hp, hc⟩ := List.mem_filterMap.1 hmem
  cases p with
  | char c =>
    cases hc
    exact h (mem_of_char_mem_scanFrom hp)
  | found start name => cases hc

theorem remainder_of_references_nil {t : Text} (h : references t = []) : remainder t = t := by
  have hscan : scan reference t = t.map .char := by
    apply scanFrom_of_not_found
    intro start name hfound
    have hmem : (start, name) ∈ references t := List.mem_filterMap.2 ⟨_, hfound, rfl⟩
    rw [h] at hmem
    cases hmem
  rw [remainder, hscan, List.filterMap_map]
  exact List.filterMap_some

end Variable

/-! ## Solid texts -/

namespace Text

/-- A text on one line that is not blank. -/
def Solid (t : Text) : Prop :=
  (∃ c ∈ t, isBlank c = false) ∧ '\n' ∉ t

end Text

namespace Source

namespace Place

/-- The locations that the references of a line are replaced by. -/
def locations [Platform] (x : Place) : List Text :=
  x.references.filterMap fun r => x.location? r.2

/-- What a line holds besides its references. -/
def remainder (x : Place) : Text :=
  ((code? x.line).map Variable.remainder).getD []

/-- The references of a line, if there are any, leave it not blank and on one line. -/
def StaysSolid [Platform] (x : Place) : Prop :=
  x.references ≠ [] →
    (∃ c ∈ x.remainder ++ x.locations.flatten, isBlank c = false) ∧ ∀ t ∈ x.locations, '\n' ∉ t

instance [Platform] (x : Place) : Decidable x.StaysSolid :=
  -- only the characters of the text are tried
  letI : Decidable (∃ c ∈ x.remainder ++ x.locations.flatten, isBlank c = false) :=
    List.decidableBEx _ _
  inferInstanceAs (Decidable (_ → _))

variable {x : Place} {t : Text}

/-- The characters of a line with its references replaced. -/
theorem mem_text?_iff [Platform] (hresolved : x.unresolved? = none) (htext : x.text? = some t)
    {c : Char} :
    c ∈ t ↔ c ∈ x.remainder ++ x.locations.flatten := by
  obtain ⟨code, hcode, rfl⟩ := Option.map_eq_some_iff.1 htext
  have hall : ∀ r ∈ Variable.references code, (x.location? r.2).isSome = true := by
    simpa [unresolved?, references, hcode, Option.isSome_iff_ne_none] using hresolved
  rw [Variable.mem_replaceAll_iff, List.mem_append, List.mem_flatten, remainder, hcode,
    Option.map_some, Option.getD_some]
  refine or_congr_right ⟨?_, ?_⟩
  · rintro ⟨r, hr, hc⟩
    obtain ⟨location, hlocation⟩ := Option.isSome_iff_exists.1 (hall r hr)
    rw [hlocation, Option.getD_some] at hc
    refine ⟨location, List.mem_filterMap.2 ⟨r, ?_, hlocation⟩, hc⟩
    rwa [references, hcode]
  · rintro ⟨location, hmem, hc⟩
    obtain ⟨r, hr, hlocation⟩ := List.mem_filterMap.1 hmem
    refine ⟨r, ?_, by rwa [hlocation]⟩
    rwa [references, hcode] at hr

/-- Whether a line is solid once its references are replaced. -/
theorem solid_text?_iff [Platform] (hline : '\n' ∉ x.line) (hresolved : x.unresolved? = none)
    (htext : x.text? = some t) : Solid t ↔ x.StaysSolid := by
  have hchars : ∀ c, c ∈ t ↔ c ∈ x.remainder ++ x.locations.flatten :=
    fun c => mem_text?_iff hresolved htext
  obtain ⟨code, hcode, -⟩ := Option.map_eq_some_iff.1 htext
  have hremainder : '\n' ∉ x.remainder := by
    rw [remainder, hcode]
    exact Variable.newline_not_mem_remainder (newline_not_mem_code? hline hcode)
  constructor
  · rintro ⟨⟨c, hc, hblank⟩, hnewline⟩ -
    refine ⟨⟨c, (hchars c).1 hc, hblank⟩, ?_⟩
    intro location hmem hlocation
    exact hnewline
      ((hchars _).2 (List.mem_append_right _ (List.mem_flatten.2 ⟨_, hmem, hlocation⟩)))
  · intro hstays
    by_cases hnone : x.references = []
    · have hnil : Variable.references code = [] := by
        rwa [references, hcode, Option.map_some, Option.getD_some] at hnone
      have hsame : x.remainder ++ x.locations.flatten = code := by
        rw [remainder, hcode, locations, hnone]
        simp [Variable.remainder_of_references_nil hnil]
      rw [hsame] at hchars
      obtain ⟨c, cs, hcons, hblank⟩ := flush_code? hline hcode
      refine ⟨⟨c, (hchars c).2 (by simp [hcons]), hblank⟩, ?_⟩
      exact fun hmem => newline_not_mem_code? hline hcode ((hchars _).1 hmem)
    · obtain ⟨⟨c, hc, hblank⟩, hlocations⟩ := hstays hnone
      refine ⟨⟨c, (hchars c).2 hc, hblank⟩, ?_⟩
      intro hmem
      rcases List.mem_append.1 ((hchars _).1 hmem) with hmem | hmem
      · exact hremainder hmem
      · obtain ⟨location, hlocation, hmem⟩ := List.mem_flatten.1 hmem
        exact hlocations location hlocation hmem

end Place

/-! ## Statements -/

theorem index_of_getElem? [Platform] {ls : List Text} {i : Nat} {s : Statement}
    (h : (statements ls)[i]? = some s) : s.index = i := by
  rw [statements, List.getElem?_map, List.getElem?_zipIdx, Nat.zero_add, Option.map_map] at h
  obtain ⟨line, -, rfl⟩ := Option.map_eq_some_iff.1 h
  rfl

/-- All statements are solid just if the references of their lines leave them so. -/
theorem solid_statements_iff [Platform] {source : Text}
    (hresolved : ∀ x ∈ places (lines source), x.unresolved? = none) :
    (∀ s ∈ statements (lines source), Solid s.text)
      ↔ ∀ x ∈ places (lines source), x.statement?.isSome = true → x.StaysSolid := by
  have htexts : (∀ s ∈ statements (lines source), Solid s.text)
      ↔ ∀ t ∈ (places (lines source)).filterMap Place.statement?, Solid t := by
    rw [← map_text_statements]
    simp
  have hone : ∀ x ∈ places (lines source), ∀ t, x.statement? = some t →
      (Solid t ↔ x.StaysSolid) := by
    intro x hx t ht
    obtain ⟨front, rest, hls, -⟩ := mem_placesFrom_iff.1 hx
    have hline : x.line ∈ lines source := by simp [hls]
    exact Place.solid_text?_iff (newline_not_mem_line hline) (hresolved x hx)
      (text?_of_statement? ht)
  rw [htexts]
  constructor
  · intro hsolid x hx hsome
    obtain ⟨t, ht⟩ := Option.isSome_iff_exists.1 hsome
    exact (hone x hx t ht).1 (hsolid t (List.mem_filterMap.2 ⟨x, hx, ht⟩))
  · intro hstays t hmem
    obtain ⟨x, hx, ht⟩ := List.mem_filterMap.1 hmem
    exact (hone x hx t ht).2 (hstays x hx (by rw [ht]; rfl))

end Source

/-! ## Line feeds in object code -/

theorem Definition.mem_insertAtBoundaries {inserted t : Text} {before : Option Char} {c : Char}
    (h : c ∈ insertAtBoundaries inserted before t) : c ∈ t ∨ c ∈ inserted := by
  have hpart : ∀ b : Bool, c ∈ (if b then inserted else []) → c ∈ inserted := by
    intro b hc
    cases b with
    | true => exact hc
    | false => cases hc
  induction t generalizing before with
  | nil => exact .inr (hpart _ h)
  | cons d t ih =>
    rcases List.mem_append.1 h with h | h
    · exact .inr (hpart _ h)
    · rcases List.mem_cons.1 h with rfl | h
      · exact .inl (List.mem_cons_self ..)
      · exact (ih h).imp_left (List.mem_cons_of_mem d)

theorem Definition.mem_substitute {d : Definition} {line : Text} {c : Char}
    (h : c ∈ d.substitute line) : c ∈ line ∨ c ∈ d.location := by
  unfold substitute at h
  split at h
  · exact mem_insertAtBoundaries h
  · rcases mem_replaceAll h with h | ⟨-, h⟩
    · exact .inl h
    · exact .inr h

theorem SymbolTable.mem_substitute {table : SymbolTable} {line : Text} {c : Char}
    (h : c ∈ table.substitute line) : c ∈ line ∨ ∃ d ∈ table.definitions, c ∈ d.location := by
  have hfold : ∀ (ds : List Definition) (line : Text),
      c ∈ ds.foldl (fun line d => d.substitute line) line →
        c ∈ line ∨ ∃ d ∈ ds, c ∈ d.location := by
    intro ds
    induction ds with
    | nil => exact fun line h => .inl h
    | cons d ds ih =>
      intro line h
      rcases ih _ h with h | ⟨e, he, hc⟩
      · rcases Definition.mem_substitute h with h | h
        · exact .inl h
        · exact .inr ⟨d, List.mem_cons_self .., h⟩
      · exact .inr ⟨e, List.mem_cons_of_mem d he, hc⟩
  rcases hfold _ _ h with h | ⟨d, hd, hc⟩
  · exact .inl h
  · exact .inr ⟨d, mem_byLength.1 hd, hc⟩

theorem Numeral.newline_not_mem_of_write {n : Int} {t : Text} (h : write n = .ok t) :
    '\n' ∉ t := by
  have hdigits : '\n' ∉ digits n.natAbs := fun hmem => by cases isDigit_of_mem_digits hmem
  unfold write at h
  split at h
  · cases h
    unfold decimal
    split
    · simpa using hdigits
    · exact hdigits
  · cases h

theorem newline_not_mem_defineOperands? {t operands : Text}
    (h : defineOperands? t = some operands) :
    '\n' ∉ operands := by
  unfold defineOperands? at h
  split at h
  · split at h
    · simp only at h
      split at h
      · cases h
      · next hnewline =>
        cases h
        exact hnewline
    · cases h
  · cases h

theorem SymbolTable.newline_not_mem_definition? {operands : Text} {index n : Int} {d : Definition}
    (hoperands : '\n' ∉ operands) (h : definition? operands index n = .ok (some d)) :
    '\n' ∉ d.location := by
  unfold definition? at h
  split at h
  · next name part parts hsplit =>
    have htarget :
        (part :: parts).getLast (List.cons_ne_nil part parts) ∈ operands.splitOn ' ' := by
      rw [hsplit]
      exact List.mem_cons_of_mem name (List.getLast_mem _)
    simp only at h
    split at h
    · cases hwrite : Numeral.write index with
      | error l =>
        rw [hwrite] at h
        cases h
      | ok location =>
        rw [hwrite] at h
        cases h
        exact Numeral.newline_not_mem_of_write hwrite
    · cases h
      exact fun hmem => hoperands ((mem_splitOn htarget).2 _ hmem)
  · cases h

namespace Source

theorem mem_definitions_of_mem_symbols [Platform] {ls : List Text} {d : Definition}
    (h : d ∈ (symbols ls).definitions) : d ∈ definitions ls := by
  have hfold : ∀ (ds : List Definition) (table : SymbolTable),
      d ∈ (ds.foldl .insert table).definitions → d ∈ table.definitions ∨ d ∈ ds := by
    intro ds
    induction ds with
    | nil => exact fun table h => .inl h
    | cons e ds ih =>
      intro table h
      rcases ih _ h with h | h
      · rcases SymbolTable.eq_or_mem_of_mem_insert h with rfl | h
        · exact .inr (List.mem_cons_self ..)
        · exact .inl h
      · exact .inr (List.mem_cons_of_mem e h)
  rcases hfold _ _ h with h | h
  · cases h
  · exact h

theorem newline_not_mem_location [Platform] {ls : List Text} {d : Definition}
    (h : d ∈ (symbols ls).definitions) : '\n' ∉ d.location := by
  obtain ⟨x, -, hx⟩ := List.mem_filterMap.1 (mem_definitions_of_mem_symbols h)
  obtain ⟨operands, hoperands, hmade⟩ := Option.bind_eq_some_iff.1 hx
  obtain ⟨t, -, ht⟩ := Option.bind_eq_some_iff.1 hoperands
  split at hmade
  · next hdefinition =>
    cases hmade
    exact SymbolTable.newline_not_mem_definition? (newline_not_mem_defineOperands? ht) hdefinition
  · cases hmade

end Source

namespace ObjectCode

variable {symbols : SymbolTable} {statements : List Statement} {codes : List Text}

theorem newline_not_mem_encodeStatement [Platform] {s : Statement} {code : Text}
    (hsymbols : ∀ d ∈ symbols.definitions, '\n' ∉ d.location) (hs : '\n' ∉ s.text)
    (h : encodeStatement symbols s = .ok code) : '\n' ∉ code := by
  apply (reworded_resolveAddresses h).newline_not_mem
  intro hmem
  rcases SymbolTable.mem_substitute hmem with hmem | ⟨d, hd, hmem⟩
  · have hencode := (Instruction.reworded_encode s.text).trans (Literal.reworded_encodeStrings _)
    exact hencode.newline_not_mem hs hmem
  · exact hsymbols d hd hmem

/-- A statement has no line in the object code just if it is blank. -/
theorem length_encodeStatements_iff [Platform]
    (h : encodeStatements symbols statements = .ok codes) :
    codes.length = statements.length ↔ ∀ s ∈ statements, ∃ c ∈ s.text, isBlank c = false := by
  rw [← (forall₂_of_encodeStatements h).length_eq, List.length_filter_eq_length_iff]
  refine forall₂_congr fun s _ => ?_
  rw [← trim_ne_nil_iff]
  simp

/-- The code of a solid statement stands on the line of its place among the statements. -/
theorem getElem?_lines_encodeStatements [Platform]
    (hsymbols : ∀ d ∈ symbols.definitions, '\n' ∉ d.location)
    (hsolid : ∀ s ∈ statements, Solid s.text)
    (h : encodeStatements symbols statements = .ok codes) {i : Nat} {s : Statement}
    (hs : statements[i]? = some s) :
    ∃ code, encodeStatement symbols s = .ok code ∧ (lines (ofLines codes))[i]? = some code := by
  have hall : statements.filter (fun s => !(trim s.text).isEmpty) = statements := by
    rw [List.filter_eq_self]
    intro s hs
    simpa using trim_ne_nil_iff.2 (hsolid s hs).1
  have hcodes := forall₂_of_encodeStatements h
  rw [hall] at hcodes
  have hlength := hcodes.length_eq
  have hget : ∀ j (hj : j < codes.length),
      encodeStatement symbols (statements.get ⟨j, by omega⟩) = .ok (codes.get ⟨j, hj⟩) :=
    fun j hj => hcodes.get (by omega) hj
  have hnewline : ∀ code ∈ codes, '\n' ∉ code := by
    intro code hmem
    obtain ⟨j, rfl⟩ := List.get_of_mem hmem
    exact newline_not_mem_encodeStatement hsymbols (hsolid _ (List.get_mem ..)).2 (hget j j.isLt)
  obtain ⟨hi, rfl⟩ := List.getElem?_eq_some_iff.1 hs
  have hi' : i < codes.length := by omega
  refine ⟨codes.get ⟨i, hi'⟩, hget i hi', ?_⟩
  rw [lines_ofLines (List.ne_nil_of_length_pos (by omega)) hnewline]
  exact List.getElem?_eq_getElem hi'

end ObjectCode

namespace Source

/-- The statements of a source are numbered from zero. They are solid just if the references on
their lines leave them so. If they are, none of them is skipped when the lines of the object code
are joined, and each stands there on the line of its index; without that, exactly the blank ones are
skipped. Blanks around all of the lines are still to be removed. -/
theorem statement_on_line [Platform] (filename : String) (source : Text) (l : Listing)
    (h : (Listing.ofSource filename source).result = .ok l) :
    (∀ (i : Nat) (s : Statement), l.statements[i]? = some s → s.index = i)
    ∧ ((∀ s ∈ l.statements, Solid s.text)
      ↔ ∀ x ∈ places (lines source), x.statement?.isSome = true → x.StaysSolid)
    ∧ ∀ codes, ObjectCode.encodeStatements l.symbols l.statements = .ok codes →
      (codes.length = l.statements.length
        ↔ ∀ s ∈ l.statements, ∃ c ∈ s.text, isBlank c = false)
      ∧ ((∀ s ∈ l.statements, Solid s.text) →
        ∀ (i : Nat) (s : Statement), l.statements[i]? = some s →
        ∃ code, ObjectCode.encodeStatement l.symbols s = .ok code
          ∧ (lines (ofLines codes))[i]? = some code) := by
  obtain ⟨rfl, hsound⟩ := listing_eq h
  have hresolved : ∀ x ∈ places (lines source), x.unresolved? = none :=
    fun x hx => Place.unresolved?_of_fault? (hsound x hx).1
  refine ⟨fun i s => index_of_getElem?, solid_statements_iff hresolved, fun codes hcodes => ?_⟩
  refine ⟨ObjectCode.length_encodeStatements_iff hcodes, fun hsolid i s hs => ?_⟩
  exact ObjectCode.getElem?_lines_encodeStatements (fun d hd => newline_not_mem_location hd) hsolid
    hcodes hs

/-- A line that is nothing but a reference, and a branch over it. -/
def referring : Text :=
  ofLines [";#\x7b\"code\":\"f\",\"vars\":[\x7b\"v\":\x7b\"loc\":\"gi0,\"\x7d\x7d]\x7d".toList,
    "IF \\v,.L,".toList, "\\v,".toList, "define L .".toList, "STOP".toList]

theorem statement_on_line_referring :
    ∃ l codes, (Listing.ofSource "main.asm" referring).result = .ok l
      ∧ ObjectCode.encodeStatements l.symbols l.statements = .ok codes
      ∧ codes.length = l.statements.length
      ∧ l.statements[2]? = some ⟨"STOP".toList, 2, 5⟩
      ∧ ∃ code, ObjectCode.encodeStatement l.symbols ⟨"STOP".toList, 2, 5⟩ = .ok code
        ∧ (lines (ofLines codes))[2]? = some code := by
  obtain ⟨l, hl⟩ := exists_of_isOk (x := (Listing.ofSource "main.asm" referring).result)
    (by decide +kernel)
  have hstays : ∀ x ∈ places (lines referring), x.statement?.isSome = true → x.StaysSolid := by
    decide +kernel
  have hcodes : ObjectCode.encodeStatements (symbols (lines referring))
      (statements (lines referring))
        = .ok ["Kgi0,2,".toList, "gi0,".toList, "z".toList] := by
    decide +kernel
  have hstop : (statements (lines referring))[2]? = some ⟨"STOP".toList, 2, 5⟩ := by
    decide +kernel
  obtain ⟨-, hiff, hlines⟩ := statement_on_line "main.asm" referring l hl
  have hsolid := hiff.2 hstays
  have heq := (listing_eq hl).1
  have hstatements : l.statements = statements (lines referring) := by rw [heq]
  have hsymbols : l.symbols = symbols (lines referring) := by rw [heq]
  rw [← hstatements] at hcodes hstop
  rw [← hsymbols] at hcodes
  obtain ⟨hlength, hline⟩ := hlines _ hcodes
  exact ⟨l, _, hl, hcodes, hlength.2 fun s hs => (hsolid s hs).1, hstop, hline hsolid 2 _ hstop⟩

/-- The same where the reference is replaced by a blank. -/
def referringBlank : Text :=
  ofLines [";#\x7b\"code\":\"f\",\"vars\":[\x7b\"v\":\x7b\"loc\":\" \"\x7d\x7d]\x7d".toList,
    "IF gi0,.L,".toList, "\\v,".toList, "define L .".toList, "STOP".toList]

/-- A statement that is blank is numbered but has no line: the last one has index 2, and a branch
goes two statements on to it, but it stands on the line behind the branch. -/
theorem statement_off_line :
    ∃ l codes, (Listing.ofSource "main.asm" referringBlank).result = .ok l
      ∧ ObjectCode.encodeStatements l.symbols l.statements = .ok codes
      ∧ l.statements = [⟨"IF gi0,.L,".toList, 0, 2⟩, ⟨" ".toList, 1, 3⟩, ⟨"STOP".toList, 2, 5⟩]
      ∧ lines (ofLines codes) = ["Kgi0,2,".toList, "z".toList] := by
  obtain ⟨l, hl⟩ := exists_of_isOk (x := (Listing.ofSource "main.asm" referringBlank).result)
    (by decide +kernel)
  have heq := (listing_eq hl).1
  have hstatements : l.statements = statements (lines referringBlank) := by rw [heq]
  have hsymbols : l.symbols = symbols (lines referringBlank) := by rw [heq]
  refine ⟨l, ["Kgi0,2,".toList, "z".toList], hl, ?_, ?_, ?_⟩
  · rw [hstatements, hsymbols]
    decide +kernel
  · rw [hstatements]
    decide +kernel
  · decide +kernel

end Source

end ContractAsm
