-- SUMMARY: Statements that do nothing in front of a program leave its object code as it is.
import ContractAsm.Proofs.Reading
import ContractAsm.Proofs.Shift

/-!
# Relocation

Behind any number of statements that do nothing, a source whose names are labels, and which names
them behind points only, has the same object code as alone. All indices and all addresses are
shifted by the same amount, so the distances stay as they are.
-/

namespace ContractAsm

open Text

/-! ## Trimming behind a text -/

namespace Text

theorem Flush.trimStart_eq {t : Text} (h : Flush t) : trimStart t = t := by
  obtain ⟨c, cs, rfl, hc⟩ := h
  exact List.dropWhile_cons_of_neg (by simp [hc])

/-- What stands in front of a text does not change how its end is trimmed. -/
theorem Flush.trimEnd_append {t : Text} (h : Flush t) (front : Text) :
    trimEnd (front ++ t) = front ++ trimEnd t := by
  obtain ⟨c, cs, rfl, hc⟩ := h
  have hstop : ((c :: cs).reverse.dropWhile isBlank).isEmpty = false := by
    rw [List.isEmpty_eq_false_iff, Ne, List.dropWhile_eq_nil_iff]
    intro hall
    cases hc.symm.trans (hall c (by simp))
  rw [trimEnd, trimEnd, List.reverse_append, List.dropWhile_append, hstop]
  simp

/-- Only the blanks at the end are removed from a text that starts with none. -/
theorem Flush.trim_append {front t : Text} (hfront : front ≠ [] → Flush front) (h : Flush t) :
    trim (front ++ t) = front ++ trim t := by
  have hall : Flush (front ++ t) := by
    by_cases hne : front = []
    · rwa [hne, List.nil_append]
    · exact (hfront hne).append t
  rw [trim, trim, hall.trimStart_eq, h.trimStart_eq, h.trimEnd_append]

/-- Lines in front of others. -/
theorem ofLines_append {xs ys : List Text} (hys : ys ≠ []) :
    ofLines (xs ++ ys) = (xs.map (· ++ ['\n'])).flatten ++ ofLines ys := by
  induction xs with
  | nil => rfl
  | cons x xs ih =>
    rw [List.cons_append, ofLines, List.intercalate_cons_of_ne_nil (by simp [hys]), ← ofLines, ih,
      List.map_cons, List.flatten_cons]
    simp only [List.append_assoc]

end Text

/-! ## Lines without references -/

theorem Variable.references_of_no_reference {t : Text} (h : '\\' ∉ t) : references t = [] := by
  rw [references, scan_silent (.of_not_mem (fun _ _ _ hc => reference_of_ne hc) h)]
  simp [List.filterMap_map]

namespace Source

section NoReference

variable {x : Place} (hline : '\n' ∉ x.line) (hreference : '\\' ∉ x.line)

include hline hreference

theorem backslash_not_mem_code? {t : Text} (hcode : code? x.line = some t) : '\\' ∉ t := by
  intro hmem
  rcases mem_code? hline hcode hmem with hmem | hword
  · exact hreference hmem
  · cases hword

/-- A line without references says what its code says. -/
theorem Place.text?_of_no_reference [Platform] : x.text? = code? x.line := by
  rw [Place.text?]
  cases hcode : code? x.line with
  | none => rfl
  | some t =>
    have ht := backslash_not_mem_code? hline hreference hcode
    rw [Option.map_some, replaceAll_eq_replaceFrom, replaceFrom_eq_self]
    exact .of_not_mem (fun _ _ _ hc => Variable.reference_of_ne hc) ht

/-- A line without references lacks nothing. -/
theorem Place.unresolved?_of_no_reference [Platform] : x.unresolved? = none := by
  rw [Place.unresolved?, Place.references]
  cases hcode : code? x.line with
  | none => rfl
  | some t =>
    have ht := backslash_not_mem_code? hline hreference hcode
    simp [Variable.references_of_no_reference ht]

end NoReference

/-- The index of a place is the number of statements in front of it. -/
theorem Place.index_eq_length [Platform] (x : Place) : x.index = (statements x.before).length :=
  (length_statements x.before).symm

/-! ## Lines that do nothing -/

/-- A line that does nothing. -/
def nop : Text :=
  "NOP".toList

/-- Lines that do nothing. -/
def nops (k : Nat) : List Text :=
  List.replicate k nop

theorem newline_not_mem_nop : '\n' ∉ nop := by decide

theorem backslash_not_mem_nop : '\\' ∉ nop := by decide

theorem text?_nop [Platform] (before : List Text) : (Place.mk before nop).text? = some nop := by
  have hcode : code? nop = some nop := by decide +kernel
  exact (Place.text?_of_no_reference newline_not_mem_nop backslash_not_mem_nop).trans hcode

theorem statement?_nop [Platform] (before : List Text) :
    (Place.mk before nop).statement? = some nop := by
  rw [Place.statement?, text?_nop]
  decide

theorem definition?_nop [Platform] (before : List Text) :
    (Place.mk before nop).definition? = none := by
  rw [Place.definition?, Place.operands?, text?_nop]
  rfl

theorem isDirective_nop : Directive.isDirective (trim nop) = false := by decide +kernel

theorem event?_nop [Platform] (before : List Text) : (Place.mk before nop).event? = none := by
  simp [Place.event?, directive?, isDirective_nop]

/-- The statements of `k` lines `NOP` are numbered from zero. -/
theorem statements_nops [Platform] (k : Nat) :
    statements (nops k) = (List.range k).map fun i => ⟨nop, i, i + 1⟩ := by
  induction k with
  | zero => rfl
  | succ k ih =>
    have hindex : (Place.mk (nops k) nop).index = k := by
      rw [Place.index_eq_length, ih]
      simp
    rw [nops, List.replicate_succ', ← nops, statements_concat, statement?_nop, hindex, ih,
      List.range_succ, List.map_append]
    simp [nops]

/-- They define nothing. -/
theorem symbols_nops [Platform] (k : Nat) : symbols (nops k) = .empty := by
  induction k with
  | zero => rfl
  | succ k ih =>
    rw [nops, List.replicate_succ', ← nops, symbols_concat, definition?_nop, ih]
    rfl

/-! ## Lines that can be relocated -/

/-- A line that has its index written out, as a definition or a directive does. -/
def Place.Counted [Platform] (x : Place) : Prop :=
  x.operands?.isSome = true ∨ x.event?.isSome = true

/-- Operands that make the next statement a label, but not by the name that is the opcode of a line
that does nothing. -/
def IsLabel (operands : Text) : Prop :=
  ∃ name, SymbolTable.IsIdentifier name ∧ name ≠ ['d'] ∧ operands = name ++ " .".toList

/-- Lines without references whose definitions are labels, and whose indices can be written `k`
statements further on. -/
structure Relocatable [Platform] (k : Nat) (ls : List Text) : Prop where
  oneLine : ∀ line ∈ ls, '\n' ∉ line
  noReference : ∀ line ∈ ls, '\\' ∉ line
  label : ∀ line ∈ ls, ∀ operands, (code? line).bind defineOperands? = some operands →
    IsLabel operands
  counted : ∀ x ∈ places ls, x.Counted → x.index + k < 10 ^ Limit.digits

variable {k : Nat} {ls : List Text} {line : Text}

/-- The front of a relocatable source is relocatable. -/
theorem Relocatable.front [Platform] {rest : List Text} (h : Relocatable k (ls ++ rest)) :
    Relocatable k ls where
  oneLine line hline := h.oneLine line (List.mem_append_left rest hline)
  noReference line hline := h.noReference line (List.mem_append_left rest hline)
  label line hline := h.label line (List.mem_append_left rest hline)
  counted x hx := h.counted x (by
    rw [places, placesFrom_append]
    exact List.mem_append_left _ hx)

/-- A statement `k` further on, in the source and among the statements. -/
def shiftStatement (k : Nat) (s : Statement) : Statement :=
  ⟨s.text, s.index + k, s.sourceLine + k⟩

/-- Behind lines that do nothing, some lines have the same statements and symbols, further on. -/
structure Relocated [Platform] (k : Nat) (ls : List Text) : Prop where
  statements : Source.statements (nops k ++ ls)
    = Source.statements (nops k) ++ (Source.statements ls).map (shiftStatement k)
  symbols : (Source.symbols ls).Shifted k (Source.symbols (nops k ++ ls))
  free : (Source.symbols ls).get? ['d'] = none

/-- Behind `k` more statements the index is `k` higher. -/
theorem Relocated.index_eq [Platform] (h : Relocated k ls) :
    (Place.mk (nops k ++ ls) line).index = (Place.mk ls line).index + k := by
  rw [Place.index_eq_length, Place.index_eq_length, h.statements, statements_nops]
  simp [Nat.add_comm]

/-- A relocatable line says the same wherever it stands. -/
theorem Relocatable.text?_eq [Platform] (h : Relocatable k (ls ++ [line])) (before : List Text) :
    (Place.mk before line).text? = code? line :=
  Place.text?_of_no_reference (h.oneLine line (by simp)) (h.noReference line (by simp))

/-- A relocatable line defines the same names wherever it stands. -/
theorem Relocatable.operands?_eq [Platform] (h : Relocatable k (ls ++ [line]))
    (before : List Text) :
    (Place.mk before line).operands? = (code? line).bind defineOperands? := by
  rw [Place.operands?, h.text?_eq]

theorem symbols_concat_of_no_operands [Platform] (h : (Place.mk ls line).operands? = none) :
    symbols (ls ++ [line]) = symbols ls := by
  rw [symbols_concat, Place.definition?, h]
  rfl

theorem symbols_concat_of_definition? [Platform] {d : Definition}
    (h : (Place.mk ls line).definition? = some d) :
    symbols (ls ++ [line]) = (symbols ls).insert d := by
  rw [symbols_concat, h]
  rfl

/-- A label is defined as the index of its place. -/
theorem definition?_label_eq [Platform] (x : Place) {operands name : Text}
    (hoperands : x.operands? = some operands)
    (hname : SymbolTable.IsIdentifier name) (heq : operands = name ++ " .".toList)
    (hindex : x.index < 10 ^ Limit.digits) :
    x.definition? = some ⟨name, Numeral.digits x.index, x.index, x.number⟩ := by
  rw [Place.definition?, hoperands, Option.bind_some, heq,
    Listing.definition?_label hname.1 hindex]

/-- The statements go along, with their numbers shifted. -/
theorem Relocated.statements_concat [Platform] (h : Relocated k ls)
    (hls : Relocatable k (ls ++ [line])) :
    Source.statements (nops k ++ (ls ++ [line]))
      = Source.statements (nops k)
        ++ (Source.statements (ls ++ [line])).map (shiftStatement k) := by
  have hindex : (Place.mk (nops k ++ ls) line).index = (Place.mk ls line).index + k := h.index_eq
  have hnumber : (nops k ++ ls).length + 1 = ls.length + 1 + k := by
    simp only [nops, List.length_append, List.length_replicate]
    omega
  rw [← List.append_assoc, Source.statements_concat, Source.statements_concat, h.statements, hindex,
    hnumber, Place.statement?, Place.statement?, hls.text?_eq, hls.text?_eq]
  cases (code? line).filter fun t => (defineOperands? t).isNone with
  | none => simp
  | some t => simp [shiftStatement]

/-- The labels go along, with their locations shifted. -/
theorem Relocated.symbols_concat [Platform] (h : Relocated k ls)
    (hls : Relocatable k (ls ++ [line])) :
    (Source.symbols (ls ++ [line])).Shifted k (Source.symbols (nops k ++ ls ++ [line]))
      ∧ (Source.symbols (ls ++ [line])).get? ['d'] = none := by
  have hindex : (Place.mk (nops k ++ ls) line).index = (Place.mk ls line).index + k := h.index_eq
  cases hoperands : (code? line).bind defineOperands? with
  | none =>
    rw [symbols_concat_of_no_operands (by rw [hls.operands?_eq, hoperands]),
      symbols_concat_of_no_operands (by rw [hls.operands?_eq, hoperands])]
    exact ⟨h.symbols, h.free⟩
  | some operands =>
    obtain ⟨name, hname, hd, heq⟩ := hls.label line (by simp) operands hoperands
    have hcounted : (Place.mk ls line).index + k < 10 ^ Limit.digits := by
      apply hls.counted _ (by simp [places_concat])
      exact .inl (by rw [hls.operands?_eq, hoperands]; rfl)
    have hmade : (Place.mk ls line).definition? = _ :=
      definition?_label_eq _ (by rw [hls.operands?_eq, hoperands]) hname heq (by omega)
    have hmade' : (Place.mk (nops k ++ ls) line).definition? = _ :=
      definition?_label_eq _ (by rw [hls.operands?_eq, hoperands]) hname heq (by omega)
    rw [symbols_concat_of_definition? hmade, symbols_concat_of_definition? hmade', hindex]
    refine ⟨h.symbols.insert hname hcounted .., ?_⟩
    rw [SymbolTable.get?_insert, if_neg hd.symm]
    exact h.free

/-- One line more. -/
theorem Relocated.concat [Platform] (h : Relocated k ls) (hls : Relocatable k (ls ++ [line])) :
    Relocated k (ls ++ [line]) := by
  obtain ⟨hsymbols, hfree⟩ := h.symbols_concat hls
  rw [List.append_assoc] at hsymbols
  exact ⟨h.statements_concat hls, hsymbols, hfree⟩

/-- Lines that can be relocated are relocated. -/
theorem Relocatable.relocated [Platform] (h : Relocatable k ls) : Relocated k ls := by
  induction ls using List.reverseRecOn with
  | nil =>
    refine ⟨by simp [statements, statementLines, places, placesFrom], ?_, rfl⟩
    rw [List.append_nil, symbols_nops]
    exact .empty k
  | append_singleton ls line ih => exact (ih h.front).concat h

/-! ## The first pass -/

theorem fits_nop [Platform] (before : List Text) : (Place.mk before nop).Fits where
  decodes := by
    intro htrue
    cases htrue.symm.trans isDirective_nop
  defines := by
    have hnone : defineOperands? nop = none := by decide
    simp [Place.operands?, text?_nop, hnone]
  measures := by simp [event?_nop]
  counts := by simp [event?_nop]

theorem fault?_nop [Platform] (before : List Text) (filename : String) :
    (Place.mk before nop).fault? filename = none := by
  have hhashed : Listing.hashed nop = [] := by decide +kernel
  exact Place.fault?_eq_none_iff.2 ⟨Listing.checkLine_of_hashed_eq_nil hhashed,
    Place.unresolved?_of_no_reference newline_not_mem_nop backslash_not_mem_nop⟩

theorem isSome_event? [Platform] (x : Place) :
    x.event?.isSome = ((directive? x.line).filter (·.kind != .unknown)).isSome := by
  simp [Place.event?]

/-- A relocated directive still fits its limits. -/
theorem Relocatable.fits [Platform] (h : Relocatable k (ls ++ [line])) (hdecodes : Decodes line) :
    (Place.mk (nops k ++ ls) line).Fits := by
  have hrelocated := h.front.relocated
  have hcounted : (Place.mk ls line).Counted → (Place.mk ls line).index + k < 10 ^ Limit.digits :=
    h.counted _ (by simp [places_concat])
  have hindex : (Place.mk (nops k ++ ls) line).index = (Place.mk ls line).index + k :=
    hrelocated.index_eq
  obtain ⟨n, hn, hsize⟩ := hrelocated.symbols.preambleSize_eq
  have hbody := bodySize_of_preambleSize hsize
  refine ⟨hdecodes, ?_, fun _ => hbody ▸ hsize, ?_⟩
  · intro operands hoperands
    rw [h.operands?_eq] at hoperands
    obtain ⟨name, hname, -, rfl⟩ := h.label line (by simp) operands hoperands
    have hlt := hcounted (.inl (by rw [h.operands?_eq, hoperands]; rfl))
    exact ⟨_, Listing.definition?_label hname.1 (by omega) _⟩
  · intro e he
    have hsome : (Place.mk ls line).event?.isSome = true := by
      rw [isSome_event?, ← isSome_event? ⟨nops k ++ ls, line⟩, he]
      rfl
    have hlt := hcounted (.inr hsome)
    obtain ⟨d, -, rfl⟩ := Option.map_eq_some_iff.1 he
    simp only [hindex, ← hbody]
    omega

/-- All lines fit, and nothing is wrong with any of them. -/
theorem Relocatable.fits_places [Platform] (h : Relocatable k ls) {filename : String}
    (hsound : ∀ x ∈ places ls, x.fault? filename = none ∧ Decodes x.line) :
    ∀ x ∈ places (nops k ++ ls), x.fault? filename = none ∧ x.Fits := by
  intro x hx
  rw [places, placesFrom_append, List.nil_append] at hx
  rcases List.mem_append.1 hx with hx | hx
  · obtain ⟨front, rest, hls, -⟩ := mem_placesFrom_iff.1 hx
    have hline : x.line = nop := by
      have hmem : x.line ∈ nops k := by simp [hls]
      exact List.eq_of_mem_replicate hmem
    obtain ⟨before, line⟩ := x
    cases hline
    exact ⟨fault?_nop before filename, fits_nop before⟩
  · obtain ⟨front, rest, hls, hbefore⟩ := mem_placesFrom_iff.1 hx
    obtain ⟨before, line⟩ := x
    cases hbefore
    have hmem : line ∈ ls := by simp [hls]
    have hsplit : Relocatable k ((front ++ [line]) ++ rest) := by
      rwa [List.append_assoc, List.singleton_append, ← hls]
    have hplace : Place.mk front line ∈ places ls := mem_placesFrom_iff.2 ⟨front, rest, hls, rfl⟩
    obtain ⟨hfault, hdecodes⟩ := hsound _ hplace
    refine ⟨Place.fault?_eq_none_iff.2 ⟨(Place.fault?_eq_none_iff.1 hfault).1, ?_⟩,
      hsplit.front.fits hdecodes⟩
    exact Place.unresolved?_of_no_reference (h.oneLine line hmem) (h.noReference line hmem)

/-- The lines `NOP` stand in front of those of the source. -/
theorem lines_nops (k : Nat) (source : Text) :
    lines ((List.replicate k "NOP\n".toList).flatten ++ source) = nops k ++ lines source := by
  have hnop : ∀ t : Text, lines ("NOP\n".toList ++ t) = nop :: lines t :=
    List.splitOn_append_cons_self_of_not_mem newline_not_mem_nop
  induction k with
  | zero => rfl
  | succ k ih =>
    rw [List.replicate_succ, List.flatten_cons, List.append_assoc, hnop, ih]
    rfl

/-- The relocated source is read if the source is. -/
theorem Relocatable.exists_listing [Platform] {source : Text} (h : Relocatable k (lines source))
    {filename : String}
    (hsound : ∀ x ∈ places (lines source), x.fault? filename = none ∧ Decodes x.line) :
    ∃ l, (Listing.ofSource filename
        ((List.replicate k "NOP\n".toList).flatten ++ source)).result = .ok l
      ∧ l.statements = statements (nops k ++ lines source)
      ∧ l.symbols = symbols (nops k ++ lines source) := by
  have hfits := h.fits_places hsound
  obtain ⟨n, -, hsize⟩ := h.relocated.symbols.preambleSize_eq
  rw [bodySize_of_preambleSize hsize] at hsize
  rw [← lines_nops] at hfits hsize ⊢
  have hlisting : ∃ l, (Listing.ofSource filename _).result = .ok l :=
    listing_of_fits (fun x hx => (hfits x hx).1) (fun x hx => (hfits x hx).2) hsize
  obtain ⟨l, hl⟩ := hlisting
  obtain ⟨rfl, -⟩ := listing_eq hl
  exact ⟨_, hl, rfl, rfl⟩

/-! ## The second pass -/

/-- No statement starts with a blank. -/
theorem Relocatable.flush_statements [Platform] (h : Relocatable k ls) :
    ∀ s ∈ statements ls, Flush s.text := by
  intro s hs
  have hmem : s.text ∈ (places ls).filterMap Place.statement? := by
    rw [← map_text_statements]
    exact List.mem_map_of_mem hs
  obtain ⟨x, hx, htext⟩ := List.mem_filterMap.1 hmem
  obtain ⟨front, rest, hls, -⟩ := mem_placesFrom_iff.1 hx
  have hline : x.line ∈ ls := by simp [hls]
  apply flush_code? (h.oneLine _ hline)
  rw [← Place.text?_of_no_reference (h.oneLine _ hline) (h.noReference _ hline)]
  exact text?_of_statement? htext

/-- The object code of lines that can be relocated, one line for each statement. -/
theorem Relocatable.forall₂_encodeStatement [Platform] (h : Relocatable k ls) {codes : List Text}
    (hcodes : ObjectCode.encodeStatements (symbols ls) (statements ls) = .ok codes) :
    List.Forall₂ (fun s code => Flush s.text
      ∧ ObjectCode.encodeStatement (symbols ls) s = .ok code) (statements ls) codes := by
  have hkept : (statements ls).filter (fun s => !(trim s.text).isEmpty) = statements ls := by
    rw [List.filter_eq_self]
    intro s hs
    obtain ⟨c, cs, htext, hc⟩ := h.flush_statements s hs
    simpa using trim_ne_nil_iff.2 ⟨c, by simp [htext], hc⟩
  have hall := ObjectCode.forall₂_of_encodeStatements hcodes
  rw [hkept] at hall
  exact (List.forall₂_and_left _ _).2 ⟨h.flush_statements, hall⟩

/-- No symbol of the source is taken for a `NOP`. -/
theorem Relocated.encodeStatement_nop [Platform] (h : Relocated k ls) (index : Int) (n : Nat) :
    ObjectCode.encodeStatement (Source.symbols (nops k ++ ls)) ⟨nop, index, n⟩ = .ok ['d'] := by
  have hword : IsWord ['d'] := by decide
  have hfree : (Source.symbols (nops k ++ ls)).get? ['d'] = none := by
    rcases h.symbols.locations ['d'] with ⟨-, hnone⟩ | ⟨m, -, hsome, -⟩
    · exact hnone
    · cases h.free.symm.trans hsome
  refine (ObjectCode.encodeStatement_mnemonic (i := .bare "NOP" 'd') (by decide) index n).trans ?_
  rw [h.symbols.numeric'.substitute_eq, Instruction.bare, hword.mapWords_eq,
    SymbolTable.replacement_of_undefined hfree, ObjectCode.resolveAddresses_eq_self (by decide)]

/-- The object code behind lines that do nothing. -/
theorem Relocatable.encodeStatements_eq [Platform] (h : Relocatable k ls)
    (hrelative : ∀ s ∈ statements ls, (symbols ls).Relative none (ObjectCode.intermediate s.text))
    {codes : List Text}
    (hcodes : ObjectCode.encodeStatements (symbols ls) (statements ls) = .ok codes) :
    ObjectCode.encodeStatements (symbols (nops k ++ ls)) (statements (nops k ++ ls))
      = .ok (List.replicate k ['d'] ++ codes) := by
  have hrelocated := h.relocated
  have hnop : trim nop ≠ [] := by decide +kernel
  have hfront : List.Forall₂ (fun s code => trim s.text ≠ []
      ∧ ObjectCode.encodeStatement (symbols (nops k ++ ls)) s = .ok code)
      (statements (nops k)) (List.replicate k ['d']) := by
    have hmap : List.replicate k ['d'] = (List.range k).map fun _ => ['d'] := by
      rw [List.map_const', List.length_range]
    rw [hmap, statements_nops, List.forall₂_map_left_iff, List.forall₂_map_right_iff,
      List.forall₂_same]
    exact fun i _ => ⟨hnop, hrelocated.encodeStatement_nop i (i + 1)⟩
  have hrest : List.Forall₂ (fun s code => trim s.text ≠ []
      ∧ ObjectCode.encodeStatement (symbols (nops k ++ ls)) s = .ok code)
      ((statements ls).map (shiftStatement k)) codes := by
    have hboth := (List.forall₂_and_left _ _).2 ⟨hrelative, h.forall₂_encodeStatement hcodes⟩
    rw [List.forall₂_map_left_iff]
    refine hboth.imp fun s code hs => ?_
    obtain ⟨hs, ⟨c, cs, htext, hc⟩, hcode⟩ := hs
    refine ⟨trim_ne_nil_iff.2 ⟨c, ?_, hc⟩, ?_⟩
    · simp [shiftStatement, htext]
    · rw [← hcode]
      exact ObjectCode.encodeStatement_shifted hrelocated.symbols hs _
  rw [hrelocated.statements]
  exact ObjectCode.encodeStatements_eq_ok (List.rel_append hfront hrest)

/-- No line of the object code starts with a blank. -/
theorem Relocatable.flush_codes [Platform] (h : Relocatable k ls) {codes : List Text}
    (hcodes : ObjectCode.encodeStatements (symbols ls) (statements ls) = .ok codes) :
    ∀ code ∈ codes, Flush code := by
  have hall : List.Forall₂ (fun code _ => Flush code ∧ True) codes (statements ls) :=
    (h.forall₂_encodeStatement hcodes).flip.imp fun _ _ hs =>
      ⟨ObjectCode.flush_encodeStatement h.relocated.symbols hs.1 hs.2, trivial⟩
  exact ((List.forall₂_and_left _ _).1 hall).1

/-- The object code is the same as alone, behind that of the lines that do nothing. -/
theorem trim_ofLines_nops (k : Nat) {codes : List Text} (hne : codes ≠ [])
    (hflush : ∀ code ∈ codes, Flush code) : trim (ofLines (List.replicate k ['d'] ++ codes))
      = (List.replicate k "d\n".toList).flatten ++ trim (ofLines codes) := by
  have hfront : (List.replicate k "d\n".toList).flatten ≠ [] →
      Flush (List.replicate k "d\n".toList).flatten := by
    intro hne
    cases k with
    | zero => exact absurd rfl hne
    | succ k => exact ⟨'d', _, rfl, by decide⟩
  have hrest : Flush (ofLines codes) := by
    obtain ⟨code, codes, rfl⟩ := List.exists_cons_of_ne_nil hne
    obtain ⟨rest, hrest⟩ := exists_ofLines_cons code codes
    rw [hrest]
    exact (hflush code (List.mem_cons_self ..)).append rest
  rw [ofLines_append hne, List.map_replicate]
  exact hrest.trim_append hfront

theorem any_isHalf_nops [Platform] (k : Nat) :
    (List.replicate k "d\n".toList).flatten.any isHalf = false := by
  rw [List.any_eq_false]
  intro c hc
  obtain ⟨line, hline, hc⟩ := List.mem_flatten.1 hc
  rw [List.eq_of_mem_replicate hline] at hc
  have hsmall : "d\n".toList.all (·.toNat < 0xF0000) = true := by decide
  simp [isHalf_eq_false (of_decide_eq_true (List.all_eq_true.1 hsmall c hc))]

/-- A source without references, whose definitions are all labels and whose statements name them
behind points only, is independent of its position. Behind lines that do nothing, it is assembled to
the same object code as alone. -/
theorem assemble_relocated [Platform] (verbose : Bool) (filename : String) (source : Text) (k : Nat)
    (hreference : '\\' ∉ source) (a : Assembly)
    (hassembled : (assemble verbose filename source).2 = .assembled a) (l : Listing)
    (hlisting : (Listing.ofSource filename source).result = .ok l) (hne : l.statements ≠ [])
    (hlabel : ∀ line ∈ lines source, ∀ operands,
      (code? line).bind defineOperands? = some operands → IsLabel operands)
    (hrelative : ∀ s ∈ l.statements, l.symbols.Relative none (ObjectCode.intermediate s.text))
    (hcounted : ∀ x ∈ places (lines source), x.Counted → x.index + k < 10 ^ Limit.digits) :
    ∃ a', (assemble verbose filename
        ((List.replicate k "NOP\n".toList).flatten ++ source)).2 = .assembled a'
      ∧ a'.objectCode = (List.replicate k "d\n".toList).flatten ++ a.objectCode := by
  obtain ⟨rfl, hsound⟩ := listing_eq hlisting
  have hrelocatable : Relocatable k (lines source) :=
    ⟨fun line => newline_not_mem_line,
      fun line hline hmem => hreference ((mem_splitOn hline).2 _ hmem), hlabel, hcounted⟩
  obtain ⟨l, codes, hl, hcodes, hhalves, rfl⟩ :=
    Assembly.ofSource_eq_ok_iff.1 (assembly_of_assembled hassembled)
  cases hl.symm.trans hlisting
  have hcodesne : codes ≠ [] := by
    have hlength := (hrelocatable.forall₂_encodeStatement hcodes).length_eq
    rintro rfl
    exact hne (List.length_eq_zero_iff.1 hlength)
  obtain ⟨l', hl', hstatements, hsymbols⟩ := hrelocatable.exists_listing hsound
  have hcodes' := hrelocatable.encodeStatements_eq hrelative hcodes
  rw [← hstatements, ← hsymbols] at hcodes'
  have hcode := trim_ofLines_nops k hcodesne (hrelocatable.flush_codes hcodes)
  have hhalves' : (trim (ofLines (List.replicate k ['d'] ++ codes))).any isHalf = false := by
    rw [hcode, List.any_append, any_isHalf_nops, hhalves]
    rfl
  obtain ⟨a', hassembled', hobject'⟩ := assemble_of_listing verbose hl' hcodes' hhalves'
  exact ⟨a', hassembled', hobject'.trans hcode⟩

/-- A preamble of one statement, and branches forward and backward behind it. -/
def branching : Text :=
  ofLines ["EVAL8 gi0,gi1,".toList, "define BODY .".toList, ";#\x7b\"code\":\"f\"\x7d".toList,
    "define top .".toList, "IF gi0,.done,".toList, "CALL gi1,.top,".toList,
    "define done .".toList, "STOP".toList]

theorem assemble_relocated_branching :
    ∃ a l, (assemble false "main.asm" branching).2 = .assembled a
      ∧ a.objectCode = "Agi0,gi1,\nKgi0,2,\nLgi1,n1,\nz".toList
      ∧ (Listing.ofSource "main.asm" branching).result = .ok l
      ∧ (∀ s ∈ l.statements, l.symbols.Relative none (ObjectCode.intermediate s.text))
      ∧ ∃ a', (assemble false "main.asm"
          ((List.replicate 3 "NOP\n".toList).flatten ++ branching)).2 = .assembled a'
        ∧ a'.objectCode = (List.replicate 3 "d\n".toList).flatten ++ a.objectCode := by
  obtain ⟨l, hl⟩ := exists_of_isOk (x := (Listing.ofSource "main.asm" branching).result)
    (by decide +kernel)
  have heq := (listing_eq hl).1
  have hstatements : l.statements = statements (lines branching) := by rw [heq]
  have hsymbols : l.symbols = symbols (lines branching) := by rw [heq]
  have hne : l.statements ≠ [] := by
    rw [hstatements]
    decide +kernel
  have hrelative : ∀ s ∈ l.statements,
      l.symbols.Relative none (ObjectCode.intermediate s.text) := by
    rw [hstatements, hsymbols]
    decide +kernel
  have hcodes : ObjectCode.encodeStatements l.symbols l.statements
      = .ok ["Agi0,gi1,".toList, "Kgi0,2,".toList, "Lgi1,n1,".toList, "z".toList] := by
    rw [hstatements, hsymbols]
    decide +kernel
  have hlabel : ∀ line ∈ lines branching, ∀ operands,
      (code? line).bind defineOperands? = some operands → IsLabel operands := by
    have hall : (lines branching).filterMap (fun line => (code? line).bind defineOperands?)
        = ["BODY .".toList, "top .".toList, "done .".toList] := by decide +kernel
    intro line hline operands hoperands
    have hmem : operands ∈ ["BODY .".toList, "top .".toList, "done .".toList] :=
      hall ▸ List.mem_filterMap.2 ⟨line, hline, hoperands⟩
    simp only [List.mem_cons, List.not_mem_nil, or_false] at hmem
    rcases hmem with rfl | rfl | rfl
    · exact ⟨"BODY".toList, by decide, by decide, rfl⟩
    · exact ⟨"top".toList, by decide, by decide, rfl⟩
    · exact ⟨"done".toList, by decide, by decide, rfl⟩
  have hcounted : ∀ x ∈ places (lines branching), x.Counted → x.index + 3 < 10 ^ Limit.digits := by
    have hsmall : ∀ x ∈ places (lines branching), x.index ≤ 4 := by decide +kernel
    have hlimit : 10 ^ 1 ≤ 10 ^ Limit.digits := Nat.pow_le_pow_right (by decide) (by decide)
    intro x hx _
    have hindex := hsmall x hx
    omega
  obtain ⟨a, ha, hobject⟩ := assemble_of_listing false hl hcodes (by decide +kernel)
  refine ⟨a, l, ha, hobject.trans (by decide +kernel), hl, hrelative, ?_⟩
  exact assemble_relocated false "main.asm" branching 3 (by decide +kernel) a ha l hl hne hlabel
    hrelative hcounted

end Source

end ContractAsm
