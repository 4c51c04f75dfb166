-- SUMMARY: Statements are numbered in order, and labels stand in front of the next statement.
import ContractAsm.Proofs.StatementLine

/-!
# Numbering

The statements of a listing are numbered from zero in the order of their lines. A line with text on
it is one statement or one definition. A symbol that stands for a place has the number of statements
in front of the last line that defines it.
-/

namespace ContractAsm

open Text Listing

namespace Source

variable {ls : List Text} {x y : Place}

/-! ## Places -/

/-- A place is a line of the source with its number. -/
theorem mem_places_iff :
    x ∈ places ls ↔ x.before = ls.take x.before.length ∧ ls[x.before.length]? = some x.line := by
  rw [places, mem_placesFrom_iff]
  constructor
  · rintro ⟨front, rest, rfl, hbefore⟩
    simp [hbefore]
  · rintro ⟨hbefore, hline⟩
    obtain ⟨hlt, hline⟩ := List.getElem?_eq_some_iff.1 hline
    refine ⟨x.before, ls.drop (x.before.length + 1), ?_, rfl⟩
    conv_lhs => rw [← List.take_append_drop x.before.length ls, ← hbefore]
    rw [List.drop_eq_getElem_cons hlt, hline]

/-- The number of a line tells its place. -/
theorem eq_of_number_eq (hx : x ∈ places ls) (hy : y ∈ places ls) (h : x.number = y.number) :
    x = y := by
  have hlength : x.before.length = y.before.length := Nat.add_right_cancel h
  obtain ⟨hxbefore, hxline⟩ := mem_places_iff.1 hx
  obtain ⟨hybefore, hyline⟩ := mem_places_iff.1 hy
  obtain ⟨before, line⟩ := x
  obtain ⟨before', line'⟩ := y
  rw [hlength] at hxbefore hxline
  cases hxbefore.trans hybefore.symm
  cases hxline.symm.trans hyline
  rfl

/-- No number is larger than the number of lines. -/
theorem number_le_length (hx : x ∈ places ls) : x.number ≤ ls.length := by
  obtain ⟨hlt, -⟩ := List.getElem?_eq_some_iff.1 (mem_places_iff.1 hx).2
  exact hlt

/-- Line numbers ascend. -/
theorem pairwise_number_places (ls : List Text) :
    (places ls).Pairwise fun x y => x.number < y.number := by
  induction ls using List.reverseRecOn with
  | nil => exact .nil
  | append_singleton ls line ih =>
    rw [places_concat, List.pairwise_append]
    refine ⟨ih, List.pairwise_singleton .., fun x hx y hy => ?_⟩
    rw [List.mem_singleton.1 hy]
    exact Nat.lt_succ_of_le (number_le_length hx)

/-! ## Statements -/

/-- The statement on a line, with its number and that of its line. -/
def Place.numbered? [Platform] (x : Place) : Option Statement :=
  x.statement?.map (⟨·, x.index, x.number⟩)

/-- The statements are taken from the places in order. -/
theorem statements_eq_filterMap [Platform] (ls : List Text) :
    statements ls = (places ls).filterMap Place.numbered? := by
  induction ls using List.reverseRecOn with
  | nil => rfl
  | append_singleton ls line ih =>
    rw [statements_concat, filterMap_places_concat, ih]
    rfl

/-- A statement has the text, the index and the number of its place. -/
theorem mem_statements_iff [Platform] {s : Statement} :
    s ∈ statements ls ↔ ∃ x ∈ places ls, x.statement? = some s.text ∧ s.index = x.index
      ∧ s.sourceLine = x.number := by
  rw [statements_eq_filterMap, List.mem_filterMap]
  refine exists_congr fun x => and_congr_right fun _ => ?_
  obtain ⟨text, index, n⟩ := s
  simp only [Place.numbered?, Option.map_eq_some_iff, Statement.mk.injEq]
  constructor
  · rintro ⟨t, ht, rfl, rfl, rfl⟩
    exact ⟨ht, rfl, rfl⟩
  · rintro ⟨ht, rfl, rfl⟩
    exact ⟨text, ht, rfl, rfl, rfl⟩

/-- The statement of a line is the only one there. -/
theorem existsUnique_statement [Platform] (hx : x ∈ places ls) {t : Text}
    (ht : x.statement? = some t) :
    ∃! s, s ∈ statements ls ∧ s.sourceLine = x.number := by
  refine ⟨⟨t, x.index, x.number⟩, ⟨mem_statements_iff.2 ⟨x, hx, ht, rfl, rfl⟩, rfl⟩, ?_⟩
  rintro ⟨text, index, n⟩ ⟨hs, hn⟩
  obtain ⟨y, hy, hyt, hindex, hnumber⟩ := mem_statements_iff.1 hs
  obtain rfl := eq_of_number_eq hx hy (hn.symm.trans hnumber)
  cases ht.symm.trans hyt
  cases hindex
  cases hn
  rfl

/-- No statement has the number of a line without one. -/
theorem sourceLine_ne_number [Platform] (hx : x ∈ places ls) (hnone : x.statement? = none) :
    ∀ s ∈ statements ls, s.sourceLine ≠ x.number := by
  intro s hs hn
  obtain ⟨y, hy, hyt, -, hnumber⟩ := mem_statements_iff.1 hs
  obtain rfl := eq_of_number_eq hx hy (hn.symm.trans hnumber)
  cases hnone.symm.trans hyt

/-- The statements stand in the order of their lines. -/
theorem pairwise_sourceLine_statements [Platform] (ls : List Text) :
    (statements ls).Pairwise fun s t => s.sourceLine < t.sourceLine := by
  rw [statements_eq_filterMap]
  refine (pairwise_number_places ls).filterMap _ fun x y hlt s hs t ht => ?_
  obtain ⟨text, -, rfl⟩ := Option.map_eq_some_iff.1 hs
  obtain ⟨text', -, rfl⟩ := Option.map_eq_some_iff.1 ht
  exact hlt

/-- The index of a line counts the statements on the lines in front of it. -/
theorem countP_sourceLine_lt [Platform] (hx : x ∈ places ls) :
    (statements ls).countP (·.sourceLine < x.number) = x.index := by
  obtain ⟨front, rest, hls, hbefore⟩ := mem_placesFrom_iff.1 hx
  rw [List.nil_append] at hbefore
  have hfront : (statements front).countP (·.sourceLine < x.number)
      = (statements front).length := by
    rw [List.countP_eq_length]
    intro s hs
    obtain ⟨y, hy, -, -, hline⟩ := mem_statements_iff.1 hs
    have hle := number_le_length hy
    have hnumber : x.number = front.length + 1 := by rw [Place.number, hbefore]
    rw [decide_eq_true_eq, hline, hnumber]
    exact Nat.lt_succ_of_le hle
  have hrest : ((placesFrom front (x.line :: rest)).filterMap Place.numbered?).countP
      (·.sourceLine < x.number) = 0 := by
    rw [List.countP_eq_zero]
    intro s hs
    obtain ⟨y, hy, hs⟩ := List.mem_filterMap.1 hs
    obtain ⟨text, -, rfl⟩ := Option.map_eq_some_iff.1 hs
    obtain ⟨between, -, -, hy⟩ := mem_placesFrom_iff.1 hy
    simp [Place.number, hbefore, hy]
  have hstatements : statements ls
      = statements front ++ (placesFrom front (x.line :: rest)).filterMap Place.numbered? := by
    rw [statements_eq_filterMap, statements_eq_filterMap, hls, places, placesFrom_append,
      List.nil_append, List.filterMap_append]
    rfl
  rw [hstatements, List.countP_append, hfront, hrest, Nat.add_zero, Place.index, hbefore,
    length_statements]

/-! ## Lines -/

/-- A line that is no directive and has text left without its comment. -/
def HasText (line : Text) : Prop :=
  Directive.isDirective (trim line) = false ∧ stripComment (trim line) ≠ []

/-- A line has text just if it holds code. -/
theorem hasText_iff {line : Text} : HasText line ↔ ∃ t, code? line = some t := by
  constructor
  · rintro ⟨hdirective, hne⟩
    exact ⟨_, by rw [code?, hdirective, if_neg hne]; rfl⟩
  · rintro ⟨t, ht⟩
    exact ⟨(code?_eq_some ht).1, (code?_eq_some ht).2.1⟩

namespace Place

/-- The name that a line defines and its target. -/
def target? [Platform] (x : Place) : Option (Text × Text) :=
  x.operands?.bind SymbolTable.target?

/-- A line with text is a statement or a definition. -/
theorem statement_or_operands [Platform] (h : HasText x.line) :
    (∃ t, x.statement? = some t) ∧ x.operands? = none
      ∨ x.statement? = none ∧ x.operands?.isSome = true := by
  obtain ⟨code, hcode⟩ := hasText_iff.1 h
  obtain ⟨t, ht⟩ : ∃ t, x.text? = some t := ⟨_, by rw [text?, hcode]; rfl⟩
  rw [statement?, operands?, ht, Option.bind_some]
  cases hoperands : defineOperands? t with
  | none => exact .inl ⟨⟨t, by simp [Option.filter, hoperands]⟩, rfl⟩
  | some operands => exact .inr ⟨by simp [Option.filter, hoperands], rfl⟩

/-- A statement has text. -/
theorem hasText_of_statement? [Platform] {t : Text} (h : x.statement? = some t) :
    HasText x.line := by
  obtain ⟨code, hcode, -⟩ := Option.map_eq_some_iff.1 (text?_of_statement? h)
  exact hasText_iff.2 ⟨code, hcode⟩

/-- What a definition holds: the name on the line, the number of statements in front of it, the
number of the line, and the target or the place that it stands for. -/
theorem target?_of_definition? [Platform] {d : Definition} (h : x.definition? = some d) :
    ∃ target, x.target? = some (d.name, target) ∧ d.statementIndex = x.index
      ∧ d.sourceLine = x.number
      ∧ d.location = if target = ['.'] then Numeral.digits x.index else target := by
  obtain ⟨operands, hoperands, hmade⟩ := Option.bind_eq_some_iff.1 h
  rw [SymbolTable.definition?_eq] at hmade
  have htarget : x.target? = SymbolTable.target? operands := by
    rw [target?, hoperands, Option.bind_some]
  rw [htarget]
  cases hparts : SymbolTable.target? operands with
  | none =>
    rw [hparts] at hmade
    cases hmade
  | some parts =>
    obtain ⟨name, target⟩ := parts
    rw [hparts] at hmade
    refine ⟨target, ?_⟩
    by_cases hhere : target = ['.']
    · cases hwrite : Numeral.write x.index with
      | error l =>
        simp only [hhere, if_true, hwrite] at hmade
        cases hmade
      | ok location =>
        simp only [hhere, if_true, hwrite] at hmade
        cases hmade
        exact ⟨rfl, rfl, rfl, by rw [if_pos hhere, Numeral.eq_digits_of_write hwrite]⟩
    · simp only [hhere, if_false] at hmade
      cases hmade
      exact ⟨rfl, rfl, rfl, by rw [if_neg hhere]⟩

/-- A line that is no define statement, or whose definition can be made. -/
def Defines [Platform] (x : Place) : Prop :=
  ∀ operands, x.operands? = some operands →
    ∃ made, SymbolTable.definition? operands x.index x.number = .ok made

/-- A line that defines a name has its definition. -/
theorem Defines.exists_definition? [Platform] (h : x.Defines) {name target : Text}
    (htarget : x.target? = some (name, target)) : ∃ d, x.definition? = some d ∧ d.name = name := by
  obtain ⟨operands, hoperands, hparts⟩ := Option.bind_eq_some_iff.1 htarget
  obtain ⟨made, hmade⟩ := h operands hoperands
  have hdefinition : x.definition? = made := by
    rw [definition?, hoperands, Option.bind_some, hmade]
  simp only [SymbolTable.definition?_eq, hparts] at hmade
  generalize (if target = ['.'] then Numeral.write x.index else .ok target) = location at hmade
  cases location with
  | error l => cases hmade
  | ok location =>
    cases hmade
    exact ⟨_, hdefinition, rfl⟩

end Place

/-! ## Definitions of a run -/

variable {filename : String} {done rest : List Text} {raw : Text} {p q : Progress}

/-- A definition that was read is one. -/
theorem Reflects.defines_line [Platform] (h : Reflects done p)
    (hline : (p.addLine filename (done.length + 1) raw).result = .ok q) :
    (Place.mk done raw).Defines := by
  intro operands hoperands
  obtain ⟨text, htext, hdefine⟩ := Option.bind_eq_some_iff.1 hoperands
  obtain ⟨code, hcode, -⟩ := Option.map_eq_some_iff.1 htext
  have hcontext : p.context filename (done.length + 1) = (Place.mk done raw).context filename :=
    h.context_eq
  rw [addLine_of_code? hcode, Logged.result_bind, hcontext, Variable.result_resolve] at hline
  split at hline
  · have hindex : p.statements.size = (Place.mk done raw).index := h.size_eq
    have hreplace : (Place.mk done raw).text?
        = some (((Place.mk done raw).context filename).replace code) := text?_eq_replace hcode
    cases hreplace.symm.trans htext
    have hstatement : (p.addStatement (done.length + 1) _).result = .ok q := hline
    rw [Progress.addStatement, hdefine] at hstatement
    obtain ⟨made, hmade, -⟩ := Logged.result_bind_eq_ok_iff.1 hstatement
    rw [SymbolTable.result_defineStatement, hindex] at hmade
    split at hmade
    · next d hd => exact ⟨some d, hd⟩
    · next hd => exact ⟨none, hd⟩
    · cases hmade
  · cases hline

/-- Every definition among lines that are taken in can be made. -/
theorem Reflects.defines_lines [Platform] (h : Reflects done p)
    (hlines : (p.addLines filename (done.length + 1) rest).result = .ok q) :
    ∀ x ∈ placesFrom done rest, x.Defines := by
  induction rest generalizing done p with
  | nil => simp [placesFrom]
  | cons raw rest ih =>
    obtain ⟨hcheck, next, hline, hrest⟩ := addLines_cons_eq_ok_iff.1 hlines
    have hreads : Reads filename done [raw] (p.addLine filename (done.length + 1) raw).result :=
      h.reads_line hcheck
    rw [hline] at hreads
    have hlength : done.length + 1 = (done ++ [raw]).length := by simp
    rw [hlength] at hrest
    exact List.forall_mem_cons.2 ⟨h.defines_line hline, ih hreads.1 hrest⟩

/-- In a source that is read, every definition is one. -/
theorem defines_of_listing [Platform] {source : Text} {l : Listing}
    (h : (Listing.ofSource filename source).result = .ok l) :
    ∀ x ∈ places (lines source), x.Defines := by
  obtain ⟨p, hlines, -⟩ := Logged.result_bind_eq_ok_iff.1 h
  exact reflects_start.defines_lines hlines

/-- The definitions stand in the order of their lines. -/
theorem pairwise_sourceLine_definitions [Platform] (ls : List Text) :
    (definitions ls).Pairwise fun d e => d.sourceLine < e.sourceLine := by
  refine (pairwise_number_places ls).filterMap _ fun x y hlt d hd e he => ?_
  obtain ⟨-, -, -, hdline, -⟩ := Place.target?_of_definition? hd
  obtain ⟨-, -, -, heline, -⟩ := Place.target?_of_definition? he
  rw [hdline, heline]
  exact Int.ofNat_lt.2 hlt

/-- A definition of the table is the last one of its name. -/
theorem sourceLine_le_of_mem_symbols [Platform] {d e : Definition}
    (hd : d ∈ (symbols ls).definitions)
    (he : e ∈ definitions ls) (hname : e.name = d.name) : e.sourceLine ≤ d.sourceLine := by
  obtain ⟨front, back, hds, hback⟩ := SymbolTable.mem_foldl_insert.1 hd
  have hpairwise := pairwise_sourceLine_definitions ls
  rw [hds] at he hpairwise
  rcases List.mem_append.1 he with he | he
  · exact Int.le_of_lt ((List.pairwise_append.1 hpairwise).2.2 e he d (List.mem_cons_self ..))
  · rcases List.mem_cons.1 he with rfl | he
    · exact Int.le_refl _
    · exact absurd hname (hback e he)

/-! ## Numbering -/

/-- How a listing numbers the statements and symbols of some lines. -/
structure Numbered [Platform] (ls : List Text) (l : Listing) : Prop where
  /-- The statements have the indices 0, 1, 2 and so on. -/
  index : ∀ (i : Nat) (s : Statement), l.statements[i]? = some s → s.index = i
  /-- They stand in the order of their lines, on lines of their own. -/
  ascending : l.statements.Pairwise fun s t => s.sourceLine < t.sourceLine
  /-- A line with text is one statement or one define statement. -/
  either : ∀ x ∈ places ls, HasText x.line →
    (∃! s, s ∈ l.statements ∧ s.sourceLine = x.number) ∧ x.operands? = none
      ∨ (∀ s ∈ l.statements, s.sourceLine ≠ x.number) ∧ x.operands?.isSome = true
  /-- There are no statements besides those on lines with text. -/
  origin : ∀ s ∈ l.statements, ∃ x ∈ places ls, HasText x.line ∧ x.number = s.sourceLine
    ∧ x.text? = some s.text
  /-- No name with a target is left out. -/
  defined : ∀ x ∈ places ls, ∀ name target, x.target? = some (name, target) →
    ∃ d ∈ l.symbols.definitions, d.name = name
  /-- A symbol is defined by the last line that gives a target to its name. It counts the statements
  in front of that line, and if the target is a point, the count is its location. -/
  last : ∀ d ∈ l.symbols.definitions, ∃ x ∈ places ls, ∃ target, x.target? = some (d.name, target)
    ∧ d.sourceLine = x.number
    ∧ (∀ y ∈ places ls, y.target?.map (·.1) = some d.name → y.number ≤ x.number)
    ∧ d.statementIndex = l.statements.countP (·.sourceLine < d.sourceLine)
    ∧ (target = ['.'] →
      d.location = Numeral.digits (l.statements.countP (·.sourceLine < d.sourceLine)))

/-- The definition of a symbol, and the line that makes it. -/
theorem exists_place_of_mem_symbols [Platform] (hdefines : ∀ x ∈ places ls, x.Defines)
    {d : Definition}
    (hd : d ∈ (symbols ls).definitions) :
    ∃ x ∈ places ls, x.definition? = some d
      ∧ ∀ y ∈ places ls, y.target?.map (·.1) = some d.name → y.number ≤ x.number := by
  obtain ⟨x, hx, hmade⟩ := List.mem_filterMap.1 (mem_definitions_of_mem_symbols hd)
  refine ⟨x, hx, hmade, fun y hy hname => ?_⟩
  obtain ⟨-, -, -, hxline, -⟩ := Place.target?_of_definition? hmade
  obtain ⟨⟨name, target⟩, htarget, rfl⟩ := Option.map_eq_some_iff.1 hname
  obtain ⟨e, he, hename⟩ := (hdefines y hy).exists_definition? htarget
  obtain ⟨-, -, -, hyline, -⟩ := Place.target?_of_definition? he
  have hle := sourceLine_le_of_mem_symbols hd (List.mem_filterMap.2 ⟨y, hy, he⟩) hename
  rw [hxline, hyline] at hle
  exact Int.ofNat_le.1 hle

/-- Whenever a source has a listing, its statements and symbols are numbered by its lines. -/
theorem numbered_listing [Platform] (filename : String) (source : Text) (l : Listing)
    (h : (Listing.ofSource filename source).result = .ok l) : Numbered (lines source) l := by
  have hdefines := defines_of_listing h
  obtain ⟨rfl, -⟩ := listing_eq h
  refine ⟨fun i s => index_of_getElem?, pairwise_sourceLine_statements _, ?_, ?_, ?_, ?_⟩
  · intro x hx htext
    rcases Place.statement_or_operands htext with ⟨⟨t, ht⟩, hoperands⟩ | ⟨hnone, hoperands⟩
    · exact .inl ⟨existsUnique_statement hx ht, hoperands⟩
    · exact .inr ⟨sourceLine_ne_number hx hnone, hoperands⟩
  · intro s hs
    obtain ⟨x, hx, ht, -, hnumber⟩ := mem_statements_iff.1 hs
    exact ⟨x, hx, Place.hasText_of_statement? ht, hnumber.symm, text?_of_statement? ht⟩
  · intro x hx name target htarget
    obtain ⟨e, he, rfl⟩ := (hdefines x hx).exists_definition? htarget
    exact SymbolTable.exists_mem_foldl_insert (List.mem_filterMap.2 ⟨x, hx, he⟩)
  · intro d hd
    obtain ⟨x, hx, hmade, hlast⟩ := exists_place_of_mem_symbols hdefines hd
    obtain ⟨target, htarget, hindex, hline, hlocation⟩ := Place.target?_of_definition? hmade
    have hcount : (statements (lines source)).countP (·.sourceLine < d.sourceLine) = x.index := by
      rw [← countP_sourceLine_lt hx, hline]
      simp only [Int.ofNat_lt]
    refine ⟨x, hx, target, htarget, hline, hlast, ?_, fun hhere => ?_⟩
    · rw [hcount, hindex]
    · rw [hcount, hlocation, if_pos hhere]

/-- Two statements between definitions. One of the definitions is a variable's location, one has no
target, and one name is defined three times. -/
def redefining : Text :=
  ofLines ["define BODY . ; here".toList, " NOP ; first".toList,
    ";#\x7b\"code\":\"f\",\"vars\":[\x7b\"v\":\x7b\"loc\":\"define L .\"\x7d\x7d]\x7d".toList,
    "\\v,".toList, "define L 7".toList, "STOP".toList, "define L".toList, [],
    "define L at .".toList]

theorem numbered_listing_redefining :
    ∃ l, (Listing.ofSource "main.asm" redefining).result = .ok l ∧ Numbered (lines redefining) l
      ∧ l.statements = [⟨"NOP".toList, 0, 2⟩, ⟨"STOP".toList, 1, 6⟩]
      ∧ l.symbols.definitions
        = [⟨"BODY".toList, "0".toList, 0, 1⟩, ⟨"L".toList, "2".toList, 2, 9⟩] := by
  obtain ⟨l, hl⟩ := exists_of_isOk (x := (Listing.ofSource "main.asm" redefining).result)
    (by decide +kernel)
  refine ⟨l, hl, numbered_listing "main.asm" redefining l hl, ?_, ?_⟩
  · rw [(listing_eq hl).1]
    decide +kernel
  · rw [(listing_eq hl).1]
    decide +kernel

end Source

end ContractAsm
