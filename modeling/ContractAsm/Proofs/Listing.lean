-- SUMMARY: What single lines do to a listing, and assemblies by their listings and object code.
import ContractAsm.Assembly
import ContractAsm.Proofs.Address
import ContractAsm.Proofs.Literal
import ContractAsm.Proofs.SymbolTable
import ContractAsm.Proofs.Word
import Mathlib.Data.List.TakeWhile

/-!
# Lines of a source

What single lines do to a listing in the making: blank lines and comments do nothing, a plain line
becomes a statement, and a label is added to the symbols. A listing without directives is completed
as it stands, and with the object code of its statements the assembly succeeds.
-/

namespace ContractAsm

namespace Text

/-! ## Trimming -/

variable {t before after : Text}

/-- What is dropped ends where the property does. -/
theorem dropWhile_append_stop {p : Char → Bool} {s : Text} (hs : ∀ c ∈ s, p c = true)
    (ht : t.head?.any p = false) : (s ++ t).dropWhile p = t := by
  rw [List.dropWhile_append_of_pos hs]
  cases t with
  | nil => rfl
  | cons c t =>
    have hc : p c = false := by simpa using ht
    rw [List.dropWhile_cons_of_neg (by simp [hc])]

/-- What stands around a text is dropped, if the text neither starts nor ends with such
characters. -/
theorem dropWhile_surround {p : Char → Bool} (hbefore : ∀ c ∈ before, p c = true)
    (hafter : ∀ c ∈ after, p c = true) (hne : t ≠ []) (hhead : t.head?.any p = false)
    (hlast : t.getLast?.any p = false) :
    (((before ++ (t ++ after)).dropWhile p).reverse.dropWhile p).reverse = t := by
  have hstart : (t ++ after).head?.any p = false := by
    obtain ⟨c, cs, rfl⟩ := List.exists_cons_of_ne_nil hne
    simpa using hhead
  rw [dropWhile_append_stop hbefore hstart, List.reverse_append,
    dropWhile_append_stop (by simpa using hafter) (by simpa using hlast), List.reverse_reverse]

/-- Stripping both ends of a text takes off only characters with the property. -/
theorem exists_surround (p : Char → Bool) (t : Text) :
    ∃ before after, t = before ++ (((t.dropWhile p).reverse.dropWhile p).reverse ++ after)
      ∧ (∀ c ∈ before, p c = true) ∧ ∀ c ∈ after, p c = true := by
  refine ⟨t.takeWhile p, ((t.dropWhile p).reverse.takeWhile p).reverse, ?_,
    fun c hc => List.mem_takeWhile_imp hc,
    fun c hc => List.mem_takeWhile_imp (List.mem_reverse.1 hc)⟩
  rw [← List.reverse_append, List.takeWhile_append_dropWhile, List.reverse_reverse,
    List.takeWhile_append_dropWhile]

/-- Blanks around a text that neither starts nor ends with one are removed. -/
theorem trim_surround (hbefore : ∀ c ∈ before, isBlank c = true)
    (hafter : ∀ c ∈ after, isBlank c = true) (hne : t ≠ [])
    (hhead : t.head?.any isBlank = false) (hlast : t.getLast?.any isBlank = false) :
    trim (before ++ (t ++ after)) = t :=
  dropWhile_surround hbefore hafter hne hhead hlast

/-- A text with no blank at its ends is trimmed already. -/
theorem trim_eq_self (hhead : t.head?.any isBlank = false)
    (hlast : t.getLast?.any isBlank = false) : trim t = t := by
  by_cases hne : t = []
  · rw [hne]
    rfl
  · have hall : trim ([] ++ (t ++ [])) = t := trim_surround (by simp) (by simp) hne hhead hlast
    rwa [List.nil_append, List.append_nil] at hall

theorem mem_of_mem_trim {c : Char} (h : c ∈ trim t) : c ∈ t := by
  have hstart := (List.dropWhile_sublist _).subset (List.mem_reverse.1 h)
  exact (List.dropWhile_sublist _).subset (List.mem_reverse.1 hstart)

/-! ## Lines of a text -/

@[simp] theorem ofLines_singleton (line : Text) : ofLines [line] = line := by
  rw [ofLines, List.intercalate_singleton]

/-- A listing splits into the lines it was joined from. -/
theorem lines_ofLines {ls : List Text} (hne : ls ≠ []) (h : ∀ line ∈ ls, '\n' ∉ line) :
    lines (ofLines ls) = ls :=
  List.splitOn_intercalate '\n' h hne

/-- Joining parts adds separators only. -/
theorem mem_intercalate_iff {x c : Char} (hc : c ≠ x) {parts : List Text} :
    c ∈ [x].intercalate parts ↔ ∃ part ∈ parts, c ∈ part := by
  induction parts with
  | nil => simp
  | cons part parts ih =>
    cases parts with
    | nil => simp
    | cons part' parts =>
      rw [List.intercalate_cons_cons, List.mem_append, ih]
      simp [hc]

theorem exists_ofLines_cons (line : Text) (ls : List Text) :
    ∃ rest, ofLines (line :: ls) = line ++ rest := by
  cases ls with
  | nil => exact ⟨[], by simp⟩
  | cons next ls => exact ⟨'\n' :: ofLines (next :: ls), by simp [ofLines]⟩

theorem exists_ofLines_concat (ls : List Text) (line : Text) :
    ∃ front, ofLines (ls ++ [line]) = front ++ line := by
  induction ls with
  | nil => exact ⟨[], by simp⟩
  | cons first ls ih =>
    obtain ⟨front, hfront⟩ := ih
    -- the list behind the first line is not empty, so a line feed follows that line
    refine ⟨first ++ '\n' :: front, ?_⟩
    rw [List.cons_append, ofLines, List.intercalate_cons_of_ne_nil (by simp), ← ofLines, hfront]
    simp

/-- Lines that neither start nor end with blanks have none around them when they are joined. -/
theorem trim_ofLines {ls : List Text} (hne : ∀ line ∈ ls, line ≠ [])
    (hhead : ∀ line ∈ ls, line.head?.any isBlank = false)
    (hlast : ∀ line ∈ ls, line.getLast?.any isBlank = false) : trim (ofLines ls) = ofLines ls := by
  apply trim_eq_self
  · cases ls with
    | nil => rfl
    | cons line ls =>
      obtain ⟨rest, hrest⟩ := exists_ofLines_cons line ls
      have hmem : line ∈ line :: ls := List.mem_cons_self ..
      obtain ⟨c, cs, rfl⟩ := List.exists_cons_of_ne_nil (hne line hmem)
      rw [hrest]
      exact hhead (c :: cs) hmem
  · rcases List.eq_nil_or_concat ls with rfl | ⟨ls, line, rfl⟩
    · rfl
    · rw [List.concat_eq_append] at hne hlast ⊢
      obtain ⟨front, hfront⟩ := exists_ofLines_concat ls line
      have hmem : line ∈ ls ++ [line] := by simp
      rw [hfront, List.getLast?_append_of_ne_nil _ (hne line hmem)]
      exact hlast line hmem

theorem isHalf_of_isWordChar [Platform] {c : Char} (h : isWordChar c = true) :
    isHalf c = false := by
  have hnumber := toNat_of_isWordChar h
  exact isHalf_eq_false (by omega)

/-- Joining lines and trimming them brings no half in. -/
theorem any_isHalf_trim_ofLines [Platform] {ls : List Text}
    (h : ∀ line ∈ ls, ∀ c ∈ line, isHalf c = false) :
    (trim (ofLines ls)).any isHalf = false := by
  refine List.any_eq_false.2 fun c hc => Bool.not_eq_true _ ▸ ?_
  by_cases hnewline : c = '\n'
  · rw [hnewline]
    exact isHalf_eq_false (by decide)
  · obtain ⟨line, hline, hmem⟩ := (mem_intercalate_iff hnewline).1 (mem_of_mem_trim hc)
    exact h line hline c hmem

end Text

open Text

/-! ## Rewritings that leave a line alone -/

/-- Without a semicolon there is no comment. -/
theorem Listing.stripComment_eq_self {line : Text} (h : ';' ∉ line) : stripComment line = line := by
  -- the last line of the text is part of the text
  have hlast : ';' ∉ ((splitFinalNewline line).1.reverse.takeWhile (· != '\n')).reverse := by
    intro hmem
    have hbody : ';' ∈ (splitFinalNewline line).1 := by
      have htaken := List.mem_reverse.1 hmem
      exact List.mem_reverse.1 ((List.takeWhile_sublist _).subset htaken)
    unfold splitFinalNewline at hbody
    split at hbody
    · exact h (List.dropLast_sublist line |>.subset hbody)
    · exact h hbody
  simp only [stripComment, if_neg hlast]

/-- In a single line a comment starts at the first semicolon. -/
theorem Listing.stripComment_of_oneLine {line : Text} (h : '\n' ∉ line) :
    stripComment line
      = if ';' ∈ line then trimEnd (line.takeWhile (· != ';')) else line := by
  have hfinal : splitFinalNewline line = (line, []) := by
    unfold splitFinalNewline
    rw [if_neg]
    intro hlast
    exact h (List.mem_of_getLast? hlast)
  have hall : (line.reverse.takeWhile (· != '\n')).reverse = line := by
    rw [List.takeWhile_eq_self_iff.2, List.reverse_reverse]
    intro c hc
    have hne : c ≠ '\n' := by
      rintro rfl
      exact h (List.mem_reverse.1 hc)
    simpa using hne
  simp [stripComment, hfinal, hall]

/-- A line that is a comment is removed altogether. -/
theorem Listing.stripComment_comment {cs : Text} (h : '\n' ∉ cs) :
    stripComment (';' :: cs) = [] := by
  have hnewline : '\n' ∉ ';' :: cs := by simpa using h
  rw [stripComment_of_oneLine hnewline, if_pos (List.mem_cons_self ..)]
  rfl

/-- Without a semicolon there is no directive. -/
theorem Directive.isDirective_eq_false {line : Text} (h : ';' ∉ line) :
    isDirective line = false := by
  unfold isDirective
  split
  · exact absurd (List.mem_cons_self ..) h
  · rfl

namespace Variable

theorem reference_of_ne {before : Option Char} {c : Char} {cs : Text} (hc : c ≠ '\\') :
    reference before (c :: cs) = none := by
  unfold reference
  split
  · next heq => exact absurd (List.cons.inj heq).1 hc
  · rfl

/-- A line without references stays as it is. -/
theorem resolve_eq_pure [Platform] (context : Context) {line : Text} (h : '\\' ∉ line) :
    resolve context line = pure line := by
  have hchars : ∀ x : Text, resolvePieces context line (x.map .char) = pure x := by
    intro x
    induction x with
    | nil => rfl
    | cons c x ih => rw [List.map_cons, resolvePieces, ih, pure_bind]
  rw [resolve, scan_silent (.of_not_mem (fun _ _ _ hc => reference_of_ne hc) h), hchars]

end Variable

namespace Listing

/-! ## Lines -/

variable {filename : String} {p : Progress} {n : Nat} {raw line : Text}

/-- Lines that can be hashed are read one by one. -/
theorem addLines_cons [Platform] {rest : List Text} (h : checkLine raw = .ok ()) :
    p.addLines filename n (raw :: rest)
      = p.addLine filename n raw >>= fun q => q.addLines filename (n + 1) rest := by
  rw [Progress.addLines, h]
  rfl

/-- Lines are added one after the other, each behind its check. -/
theorem addLines_cons_eq_ok_iff [Platform] {rest : List Text} {q : Progress} :
    (p.addLines filename n (raw :: rest)).result = .ok q ↔ checkLine raw = .ok ()
      ∧ ∃ next, (p.addLine filename n raw).result = .ok next
        ∧ (next.addLines filename (n + 1) rest).result = .ok q := by
  cases h : checkLine raw with
  | error f =>
    rw [Progress.addLines, h, Logged.result_bind]
    simp [Logged.ofEncoding, Except.mapError, bind, Except.bind]
  | ok _ =>
    rw [addLines_cons h, Logged.result_bind_eq_ok_iff]
    simp

/-- A line passes its check just if all that is hashed of it can be written in UTF-8. -/
theorem checkLine_eq_ok_iff [Platform] :
    checkLine raw = .ok () ↔ ∀ t ∈ hashed raw, t.any isHalf = false :=
  Literal.checkArguments_eq_ok_iff

theorem checkLine_of_hashed_eq_nil [Platform] (h : hashed raw = []) : checkLine raw = .ok () := by
  rw [checkLine, h]
  rfl

/-- A blank line or a comment holds nothing else. -/
theorem stripComment_trim_silent (hnewline : '\n' ∉ raw)
    (hline : trim raw = [] ∨ (trim raw).head? = some ';') : stripComment (trim raw) = [] := by
  rcases hline with hline | hline
  · rw [hline]
    rfl
  · obtain ⟨cs, hcs⟩ := List.head?_eq_some_iff.1 hline
    rw [hcs]
    apply stripComment_comment
    intro hmem
    exact hnewline (mem_of_mem_trim (by simp [hcs, hmem]))

/-- A blank line or a comment that is no directive. -/
theorem addLine_silent [Platform] (hnewline : '\n' ∉ raw)
    (hline : trim raw = [] ∨ (trim raw).head? = some ';')
    (hdirective : Directive.isDirective (trim raw) = false) :
    p.addLine filename n raw = pure p := by
  simp only [Progress.addLine, hdirective, stripComment_trim_silent hnewline hline]
  rfl

/-- Of blank lines and comments nothing is hashed. -/
theorem hashed_silent (hnewline : '\n' ∉ raw)
    (hline : trim raw = [] ∨ (trim raw).head? = some ';') : hashed raw = [] := by
  rw [hashed, stripComment_trim_silent hnewline hline]
  split
  · rfl
  · exact (Literal.NoCall.of_no_quote (by simp)).selectorArguments_eq_nil

/-- A line without comment, selectors and references. -/
structure Plain (line : Text) : Prop where
  nonempty : line ≠ []
  noComment : ';' ∉ line
  noCall : Literal.NoCall line
  noReference : '\\' ∉ line

/-- A plain line is a statement. -/
theorem addLine_plain [Platform] (htrim : trim raw = line) (hplain : Plain line) :
    p.addLine filename n raw = p.addStatement n line := by
  have hempty : line.isEmpty = false := by simpa using hplain.nonempty
  simp only [Progress.addLine, htrim, Directive.isDirective_eq_false hplain.noComment,
    stripComment_eq_self hplain.noComment, hempty, hplain.noCall.expandSelectors_eq,
    Variable.resolve_eq_pure _ hplain.noReference]
  rfl

/-- Nothing is hashed of a plain line. -/
theorem hashed_plain (htrim : trim raw = line) (hplain : Plain line) : hashed raw = [] := by
  rw [hashed, htrim, Directive.isDirective_eq_false hplain.noComment,
    stripComment_eq_self hplain.noComment]
  exact hplain.noCall.selectorArguments_eq_nil

/-- Only a definition starts with `d`; any other line is stored as it is. -/
theorem addStatement_of_ne {c : Char} {cs : Text} (hc : c ≠ 'd') :
    p.addStatement n (c :: cs)
      = pure { p with statements := p.statements.push ⟨c :: cs, p.statements.size, n⟩ } := by
  have hprefix : "define".toList.isPrefixOf? (c :: cs) = none := by
    cases hp : "define".toList.isPrefixOf? (c :: cs) with
    | none => rfl
    | some rest =>
      rw [List.isPrefixOf?_eq_some_iff_append_eq] at hp
      exact absurd (List.cons.inj hp).1.symm hc
  rw [Progress.addStatement, defineOperands?, hprefix]

/-- The operands of the definition of a label are its name and the dot. -/
theorem defineOperands?_label {name : Text} (hname : IsWord name) :
    defineOperands? ("define ".toList ++ (name ++ " .".toList)) = some (name ++ " .".toList) := by
  have hprefix : "define".toList.isPrefixOf? ("define ".toList ++ (name ++ " .".toList))
      = some (' ' :: (name ++ " .".toList)) := by
    rw [List.isPrefixOf?_eq_some_iff_append_eq]
    rfl
  have hblank : isBlank ' ' = true := by decide
  have hdrop : (name ++ " .".toList).dropWhile isBlank = name ++ " .".toList := by
    obtain ⟨c, cs, rfl⟩ := List.exists_cons_of_ne_nil hname.1
    rw [List.cons_append, List.dropWhile_cons_of_neg]
    simp [isBlank_of_isWordChar (hname.2 c (List.mem_cons_self ..))]
  have hnewline : '\n' ∉ name ++ " .".toList := by
    intro h
    rcases List.mem_append.1 h with h | h
    · cases hname.2 '\n' h
    · revert h
      decide
  have hfinal : splitFinalNewline (name ++ " .".toList) = (name ++ " .".toList, []) := by
    unfold splitFinalNewline
    rw [if_neg]
    intro hlast
    exact hnewline (List.mem_of_getLast? hlast)
  simp only [defineOperands?, hprefix, hblank, hdrop, hfinal, hnewline, if_true, if_false]

/-- A label is defined as the number of the next statement. -/
theorem definition?_label {name : Text} (hname : IsWord name) {k : Nat}
    (hk : k < 10 ^ Limit.digits) (sourceLine : Int) :
    SymbolTable.definition? (name ++ " .".toList) k sourceLine
      = .ok (some ⟨name, Numeral.digits k, k, sourceLine⟩) := by
  have hspace : ' ' ∉ name := fun h => by cases hname.2 ' ' h
  have hsplit : (name ++ " .".toList).splitOn ' ' = [name, ['.']] := by
    have hjoin : name ++ " .".toList = [' '].intercalate [name, ['.']] := by simp
    rw [hjoin, List.splitOn_intercalate ' ' (by simpa using hspace) (by simp)]
  simp only [SymbolTable.definition?, hsplit, List.getLast_singleton, if_true,
    Numeral.write_of_lt hk]
  rfl

/-- A label is defined as the place of the next statement. -/
theorem addStatement_label {name : Text} (hname : IsWord name)
    (hsize : p.statements.size < 10 ^ Limit.digits) :
    (p.addStatement n ("define ".toList ++ (name ++ " .".toList))).result
      = .ok ⟨p.symbols.insert ⟨name, Numeral.digits p.statements.size, p.statements.size, n⟩,
        p.collector, p.statements⟩ := by
  rw [Progress.addStatement, defineOperands?_label hname]
  simp only [SymbolTable.defineStatement, definition?_label hname hsize,
    Logged.result_bind_eq_ok_iff]
  exact ⟨_, ⟨_, rfl, Logged.result_bind_eq_ok_iff.2 ⟨_, p.symbols.result_define _, rfl⟩⟩, rfl⟩

/-- Without a debug region there is nothing to close. -/
theorem finish_empty (h : p.collector = .empty) :
    (p.finish).result = .ok ⟨p.statements.toList, p.symbols, []⟩ := by
  rw [Progress.finish, h]
  rfl

/-- Without directives, the listing has the statements and symbols of all lines. -/
theorem ofSource_of_addLines [Platform] {source : Text}
    (h : (Progress.start.addLines filename 1 (lines source)).result = .ok p)
    (hcollector : p.collector = .empty) :
    (ofSource filename source).result = .ok ⟨p.statements.toList, p.symbols, []⟩ := by
  rw [ofSource, Logged.result_bind_eq_ok_iff]
  exact ⟨p, h, finish_empty hcollector⟩

end Listing

/-! ## Assemblies -/

variable [Platform]

/-- The object code of statements that are not blank, one line for each of them. -/
theorem ObjectCode.encodeStatements_eq_ok {symbols : SymbolTable} {statements : List Statement}
    {codes : List Text}
    (h : List.Forall₂ (fun s code => trim s.text ≠ [] ∧ encodeStatement symbols s = .ok code)
      statements codes) : encodeStatements symbols statements = .ok codes := by
  unfold encodeStatements
  induction h with
  | nil => rfl
  | @cons s code statements codes hs _ ih =>
    rw [List.filter_cons_of_pos (by simpa using hs.1), List.mapM_cons, hs.2, ih]
    rfl

/-- The statements that are not blank, each next to its object code. -/
theorem ObjectCode.forall₂_of_encodeStatements {symbols : SymbolTable}
    {statements : List Statement} {codes : List Text}
    (h : encodeStatements symbols statements = .ok codes) :
    List.Forall₂ (fun s code => encodeStatement symbols s = .ok code)
      (statements.filter fun s => !(trim s.text).isEmpty) codes := by
  unfold encodeStatements at h
  generalize statements.filter (fun s => !(trim s.text).isEmpty) = kept at h ⊢
  induction kept generalizing codes with
  | nil =>
    cases h
    exact .nil
  | cons s kept ih =>
    rw [List.mapM_cons] at h
    cases hs : encodeStatement symbols s with
    | error e =>
      rw [hs] at h
      cases h
    | ok code =>
      cases hkept : kept.mapM (encodeStatement symbols) with
      | error e =>
        rw [hs, hkept] at h
        cases h
      | ok rest =>
        rw [hs, hkept] at h
        cases h
        exact .cons hs (ih hkept)

/-- A text can be encoded just if there is no half in it, and it stays as it is. -/
theorem Logged.result_ofEncoding_checkHalves {t t' : Text} :
    (Logged.ofEncoding (checkHalves t)).result = .ok t' ↔ t' = t ∧ t.any isHalf = false := by
  cases h : t.any isHalf with
  | true => simp [Logged.ofEncoding, checkHalves_of_any h, Except.mapError]
  | false => simp [Logged.ofEncoding, checkHalves_of_any_eq_false h, Except.mapError, eq_comm]

/-- The code of a program is that of its statements, line by line. -/
theorem ObjectCode.result_generate {symbols : SymbolTable} {statements : List Statement}
    {code : Text} : (generate symbols statements).result = .ok code
      ↔ ∃ codes, encodeStatements symbols statements = .ok codes ∧ code = trim (ofLines codes) := by
  rw [generate, Logged.result_bind]
  cases encodeStatements symbols statements with
  | error l => simp [Logged.ofConversion, Except.mapError, bind, Except.bind]
  | ok codes => simp [Logged.ofConversion, Except.mapError, bind, Except.bind, Logged.bind, eq_comm]

/-- An assembled program comes from a listing and the object code of its statements, in which there
is no half. -/
theorem Assembly.ofSource_eq_ok_iff {verbose : Bool} {filename : String} {source : Text}
    {a : Assembly} : (ofSource verbose filename source).result = .ok a
      ↔ ∃ l codes, (Listing.ofSource filename source).result = .ok l
        ∧ ObjectCode.encodeStatements l.symbols l.statements = .ok codes
        ∧ (trim (ofLines codes)).any isHalf = false
        ∧ a = .ofCode (trim (ofLines codes)) l.records := by
  simp only [ofSource, Logged.result_bind_eq_ok_iff, ObjectCode.result_generate,
    Logged.result_ofEncoding_checkHalves, Logged.result_report, Logged.result_pure]
  constructor
  · rintro ⟨l, hlisting, _, ⟨codes, hcodes, rfl⟩, _, ⟨rfl, hhalves⟩, _, -, ha⟩
    exact ⟨l, codes, hlisting, hcodes, hhalves, (Except.ok.inj ha).symm⟩
  · rintro ⟨l, codes, hlisting, hcodes, hhalves, rfl⟩
    exact ⟨l, hlisting, _, ⟨codes, hcodes, rfl⟩, _, ⟨rfl, hhalves⟩, (), trivial, rfl⟩

/-- With a listing and the object code of its statements, the assembly succeeds, if there is no half
in the code. -/
theorem assemble_of_listing (verbose : Bool) {filename : String} {source : Text} {l : Listing}
    {codes : List Text} (hlisting : (Listing.ofSource filename source).result = .ok l)
    (hcodes : ObjectCode.encodeStatements l.symbols l.statements = .ok codes)
    (hhalves : (trim (ofLines codes)).any isHalf = false) :
    ∃ a, (assemble verbose filename source).2 = .assembled a
      ∧ a.objectCode = trim (ofLines codes) := by
  refine ⟨.ofCode (trim (ofLines codes)) l.records, ?_, rfl⟩
  have hresult : (Assembly.ofSource verbose filename source).result
      = .ok (.ofCode (trim (ofLines codes)) l.records) :=
    Assembly.ofSource_eq_ok_iff.2 ⟨l, codes, hlisting, hcodes, hhalves, rfl⟩
  simp only [assemble, Logged.toOutcome, hresult]

/-- What is assembled comes from the source as a whole. -/
theorem assembly_of_assembled {verbose : Bool} {filename : String} {source : Text} {a : Assembly}
    (h : (assemble verbose filename source).2 = .assembled a) :
    (Assembly.ofSource verbose filename source).result = .ok a := by
  unfold assemble Logged.toOutcome at h
  split at h
  · next hresult =>
    cases h
    exact hresult
  · cases h
  · cases h

end ContractAsm
