-- SUMMARY: Comments, blank lines and inert directives leave an assembly as it is.
import ContractAsm.Proofs.Layout
import ContractAsm.Proofs.Numbering
import ContractAsm.Proofs.Relocation

/-!
# Comments

A line that is blank, a comment, or a directive that asks for nothing changes nothing but the
numbers of the lines behind it, and so does a comment behind the text of a line. These numbers show
in reports and in the messages of failures only. Two listings in the making that differ in them stay
so, line by line, and their object code and debug records are the same in the end.
-/

namespace ContractAsm

open Text Listing

/-! ## Computations side by side -/

/-- Both computations fail, or both have results, which are related. -/
inductive Agree {ε α β : Type} (R : α → β → Prop) : Except ε α → Except ε β → Prop
  | ok {a : α} {b : β} (h : R a b) : Agree R (.ok a) (.ok b)
  | error (e e' : ε) : Agree R (.error e) (.error e')

namespace Agree

variable {ε α β γ δ : Type} {R : α → β → Prop} {S : γ → δ → Prop}

/-- Results that agree are used alike. -/
theorem bind {x : Except ε α} {y : Except ε β} (h : Agree R x y) {f : α → Except ε γ}
    {g : β → Except ε δ} (hf : ∀ a b, R a b → Agree S (f a) (g b)) :
    Agree S (x >>= f) (y >>= g) := by
  cases h with
  | ok hab => exact hf _ _ hab
  | error e e' => exact .error e e'

/-- A result agrees with itself. -/
theorem refl (x : Except ε α) : Agree Eq x x := by
  cases x with
  | ok a => exact .ok rfl
  | error e => exact .error e e

end Agree

/-! ## Symbols on other lines -/

/-- Definitions of one name by one text. -/
structure Definition.Alike (d d' : Definition) : Prop where
  name : d.name = d'.name
  location : d.location = d'.location

namespace SymbolTable

/-- Tables with the same names and locations in the same order. -/
def Alike (table table' : SymbolTable) : Prop :=
  List.Forall₂ Definition.Alike table.definitions table'.definitions

variable {table table' : SymbolTable} {d d' : Definition} {ds ds' : List Definition}

/-- Tables that differ in line numbers find the same locations. -/
theorem Alike.get?_eq (h : Alike table table') (name : Text) :
    table.get? name = table'.get? name := by
  unfold get? find?
  unfold Alike at h
  generalize table.definitions = ds, table'.definitions = ds' at h ⊢
  induction h with
  | nil => rfl
  | @cons e e' es es' he _ ih =>
    rw [List.find?_cons, List.find?_cons, he.name]
    split
    · simp only [Option.map_some, he.location]
    · exact ih

/-- Tables that differ in line numbers measure the same preamble. -/
theorem Alike.preambleSize_eq (h : Alike table table') :
    table.preambleSize = table'.preambleSize := by
  simp only [preambleSize, numericValue, h.get?_eq]

theorem forall₂_insertInto (hd : d.Alike d') (h : List.Forall₂ Definition.Alike ds ds') :
    List.Forall₂ Definition.Alike (insertInto d ds) (insertInto d' ds') := by
  induction h with
  | nil => exact .cons hd .nil
  | @cons e e' es es' he hes ih =>
    simp only [insertInto, he.name, hd.name]
    split
    · exact .cons hd hes
    · exact .cons he ih

/-- Definitions that differ in line numbers keep the tables alike. -/
theorem Alike.insert (h : Alike table table') (hd : d.Alike d') :
    Alike (table.insert d) (table'.insert d') :=
  forall₂_insertInto hd h

theorem forall₂_insertByLength (hd : d.Alike d') (h : List.Forall₂ Definition.Alike ds ds') :
    List.Forall₂ Definition.Alike (insertByLength d ds) (insertByLength d' ds') := by
  induction h with
  | nil => exact .cons hd .nil
  | @cons e e' es es' he hes ih =>
    simp only [insertByLength, he.name, hd.name]
    split
    · exact .cons hd (.cons he hes)
    · exact .cons he ih

theorem Alike.byLength (h : Alike table table') :
    List.Forall₂ Definition.Alike table.byLength table'.byLength := by
  unfold SymbolTable.byLength
  unfold Alike at h
  generalize table.definitions = ds, table'.definitions = ds' at h ⊢
  induction h with
  | nil => exact .nil
  | cons he _ ih => exact forall₂_insertByLength he ih

/-- Tables that differ in line numbers substitute alike. -/
theorem Alike.substitute_eq (h : Alike table table') (line : Text) :
    table.substitute line = table'.substitute line := by
  unfold substitute
  have hsorted := h.byLength
  generalize table.byLength = ds, table'.byLength = ds' at hsorted ⊢
  induction hsorted generalizing line with
  | nil => rfl
  | @cons e e' es es' he _ ih =>
    have hline : e.substitute line = e'.substitute line := by
      simp only [Definition.substitute, he.name, he.location]
    rw [List.foldl_cons, List.foldl_cons, hline, ih]

/-- A definition depends on its line number in nothing but that number. -/
theorem definition?_agree (operands : Text) (index n n' : Int) :
    Agree (Option.Rel Definition.Alike) (definition? operands index n)
      (definition? operands index n') := by
  rw [definition?_eq, definition?_eq]
  cases target? operands with
  | none => exact .ok .none
  | some parts =>
    obtain ⟨name, target⟩ := parts
    simp only
    generalize (if target = ['.'] then Numeral.write index else .ok target) = written
    cases written with
    | error l => exact .error l l
    | ok location => exact .ok (.some ⟨rfl, rfl⟩)

end SymbolTable

/-! ## Statements on other lines -/

/-- Statements with one text and one index. -/
structure Statement.Alike (s s' : Statement) : Prop where
  text : s.text = s'.text
  index : s.index = s'.index

/-- The code does not depend on line numbers. -/
theorem ObjectCode.encodeStatements_alike [Platform] {symbols symbols' : SymbolTable}
    {statements statements' : List Statement} (hsymbols : symbols.Alike symbols')
    (h : List.Forall₂ Statement.Alike statements statements') :
    encodeStatements symbols statements = encodeStatements symbols' statements' := by
  unfold encodeStatements
  induction h with
  | nil => rfl
  | @cons s s' ss ss' hs _ ih =>
    have hstatement : encodeStatement symbols s = encodeStatement symbols' s' := by
      simp only [encodeStatement, hs.text, hs.index, hsymbols.substitute_eq]
    rw [List.filter_cons, List.filter_cons, hs.text]
    split
    · rw [List.mapM_cons, List.mapM_cons, hstatement, ih]
    · exact ih

/-! ## Directives on other lines -/

namespace Collector

variable {table table' : SymbolTable} (hsize : table.preambleSize = table'.preambleSize)

include hsize

/-- Of the symbols, a step sees no more than the size of the preamble. -/
theorem withPreamble_congr (c : Collector) (f : Int → Step) :
    c.withPreamble table f = c.withPreamble table' f := by
  simp only [withPreamble, hsize]

/-- The number of a directive's line is no more than reported. -/
theorem apply_congr [Platform] (c : Collector) (d : Directive) (index n n' : Int) :
    (c.apply table d index n).1 = (c.apply table' d index n').1
      ∧ (c.apply table d index n).2.result = (c.apply table' d index n').2.result := by
  unfold apply
  cases d.kind with
  | opening => simp only [openRegion, withPreamble_congr hsize, and_self]
  | closing => simp only [closeRegion, withPreamble_congr hsize, and_self]
  | sourceLine => simp only [markLine, withPreamble_congr hsize, and_self]
  | unknown => exact ⟨rfl, rfl⟩

/-- A directive does the same whatever the line numbers. -/
theorem consume_congr [Platform] (c : Collector) (line : Text) (index n n' : Int) :
    (c.consume table line index n).1 = (c.consume table' line index n').1
      ∧ (c.consume table line index n).2.result = (c.consume table' line index n').2.result := by
  unfold consume
  split
  · next d _ => exact apply_congr hsize c d index n n'
  · exact ⟨rfl, rfl⟩
  · exact ⟨rfl, rfl⟩

/-- The end of a listing does the same whatever the line numbers. -/
theorem finish_congr (c : Collector) : c.finish table = c.finish table' := by
  simp only [finish, withPreamble_congr hsize]

end Collector

/-! ## Listings in the making -/

namespace Listing

/-- Listings in the making that differ in the numbers of the lines only. -/
structure Progress.Alike (p q : Progress) : Prop where
  symbols : p.symbols.Alike q.symbols
  collector : p.collector = q.collector
  statements : List.Forall₂ Statement.Alike p.statements.toList q.statements.toList

variable {filename : String} {p q : Progress} {n m : Nat}

namespace Progress

theorem Alike.refl (p : Progress) : p.Alike p where
  symbols := List.forall₂_same.2 fun _ _ => ⟨rfl, rfl⟩
  collector := rfl
  statements := List.forall₂_same.2 fun _ _ => ⟨rfl, rfl⟩

theorem Alike.size_eq (h : p.Alike q) : p.statements.size = q.statements.size := by
  rw [← Array.length_toList, ← Array.length_toList, h.statements.length_eq]

/-- What a directive line comes to. -/
theorem result_addDirective [Platform] (p : Progress) (n : Nat) (line : Text) :
    (p.addDirective n line).result
      = (p.collector.consume p.symbols line p.statements.size n).2.result.map fun _ =>
        { p with collector := (p.collector.consume p.symbols line p.statements.size n).1 } := by
  unfold addDirective
  obtain ⟨c, outcome⟩ := p.collector.consume p.symbols line p.statements.size n
  rw [Logged.result_bind]
  cases outcome.result with
  | error e => rfl
  | ok _ => rfl

/-- Reading a directive keeps the progress alike. -/
theorem Alike.addDirective [Platform] (h : p.Alike q) (line : Text) :
    Agree Alike (p.addDirective n line).result (q.addDirective m line).result := by
  obtain ⟨hnext, hresult⟩ := Collector.consume_congr h.symbols.preambleSize_eq q.collector line
    q.statements.size n m
  rw [result_addDirective, result_addDirective, h.collector, h.size_eq, hnext, hresult]
  cases (q.collector.consume q.symbols line q.statements.size m).2.result with
  | error e => exact .error e e
  | ok _ => exact .ok ⟨h.symbols, rfl, h.statements⟩

/-- Reading a statement keeps the progress alike. -/
theorem Alike.addStatement (h : p.Alike q) (text : Text) :
    Agree Alike (p.addStatement n text).result (q.addStatement m text).result := by
  unfold Progress.addStatement
  cases defineOperands? text with
  | none =>
    refine .ok ⟨h.symbols, h.collector, ?_⟩
    rw [Array.toList_push, Array.toList_push, h.size_eq]
    exact List.rel_append h.statements (.cons ⟨rfl, rfl⟩ .nil)
  | some operands =>
    simp only [Logged.result_bind, SymbolTable.result_defineStatement, h.size_eq]
    have hmade := SymbolTable.definition?_agree operands q.statements.size n m
    generalize SymbolTable.definition? operands q.statements.size n = made,
      SymbolTable.definition? operands q.statements.size m = made' at hmade ⊢
    cases hmade with
    | error l l' => exact .error _ _
    | ok hmade =>
      cases hmade with
      | none => exact .ok ⟨h.symbols, h.collector, h.statements⟩
      | some hd => exact .ok ⟨h.symbols.insert hd, h.collector, h.statements⟩

/-- References are looked up in the regions; the number of the line shows in a failure only. -/
theorem Alike.resolve [Platform] (h : p.Alike q) (t : Text) :
    Agree Eq (Variable.resolve (p.context filename n) t).result
      (Variable.resolve (q.context filename m) t).result := by
  have hlocation : (p.context filename n).location? = (q.context filename m).location? := by
    funext name
    simp only [Variable.Context.location?_eq, context, h.collector]
  have hlacks : (p.context filename n).lacks = (q.context filename m).lacks := by
    funext r
    simp only [Variable.Context.lacks, hlocation]
  rw [Variable.result_resolve, Variable.result_resolve, hlacks]
  split
  · refine .ok ?_
    simp only [Variable.Context.replace, hlocation]
  · exact .error _ _

/-- One line, which may have another number. -/
theorem Alike.addLine [Platform] (h : p.Alike q) (raw : Text) :
    Agree Alike (p.addLine filename n raw).result (q.addLine filename m raw).result := by
  cases hdirective : Directive.isDirective (trim raw) with
  | true =>
    rw [Source.addLine_directive hdirective, Source.addLine_directive hdirective]
    exact h.addDirective (trim raw)
  | false =>
    cases hcode : Source.code? raw with
    | none =>
      rw [Source.addLine_of_code?_none hdirective hcode,
        Source.addLine_of_code?_none hdirective hcode]
      exact .ok h
    | some t =>
      rw [Source.addLine_of_code? hcode, Source.addLine_of_code? hcode, Logged.result_bind,
        Logged.result_bind]
      refine (h.resolve t).bind ?_
      rintro text _ rfl
      exact h.addStatement text

end Progress

/-- Listings that differ in the numbers of the lines only. -/
structure Alike (l l' : Listing) : Prop where
  symbols : l.symbols.Alike l'.symbols
  statements : List.Forall₂ Statement.Alike l.statements l'.statements
  records : l.records = l'.records

theorem Progress.Alike.finish (h : p.Alike q) :
    Agree Listing.Alike p.finish.result q.finish.result := by
  rw [Source.result_finish, Source.result_finish, h.collector,
    Collector.finish_congr h.symbols.preambleSize_eq]
  cases (q.collector.finish q.symbols).2.result with
  | error e => exact .error e e
  | ok _ => exact .ok ⟨h.symbols, h.statements, rfl⟩

end Listing

/-! ## Lines that ask for nothing -/

/-- A line that has no effect: a blank line, a comment that is no directive, or a directive that is
not decoded or has none of the known keys. -/
inductive Inert [Platform] (line : Text) : Prop where
  | blank (h : trim line = [])
  | comment (h : (trim line).head? = some ';') (hplain : Directive.isDirective (trim line) = false)
  | malformed {f : Json.Fault} (h : Directive.isDirective (trim line) = true)
    (hread : Json.read ((trim line).drop 2) = .error (.fault f))
  | notObject {v : Json} (h : Directive.isDirective (trim line) = true)
    (hread : Json.read ((trim line).drop 2) = .ok v) (hv : ∀ members, v ≠ .object members)
  | unknown {members : List (Text × Json)} (h : Directive.isDirective (trim line) = true)
    (hread : Json.read ((trim line).drop 2) = .ok (.object members))
    (hkeys : ∀ key ∈ ["code", "endcode", "srcline"], Json.find? key.toList members = none)

namespace Listing

variable {filename : String} {p q : Progress} {n : Nat} {line comment : Text}

theorem result_addLine_of_decode [Platform] {decoded : Except DirectiveFault Directive}
    (h : Directive.isDirective (trim line) = true)
    (hdecode : Directive.decode (trim line) = .ok decoded)
    (hunknown : ∀ d, decoded = .ok d → d.kind = .unknown) :
    (p.addLine filename n line).result = .ok p := by
  rw [Source.addLine_directive h, Progress.result_addDirective]
  cases decoded with
  | error f =>
    simp only [Collector.consume, hdecode]
    rfl
  | ok d =>
    simp only [Collector.consume, hdecode, Collector.apply, hunknown d rfl]
    rfl

/-- Nothing is hashed of a directive. -/
theorem hashed_directive (h : Directive.isDirective (trim line) = true) : hashed line = [] :=
  if_pos h

/-- An inert line passes its check. -/
theorem checkLine_inert [Platform] (hnewline : '\n' ∉ line) (h : Inert line) : checkLine line = .ok
    () := by
  apply checkLine_of_hashed_eq_nil
  cases h with
  | blank h => exact hashed_silent hnewline (.inl h)
  | comment h _ => exact hashed_silent hnewline (.inr h)
  | malformed h _ | notObject h _ _ | unknown h _ _ => exact hashed_directive h

/-- An inert line changes nothing. -/
theorem result_addLine_inert [Platform] (hnewline : '\n' ∉ line) (h : Inert line) :
    (p.addLine filename n line).result = .ok p := by
  cases h with
  | blank h =>
    rw [addLine_silent hnewline (.inl h) (by rw [h]; rfl)]
    rfl
  | comment h hplain =>
    rw [addLine_silent hnewline (.inr h) hplain]
    rfl
  | @malformed f h hread =>
    have hdecode : Directive.decode (trim line) = .ok (.error (.malformed f)) := by
      rw [Directive.decode, hread]
    exact result_addLine_of_decode h hdecode nofun
  | notObject h hread hv =>
    have hdecode : Directive.decode (trim line) = .ok (.error .notObject) := by
      rw [Directive.decode, hread]
      split
      · next heq =>
        cases heq
        exact absurd rfl (hv _)
      · rfl
      · next heq => cases heq
      · next heq => cases heq
    exact result_addLine_of_decode h hdecode nofun
  | @unknown members h hread hkeys =>
    have hdecode : Directive.decode (trim line)
        = .ok (.ok ⟨Directive.kindOf members, members⟩) := by
      rw [Directive.decode, hread]
    have hkind : Directive.kindOf members = .unknown := by
      rw [Directive.kindOf, hkeys "code" (by simp), hkeys "endcode" (by simp),
        hkeys "srcline" (by simp)]
      rfl
    refine result_addLine_of_decode h hdecode fun d hd => ?_
    cases hd
    exact hkind

end Listing

/-! ## Comments behind a text -/

namespace Text

theorem flush_semicolon (t : Text) : Flush (';' :: t) :=
  ⟨';', t, rfl, by decide⟩

theorem exists_trim_semicolon (t : Text) : ∃ rest, trim (';' :: t) = ';' :: rest := by
  obtain ⟨tail, htail⟩ := exists_trimEnd_append (';' :: t)
  have hne : trim (';' :: t) ≠ [] := trim_ne_nil_iff.2 ⟨';', by simp, by decide⟩
  rw [trim, (flush_semicolon t).trimStart_eq] at hne ⊢
  obtain ⟨c, cs, hcs⟩ := List.exists_cons_of_ne_nil hne
  rw [hcs] at htail
  obtain ⟨rfl, -⟩ := List.cons.inj htail
  exact ⟨cs, hcs⟩

theorem takeWhile_semicolon {t : Text} (h : ';' ∉ t) (rest : Text) :
    (t ++ ';' :: rest).takeWhile (· != ';') = t := by
  have hpass : ∀ c ∈ t, (c != ';') = true := by
    intro c hc
    have hne : c ≠ ';' := fun heq => h (heq ▸ hc)
    simpa using hne
  rw [List.takeWhile_append_of_pos hpass, List.takeWhile_cons_of_neg (by decide), List.append_nil]

end Text

theorem Directive.isDirective_of_head {t : Text} (h : t.head? ≠ some ';') :
    isDirective t = false := by
  unfold isDirective
  split
  · exact absurd rfl h
  · rfl

/-- A line with a text on it in front of any comment. -/
structure StartsCode (line : Text) : Prop where
  nonblank : trim line ≠ []
  head : (trim line).head? ≠ some ';'

namespace Listing

variable {filename : String} {p q : Progress} {n m : Nat} {line comment : Text}

/-- Trimming a line and a comment behind it keeps the text of the line, the blanks behind the text,
and the semicolon. -/
theorem exists_trim_comment (h : StartsCode line) (comment : Text) :
    ∃ blanks rest, trim (line ++ ';' :: comment) = trim line ++ (blanks ++ ';' :: rest)
      ∧ (∀ c ∈ blanks, isBlank c = true) := by
  have hsemicolon := flush_semicolon comment
  obtain ⟨before, blanks, hline, hbefore, hblanks⟩ := exists_blanks_trim line
  obtain ⟨rest, hrest⟩ := exists_trim_semicolon comment
  refine ⟨blanks, rest, ?_, hblanks⟩
  have hfront : trim line ++ blanks ≠ [] → Flush (trim line ++ blanks) :=
    fun _ => (flush_trim h.nonblank).append blanks
  calc trim (line ++ ';' :: comment)
      = trim (before ++ (trim line ++ blanks ++ ';' :: comment)) := by
        conv_lhs => rw [hline]
        simp only [List.append_assoc]
    _ = trim (trim line ++ blanks ++ ';' :: comment) := trim_blanks_append hbefore
    _ = trim line ++ blanks ++ ';' :: rest := by rw [Flush.trim_append hfront hsemicolon, hrest]
    _ = trim line ++ (blanks ++ ';' :: rest) := List.append_assoc ..

/-- A comment behind code is stripped. -/
theorem stripComment_append (hline : '\n' ∉ line) (hcomment : '\n' ∉ comment)
    (h : StartsCode line) :
    stripComment (trim (line ++ ';' :: comment)) = stripComment (trim line) := by
  have hnewline : '\n' ∉ trim (line ++ ';' :: comment) := by
    intro hmem
    have hall := mem_of_mem_trim hmem
    simp [hline, hcomment] at hall
  obtain ⟨blanks, rest, htrim, hblanks⟩ := exists_trim_comment h comment
  rw [stripComment_of_oneLine hnewline, htrim, if_pos (by simp),
    stripComment_of_oneLine fun hmem => hline (mem_of_mem_trim hmem)]
  split
  · next hmem =>
    -- the line has a comment already, and the new one is part of it
    obtain ⟨code, old, hold, hcode⟩ := List.eq_append_cons_of_mem hmem
    rw [hold, List.append_assoc, List.cons_append, takeWhile_semicolon hcode,
      takeWhile_semicolon hcode]
  · next hmem =>
    have hfront : ';' ∉ trim line ++ blanks := by
      intro hc
      rcases List.mem_append.1 hc with hc | hc
      · exact hmem hc
      · cases hblanks _ hc
    calc trimEnd ((trim line ++ (blanks ++ ';' :: rest)).takeWhile (· != ';'))
        = trimEnd (trim line ++ blanks) := by rw [← List.append_assoc, takeWhile_semicolon hfront]
      _ = trimEnd (trimStart (trim line)) := by
          rw [trimEnd_append_blanks hblanks, (flush_trim h.nonblank).trimStart_eq]
      _ = trim line := trim_trim line

/-- A comment behind a text leaves the line as it is. -/
theorem addLines_append_comment [Platform] {rest : List Text} (hline : '\n' ∉ line)
    (hcomment : '\n' ∉ comment)
    (h : StartsCode line) :
    p.addLines filename n ((line ++ ';' :: comment) :: rest)
      = p.addLines filename n (line :: rest) := by
  have hhead : (trim (line ++ ';' :: comment)).head? = (trim line).head? := by
    obtain ⟨blanks, rest, htrim, -⟩ := exists_trim_comment h comment
    rw [htrim, List.head?_append_of_ne_nil _ h.nonblank]
  have hplain := Directive.isDirective_of_head h.head
  have hplain' := Directive.isDirective_of_head (hhead ▸ h.head)
  simp only [Progress.addLines, checkLine, hashed, Progress.addLine, hplain, hplain',
    stripComment_append hline hcomment h, Bool.false_eq_true, if_false]

/-! ## Sources with more comments -/

/-- Lines with more comments in them: whole lines that ask for nothing, or comments behind the text
of a line. -/
inductive Commented [Platform] : List Text → List Text → Prop
  | nil : Commented [] []
  | keep {ls ls' : List Text} (line : Text) (h : Commented ls ls') :
    Commented (line :: ls) (line :: ls')
  | insert {ls ls' : List Text} {line : Text} (hline : '\n' ∉ line) (hinert : Inert line)
    (h : Commented ls ls') : Commented ls (line :: ls')
  | append {ls ls' : List Text} {line comment : Text} (hline : '\n' ∉ line)
    (hcode : StartsCode line) (hcomment : '\n' ∉ comment) (h : Commented ls ls') :
    Commented (line :: ls) ((line ++ ';' :: comment) :: ls')

/-- No comment need be added. -/
theorem Commented.refl [Platform] (ls : List Text) : Commented ls ls := by
  induction ls with
  | nil => exact .nil
  | cons line ls ih => exact ih.keep line

/-- Comments may be added further down. -/
theorem Commented.behind [Platform] {ls ls' : List Text} (h : Commented ls ls')
    (before : List Text) :
    Commented (before ++ ls) (before ++ ls') := by
  induction before with
  | nil => exact h
  | cons line before ih => exact ih.keep line

theorem Commented.newline_not_mem [Platform] {ls ls' : List Text} (h : Commented ls ls')
    (hls : ∀ line ∈ ls, '\n' ∉ line) : ∀ line ∈ ls', '\n' ∉ line := by
  induction h with
  | nil => exact hls
  | keep line _ ih =>
    obtain ⟨hline, hls⟩ := List.forall_mem_cons.1 hls
    exact List.forall_mem_cons.2 ⟨hline, ih hls⟩
  | insert hline _ _ ih => exact List.forall_mem_cons.2 ⟨hline, ih hls⟩
  | append hline _ hcomment _ ih =>
    refine List.forall_mem_cons.2 ⟨?_, ih (List.forall_mem_cons.1 hls).2⟩
    simp [hline, hcomment]

theorem Commented.ne_nil [Platform] {ls ls' : List Text} (h : Commented ls ls') (hne : ls ≠ []) :
    ls' ≠ [] := by
  cases h with
  | nil => exact hne
  | keep => exact List.cons_ne_nil _ _
  | insert => exact List.cons_ne_nil _ _
  | append => exact List.cons_ne_nil _ _

/-- Progress that is alike stays so over a line that both read. -/
theorem Progress.Alike.addLines_cons [Platform] (hpq : p.Alike q) (line : Text) {ls ls' : List Text}
    (hrest : ∀ p q : Progress, p.Alike q → Agree Progress.Alike
      (p.addLines filename (n + 1) ls).result (q.addLines filename (m + 1) ls').result) :
    Agree Progress.Alike (p.addLines filename n (line :: ls)).result
      (q.addLines filename m (line :: ls')).result := by
  simp only [Progress.addLines, Logged.result_bind]
  exact (Agree.refl _).bind fun _ _ _ => (hpq.addLine line).bind hrest

/-- Reading lines with more comments in them, and without. -/
theorem Commented.addLines [Platform] {ls ls' : List Text} (h : Commented ls ls')
    (hpq : p.Alike q) :
    Agree Progress.Alike (p.addLines filename n ls).result (q.addLines filename m ls').result := by
  -- the induction follows the commented lines, and the line numbers drift apart
  induction h generalizing p q n m with
  | nil => exact .ok hpq
  | keep line _ ih => exact hpq.addLines_cons line fun p q hnext => ih hnext
  | insert hline hinert _ ih =>
    rw [Listing.addLines_cons (checkLine_inert hline hinert), Logged.result_bind,
      result_addLine_inert hline hinert]
    exact ih hpq
  | append hline hcode hcomment _ ih =>
    rw [addLines_append_comment hline hcomment hcode]
    exact hpq.addLines_cons _ fun p q hnext => ih hnext

/-- Commented sources give listings that differ in line numbers only. -/
theorem Commented.ofSource [Platform] {source source' : Text}
    (h : Commented (lines source) (lines source')) :
    Agree Listing.Alike (Listing.ofSource filename source).result
      (Listing.ofSource filename source').result := by
  rw [Listing.ofSource, Listing.ofSource, Logged.result_bind, Logged.result_bind]
  exact (h.addLines (.refl .start)).bind fun p q hpq => hpq.finish

end Listing

/-- Such listings have the same code. -/
theorem Listing.Alike.generate_eq [Platform] {l l' : Listing} (h : l.Alike l') :
    ObjectCode.generate l.symbols l.statements = ObjectCode.generate l'.symbols l'.statements := by
  rw [ObjectCode.generate, ObjectCode.generate,
    ObjectCode.encodeStatements_alike h.symbols h.statements]

/-- Outcomes that differ in the message of a failure only. -/
structure Outcome.Agrees (o o' : Outcome) : Prop where
  success : o.success = o'.success
  objectCode : o.objectCode = o'.objectCode
  bytecode : o.bytecode = o'.bytecode
  hash : o.hash = o'.hash
  debugInfo : o.debugInfo = o'.debugInfo

theorem Logged.exists_failed {filename : String} {x : Logged Failure Assembly} {e : Failure}
    (h : x.result = .error e) : ∃ message, (x.toOutcome filename).2 = .failed message := by
  unfold Logged.toOutcome
  rw [h]
  cases e with
  | undefinedVariable u => exact ⟨_, rfl⟩
  | limit l => exact ⟨_, rfl⟩
  | encoding f => exact ⟨_, rfl⟩

/-- Results that agree are reported alike. -/
theorem Logged.agrees_toOutcome {filename : String} {x y : Logged Failure Assembly}
    (h : Agree Eq x.result y.result) :
    (x.toOutcome filename).2.Agrees (y.toOutcome filename).2 := by
  generalize hx : x.result = result, hy : y.result = result' at h
  cases h with
  | ok heq =>
    simp only [Logged.toOutcome, hx, hy, heq]
    exact ⟨rfl, rfl, rfl, rfl, rfl⟩
  | error e e' =>
    obtain ⟨message, hmessage⟩ := Logged.exists_failed hx
    obtain ⟨message', hmessage'⟩ := Logged.exists_failed hy
    rw [hmessage, hmessage']
    exact ⟨rfl, rfl, rfl, rfl, rfl⟩

/-- A source with more comments in it is assembled to the same program, or fails too. -/
theorem agrees_of_commented [Platform] {source source' : Text}
    (h : Commented (lines source) (lines source')) (verbose : Bool) (filename : String) :
    (assemble verbose filename source).2.Agrees (assemble verbose filename source').2 := by
  apply Logged.agrees_toOutcome
  rw [Assembly.ofSource, Assembly.ofSource, Logged.result_bind, Logged.result_bind]
  refine h.ofSource.bind fun l l' hl => ?_
  rw [hl.generate_eq, hl.records, Logged.result_bind, Logged.result_bind]
  refine (Agree.refl _).bind ?_
  rintro code _ rfl
  rw [Logged.result_bind, Logged.result_bind]
  refine (Agree.refl _).bind ?_
  rintro code _ rfl
  exact .ok rfl

/-- Comments do not change what a source is assembled to. -/
theorem agrees_ofLines [Platform] {source : Text} {ls : List Text} (h : Commented (lines source) ls)
    (verbose : Bool) (filename : String) :
    (assemble verbose filename source).2.Agrees (assemble verbose filename (ofLines ls)).2 := by
  have hls : lines (ofLines ls) = ls :=
    lines_ofLines (h.ne_nil (lines_ne_nil source))
      (h.newline_not_mem fun _ hline => newline_not_mem_line hline)
  refine agrees_of_commented ?_ verbose filename
  rwa [hls]

/-- Neither a line that asks for nothing, wherever it is put, nor a comment behind the text of a
line changes what a source is assembled to. -/
theorem assemble_commented [Platform] (verbose : Bool) (filename : String) (source : Text) :
    (∀ before after line, lines source = before ++ after → '\n' ∉ line → Inert line →
      (assemble verbose filename source).2.Agrees
        (assemble verbose filename (ofLines (before ++ line :: after))).2)
    ∧ ∀ before line after comment, lines source = before ++ line :: after → StartsCode line →
      '\n' ∉ comment →
      (assemble verbose filename source).2.Agrees
        (assemble verbose filename (ofLines (before ++ (line ++ ';' :: comment) :: after))).2 := by
  constructor
  · intro before after line hlines hline hinert
    apply agrees_ofLines
    rw [hlines]
    exact .behind (.insert hline hinert (.refl after)) before
  · intro before line after comment hlines hcode hcomment
    have hline : '\n' ∉ line := newline_not_mem_line (by rw [hlines]; simp)
    apply agrees_ofLines
    rw [hlines]
    exact .behind (.append hline hcode hcomment (.refl after)) before

/-- A region with a variable and a branch back to its first statement. -/
def looping : List Text := [
  ";#\x7b\"code\":1,\"vars\":[\x7b\"a\":\x7b\"loc\":\"gi0,\"\x7d\x7d]\x7d".toList,
  "define top .".toList,
  "EVAL8 \\a,x01,".toList,
  ";#\x7b\"srcline\":3\x7d".toList,
  "\tIF gi0,.top, ".toList]

/-- A directive to open a region, but without a value for the tag. -/
def brokenDirective : Text := " ;#\x7b\"code\"\x7d".toList

/-- A comment that looks like a directive and like code with an undeclared variable. -/
def misleading : Text := "#\x7b\"code\":2\x7d \\b, \"x; abi(\"f\")".toList

theorem assemble_commented_looping :
    (assemble false "main.asm" (ofLines looping)).2.success = true
    ∧ (assemble false "main.asm" (ofLines looping)).2.Agrees
      (assemble false "main.asm"
        (ofLines (looping.take 2 ++ brokenDirective :: looping.drop 2))).2
    ∧ (assemble false "main.asm" (ofLines looping)).2.Agrees
      (assemble false "main.asm"
        (ofLines (looping.take 4 ++ [looping[4] ++ ';' :: misleading]))).2 := by
  have hdepth : Platform.depth = 990 := rfl
  have hread : Json.read ((trim brokenDirective).drop 2) = .error (.fault .noColon) := by
    unfold Json.read
    rw [hdepth]
    cbv
  have hinert : Inert brokenDirective := .malformed (by decide) hread
  obtain ⟨hinsert, happend⟩ := assemble_commented false "main.asm" (ofLines looping)
  refine ⟨?_, hinsert _ _ _ (by decide +kernel) (by decide) hinert,
    happend _ _ [] _ (by decide +kernel) ⟨by decide, by decide⟩ (by decide)⟩
  obtain ⟨a, ha⟩ := exists_of_isOk
    (x := (Assembly.ofSource false "main.asm" (ofLines looping)).result) (by decide +kernel)
  simp only [assemble, Logged.toOutcome, ha]
  rfl

end ContractAsm
