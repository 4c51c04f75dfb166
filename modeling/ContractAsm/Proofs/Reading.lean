-- SUMMARY: Listings line by line: what they say of the lines read so far, and what a line fails at.
import ContractAsm.Proofs.Listing
import ContractAsm.Proofs.Region

/-!
# Reading line by line

A listing in the making reflects what the lines read so far say: their statements, their symbols,
and their regions. A line that is taken in keeps this. A line fails at a selector with no bytes to
hash, at the first of its references that has no location, or at a limit of conversion.

The debug records of a whole listing are then those that the source describes: one for each opening
directive, with the events up to the next one.
-/

namespace ContractAsm

open Text Listing

theorem exists_of_isOk {ε α : Type} {x : Except ε α} (h : x.isOk = true) : ∃ a, x = .ok a := by
  cases x with
  | error e => cases h
  | ok a => exact ⟨a, rfl⟩

namespace Source

section Reading

variable [Platform]

/-! ## One line -/

/-- What references of a line are looked up in. -/
def Place.context (x : Place) (filename : String) : Variable.Context where
  current := currentScope x.before
  global := globalScope x.before
  filename := filename
  lineNumber := x.number

/-- The context of a place locates names as the place does. -/
theorem Place.location?_context (x : Place) (filename : String) (name : Text) :
    (x.context filename).location? name = x.location? name :=
  (x.context filename).location?_eq name

/-- What is wrong with a line, limits apart: a selector has no bytes to hash, or a reference has no
location. -/
def Place.fault? (x : Place) (filename : String) : Option Failure :=
  match checkLine x.line with
  | .error f => some (.encoding f)
  | .ok () => (code? x.line).bind fun t =>
    x.unresolved?.map fun r => .undefinedVariable ((x.context filename).undefined t r)

/-- A listing in the making that says what some lines say. -/
structure Reflects (done : List Text) (p : Progress) : Prop where
  statements : p.statements.toList = Source.statements done
  symbols : p.symbols = Source.symbols done
  collector : p.collector = Source.collector (chapters (events done))

/-- Nothing is read at first. -/
theorem reflects_start : Reflects [] .start :=
  ⟨rfl, rfl, rfl⟩

variable {filename : String} {done : List Text} {raw : Text} {p : Progress}

/-- The next statement has the index of the place. -/
theorem Reflects.size_eq (h : Reflects done p) :
    p.statements.size = (Place.mk done raw).index := by
  rw [← Array.length_toList, h.statements, length_statements]
  rfl

/-- A line is read in the context of its place. -/
theorem Reflects.context_eq (h : Reflects done p) :
    p.context filename (done.length + 1) = (Place.mk done raw).context filename := by
  rw [Progress.context, h.collector, map_scope_current?, map_scope_global?]
  rfl

/-- What reading some lines behind others comes to: all of them are taken in, nothing is wrong with
them and their directives are decoded; or there is a line that does not fit; or reading fails at
what is wrong first. -/
def Reads (filename : String) (before rest : List Text) : Except Failure Progress → Prop
  | .ok p => Reflects (before ++ rest) p
    ∧ ∀ x ∈ placesFrom before rest, x.fault? filename = none ∧ Decodes x.line
  | .error (.limit _) => ∃ x ∈ placesFrom before rest, ¬ x.Fits
  | .error e => (placesFrom before rest).findSome? (·.fault? filename) = some e

theorem text?_of_code?_none (h : code? raw = none) : (Place.mk done raw).text? = none := by
  rw [Place.text?, h, Option.map_none]

theorem unresolved?_of_code?_none {x : Place} (h : code? x.line = none) : x.unresolved? = none := by
  rw [Place.unresolved?, Place.references, h]
  rfl

/-- A line whose text can be hashed is at fault only for an undefined variable. -/
theorem Place.fault?_of_checkLine {x : Place} (h : checkLine x.line = .ok ()) :
    x.fault? filename = (code? x.line).bind fun t =>
      x.unresolved?.map fun r => .undefinedVariable ((x.context filename).undefined t r) := by
  rw [fault?, h]

/-- A line is sound just if it can be hashed and defines all that it refers to. -/
theorem Place.fault?_eq_none_iff {x : Place} :
    x.fault? filename = none ↔ checkLine x.line = .ok () ∧ x.unresolved? = none := by
  cases hcheck : checkLine x.line with
  | error f => simp [fault?, hcheck]
  | ok _ =>
    rw [fault?_of_checkLine hcheck]
    cases hcode : code? x.line with
    | none => simp [unresolved?_of_code?_none hcode]
    | some t => simp

theorem Place.unresolved?_of_fault? {x : Place} (h : x.fault? filename = none) :
    x.unresolved? = none :=
  (fault?_eq_none_iff.1 h).2

theorem fault?_of_code?_none (hcheck : checkLine raw = .ok ()) (hcode : code? raw = none) :
    (Place.mk done raw).fault? filename = none :=
  Place.fault?_eq_none_iff.2 ⟨hcheck, unresolved?_of_code?_none hcode⟩

theorem event?_of_not_directive (h : Directive.isDirective (trim raw) = false) :
    (Place.mk done raw).event? = none := by
  simp [Place.event?, directive?, h]

/-- A line that holds no code changes the regions at most. -/
theorem Reflects.concat_of_code?_none (h : Reflects done p) (hcode : code? raw = none)
    {c : Collector} (hc : c = Source.collector (chapters (events (done ++ [raw])))) :
    Reflects (done ++ [raw]) { p with collector := c } where
  statements := by
    rw [h.statements, statements_concat, Place.statement?, text?_of_code?_none hcode]
    simp
  symbols := by
    rw [h.symbols, symbols_concat, Place.definition?, Place.operands?, text?_of_code?_none hcode]
    rfl
  collector := hc

/-- A directive is read into the collector. -/
theorem Reflects.reads_directive (h : Reflects done p) (hcheck : checkLine raw = .ok ())
    (hdirective : Directive.isDirective (trim raw) = true) :
    Reads filename done [raw] (p.addDirective (done.length + 1) (trim raw)).result := by
  have hcode : code? raw = none := if_pos hdirective
  have hindex : p.statements.size = (Place.mk done raw).index := h.size_eq
  rw [Progress.addDirective, Logged.result_bind]
  cases hresult : (p.collector.consume p.symbols (trim raw) p.statements.size
      ((done.length + 1 : Nat) : Int)).2.result with
  | ok _ =>
    refine ⟨h.concat_of_code?_none hcode ?_, ?_⟩
    · rw [h.collector, h.symbols] at hresult ⊢
      exact consume_collector hdirective hindex hresult
    · simpa [placesFrom, fault?_of_code?_none hcheck hcode] using decodes_of_consume hresult
  | error e =>
    obtain ⟨l, rfl⟩ := failsByLimit_consume _ _ _ e hresult
    refine ⟨⟨done, raw⟩, by simp [placesFrom], fun hfits => ?_⟩
    rw [h.symbols, consume_of_fits hdirective _ hindex hfits] at hresult
    cases hresult

/-- Blank lines and comments change nothing. -/
theorem Reflects.reads_silent (h : Reflects done p) (hcheck : checkLine raw = .ok ())
    (hcode : code? raw = none) (hdirective : Directive.isDirective (trim raw) = false) :
    Reads filename done [raw] (.ok p) := by
  have hevents : events (done ++ [raw]) = events done := by
    rw [events_concat, event?_of_not_directive hdirective]
    simp
  refine ⟨h.concat_of_code?_none hcode (by rw [h.collector, hevents]), ?_⟩
  simp [placesFrom, fault?_of_code?_none hcheck hcode, Decodes, hdirective]

/-- A line with code changes the statements and symbols, and no region. -/
theorem Reflects.concat_of_code? (h : Reflects done p) {t : Text} (hcode : code? raw = some t)
    {table : SymbolTable} {statements : Array Statement}
    (hstatements : statements.toList = Source.statements (done ++ [raw]))
    (hsymbols : table = Source.symbols (done ++ [raw])) :
    Reflects (done ++ [raw]) ⟨table, p.collector, statements⟩ where
  statements := hstatements
  symbols := hsymbols
  collector := by
    rw [h.collector, events_concat, event?_of_not_directive (code?_eq_some hcode).1]
    simp

/-- Takes in the text of a line, with its references replaced. -/
theorem Reflects.reads_statement (h : Reflects done p) {t text : Text} (hcode : code? raw = some t)
    (htext : (Place.mk done raw).text? = some text)
    (hfault : (Place.mk done raw).fault? filename = none) :
    Reads filename done [raw] (p.addStatement (done.length + 1) text).result := by
  have hall : ∀ x ∈ placesFrom done [raw], x.fault? filename = none ∧ Decodes x.line := by
    simp [placesFrom, hfault, Decodes, (code?_eq_some hcode).1]
  have hindex : p.statements.size = (Place.mk done raw).index := h.size_eq
  unfold Progress.addStatement
  cases hoperands : defineOperands? text with
  | none =>
    have hstatement : (Place.mk done raw).statement? = some text := by
      simp [Place.statement?, htext, hoperands, Option.filter]
    have hdefinition : (Place.mk done raw).definition? = none := by
      simp [Place.definition?, Place.operands?, htext, hoperands]
    refine ⟨h.concat_of_code? hcode ?_ ?_, hall⟩
    · rw [Array.toList_push, h.statements, statements_concat, hstatement, hindex]
      rfl
    · rw [h.symbols, symbols_concat, hdefinition]
      rfl
  | some operands =>
    have hsame : Source.statements (done ++ [raw]) = Source.statements done := by
      simp [statements_concat, Place.statement?, htext, hoperands, Option.filter]
    simp only [Logged.result_bind, SymbolTable.result_defineStatement, hindex]
    cases hmade : SymbolTable.definition? operands (Place.mk done raw).index
        ((done.length + 1 : Nat) : Int) with
    | error l =>
      refine ⟨⟨done, raw⟩, by simp [placesFrom], fun hfits => ?_⟩
      obtain ⟨d, hd⟩ := hfits.defines operands
        (by rw [Place.operands?, htext, Option.bind_some, hoperands])
      cases hmade.symm.trans hd
    | ok made =>
      have hdefinition : (Place.mk done raw).definition? = made := by
        simp only [Place.definition?, Place.operands?, htext, Option.bind_some, hoperands,
          Place.number, hmade]
      have hsymbols : Source.symbols (done ++ [raw]) = made.toList.foldl .insert p.symbols := by
        rw [symbols_concat, hdefinition, h.symbols]
      cases made with
      | none => exact ⟨h.concat_of_code? hcode (h.statements.trans hsame.symm) hsymbols.symm, hall⟩
      | some d =>
        exact ⟨h.concat_of_code? hcode (h.statements.trans hsame.symm) hsymbols.symm, hall⟩

theorem addLine_directive (hdirective : Directive.isDirective (trim raw) = true) (n : Nat) :
    p.addLine filename n raw = p.addDirective n (trim raw) := by
  simp only [Progress.addLine, hdirective, if_true]

theorem addLine_of_code?_none (hdirective : Directive.isDirective (trim raw) = false)
    (hcode : code? raw = none) (n : Nat) : p.addLine filename n raw = pure p := by
  have hempty : stripComment (trim raw) = [] := by
    by_contra hne
    simp [code?, hdirective, hne] at hcode
  simp only [Progress.addLine, hdirective, hempty]
  rfl

theorem addLine_of_code? {t : Text} (hcode : code? raw = some t) (n : Nat) :
    p.addLine filename n raw
      = Variable.resolve (p.context filename n) t >>= p.addStatement n := by
  obtain ⟨hdirective, hne, rfl⟩ := code?_eq_some hcode
  simp only [Progress.addLine, hdirective, List.isEmpty_iff, hne]
  rfl

/-- The first reference that the context lacks is the unresolved one. -/
theorem find?_lacks {t : Text} (hcode : code? raw = some t) :
    (Variable.references t).find? ((Place.mk done raw).context filename).lacks
      = (Place.mk done raw).unresolved? := by
  have hlacks : ((Place.mk done raw).context filename).lacks
      = fun r => ((Place.mk done raw).location? r.2).isNone := by
    funext r
    rw [Variable.Context.lacks, Place.location?_context]
  rw [Place.unresolved?, Place.references, hcode, hlacks]
  rfl

/-- What the line says is its code with the references replaced. -/
theorem text?_eq_replace {t : Text} (hcode : code? raw = some t) :
    (Place.mk done raw).text? = some (((Place.mk done raw).context filename).replace t) := by
  simp only [Place.text?, hcode, Option.map_some, Variable.Context.replace, Place.location?_context]

/-- One line of a source. -/
theorem Reflects.reads_line (h : Reflects done p) (hcheck : checkLine raw = .ok ()) :
    Reads filename done [raw] (p.addLine filename (done.length + 1) raw).result := by
  cases hdirective : Directive.isDirective (trim raw) with
  | true =>
    rw [addLine_directive hdirective]
    exact h.reads_directive hcheck hdirective
  | false =>
    cases hcode : code? raw with
    | none =>
      rw [addLine_of_code?_none hdirective hcode]
      exact h.reads_silent hcheck hcode hdirective
    | some t =>
      have hcontext : p.context filename (done.length + 1) = (Place.mk done raw).context filename :=
        h.context_eq
      rw [addLine_of_code? hcode, Logged.result_bind, hcontext, Variable.result_resolve,
        find?_lacks hcode]
      cases hunresolved : (Place.mk done raw).unresolved? with
      | none =>
        exact h.reads_statement hcode (text?_eq_replace hcode)
          (Place.fault?_eq_none_iff.2 ⟨hcheck, hunresolved⟩)
      | some r =>
        have hfault : (Place.mk done raw).fault? filename
            = some (.undefinedVariable (((Place.mk done raw).context filename).undefined t r)) := by
          rw [Place.fault?_of_checkLine hcheck, hcode, hunresolved]
          rfl
        exact List.findSome?_cons_of_isSome (by rw [hfault]; rfl) |>.trans hfault

/-! ## All lines -/

variable {rest : List Text}

/-- A sound line in front of lines that are read. -/
theorem Reads.cons {result : Except Failure Progress}
    (hline : (Place.mk done raw).fault? filename = none ∧ Decodes raw)
    (h : Reads filename (done ++ [raw]) rest result) :
    Reads filename done (raw :: rest) result := by
  have hskip : (placesFrom done (raw :: rest)).findSome? (·.fault? filename)
      = (placesFrom (done ++ [raw]) rest).findSome? (·.fault? filename) := by
    rw [placesFrom, List.findSome?_cons, hline.1]
  cases result with
  | ok p =>
    obtain ⟨hreflects, hall⟩ := h
    rw [List.append_assoc, List.singleton_append] at hreflects
    exact ⟨hreflects, List.forall_mem_cons.2 ⟨hline, hall⟩⟩
  | error e =>
    cases e with
    | limit l =>
      obtain ⟨x, hmem, hx⟩ := h
      exact ⟨x, List.mem_cons_of_mem _ hmem, hx⟩
    | undefinedVariable u => exact hskip.trans h
    | encoding f => exact hskip.trans h

/-- Nothing behind a line that fails is read. -/
theorem Reads.cons_of_error {e : Failure} (h : Reads filename done [raw] (.error e)) :
    Reads filename done (raw :: rest) (.error e) := by
  have hplaces := placesFrom_append done [raw] rest
  rw [List.singleton_append] at hplaces
  have hfirst : ∀ e, (placesFrom done [raw]).findSome? (·.fault? filename) = some e →
      (placesFrom done (raw :: rest)).findSome? (·.fault? filename) = some e := by
    intro e he
    rw [hplaces, List.findSome?_append, he, Option.some_or]
  cases e with
  | limit l =>
    obtain ⟨x, hmem, hx⟩ := h
    exact ⟨x, hplaces ▸ List.mem_append_left _ hmem, hx⟩
  | undefinedVariable u => exact hfirst _ h
  | encoding f => exact hfirst _ h

/-- Line by line, the progress reflects what was read. -/
theorem Reflects.reads_lines (h : Reflects done p) :
    Reads filename done rest (p.addLines filename (done.length + 1) rest).result := by
  induction rest generalizing done p with
  | nil =>
    refine ⟨?_, by simp [placesFrom]⟩
    rwa [List.append_nil]
  | cons raw rest ih =>
    cases hcheck : checkLine raw with
    | error f =>
      have hfault : (Place.mk done raw).fault? filename = some (.encoding f) := by
        rw [Place.fault?, hcheck]
      rw [Progress.addLines, hcheck]
      exact List.findSome?_cons_of_isSome (by rw [hfault]; rfl) |>.trans hfault
    | ok _ =>
      have hline : Reads filename done [raw] (p.addLine filename (done.length + 1) raw).result :=
        h.reads_line hcheck
      rw [addLines_cons hcheck, Logged.result_bind]
      cases hresult : (p.addLine filename (done.length + 1) raw).result with
      | error e =>
        rw [hresult] at hline
        exact hline.cons_of_error
      | ok next =>
        rw [hresult] at hline
        have hnext := ih hline.1
        rw [List.length_append, List.length_singleton] at hnext
        exact .cons (hline.2 _ (List.mem_cons_self ..)) hnext

/-- The progress reflects a whole source. -/
theorem reads_source (filename : String) (ls : List Text) :
    Reads filename [] ls (Progress.start.addLines filename 1 ls).result :=
  reflects_start.reads_lines

/-! ## The listing -/

/-- Completing the last region leaves the debug records of the lines. -/
theorem records_finish {ls : List Text}
    (h : ((collector (chapters (events ls))).finish (symbols ls)).2.result = .ok ()) :
    ((collector (chapters (events ls))).finish (symbols ls)).1.records = records ls := by
  unfold records regions
  cases hcs : chapters (events ls) with
  | nil => rfl
  | cons c cs =>
    rw [hcs] at h
    have hlast := List.getLast?_eq_some_getLast (List.cons_ne_nil c.region (cs.map Chapter.region))
    have hfinish := Collector.finish_active hlast h
    rw [bodySize_symbols] at hfinish
    exact (congrArg Collector.records hfinish).trans Collector.records_idle

omit [Platform] in
/-- What completing a listing comes to. -/
theorem result_finish (p : Progress) : p.finish.result
    = (p.collector.finish p.symbols).2.result.map fun _ =>
      ⟨p.statements.toList, p.symbols, (p.collector.finish p.symbols).1.records⟩ := by
  unfold Progress.finish
  obtain ⟨c, outcome⟩ := p.collector.finish p.symbols
  rw [Logged.result_bind]
  cases outcome.result with
  | error e => rfl
  | ok _ => rfl

/-- The listing of a source says what the source says, and nothing is wrong with any line. -/
theorem listing_eq {source : Text} {l : Listing}
    (h : (Listing.ofSource filename source).result = .ok l) :
    l = ⟨statements (lines source), symbols (lines source), records (lines source)⟩
      ∧ ∀ x ∈ places (lines source), x.fault? filename = none ∧ Decodes x.line := by
  obtain ⟨p, hlines, hfinish⟩ := Logged.result_bind_eq_ok_iff.1 h
  have hreads := reads_source filename (lines source)
  rw [hlines] at hreads
  obtain ⟨hreflects, hall⟩ := hreads
  rw [List.nil_append] at hreflects
  refine ⟨?_, hall⟩
  rw [result_finish, hreflects.collector, hreflects.symbols, hreflects.statements] at hfinish
  cases hresult : ((collector (chapters (events (lines source)))).finish
      (symbols (lines source))).2.result with
  | error e =>
    rw [hresult] at hfinish
    cases hfinish
  | ok _ =>
    rw [hresult, records_finish hresult] at hfinish
    cases hfinish
    rfl

/-- A source whose lines fit, and with nothing wrong in any of them, has a listing. -/
theorem listing_of_fits {source : Text}
    (hsound : ∀ x ∈ places (lines source), x.fault? filename = none)
    (hfits : ∀ x ∈ places (lines source), x.Fits)
    (hsize : (symbols (lines source)).preambleSize.result = .ok (bodySize (lines source))) :
    ∃ l, (Listing.ofSource filename source).result = .ok l := by
  have hreads := reads_source filename (lines source)
  have hnone : (places (lines source)).findSome? (·.fault? filename) = none :=
    List.findSome?_eq_none_iff.2 hsound
  rw [Listing.ofSource, Logged.result_bind]
  cases hlines : (Progress.start.addLines filename 1 (lines source)).result with
  | ok p =>
    rw [hlines] at hreads
    have hreflects : Reflects (lines source) p := hreads.1
    have hfinish : (p.collector.finish p.symbols).2.result = .ok () := by
      rw [hreflects.symbols]
      exact finish_of_measured hsize
    exact ⟨_, (result_finish p).trans (congrArg _ hfinish)⟩
  | error e =>
    rw [hlines] at hreads
    cases e with
    | limit l =>
      obtain ⟨x, hmem, hx⟩ := hreads
      exact absurd (hfits x hmem) hx
    | undefinedVariable u => cases hnone.symm.trans hreads
    | encoding f => cases hnone.symm.trans hreads

/-- A source that fails otherwise than at a limit fails at what is wrong first. -/
theorem listing_fault {source : Text} {e : Failure}
    (h : (Listing.ofSource filename source).result = .error e) (hlimit : ∀ l, e ≠ .limit l) :
    (places (lines source)).findSome? (·.fault? filename) = some e := by
  have hreads := reads_source filename (lines source)
  rw [Listing.ofSource, Logged.result_bind] at h
  cases hlines : (Progress.start.addLines filename 1 (lines source)).result with
  | error cause =>
    rw [hlines] at h hreads
    cases h
    cases e with
    | limit l => exact absurd rfl (hlimit l)
    | undefinedVariable u => exact hreads
    | encoding f => exact hreads
  | ok p =>
    rw [hlines] at h
    have hfinish : p.finish.result = .error e := h
    rw [result_finish] at hfinish
    cases hresult : (p.collector.finish p.symbols).2.result with
    | ok _ =>
      rw [hresult] at hfinish
      cases hfinish
    | error cause =>
      rw [hresult] at hfinish
      cases hfinish
      obtain ⟨l, rfl⟩ := failsByLimit_finish p.collector p.symbols _ hresult
      exact absurd rfl (hlimit l)

/-- Whenever a source has a listing, its debug records are the regions of the directives in it. The
first record takes its end from the last one, and has the size of the preamble. -/
theorem records_listing (filename : String) (source : Text) (l : Listing)
    (h : (Listing.ofSource filename source).result = .ok l) :
    l.records = records (lines source) := by
  rw [(listing_eq h).1]

end Reading

/-- Two regions. In front of the first one stands a mark that belongs to none. The first one marks a
line twice and is closed twice, around a new definition of the preamble. -/
def twoRegions : Text :=
  ofLines [
    ";#\x7b\"srcline\": 7\x7d".toList,
    "define BODY 1".toList,
    "NOP".toList,
    ";#\x7b\"code\": \"init\"\x7d".toList,
    ";#\x7b\"srcline\": 1\x7d".toList,
    "EVAL8 gi0,x0a,".toList,
    ";#\x7b\"srcline\": 1.0\x7d".toList,
    ";#\x7b\"endcode\": \"init\"\x7d".toList,
    "define BODY .".toList,
    "RETURN".toList,
    ";#\x7b\"srcline\": 2\x7d".toList,
    ";#\x7b\"endcode\": \"init\"\x7d".toList,
    ";#\x7b\"code\": \"run\", \"vars\": []\x7d".toList,
    ";#\x7b\"srcline\": 1\x7d".toList,
    ";#\x7b\"code\"\x7d".toList,
    "STOP".toList,
    ";#\x7b\"endcode\": null\x7d".toList]

theorem records_listing_twoRegions :
    ∃ l, (Listing.ofSource "main.asm" twoRegions).result = .ok l
      ∧ l.records.map (fun r => (r.code.shown, r.start, r.stop, r.marks.map (·.1), r.body))
        = [("init".toList, 0, some 2, [0, 1], some 2), ("run".toList, 1, some 2, [1], none)] := by
  obtain ⟨l, hl⟩ := exists_of_isOk (x := (Listing.ofSource "main.asm" twoRegions).result)
    (by decide +kernel)
  refine ⟨l, hl, ?_⟩
  rw [records_listing "main.asm" twoRegions l hl]
  decide +kernel

end Source

end ContractAsm
