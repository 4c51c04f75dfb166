-- SUMMARY: Collectors by their regions, and the collector behind the lines read so far.
import ContractAsm.Proofs.Address
import ContractAsm.Proofs.Source
import ContractAsm.Proofs.SymbolTable
import Mathlib.Data.List.Induction

/-!
# Regions of the lines read so far

The directives among some lines are chapters: an opening directive and what follows up to the next
one. The collector behind these lines holds the region of every chapter, all but the last of them
completed, and from it come the scopes in which the next line is read. A directive line that is
taken in keeps this; one that is not runs into a limit of conversion.
-/

namespace ContractAsm

open Text

/-! ## Failures -/

/-- Fails at a limit of conversion, if at all. -/
def Logged.FailsByLimit {α : Type} (x : Logged Failure α) : Prop :=
  ∀ e, x.result = .error e → ∃ l, e = .limit l

namespace Logged

variable {α β : Type} {x : Logged Failure α}

theorem FailsByLimit.of_ok {a : α} (h : x.result = .ok a) : x.FailsByLimit := by
  intro e he
  rw [h] at he
  cases he

theorem FailsByLimit.of_error {l : Limit} (h : x.result = .error (.limit l)) :
    x.FailsByLimit := by
  intro e he
  rw [h] at he
  cases he
  exact ⟨l, rfl⟩

theorem FailsByLimit.ofConversion (y : Except Limit α) : (ofConversion y).FailsByLimit := by
  intro e he
  cases y with
  | error l =>
    cases he
    exact ⟨l, rfl⟩
  | ok a => cases he

/-- A sequence of steps fails by a limit only, if each of them does. -/
theorem FailsByLimit.bind {f : α → Logged Failure β} (hx : x.FailsByLimit)
    (hf : ∀ a, (f a).FailsByLimit) : (x >>= f).FailsByLimit := by
  intro e he
  rw [result_bind] at he
  cases hresult : x.result with
  | error cause =>
    rw [hresult] at he
    cases he
    exact hx e hresult
  | ok a =>
    rw [hresult] at he
    exact hf a e he

end Logged

/-! ## The size of the preamble -/

namespace SymbolTable

/-- The size of the preamble; it is 0 where the symbol has no number. -/
def bodySize (table : SymbolTable) : Int :=
  ((table.get? "BODY".toList).map Source.leadingInteger).getD 0

/-- Reading the value of a symbol fails only if it has too many digits. -/
theorem failsByLimit_numericValue (table : SymbolTable) (name : Text) :
    (table.numericValue name).FailsByLimit := by
  unfold numericValue
  split
  · exact .of_ok rfl
  · refine .bind (.ofConversion _) fun n => ?_
    cases n with
    | none => exact .of_ok rfl
    | some n => exact .of_ok rfl

/-- The value of a symbol is the integer it starts with, and zero if it is undefined. -/
theorem numericValue_eq_ok {table : SymbolTable} {name : Text} {n : Int}
    (h : (table.numericValue name).result = .ok n) :
    n = ((table.get? name).map Source.leadingInteger).getD 0 := by
  unfold numericValue at h
  split at h
  · next hnone =>
    cases h
    rw [hnone, Option.map_none, Option.getD_none]
  · next location hlocation =>
    rw [hlocation, Option.map_some, Option.getD_some, Source.leadingInteger]
    cases hread : Numeral.readLeading location with
    | error l =>
      rw [hread] at h
      cases h
    | ok m =>
      rw [hread] at h
      cases m with
      | none =>
        cases h
        rfl
      | some m =>
        cases h
        rfl

/-- The size of the preamble is the value of `BODY`. -/
theorem preambleSize_eq_ok {table : SymbolTable} {n : Int} (h : table.preambleSize.result = .ok n) :
    n = table.bodySize :=
  numericValue_eq_ok h

end SymbolTable

theorem Source.bodySize_symbols [Platform] (ls : List Text) :
    (symbols ls).bodySize = bodySize ls := by
  rw [SymbolTable.bodySize, symbols, SymbolTable.get?_foldl_insert, bodySize]
  cases (definitions ls).reverse.find? (·.name == "BODY".toList) with
  | none => rfl
  | some d => rfl

theorem Source.bodySize_of_preambleSize [Platform] {ls : List Text} {n : Int}
    (h : (symbols ls).preambleSize.result = .ok n) : n = bodySize ls :=
  (SymbolTable.preambleSize_eq_ok h).trans (bodySize_symbols ls)

/-! ## Collectors that list every region once -/

/-- The state that goes with a current region. -/
def Region.stateOf : Option Region → RegionState
  | none => .none
  | some r => if r.stop.isSome then .closed else .opened

theorem Region.stateOf_eq_none_iff {r : Option Region} : stateOf r = .none ↔ r = none := by
  cases r with
  | none => simp [stateOf]
  | some r => cases h : r.stop <;> simp [stateOf, h]

/-- The state depends on the end of the region only. -/
theorem Region.stateOf_congr {r r' : Region} (h : r'.stop = r.stop) :
    stateOf (some r') = stateOf (some r) := by
  rw [stateOf, stateOf, h]

namespace Collector

/-- The collector of some regions in order, each of them listed once: all of them are completed, but
the last one if it is current. The first one that is completed is the global one. -/
def ofRegions (regions : List Region) (active : Bool) : Collector :=
  let completed := List.range (if active then regions.length - 1 else regions.length)
  let current := if active then regions.getLast? else none
  ⟨regions, completed, active, completed.head?, Region.stateOf current⟩

variable {regions front : List Region} {r : Region}

/-- While a region is current, those in front of it are completed. -/
theorem ofRegions_concat : ofRegions (front ++ [r]) true
    = ⟨front ++ [r], List.range front.length, true, (List.range front.length).head?,
      Region.stateOf (some r)⟩ := by
  simp [ofRegions]

@[simp] theorem current?_idle : (ofRegions regions false).current? = none := rfl

@[simp] theorem current?_active : (ofRegions (front ++ [r]) true).current? = some r := by
  simp [ofRegions, current?]

@[simp] theorem state_idle : (ofRegions regions false).state = .none := rfl

@[simp] theorem state_active :
    (ofRegions (front ++ [r]) true).state = Region.stateOf (some r) := by
  rw [ofRegions_concat]

theorem state_active_ne_none : (ofRegions (front ++ [r]) true).state ≠ .none := by
  rw [state_active]
  exact mt Region.stateOf_eq_none_iff.1 (Option.some_ne_none r)

/-- A current region that is completed is listed twice until another one is current. -/
theorem complete_active : (ofRegions (front ++ [r]) true).complete
    = { ofRegions (front ++ [r]) false with
        active := true
        state := Region.stateOf (some r) } := by
  rw [complete, if_neg state_active_ne_none, ofRegions_concat]
  simp [ofRegions, List.range_succ]

/-- Opening a region completes the one before it. -/
theorem push_complete {active : Bool} (hactive : active = true → regions ≠ [])
    (hr : r.stop = none) :
    (ofRegions regions active).complete.push r = ofRegions (regions ++ [r]) true := by
  have hstate : Region.stateOf (some r) = .opened := by simp [Region.stateOf, hr]
  rw [ofRegions_concat, hstate]
  cases active with
  | false => rfl
  | true =>
    rcases List.eq_nil_or_concat regions with rfl | ⟨front, last, rfl⟩
    · exact absurd rfl (hactive rfl)
    · rw [List.concat_eq_append, complete_active]
      rfl

theorem modify_concat (front : List Region) (r : Region) (f : Region → Region) :
    (front ++ [r]).modify front.length f = front ++ [f r] := by
  induction front with
  | nil => rfl
  | cons first front ih =>
    rw [List.cons_append, List.length_cons, List.modify_succ_cons, ih, List.cons_append]

theorem modify_last (front : List Region) (r : Region) (f : Region → Region) :
    (front ++ [r]).modify ((front ++ [r]).length - 1) f = front ++ [f r] := by
  have hlast : (front ++ [r]).length - 1 = front.length := by simp
  rw [hlast, modify_concat]

/-- An update of the current region is an update of the last one. -/
theorem updateCurrent_active {f : Region → Region} (hf : (f r).stop = r.stop) :
    (ofRegions (front ++ [r]) true).updateCurrent f = ofRegions (front ++ [f r]) true := by
  rw [ofRegions_concat, ofRegions_concat, Region.stateOf_congr hf, updateCurrent, modify_last]

/-- Closing sets the end of the last region. -/
theorem close_active (stop : Int) : (ofRegions (front ++ [r]) true).close stop
    = ofRegions (front ++ [{ r with stop := some stop }]) true := by
  rw [ofRegions_concat, ofRegions_concat, close, updateCurrent, modify_last]
  rfl

/-- An update of the first completed region is one of the first of all. -/
theorem updateFirst_completed (first : Region) (rest : List Region) (f : Region → Region)
    (active : Bool) (state : RegionState) :
    ({ ofRegions (first :: rest) false with active, state } : Collector).updateFirst f
      = { ofRegions (f first :: rest) false with active, state } := by
  simp [updateFirst, ofRegions, List.range_succ_eq_map]

theorem filterMap_range_append {α : Type} (front rest : List α) :
    (List.range front.length).filterMap ((front ++ rest)[·]?) = front := by
  induction front using List.reverseRecOn generalizing rest with
  | nil => rfl
  | append_singleton front a ih =>
    rw [List.length_append, List.length_singleton, List.range_succ, List.filterMap_append,
      List.append_assoc, ih]
    simp

/-- Without a current region, all of the regions are recorded. -/
theorem records_idle : (ofRegions regions false).records = regions := by
  have hall := filterMap_range_append regions []
  rwa [List.append_nil] at hall

/-- The current region is not recorded yet. -/
theorem records_active : (ofRegions (front ++ [r]) true).records = front := by
  rw [ofRegions_concat]
  exact filterMap_range_append front [r]

/-! ## Steps that succeed -/

/-- A step that is done has read the size of the preamble. -/
theorem withPreamble_eq_ok {c : Collector} {table : SymbolTable} {f : Int → Step}
    (h : (c.withPreamble table f).2.result = .ok ()) :
    table.preambleSize.result = .ok table.bodySize
      ∧ (c.withPreamble table f).1 = (f table.bodySize).1 := by
  cases hsize : table.preambleSize.result with
  | error e =>
    simp only [withPreamble, hsize] at h
    cases h
  | ok size =>
    rw [← SymbolTable.preambleSize_eq_ok hsize]
    simp only [withPreamble, hsize, and_self]

section Step

variable [Platform] {table : SymbolTable} {index : Int}

/-- An opening adds a region behind the others. -/
theorem openRegion_ofRegions {active : Bool} (hactive : active = true → regions ≠ [])
    {payload : List (Text × Json)}
    (h : ((ofRegions regions active).openRegion table payload index).2.result = .ok ()) :
    ((ofRegions regions active).openRegion table payload index).1
      = ofRegions (regions ++ [.fresh payload (index - table.bodySize)]) true :=
  (withPreamble_eq_ok h).2.trans (push_complete hactive rfl)

/-- A closing ends the last region, behind the preamble. -/
theorem closeRegion_active
    (h : ((ofRegions (front ++ [r]) true).closeRegion table index).2.result = .ok ()) :
    ((ofRegions (front ++ [r]) true).closeRegion table index).1
      = ofRegions (front ++ [{ r with stop := some (index - table.bodySize) }]) true := by
  rw [closeRegion, if_neg state_active_ne_none] at h ⊢
  rw [(withPreamble_eq_ok h).2]
  exact close_active _

end Step

/-- A line is marked, unless it is marked already. -/
theorem markLine_active {table : SymbolTable} {index : Int} {srcline : Json}
    (h : ((ofRegions (front ++ [r]) true).markLine table srcline index).2.result = .ok ()) :
    ((ofRegions (front ++ [r]) true).markLine table srcline index).1
      = if r.hasMark srcline then ofRegions (front ++ [r]) true
        else ofRegions (front ++
          [{ r with marks := r.marks ++ [(index - table.bodySize, srcline)] }]) true := by
  rw [markLine, if_neg state_active_ne_none, current?_active, Option.any_some] at h ⊢
  split at h
  · next hmark => rw [if_pos hmark, if_pos hmark]
  · next hmark =>
    rw [if_neg hmark, if_neg hmark, (withPreamble_eq_ok h).2]
    exact updateCurrent_active rfl

/-- Completing the last region ends the first one with it. -/
theorem finish_active {table : SymbolTable} {first last : Region} {rest : List Region}
    (hlast : (first :: rest).getLast? = some last)
    (h : ((ofRegions (first :: rest) true).finish table).2.result = .ok ()) :
    ((ofRegions (first :: rest) true).finish table).1
      = ofRegions ({ first with stop := last.stop, body := some table.bodySize } :: rest)
        false := by
  obtain ⟨front, hfront⟩ := List.getLast?_eq_some_iff.1 hlast
  rw [hfront] at h ⊢
  rw [finish, if_neg state_active_ne_none, complete_active, current?_active] at h ⊢
  rw [(withPreamble_eq_ok h).2, ← hfront, updateFirst_completed, updateFirst_completed]
  rfl

end Collector

namespace Source

/-! ## Chapters -/

/-- The collector behind some chapters. All regions but the last one are completed. -/
def collector (cs : List Chapter) : Collector :=
  .ofRegions (cs.map Chapter.region) (!cs.isEmpty)

/-- The last chapter is the current region. -/
theorem collector_concat (front : List Chapter) (c : Chapter) :
    collector (front ++ [c]) = .ofRegions (front.map Chapter.region ++ [c.region]) true := by
  have hactive : (!(front ++ [c]).isEmpty) = true := by simp
  rw [collector, hactive, List.map_append]
  rfl

theorem ne_nil_of_active {cs : List Chapter} (h : (!cs.isEmpty) = true) :
    cs.map Chapter.region ≠ [] := by
  simpa using h

section Step

variable [Platform] {table : SymbolTable} {es : List Event} {payload : List (Text × Json)}
  {index : Int}

/-- The collector follows the chapters through an opening. -/
theorem openRegion_collector
    (h : ((collector (chapters es)).openRegion table payload index).2.result = .ok ()) :
    ((collector (chapters es)).openRegion table payload index).1
      = collector (chapters (es ++ [⟨⟨.opening, payload⟩, index - table.bodySize⟩])) := by
  rw [chapters_concat_opening rfl, collector_concat]
  exact Collector.openRegion_ofRegions ne_nil_of_active h

/-- The collector follows the chapters through a closing. -/
theorem closeRegion_collector
    (h : ((collector (chapters es)).closeRegion table index).2.result = .ok ()) :
    ((collector (chapters es)).closeRegion table index).1
      = collector (chapters (es ++ [⟨⟨.closing, payload⟩, index - table.bodySize⟩])) := by
  rcases List.eq_nil_or_concat (chapters es) with hnil | ⟨front, c, hconcat⟩
  · rw [chapters_concat_of_nil rfl hnil, hnil]
    rfl
  · rw [List.concat_eq_append] at hconcat
    rw [hconcat, collector_concat] at h ⊢
    rw [chapters_concat_of_concat rfl hconcat, collector_concat,
      Chapter.region_concat_closing c rfl, Collector.closeRegion_active h]

omit [Platform] in
/-- The collector follows the chapters through a mark. -/
theorem markLine_collector
    (h : ((collector (chapters es)).markLine table (Directive.markedLine ⟨.sourceLine, payload⟩)
      index).2.result = .ok ()) :
    ((collector (chapters es)).markLine table (Directive.markedLine ⟨.sourceLine, payload⟩) index).1
      = collector (chapters (es ++ [⟨⟨.sourceLine, payload⟩, index - table.bodySize⟩])) := by
  rcases List.eq_nil_or_concat (chapters es) with hnil | ⟨front, c, hconcat⟩
  · rw [chapters_concat_of_nil rfl hnil, hnil]
    rfl
  · rw [List.concat_eq_append] at hconcat
    rw [hconcat, collector_concat] at h ⊢
    rw [chapters_concat_of_concat rfl hconcat, collector_concat, Collector.markLine_active h]
    cases hmark : c.region.hasMark (Directive.markedLine ⟨.sourceLine, payload⟩) with
    | true =>
      rw [Chapter.region_concat_marked c rfl hmark]
      rfl
    | false =>
      rw [Chapter.region_concat_unmarked c rfl hmark]
      rfl

/-- A directive that asks for something adds its event. -/
theorem apply_collector {d : Directive} {n : Int} (hknown : d.kind ≠ .unknown)
    (h : ((collector (chapters es)).apply table d index n).2.result = .ok ()) :
    ((collector (chapters es)).apply table d index n).1
      = collector (chapters (es ++ [⟨d, index - table.bodySize⟩])) := by
  obtain ⟨kind, payload⟩ := d
  cases kind with
  | opening => exact openRegion_collector h
  | closing => exact closeRegion_collector h
  | sourceLine => exact markLine_collector h
  | unknown => exact absurd rfl hknown

end Step

/-! ## Scopes -/

variable [Platform]

/-- The openings are among the events. -/
theorem openings_eq_filter (ls : List Text) :
    openings ls = ((events ls).filter Event.opens).map (·.directive) := by
  induction ls using List.reverseRecOn with
  | nil => rfl
  | append_singleton ls line ih =>
    rw [openings_concat, events_concat, ih, List.filter_append, List.map_append]
    congr 1
    cases h : directive? line with
    | none => simp [Place.event?, h]
    | some d =>
      obtain ⟨kind, payload⟩ := d
      cases kind <;> simp [Place.event?, h, Event.opens, Option.filter]

omit [Platform] in
/-- Each of them opens a chapter. -/
theorem map_opening_chapters (es : List Event) :
    (chapters es).map (·.opening) = es.filter Event.opens := by
  induction es with
  | nil => rfl
  | cons e es ih => cases he : e.opens <;> simp [chapters, he, ih]

/-- Every opening directive has its chapter. -/
theorem openings_eq_map (ls : List Text) :
    openings ls = (chapters (events ls)).map (·.opening.directive) := by
  rw [openings_eq_filter, ← map_opening_chapters, List.map_map]
  rfl

/-- The current region has the scope of the last opening. -/
theorem map_scope_current? (ls : List Text) :
    (collector (chapters (events ls))).current?.map (·.scope) = currentScope ls := by
  rw [currentScope, openings_eq_map]
  rcases List.eq_nil_or_concat (chapters (events ls)) with hnil | ⟨front, c, hconcat⟩
  · rw [hnil]
    rfl
  · rw [hconcat, List.concat_eq_append, collector_concat, Collector.current?_active,
      List.map_append, List.map_singleton, List.getLast?_concat]
    rfl

/-- The global region has the scope of the first opening that another one follows. -/
theorem map_scope_global? (ls : List Text) :
    (collector (chapters (events ls))).global?.map (·.scope) = globalScope ls := by
  rw [globalScope, openings_eq_map]
  -- the first chapter is a completed one just if it is not the last
  cases chapters (events ls) with
  | nil => rfl
  | cons first cs =>
    cases cs with
    | nil => rfl
    | cons second cs =>
      have hglobal : (collector (first :: second :: cs)).global = some 0 := by
        simp [collector, Collector.ofRegions, List.head?_range]
      rw [Collector.global?, hglobal]
      rfl

/-! ## Limits of directives -/

omit [Platform] in
/-- Reading the size of the preamble adds no other failure. -/
theorem failsByLimit_withPreamble (c : Collector) (table : SymbolTable) {f : Int → Collector.Step}
    (hf : ∀ size, (f size).2.FailsByLimit) : (c.withPreamble table f).2.FailsByLimit := by
  intro e he
  cases hsize : table.preambleSize.result with
  | error cause =>
    simp only [Collector.withPreamble, hsize] at he
    cases he
    exact table.failsByLimit_numericValue _ e hsize
  | ok size =>
    simp only [Collector.withPreamble, hsize] at he
    exact hf size e he

theorem failsByLimit_reportOffset (what : String) (code : Json) (offset : Int) :
    (Collector.reportOffset what code offset).FailsByLimit :=
  .bind (.ofConversion _) fun _ => .of_ok rfl

/-- A directive fails only by a limit. -/
theorem failsByLimit_apply (c : Collector) (table : SymbolTable) (d : Directive) (index n : Int) :
    (c.apply table d index n).2.FailsByLimit := by
  unfold Collector.apply
  split
  · exact failsByLimit_withPreamble _ table fun _ => failsByLimit_reportOffset _ _ _
  · unfold Collector.closeRegion
    split
    · exact .of_ok rfl
    · exact failsByLimit_withPreamble c table fun _ => failsByLimit_reportOffset _ _ _
  · unfold Collector.markLine
    split
    · exact .of_ok rfl
    · split
      · exact .of_ok rfl
      · exact failsByLimit_withPreamble c table fun _ => .of_ok rfl
  · exact .of_ok rfl

omit [Platform] in
/-- The end of the listing fails only by a limit. -/
theorem failsByLimit_finish (c : Collector) (table : SymbolTable) :
    (c.finish table).2.FailsByLimit := by
  unfold Collector.finish
  split
  · exact .of_ok rfl
  · exact failsByLimit_withPreamble _ table fun _ => .of_ok rfl

section Measured

variable {table : SymbolTable} {b index : Int} (hsize : table.preambleSize.result = .ok b)

include hsize

omit [Platform] in
theorem withPreamble_of_measured (c : Collector) (f : Int → Collector.Step) :
    (c.withPreamble table f).2.result = (f b).2.result := by
  simp only [Collector.withPreamble, hsize]

omit [Platform] in
/-- Once the size of the preamble can be read, the end of the listing cannot fail. -/
theorem finish_of_measured {c : Collector} : (c.finish table).2.result = .ok () := by
  unfold Collector.finish
  split
  · rfl
  · exact withPreamble_of_measured hsize _ _

variable (hoffset : (index - b).natAbs < 10 ^ Limit.digits)

omit hsize in
include hoffset in
theorem reportOffset_of_lt (what : String) (code : Json) :
    (Collector.reportOffset what code (index - b)).result = .ok () := by
  have hwrite : Numeral.write (index - b) = .ok (Numeral.decimal (index - b)) :=
    if_pos (Numeral.length_digits_le hoffset)
  rw [Collector.reportOffset, hwrite]
  rfl

include hoffset

/-- With the size of the preamble and an offset that can be written, a directive is carried out. -/
theorem apply_of_measured (c : Collector) {d : Directive} {n : Int} :
    (c.apply table d index n).2.result = .ok () := by
  unfold Collector.apply
  split
  · exact (withPreamble_of_measured hsize _ _).trans (reportOffset_of_lt hoffset _ _)
  · unfold Collector.closeRegion
    split
    · rfl
    · exact (withPreamble_of_measured hsize c _).trans (reportOffset_of_lt hoffset _ _)
  · unfold Collector.markLine
    split
    · rfl
    · split
      · rfl
      · exact withPreamble_of_measured hsize c _
  · rfl

end Measured

/-! ## Directive lines -/

/-- A line that can be decoded if it is a directive. -/
def Decodes (line : Text) : Prop :=
  Directive.isDirective (trim line) = true → ∃ d, Directive.decode (trim line) = .ok d

/-- A line that runs into no limit of conversion. -/
structure Place.Fits (x : Place) : Prop where
  decodes : Decodes x.line
  defines : ∀ operands, x.operands? = some operands →
    ∃ d, SymbolTable.definition? operands x.index x.number = .ok d
  measures : x.event?.isSome = true →
    (symbols x.before).preambleSize.result = .ok (bodySize x.before)
  counts : ∀ e, x.event? = some e → e.offset.natAbs < 10 ^ Limit.digits

/-- A line gives the directive that is decoded from it. -/
theorem directive?_of_decode {line : Text} {d : Directive}
    (hdirective : Directive.isDirective (trim line) = true)
    (h : Directive.decode (trim line) = .ok (.ok d)) : directive? line = some d := by
  rw [directive?, if_pos hdirective, h]

/-- A faulty directive is none. -/
theorem directive?_of_fault {line : Text} {f : DirectiveFault}
    (h : Directive.decode (trim line) = .ok (.error f)) : directive? line = none := by
  unfold directive?
  rw [h]
  exact ite_self none

section Consume

variable {done : List Text} {raw : Text} (hdirective : Directive.isDirective (trim raw) = true)
  {n : Int}

include hdirective

/-- A directive line that is taken in adds its event. -/
theorem consume_collector {index : Nat} (hindex : index = (Place.mk done raw).index)
    (h : ((collector (chapters (events done))).consume (symbols done) (trim raw) index n).2.result
      = .ok ()) :
    ((collector (chapters (events done))).consume (symbols done) (trim raw) index n).1
      = collector (chapters (events (done ++ [raw]))) := by
  rw [events_concat, Place.event?]
  unfold Collector.consume at h ⊢
  cases hdecode : Directive.decode (trim raw) with
  | error l =>
    rw [hdecode] at h
    cases h
  | ok decoded =>
    cases decoded with
    | error f =>
      rw [directive?_of_fault hdecode]
      simp
    | ok d =>
      rw [directive?_of_decode hdirective hdecode]
      simp only [hdecode] at h ⊢
      by_cases hknown : d.kind = .unknown
      · simp [hknown, Collector.apply, Option.filter]
      · rw [apply_collector hknown h, bodySize_symbols, hindex]
        simp [hknown, Option.filter]

omit hdirective in
/-- A line that was consumed has been decoded. -/
theorem decodes_of_consume {c : Collector} {table : SymbolTable} {index : Int}
    (h : (c.consume table (trim raw) index n).2.result = .ok ()) : Decodes raw := by
  intro _
  cases hdecode : Directive.decode (trim raw) with
  | ok d => exact ⟨d, rfl⟩
  | error l =>
    simp only [Collector.consume, hdecode] at h
    cases h

omit hdirective in
/-- A line that is consumed fails only by a limit. -/
theorem failsByLimit_consume (c : Collector) (table : SymbolTable) (index : Int) :
    (c.consume table raw index n).2.FailsByLimit := by
  unfold Collector.consume
  split
  · exact failsByLimit_apply c table _ index n
  · exact .of_ok rfl
  · exact .of_error rfl

/-- Where the numbers fit their limits, a directive is consumed. -/
theorem consume_of_fits (c : Collector) {index : Nat} (hindex : index = (Place.mk done raw).index)
    (hfits : (Place.mk done raw).Fits) :
    (c.consume (symbols done) (trim raw) index n).2.result = .ok () := by
  obtain ⟨decoded, hdecode⟩ := hfits.decodes hdirective
  unfold Collector.consume
  rw [hdecode]
  cases decoded with
  | error f => rfl
  | ok d =>
    by_cases hknown : d.kind = .unknown
    · simp [Collector.apply, hknown]
    · have hevent : (Place.mk done raw).event?
          = some ⟨d, (Place.mk done raw).index - bodySize done⟩ := by
        simp [Place.event?, directive?_of_decode hdirective hdecode, hknown, Option.filter]
      have hmeasures := hfits.measures (by rw [hevent]; rfl)
      have hcounts := hfits.counts _ hevent
      rw [← hindex] at hcounts
      exact apply_of_measured hmeasures hcounts c

end Consume

end Source

end ContractAsm
