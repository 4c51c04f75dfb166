-- SUMMARY: The offsets of debug records are in order and inside of the program.
import ContractAsm.Proofs.Numbering

/-!
# Offsets of debug records

The number of statements never falls from line to line. As long as the body of the program stays in
its place, the offsets of the directives do not fall either, and with them all that is taken from
them: the starts of the records, their marks and their ends.
-/

namespace ContractAsm

open Text

namespace Source

/-! ## Events from the first opening on -/

/-- The events that belong to a region: those from the first one on that opens any. -/
def regional (es : List Event) : List Event :=
  es.dropWhile (!·.opens)

def Chapter.events (c : Chapter) : List Event :=
  c.opening :: c.rest

/-- The chapters divide the events that belong to regions. -/
theorem flatMap_events_chapters (es : List Event) :
    (chapters es).flatMap Chapter.events = regional es := by
  induction es with
  | nil => rfl
  | cons e es ih =>
    cases he : e.opens with
    | true =>
      rw [chapters, if_pos he, List.flatMap_cons, ih, Chapter.events, List.cons_append, regional,
        regional, List.takeWhile_append_dropWhile, List.dropWhile_cons_of_neg (by simp [he])]
    | false =>
      rw [chapters, if_neg (by simp [he]), ih, regional, regional,
        List.dropWhile_cons_of_pos (by simp [he])]

theorem regional_eq_nil_of_openings [Platform] {ls : List Text} (h : openings ls = []) :
    regional (events ls) = [] := by
  rw [openings_eq_map, List.map_eq_nil_iff] at h
  rw [← flatMap_events_chapters, h, List.flatMap_nil]

/-- One more event belongs to a region or to none, and the others stay as they are. -/
theorem regional_concat (es : List Event) (e : Event) :
    regional (es ++ [e]) = regional es ++ [e] ∨ regional (es ++ [e]) = regional es := by
  unfold regional
  rw [List.dropWhile_append]
  split
  · next hempty =>
    rw [List.isEmpty_iff.1 hempty]
    cases he : e.opens with
    | true => exact .inl (by simp [he])
    | false => exact .inr (by simp [he])
  · exact .inl rfl

/-! ## The body of the program -/

/-- Behind the first directive that opens a region, no line defines the body of the program. -/
def Settled [Platform] (ls : List Text) : Prop :=
  ∀ x ∈ places ls, openings x.before ≠ [] → x.target?.map (·.1) ≠ some "BODY".toList

instance [Platform] (ls : List Text) : Decidable (Settled ls) :=
  -- a directive has no decidable equality, but a list of them is empty or not
  letI (x : Place) : Decidable (openings x.before ≠ []) :=
    decidable_of_iff ((openings x.before).isEmpty = false) (by simp)
  List.decidableBAll _ _

variable {ls : List Text} {line : Text}

theorem Settled.front [Platform] (h : Settled (ls ++ [line])) : Settled ls := by
  intro x hx
  exact h x (by rw [places_concat]; exact List.mem_append_left _ hx)

theorem bodySize_concat [Platform] (h : (Place.mk ls line).target?.map (·.1) ≠ some "BODY".toList) :
    bodySize (ls ++ [line]) = bodySize ls := by
  unfold bodySize
  rw [definitions_concat]
  cases hmade : (Place.mk ls line).definition? with
  | none => simp
  | some d =>
    obtain ⟨target, htarget, -⟩ := Place.target?_of_definition? hmade
    have hname : d.name ≠ "BODY".toList := by
      simpa [htarget] using h
    rw [Option.toList_some, List.reverse_append, List.reverse_singleton, List.singleton_append,
      List.find?_cons_of_neg (by simpa using hname)]

/-! ## Lines with an event -/

theorem code?_of_event? [Platform] {e : Event} (h : (Place.mk ls line).event? = some e) :
    code? line = none := by
  cases hdirective : Directive.isDirective (trim line) with
  | true => exact if_pos hdirective
  | false =>
    rw [event?_of_not_directive hdirective] at h
    cases h

theorem offset_of_event? [Platform] {e : Event} (h : (Place.mk ls line).event? = some e) :
    e.offset + bodySize ls = (statementLines ls).length := by
  obtain ⟨d, -, rfl⟩ := Option.map_eq_some_iff.1 h
  simp [Place.index]

theorem target?_of_code?_none [Platform] (h : code? line = none) :
    (Place.mk ls line).target? = none := by
  rw [Place.target?, Place.operands?, text?_of_code?_none h]
  rfl

theorem length_statementLines_concat [Platform] (ls : List Text) (line : Text) :
    (statementLines ls).length ≤ (statementLines (ls ++ [line])).length := by
  rw [statementLines_concat, List.length_append]
  exact Nat.le_add_right ..

/-! ## Line by line -/

/-- The events that belong to regions, in the order of their offsets. All of these lie between the
first statement and the last one. -/
structure Rising [Platform] (ls : List Text) : Prop where
  sorted : (regional (events ls)).Pairwise fun e f => e.offset ≤ f.offset
  bounds : ∀ e ∈ regional (events ls), 0 ≤ e.offset + bodySize ls
    ∧ e.offset + bodySize ls ≤ (statementLines ls).length

theorem rising_of_nil [Platform] (h : regional (events ls) = []) : Rising ls :=
  ⟨by simp [h], by simp [h]⟩

theorem Rising.concat_event [Platform] (h : Rising ls) {e : Event}
    (hevent : (Place.mk ls line).event? = some e) : Rising (ls ++ [line]) := by
  have hcode := code?_of_event? hevent
  have hoffset := offset_of_event? hevent
  have hbody : bodySize (ls ++ [line]) = bodySize ls :=
    bodySize_concat (by simp [target?_of_code?_none hcode])
  have hstatements : statementLines (ls ++ [line]) = statementLines ls := by
    simp [statementLines_concat, Place.statement?, text?_of_code?_none hcode]
  have hevents : events (ls ++ [line]) = events ls ++ [e] := by
    rw [events_concat, hevent, Option.toList_some]
  rcases regional_concat (events ls) e with hlonger | hsame
  · -- the offset of the last event is the greatest there can be
    refine ⟨?_, ?_⟩
    · rw [hevents, hlonger]
      refine List.pairwise_append.2 ⟨h.sorted, List.pairwise_singleton .., fun f hf g hg => ?_⟩
      have hbounds := (h.bounds f hf).2
      rw [List.mem_singleton.1 hg]
      omega
    · rw [hevents, hlonger, hbody, hstatements]
      intro f hf
      rcases List.mem_append.1 hf with hf | hf
      · exact h.bounds f hf
      · rw [List.mem_singleton.1 hf]
        omega
  · refine ⟨?_, ?_⟩
    · rw [hevents, hsame]
      exact h.sorted
    · rw [hevents, hsame, hbody, hstatements]
      exact h.bounds

theorem Rising.concat_silent [Platform] (h : Rising ls) (hevent : (Place.mk ls line).event? = none)
    (hbody : bodySize (ls ++ [line]) = bodySize ls) : Rising (ls ++ [line]) := by
  have hevents : events (ls ++ [line]) = events ls := by
    rw [events_concat, hevent, Option.toList_none, List.append_nil]
  refine ⟨?_, ?_⟩
  · rw [hevents]
    exact h.sorted
  · rw [hevents, hbody]
    intro e he
    obtain ⟨hlower, hupper⟩ := h.bounds e he
    have hlength := length_statementLines_concat ls line
    exact ⟨hlower, by omega⟩

/-- If the body of the program is settled, the offsets rise. -/
theorem Settled.rising [Platform] (h : Settled ls) : Rising ls := by
  induction ls using List.reverseRecOn with
  | nil => exact rising_of_nil rfl
  | append_singleton ls line ih =>
    have hrising := ih h.front
    cases hevent : (Place.mk ls line).event? with
    | some e => exact hrising.concat_event hevent
    | none =>
      by_cases hopenings : openings ls = []
      · -- without a region there is nothing to be put in order
        refine rising_of_nil ?_
        rw [events_concat, hevent, Option.toList_none, List.append_nil]
        exact regional_eq_nil_of_openings hopenings
      · refine hrising.concat_silent hevent (bodySize_concat ?_)
        exact h ⟨ls, line⟩ (by simp [places_concat]) hopenings

theorem Rising.pairwise_chapters [Platform] (h : Rising ls) :
    (∀ c ∈ chapters (events ls), c.events.Pairwise fun e f => e.offset ≤ f.offset)
      ∧ (chapters (events ls)).Pairwise
        fun c next => ∀ e ∈ c.events, ∀ f ∈ next.events, e.offset ≤ f.offset := by
  rw [← List.pairwise_flatMap, flatMap_events_chapters]
  exact h.sorted

/-! ## Offsets of a region -/

end Source

/-- The offsets of a region: where it starts, where it ends, and its marks. -/
def Region.offsets (r : Region) : List Int :=
  r.start :: (r.stop.toList ++ r.marks.map (·.1))

namespace Source

theorem firstMarksFrom_sublist (before ms : List (Int × Json)) :
    (firstMarksFrom before ms).Sublist ms := by
  induction ms generalizing before with
  | nil => exact List.Sublist.refl _
  | cons m ms ih =>
    rw [firstMarksFrom]
    split
    · exact (ih _).cons m
    · exact (ih _).cons_cons m

variable {c : Chapter}

/-- The marks of a region are events of its chapter, in their order. -/
theorem Chapter.sublist_marks_region (c : Chapter) :
    (c.region.marks.map (·.1)).Sublist (c.rest.map (·.offset)) := by
  have hmarks : c.marks.map (·.1) = (c.rest.filter Event.marks).map (·.offset) := by
    simp [Chapter.marks]
  have hfirst : (c.region.marks.map (·.1)).Sublist (c.marks.map (·.1)) :=
    (firstMarksFrom_sublist [] c.marks).map _
  rw [hmarks] at hfirst
  exact hfirst.trans (List.filter_sublist.map _)

theorem Chapter.mem_rest_of_stop {o : Int} (h : c.region.stop = some o) :
    o ∈ c.rest.map (·.offset) := by
  obtain ⟨e, he, rfl⟩ := Option.map_eq_some_iff.1 h
  exact List.mem_map_of_mem (List.mem_of_mem_filter (List.mem_of_getLast? he))

theorem Chapter.mem_of_mem_offsets {o : Int} (h : o ∈ c.region.offsets) :
    ∃ e ∈ c.events, e.offset = o := by
  rw [Region.offsets, List.mem_cons, List.mem_append, Option.mem_toList] at h
  rcases h with rfl | hstop | hmark
  · exact ⟨c.opening, List.mem_cons_self .., rfl⟩
  · obtain ⟨e, he, hoffset⟩ := List.mem_map.1 (mem_rest_of_stop hstop)
    exact ⟨e, List.mem_cons_of_mem _ he, hoffset⟩
  · obtain ⟨e, he, hoffset⟩ := List.mem_map.1 (c.sublist_marks_region.subset hmark)
    exact ⟨e, List.mem_cons_of_mem _ he, hoffset⟩

/-! ## Records -/

end Source

/-- Records in order, for a preamble of some size and a number of statements. -/
structure Region.Ordered (size : Int) (count : Nat) (rs : List Region) : Prop where
  /-- Behind the preamble, an offset is that of a statement, or of the end of the program. -/
  bounds : ∀ r ∈ rs, ∀ o ∈ r.offsets, 0 ≤ o + size ∧ o + size ≤ count
  marks : ∀ r ∈ rs, (r.start :: r.marks.map (·.1)).Pairwise (· ≤ ·)
  stop : ∀ r ∈ rs, ∀ o, r.stop = some o → r.start ≤ o
  starts : rs.Pairwise fun r later => r.start ≤ later.start
  /-- The first record contains the others, but these do not overlap. -/
  apart : rs.tail.Pairwise fun r later => ∀ o, r.stop = some o → o ≤ later.start

namespace Source

/-- Regions are in order if the offsets of the events rise. -/
theorem Rising.ordered_regions [Platform] (h : Rising ls) :
    Region.Ordered (bodySize ls) (statementLines ls).length (regions ls) := by
  obtain ⟨hwithin, hacross⟩ := h.pairwise_chapters
  have hfrom : ∀ c ∈ chapters (events ls),
      (c.opening.offset :: c.rest.map (·.offset)).Pairwise (· ≤ ·) := fun c hc =>
    List.pairwise_map.2 (hwithin c hc)
  refine ⟨?_, ?_, ?_, ?_, ?_⟩
  · intro r hr o ho
    obtain ⟨c, hc, rfl⟩ := List.mem_map.1 hr
    obtain ⟨e, he, rfl⟩ := Chapter.mem_of_mem_offsets ho
    refine h.bounds e ?_
    rw [← flatMap_events_chapters]
    exact List.mem_flatMap_of_mem hc he
  · intro r hr
    obtain ⟨c, hc, rfl⟩ := List.mem_map.1 hr
    exact (hfrom c hc).sublist (c.sublist_marks_region.cons_cons _)
  · intro r hr o ho
    obtain ⟨c, hc, rfl⟩ := List.mem_map.1 hr
    exact List.rel_of_pairwise_cons (hfrom c hc) (Chapter.mem_rest_of_stop ho)
  · refine List.pairwise_map.2 (hacross.imp fun hle => ?_)
    exact hle _ (List.mem_cons_self ..) _ (List.mem_cons_self ..)
  · refine (List.pairwise_map.2 (hacross.imp fun hle o ho => ?_)).tail
    obtain ⟨e, he, rfl⟩ := List.mem_map.1 (Chapter.mem_rest_of_stop ho)
    exact hle e (List.mem_cons_of_mem _ he) _ (List.mem_cons_self ..)

end Source

/-- The first record may be stretched to the end of the last one. -/
theorem Region.Ordered.stretch {size : Int} {count : Nat} {first : Region} {rest : List Region}
    (h : Ordered size count (first :: rest)) (body : Option Int) :
    Ordered size count ({ first with
      stop := ((first :: rest).getLast (List.cons_ne_nil first rest)).stop
      body := body } :: rest) := by
  have hlast := List.getLast_mem (List.cons_ne_nil first rest)
  generalize (first :: rest).getLast (List.cons_ne_nil first rest) = last at hlast ⊢
  have hstart : first.start ≤ last.start := by
    rcases List.mem_cons.1 hlast with rfl | hlast
    · exact Int.le_refl _
    · exact List.rel_of_pairwise_cons h.starts hlast
  have hfirst := List.mem_cons_self (a := first) (l := rest)
  refine ⟨?_, ?_, ?_, ?_, h.apart⟩
  · refine List.forall_mem_cons.2 ⟨fun o ho => ?_, (List.forall_mem_cons.1 h.bounds).2⟩
    simp only [offsets, List.mem_cons, List.mem_append, Option.mem_toList] at ho
    rcases ho with rfl | hstop | hmark
    · exact h.bounds first hfirst _ (by simp [offsets])
    · exact h.bounds last hlast o (by simp [offsets, hstop])
    · exact h.bounds first hfirst o (by simp [offsets, hmark])
  · exact List.forall_mem_cons.2 (List.forall_mem_cons.1 h.marks)
  · refine List.forall_mem_cons.2 ⟨fun o ho => ?_, (List.forall_mem_cons.1 h.stop).2⟩
    exact Int.le_trans hstart (h.stop last hlast o ho)
  · exact List.pairwise_cons.2 (List.pairwise_cons.1 h.starts)

namespace Source

theorem Rising.ordered_records [Platform] (h : Rising ls) :
    Region.Ordered (bodySize ls) (statementLines ls).length (records ls) := by
  have hregions := h.ordered_regions
  unfold records
  cases hrs : regions ls with
  | nil => rwa [hrs] at hregions
  | cons first rest =>
    rw [hrs] at hregions
    exact hregions.stretch _

/-- To complete a region, the size of the preamble has to be known. -/
theorem preambleSize_of_finish [Platform] {ls : List Text} (hcs : chapters (events ls) ≠ [])
    (h : ((collector (chapters (events ls))).finish (symbols ls)).2.result = .ok ()) :
    (symbols ls).preambleSize.result = .ok (bodySize ls) := by
  rcases List.eq_nil_or_concat (chapters (events ls)) with hnil | ⟨front, c, hconcat⟩
  · exact absurd hnil hcs
  · rw [hconcat, List.concat_eq_append, collector_concat, Collector.finish,
      if_neg Collector.state_active_ne_none] at h
    rw [← bodySize_symbols]
    exact (Collector.withPreamble_eq_ok h).1

theorem preambleSize_of_listing [Platform] {filename : String} {source : Text} {l : Listing}
    (h : (Listing.ofSource filename source).result = .ok l)
    (hcs : chapters (events (lines source)) ≠ []) :
    (symbols (lines source)).preambleSize.result = .ok (bodySize (lines source)) := by
  obtain ⟨p, hlines, hfinish⟩ := Logged.result_bind_eq_ok_iff.1 h
  have hreads := reads_source filename (lines source)
  rw [hlines] at hreads
  have hreflects : Reflects (lines source) p := hreads.1
  rw [result_finish, hreflects.collector, hreflects.symbols] at hfinish
  refine preambleSize_of_finish hcs ?_
  cases hresult : ((collector (chapters (events (lines source)))).finish
      (symbols (lines source))).2.result with
  | error e =>
    rw [hresult] at hfinish
    cases hfinish
  | ok _ => rfl

/-- Whenever a source has a listing and defines the body of the program in front of its regions, the
debug records of the listing are in order, for the size of the preamble that its symbols give. -/
theorem ordered_listing [Platform] (filename : String) (source : Text) (l : Listing)
    (h : (Listing.ofSource filename source).result = .ok l) (hsettled : Settled (lines source)) :
    (l.records ≠ [] → l.symbols.preambleSize.result = .ok (bodySize (lines source)))
      ∧ Region.Ordered (bodySize (lines source)) l.statements.length l.records := by
  rw [(listing_eq h).1]
  refine ⟨fun hrecords => preambleSize_of_listing h fun hnil => hrecords ?_, ?_⟩
  · simp only [records, regions, hnil, List.map_nil]
  · rw [length_statements]
    exact hsettled.rising.ordered_records

/-- Three regions behind the body of the program, which is defined twice. The first one is not
closed. The second one is closed twice, with a mark in between. -/
def threeRegions : Text :=
  ofLines [
    "define BODY 9".toList,
    "NOP".toList,
    "NOP".toList,
    "define BODY .".toList,
    ";#\x7b\"code\": \"globals\"\x7d".toList,
    "EVAL8 gi0,x0a,".toList,
    ";#\x7b\"code\": \"init\"\x7d".toList,
    ";#\x7b\"srcline\": 1\x7d".toList,
    "RETURN".toList,
    ";#\x7b\"endcode\": \"init\"\x7d".toList,
    ";#\x7b\"srcline\": 2\x7d".toList,
    "STOP".toList,
    ";#\x7b\"endcode\": \"init\"\x7d".toList,
    ";#\x7b\"code\": \"run\"\x7d".toList,
    "RETURN".toList,
    ";#\x7b\"endcode\": \"run\"\x7d".toList]

theorem ordered_listing_threeRegions :
    ∃ l, (Listing.ofSource "main.asm" threeRegions).result = .ok l ∧ Settled (lines threeRegions)
      ∧ l.records.map (fun r => (r.start, r.stop, r.marks.map (·.1)))
        = [(0, some 4, []), (1, some 3, [1, 2]), (3, some 4, [])]
      ∧ l.symbols.preambleSize.result = .ok 2 ∧ Region.Ordered 2 6 l.records := by
  obtain ⟨l, hl⟩ := exists_of_isOk (x := (Listing.ofSource "main.asm" threeRegions).result)
    (by decide +kernel)
  have hsettled : Settled (lines threeRegions) := by decide +kernel
  have hrecords : l.records.map (fun r => (r.start, r.stop, r.marks.map (·.1)))
      = [(0, some 4, []), (1, some 3, [1, 2]), (3, some 4, [])] := by
    rw [(listing_eq hl).1]
    decide +kernel
  have hcount : l.statements.length = 6 := by
    rw [(listing_eq hl).1]
    decide +kernel
  have hbody : bodySize (lines threeRegions) = 2 := by decide +kernel
  obtain ⟨hsize, hordered⟩ := ordered_listing "main.asm" threeRegions l hl hsettled
  rw [hbody] at hsize hordered
  rw [hcount] at hordered
  refine ⟨l, hl, hsettled, hrecords, hsize fun hnil => ?_, hordered⟩
  rw [hnil] at hrecords
  cases hrecords

end Source

end ContractAsm
