-- SUMMARY: Requests that fail: what they leave behind, and how often each region is listed then.
import ContractAsm.Proofs.Session
import ContractAsm.Proofs.Shift

/-!
# Requests that fail

A request that fails leaves a collector behind, and later requests go on from there. Marks and ends
are set after the size of the preamble is read. An opening and the end of the records complete the
current region before they read it. If that fails, the region stays current and is completed once
more by a later request.

What a request can do is said for all of its outcomes. From it follow the failures that leave every
view of the collector as it was, and how often each region is listed after any requests.
-/

namespace ContractAsm

/-! ## Sizes that cannot be read -/

/-- A row of more digits than the limit is no integer. -/
theorem Numeral.readLeading_eq_error {t : Text} (hdigits : ∀ c ∈ t, c.isDigit = true)
    (hlength : Limit.digits < t.length) : readLeading t = .error (.numeral t.length) := by
  have hne : t ≠ [] := List.ne_nil_of_length_pos (by omega)
  have hread : read t = .error (.numeral t.length) := if_neg (by omega)
  rw [readLeading_of_isDigit hne hdigits, hread]
  rfl

namespace SymbolTable

/-- The size of the preamble runs into a limit of conversion. -/
def Unreadable (table : SymbolTable) : Prop :=
  ∃ e, table.preambleSize.result = .error e

/-- A number with too many digits makes the size of the body unreadable. -/
theorem unreadable_insert (table : SymbolTable) {d : Definition} (hname : d.name = "BODY".toList)
    (hdigits : ∀ c ∈ d.location, c.isDigit = true) (hlength : Limit.digits < d.location.length) :
    (table.insert d).Unreadable := by
  refine ⟨.limit (.numeral d.location.length), ?_⟩
  have hget : (table.insert d).get? "BODY".toList = some d.location := by
    rw [← hname, get?_insert_self]
  simp only [preambleSize, numericValue, hget, Numeral.readLeading_eq_error hdigits hlength]
  rfl

end SymbolTable

namespace Collector

variable {c : Collector} {table : SymbolTable} {r : Region}

/-- Without a size nothing is done, and the request fails. -/
theorem withPreamble_of_unreadable (h : table.Unreadable) (c : Collector) (f : Int → Step) :
    (c.withPreamble table f).1 = c ∧ ∃ e, (c.withPreamble table f).2.result = .error e := by
  obtain ⟨e, he⟩ := h
  simp [withPreamble, he]

/-- With a size the step is made. -/
theorem withPreamble_of_readable (h : ¬ table.Unreadable) (c : Collector) (f : Int → Step) :
    (c.withPreamble table f).1 = (f table.bodySize).1
      ∧ (c.withPreamble table f).2.result = (f table.bodySize).2.result := by
  cases hsize : table.preambleSize.result with
  | error e => exact absurd ⟨e, hsize⟩ h
  | ok size =>
    have hbody : size = table.bodySize := SymbolTable.preambleSize_eq_ok hsize
    simp [withPreamble, hsize, hbody]

/-! ## What a request can do, also if it fails -/

/-- What an effect makes of a collector, with each outcome that the request can have. Where the
outcome is left open, the change is made before the offset is reported, and the report can fail. -/
inductive Moves (table : SymbolTable) :
    Effect → Collector → Collector → Except Failure Unit → Prop where
  | opened (c : Collector) (payload : List (Text × Json)) (index : Int)
      (outcome : Except Failure Unit) : ¬ table.Unreadable →
      Moves table (.opening payload index) c
        (c.complete.push (.fresh payload (index - table.bodySize))) outcome
  | unopened (c : Collector) (payload : List (Text × Json)) (index : Int) (e : Failure) :
      table.Unreadable → Moves table (.opening payload index) c c.complete (.error e)
  | closed (c : Collector) (index : Int) (outcome : Except Failure Unit) : ¬ table.Unreadable →
      c.state ≠ .none → Moves table (.closing index) c (c.close (index - table.bodySize)) outcome
  | unclosed (c : Collector) (index : Int) (e : Failure) : table.Unreadable →
      Moves table (.closing index) c c (.error e)
  | marked (c : Collector) (srcline : Json) (index : Int) :
      Moves table (.marking srcline index) c
        (c.updateCurrent fun r =>
          { r with marks := r.marks ++ [(index - table.bodySize, srcline)] }) (.ok ())
  | unmarked (c : Collector) (srcline : Json) (index : Int) (outcome : Except Failure Unit) :
      Moves table (.marking srcline index) c c outcome
  | finished (c : Collector) (stop : Option Int) : ¬ table.Unreadable → c.state ≠ .none →
      Moves table .finishing c
        ((c.complete.updateFirst fun first => { first with stop }).updateFirst
          fun first => { first with body := some table.bodySize }).release (.ok ())
  | unfinished (c : Collector) (e : Failure) : table.Unreadable → c.state ≠ .none →
      Moves table .finishing c
        (c.complete.updateFirst fun first => { first with stop := c.current?.bind (·.stop) })
        (.error e)
  | idle (e : Effect) (c : Collector) : c.state = .none →
      (∀ payload index, e ≠ .opening payload index) → Moves table e c c (.ok ())
  | nothing (c : Collector) (outcome : Except Failure Unit) : Moves table .nothing c c outcome

section Step

variable [Platform] (c : Collector) (table : SymbolTable) (index n : Int)

/-- An opening completes the current region even if it fails behind that. -/
theorem moves_openRegion (payload : List (Text × Json)) :
    Moves table (.opening payload index) c (c.openRegion table payload index).1
      (c.openRegion table payload index).2.result := by
  unfold openRegion
  by_cases h : table.Unreadable
  · obtain ⟨hnext, e, he⟩ := withPreamble_of_unreadable h c.complete _
    rw [hnext, he]
    exact .unopened c payload index e h
  · obtain ⟨hnext, -⟩ := withPreamble_of_readable h c.complete _
    rw [hnext]
    exact .opened c payload index _ h

theorem moves_closeRegion :
    Moves table (.closing index) c (c.closeRegion table index).1
      (c.closeRegion table index).2.result := by
  unfold closeRegion
  split
  · next hnone => exact .idle _ c hnone (by simp)
  · next hsome =>
    by_cases h : table.Unreadable
    · obtain ⟨hnext, e, he⟩ := withPreamble_of_unreadable h c _
      rw [hnext, he]
      exact .unclosed c index e h
    · obtain ⟨hnext, -⟩ := withPreamble_of_readable h c _
      rw [hnext]
      exact .closed c index _ h hsome

omit [Platform] in
theorem moves_markLine (srcline : Json) :
    Moves table (.marking srcline index) c (c.markLine table srcline index).1
      (c.markLine table srcline index).2.result := by
  unfold markLine
  split
  · next hnone => exact .idle _ c hnone (by simp)
  · split
    · exact .unmarked c srcline index _
    · by_cases h : table.Unreadable
      · obtain ⟨hnext, -⟩ := withPreamble_of_unreadable h c _
        rw [hnext]
        exact .unmarked c srcline index _
      · obtain ⟨hnext, houtcome⟩ := withPreamble_of_readable h c _
        rw [hnext, houtcome]
        exact .marked c srcline index

omit [Platform] in
/-- The end of the session completes the current region even if it fails behind that. -/
theorem moves_finish :
    Moves table .finishing c (c.finish table).1 (c.finish table).2.result := by
  unfold finish
  split
  · next hnone => exact .idle _ c hnone (by simp)
  · next hsome =>
    by_cases h : table.Unreadable
    · obtain ⟨hnext, e, he⟩ := withPreamble_of_unreadable h _ _
      rw [hnext, he]
      exact .unfinished c e h hsome
    · obtain ⟨hnext, houtcome⟩ := withPreamble_of_readable h _ _
      rw [hnext, houtcome]
      exact .finished c _ h hsome

/-- A line moves the collector as its directive does. -/
theorem moves_consume (line : Text) :
    Moves table (Request.effect (.consume line index n)) c (c.consume table line index n).1
      (c.consume table line index n).2.result := by
  simp only [consume, Request.effect]
  cases Directive.decode line with
  | error l => exact .nothing c _
  | ok decoded =>
    cases decoded with
    | error f => exact .nothing c _
    | ok d =>
      obtain ⟨kind, payload⟩ := d
      cases kind with
      | opening => exact moves_openRegion c table index payload
      | closing => exact moves_closeRegion c table index
      | sourceLine => exact moves_markLine c table index _
      | unknown => exact .nothing c _

end Step

/-! ## How often a region is listed -/

/-- The current region is the last one. -/
theorem exists_of_current? (h : c.current? = some r) :
    c.active = true ∧ ∃ front, c.regions = front ++ [r] := by
  unfold current? at h
  split at h
  · next hactive => exact ⟨hactive, List.getLast?_eq_some_iff.1 h⟩
  · cases h

@[simp] theorem listed_updateCurrent (f : Region → Region) :
    (c.updateCurrent f).listed = c.listed := by
  simp [updateCurrent, listed]

@[simp] theorem length_updateCurrent (f : Region → Region) :
    (c.updateCurrent f).regions.length = c.regions.length := by
  simp [updateCurrent]

@[simp] theorem listed_close (stop : Int) : (c.close stop).listed = c.listed := by
  simp [close, updateCurrent, listed]

@[simp] theorem length_close (stop : Int) : (c.close stop).regions.length = c.regions.length :=
  length_updateCurrent _

@[simp] theorem completed_updateFirst (f : Region → Region) :
    (c.updateFirst f).completed = c.completed := by
  unfold updateFirst
  split <;> rfl

@[simp] theorem active_updateFirst (f : Region → Region) :
    (c.updateFirst f).active = c.active := by
  unfold updateFirst
  split <;> rfl

@[simp] theorem state_updateFirst (f : Region → Region) :
    (c.updateFirst f).state = c.state := by
  unfold updateFirst
  split <;> rfl

@[simp] theorem length_updateFirst (f : Region → Region) :
    (c.updateFirst f).regions.length = c.regions.length := by
  unfold updateFirst
  split
  · rfl
  · exact List.length_modify ..

@[simp] theorem regions_complete (c : Collector) : c.complete.regions = c.regions := by
  unfold complete
  split <;> rfl

@[simp] theorem active_complete (c : Collector) : c.complete.active = c.active := by
  unfold complete
  split <;> rfl

@[simp] theorem state_complete (c : Collector) : c.complete.state = c.state := by
  unfold complete
  split <;> rfl

@[simp] theorem current?_complete (c : Collector) : c.complete.current? = c.current? := by
  simp [current?]

/-- Completing puts the last region behind the completed ones. -/
theorem completed_complete (h : c.state ≠ .none) :
    c.complete.completed = c.completed ++ [c.regions.length - 1] := by
  simp [complete, h]

/-- Outside of any region there is nothing to complete. -/
theorem complete_eq_self (h : c.state = .none) : c.complete = c := by
  simp [complete, h]

theorem current?_updateCurrent (c : Collector) (f : Region → Region) :
    (c.updateCurrent f).current? = c.current?.map f := by
  rcases List.eq_nil_or_concat c.regions with hnil | ⟨front, r, hconcat⟩
  · simp [current?, updateCurrent, hnil]
  · rw [List.concat_eq_append] at hconcat
    simp only [current?, updateCurrent, hconcat, modify_last]
    split <;> simp

theorem current?_close (c : Collector) (stop : Int) :
    (c.close stop).current? = c.current?.map fun r => { r with stop := some stop } :=
  current?_updateCurrent c _

/-- A region that gets the end of the last one leaves the last one in its state. -/
theorem stateOf_getLast?_modify (rs : List Region) (number : Nat) :
    Region.stateOf (rs.modify number fun r => { r with stop := rs.getLast?.bind (·.stop) }).getLast?
      = Region.stateOf rs.getLast? := by
  simp only [List.getLast?_eq_getElem?, List.getElem?_modify, List.length_modify]
  cases rs[rs.length - 1]? with
  | none => split <;> rfl
  | some r => split <;> rfl

/-- Every region is listed, and nothing else, and the state is that of the current region. -/
structure Covered (c : Collector) : Prop where
  nonempty : c.active = true → c.regions ≠ []
  state : c.state = Region.stateOf c.current?
  mem_listed : ∀ k, k ∈ c.listed ↔ k < c.regions.length

/-- At first there is nothing to cover. -/
theorem covered_empty : empty.Covered where
  nonempty := by simp [empty]
  state := rfl
  mem_listed := by simp [empty, listed]

theorem Covered.state_eq_none_iff (hc : c.Covered) : c.state = .none ↔ c.current? = none := by
  rw [hc.state, Region.stateOf_eq_none_iff]

/-- The collector is in a region just if it is active. -/
theorem Covered.state_ne_none_iff (hc : c.Covered) : c.state ≠ .none ↔ c.active = true := by
  rw [ne_eq, hc.state_eq_none_iff]
  unfold current?
  split
  · next hactive => simp [hactive, hc.nonempty hactive]
  · next hactive => simp [hactive]

theorem Covered.active_eq_false (hc : c.Covered) (h : c.state = .none) : c.active = false := by
  cases hactive : c.active with
  | false => rfl
  | true => exact absurd h (hc.state_ne_none_iff.2 hactive)

/-- A region that is completed and stays current is listed once more. -/
theorem Covered.listed_complete (hc : c.Covered) (h : c.state ≠ .none) :
    c.complete.listed = c.listed ++ [c.regions.length - 1] := by
  simp [listed, completed_complete h, hc.state_ne_none_iff.1 h]

/-- A region pushed behind the completed ones is listed once. -/
theorem Covered.listed_push_complete (hc : c.Covered) (r : Region) :
    (c.complete.push r).listed = c.listed ++ [c.regions.length] := by
  by_cases h : c.state = .none
  · simp [listed, push, complete_eq_self h, hc.active_eq_false h]
  · simp [listed, push, completed_complete h, hc.state_ne_none_iff.1 h]

end Collector

def Effect.completes : Effect → Bool
  | .opening _ _ | .finishing => true
  | .closing _ | .marking _ _ | .nothing => false

namespace Collector

variable {c c' : Collector} {table : SymbolTable} {e : Effect} {outcome : Except Failure Unit}

/-- A region is completed, and then the size of the preamble cannot be read. -/
def Doubles (table : SymbolTable) (c : Collector) (e : Effect) : Prop :=
  table.Unreadable ∧ c.current? ≠ none ∧ e.completes = true

theorem Doubles.state_ne_none (h : Doubles table c e) (hc : c.Covered) : c.state ≠ .none :=
  mt hc.state_eq_none_iff.1 h.2.1

/-- Such a request lists the last region twice. -/
theorem Moves.listed_of_doubles (h : Moves table e c c' outcome) (hc : c.Covered)
    (hd : Doubles table c e) : c'.regions.length = c.regions.length
      ∧ c'.listed = c.listed ++ [c.regions.length - 1] := by
  have hstate := hd.state_ne_none hc
  obtain ⟨hunread, -, hcompletes⟩ := hd
  cases h with
  | opened _ _ _ _ hread | finished _ _ hread => exact absurd hunread hread
  | unopened => exact ⟨by simp, hc.listed_complete hstate⟩
  | unfinished =>
    refine ⟨by simp, ?_⟩
    rw [← hc.listed_complete hstate]
    simp [listed]
  | idle _ _ hnone => exact absurd hnone hstate
  | closed | unclosed | marked | unmarked | nothing => cases hcompletes

/-- Any other request lists the regions that it adds. -/
theorem Moves.listed_of_not_doubles (h : Moves table e c c' outcome) (hc : c.Covered)
    (hd : ¬ Doubles table c e) : (c'.active = true → c'.regions ≠ [])
      ∧ ∃ n, c'.regions.length = c.regions.length + n
        ∧ c'.listed = c.listed ++ List.range' c.regions.length n := by
  cases h with
  | opened _ payload index =>
    refine ⟨by simp [push], 1, by simp [push], ?_⟩
    rw [hc.listed_push_complete]
    rfl
  | unopened c payload index _ hunread =>
    have hnone : c.state = .none := by
      by_contra hstate
      exact hd ⟨hunread, mt hc.state_eq_none_iff.2 hstate, rfl⟩
    rw [complete_eq_self hnone]
    exact ⟨hc.nonempty, 0, by simp⟩
  | finished c stop _ hstate =>
    refine ⟨by simp [release], 0, by simp [release], ?_⟩
    simp [release, listed, completed_complete hstate, hc.state_ne_none_iff.1 hstate]
  | unfinished c _ hunread hstate =>
    exact absurd ⟨hunread, mt hc.state_eq_none_iff.2 hstate, rfl⟩ hd
  | closed =>
    refine ⟨fun hactive => ?_, 0, by simp⟩
    rw [← List.length_pos_iff, length_close, List.length_pos_iff]
    exact hc.nonempty hactive
  | marked =>
    refine ⟨fun hactive => ?_, 0, by simp⟩
    rw [← List.length_pos_iff, length_updateCurrent, List.length_pos_iff]
    exact hc.nonempty hactive
  | unclosed | unmarked | idle | nothing => exact ⟨hc.nonempty, 0, by simp⟩

/-- The state follows the current region. -/
theorem Moves.state_eq (h : Moves table e c c' outcome) (hc : c.Covered) :
    c'.state = Region.stateOf c'.current? := by
  have hstate := hc.state
  cases h with
  | opened => simp [push, current?, Region.stateOf, Region.fresh]
  | unopened => rwa [state_complete, current?_complete]
  | closed c index _ _ hsome =>
    obtain ⟨r, hr⟩ := Option.ne_none_iff_exists'.1 (mt hc.state_eq_none_iff.2 hsome)
    rw [current?_close, hr]
    rfl
  | marked =>
    rw [current?_updateCurrent]
    refine hstate.trans ?_
    cases c.current? with
    | none => rfl
    | some r => rfl
  | finished => rfl
  | unfinished c _ _ hsome =>
    have hactive := hc.state_ne_none_iff.1 hsome
    rw [state_updateFirst, state_complete, hstate]
    simp only [current?, active_updateFirst, active_complete, hactive, if_true]
    unfold updateFirst
    split
    · rw [regions_complete]
    · rw [regions_complete, stateOf_getLast?_modify]
  | unclosed | unmarked | idle | nothing => exact hstate

/-- No request leaves a region out, failed or not. -/
theorem Moves.covered (h : Moves table e c c' outcome) (hc : c.Covered) : c'.Covered := by
  by_cases hd : Doubles table c e
  · obtain ⟨hlength, hlisted⟩ := h.listed_of_doubles hc hd
    have hactive := hc.state_ne_none_iff.1 (hd.state_ne_none hc)
    have hpos := List.length_pos_iff.2 (hc.nonempty hactive)
    refine ⟨fun _ => List.length_pos_iff.1 (by omega), h.state_eq hc, fun k => ?_⟩
    rw [hlisted, hlength, List.mem_append, hc.mem_listed, List.mem_singleton]
    omega
  · obtain ⟨hactive, n, hlength, hlisted⟩ := h.listed_of_not_doubles hc hd
    refine ⟨hactive, h.state_eq hc, fun k => ?_⟩
    rw [hlisted, hlength, List.mem_append, hc.mem_listed, List.mem_range'_1]
    omega

/-- One more request lists no region again just if it does not complete one and then fail to read
the size. -/
theorem Moves.nodup_listed_iff (h : Moves table e c c' outcome) (hc : c.Covered) :
    c'.listed.Nodup ↔ c.listed.Nodup ∧ ¬ Doubles table c e := by
  by_cases hd : Doubles table c e
  · obtain ⟨-, hlisted⟩ := h.listed_of_doubles hc hd
    have hactive := hc.state_ne_none_iff.1 (hd.state_ne_none hc)
    have hpos := List.length_pos_iff.2 (hc.nonempty hactive)
    have hmem : c.regions.length - 1 ∈ c.listed := (hc.mem_listed _).2 (by omega)
    simp [hlisted, List.nodup_append, hmem, hd]
  · obtain ⟨-, n, -, hlisted⟩ := h.listed_of_not_doubles hc hd
    have hdisjoint : ∀ a ∈ c.listed, ∀ b ∈ List.range' c.regions.length n, a ≠ b := by
      intro a ha b hb
      have hlt := (hc.mem_listed a).1 ha
      have hle := (List.mem_range'_1.1 hb).1
      omega
    rw [hlisted, List.nodup_append, and_iff_left hd]
    exact and_iff_left ⟨List.nodup_range', hdisjoint⟩

/-- Once the records are finished, what is listed is completed. -/
theorem Moves.completed_of_finishing (h : Moves table .finishing c c' (.ok ())) (hc : c.Covered) :
    c'.completed = c.listed := by
  cases h with
  | finished c stop _ hstate =>
    simp [release, listed, completed_complete hstate, hc.state_ne_none_iff.1 hstate]
  | idle _ _ hnone => simp [listed, hc.active_eq_false hnone]

/-! ## What is seen of a collector -/

/-- Two collectors with the same records, current region, global region and state. -/
structure SameView (c c' : Collector) : Prop where
  records : c'.records = c.records
  current : c'.current? = c.current?
  global : c'.global? = c.global?
  state : c'.state = c.state

/-- A collector looks like itself. -/
theorem SameView.refl (c : Collector) : SameView c c := ⟨rfl, rfl, rfl, rfl⟩

/-- Every completed number gives a record. -/
theorem Covered.length_records (hc : c.Covered) : c.records.length = c.completed.length := by
  have hsome : ∀ k ∈ c.completed, (c.regions[k]?).isSome = true := by
    intro k hk
    have hlt := (hc.mem_listed k).1 (List.mem_append_left _ hk)
    simpa using hlt
  rw [records, List.length_filterMap_eq_countP, List.countP_eq_length]
  exact hsome

/-- Collectors that look the same have completed as many regions. -/
theorem SameView.length_completed (h : SameView c c') (hc : c.Covered) (hc' : c'.Covered) :
    c'.completed.length = c.completed.length := by
  rw [← hc'.length_records, ← hc.length_records, h.records]

/-- Setting the end that a region has already changes nothing. -/
theorem Covered.close_eq_self (hc : c.Covered) {r : Region} {stop : Int} (h : c.current? = some r)
    (hstop : r.stop = some stop) : c.close stop = c := by
  obtain ⟨-, front, hfront⟩ := exists_of_current? h
  have hregions : (c.close stop).regions = c.regions := by
    simp only [close, updateCurrent, hfront, modify_last, ← hstop]
  have hstate : c.state = .closed := by
    simp [hc.state, h, Region.stateOf, hstop]
  calc c.close stop = { c with regions := (c.close stop).regions, state := .closed } := rfl
    _ = c := by rw [hregions, ← hstate]

/-- The failures that change nothing that is seen. An opening must have nothing to complete, and an
end that cannot be reported must be the one that the region already has. -/
def Harmless (table : SymbolTable) (c : Collector) : Effect → Prop
  | .opening _ _ => table.Unreadable ∧ c.current? = none
  | .closing index => table.Unreadable
      ∨ ∃ r, c.current? = some r ∧ r.stop = some (index - table.bodySize)
  | .finishing => False
  | .marking _ _ | .nothing => True

/-- A failed request goes unnoticed just if it is harmless. -/
theorem Moves.sameView_iff {f : Failure} (h : Moves table e c c' (.error f)) (hc : c.Covered) :
    SameView c c' ↔ Harmless table c e := by
  have hc' := h.covered hc
  cases h with
  | opened c payload index _ hread =>
    refine iff_of_false (fun hsame => ?_) fun hharmless => hread hharmless.1
    -- without a current region there is one now, and otherwise there is one more record
    by_cases hstate : c.state = .none
    · have hcurrent := hsame.current
      rw [hc.state_eq_none_iff.1 hstate] at hcurrent
      simp [current?, push] at hcurrent
    · have hlength := hsame.length_completed hc hc'
      simp [push, completed_complete hstate] at hlength
  | unopened c payload index _ hunread =>
    constructor
    · intro hsame
      refine ⟨hunread, ?_⟩
      by_contra hcurrent
      have hlength := hsame.length_completed hc hc'
      simp [completed_complete (mt hc.state_eq_none_iff.1 hcurrent)] at hlength
    · rintro ⟨-, hnone⟩
      rw [complete_eq_self (hc.state_eq_none_iff.2 hnone)]
      exact .refl c
  | closed c index _ hread hstate =>
    obtain ⟨r, hr⟩ := Option.ne_none_iff_exists'.1 (mt hc.state_eq_none_iff.2 hstate)
    constructor
    · intro hsame
      have hstop := hsame.current
      rw [current?_close, hr, Option.map_some, Option.some.injEq] at hstop
      exact .inr ⟨r, hr, by rw [← hstop]⟩
    · rintro (hunread | ⟨r', hr', hstop⟩)
      · exact absurd hunread hread
      · rw [hc.close_eq_self hr' hstop]
        exact .refl c
  | unclosed c index _ hunread => exact iff_of_true (.refl c) (.inl hunread)
  | unfinished c _ _ hstate =>
    refine iff_of_false (fun hsame => ?_) id
    have hlength := hsame.length_completed hc hc'
    simp [completed_complete hstate] at hlength
  | unmarked c => exact iff_of_true (.refl c) trivial
  | nothing c => exact iff_of_true (.refl c) trivial

end Collector

/-! ## Requests after failures -/

namespace Session

section Failures

variable [Platform]

/-- The session after some requests, whether they were answered or failed. -/
def after (rs : List Request) : Session :=
  rs.foldl (fun s r => (s.step r).1) start

theorem after_concat (rs : List Request) (r : Request) :
    after (rs ++ [r]) = ((after rs).step r).1 := by
  simp [after]

/-- Each request of a session moves its collector. -/
theorem moves_step (s : Session) (r : Request) :
    Collector.Moves s.symbols r.effect s.collector (s.step r).1.collector (s.step r).2.result := by
  cases r with
  | define d => exact .nothing s.collector _
  | consume line index n => exact Collector.moves_consume ..
  | openRegion payload index => exact Collector.moves_openRegion ..
  | closeRegion index => exact Collector.moves_closeRegion ..
  | markLine srcline proper index => exact Collector.moves_markLine ..
  | finish => exact Collector.moves_finish ..

/-- Whatever failed before, no region is lost. -/
theorem covered_after (rs : List Request) : (after rs).collector.Covered := by
  induction rs using List.reverseRecOn with
  | nil => exact Collector.covered_empty
  | append_singleton rs r ih =>
    rw [after_concat]
    exact (moves_step _ r).covered ih

/-- A request that completes a region but cannot read the size of the preamble. -/
def Doubles (s : Session) (r : Request) : Prop :=
  s.collector.Doubles s.symbols r.effect

/-- After any requests, some region is listed twice just if one of them has doubled it. -/
theorem nodup_listed_after_iff (rs : List Request) : (after rs).collector.listed.Nodup
    ↔ ∀ before r later, rs = before ++ r :: later → ¬ Doubles (after before) r := by
  induction rs using List.reverseRecOn with
  | nil => simp [after, start, Collector.empty, Collector.listed]
  | append_singleton rs last ih =>
    rw [after_concat, (moves_step _ last).nodup_listed_iff (covered_after rs), ih]
    constructor
    · rintro ⟨hbefore, hlast⟩ before r later hsplit
      rcases List.eq_nil_or_concat later with rfl | ⟨later, x, rfl⟩
      · obtain ⟨rfl, hr⟩ := List.append_inj' hsplit rfl
        obtain rfl := List.singleton_injective hr
        exact hlast
      · rw [List.concat_eq_append, ← List.cons_append, ← List.append_assoc] at hsplit
        exact hbefore before r later (List.append_inj' hsplit rfl).1
    · intro h
      exact ⟨fun before r later hsplit => h before r (later ++ [last]) (by simp [hsplit]),
        h rs last [] rfl⟩

/-- A request fails after any others, answered or not. Just some of the failures leave everything
that is seen of the collector as it was. Once the records are finished later on, no region is
missing, and one of them is there twice just if a request on the way had completed it before it
failed to read the size of the preamble. -/
theorem sameView_of_failed (rs : List Request) (r : Request) (e : Failure)
    (h : ((after rs).step r).2.result = .error e) :
    (Collector.SameView (after rs).collector (after (rs ++ [r])).collector
      ↔ (after rs).collector.Harmless (after rs).symbols r.effect)
    ∧ ∀ later, ((after (rs ++ r :: later)).step .finish).2.result = .ok () →
      ∃ completed, (after (rs ++ r :: later ++ [.finish])).collector.completed = completed
        ∧ (∀ k, k ∈ completed ↔ k < (after (rs ++ r :: later)).collector.regions.length)
        ∧ (completed.Nodup ↔ ∀ before q rest, rs ++ r :: later = before ++ q :: rest →
          ¬ Doubles (after before) q) := by
  have hmoves := moves_step (after rs) r
  rw [h] at hmoves
  refine ⟨?_, fun later hfinish => ⟨_, rfl, ?_⟩⟩
  · rw [after_concat]
    exact hmoves.sameView_iff (covered_after rs)
  · have hcovered := covered_after (rs ++ r :: later)
    have hmoves := moves_step (after (rs ++ r :: later)) .finish
    rw [hfinish] at hmoves
    rw [after_concat, hmoves.completed_of_finishing hcovered]
    exact ⟨hcovered.mem_listed, nodup_listed_after_iff _⟩

end Failures

/-- More digits than are read as the size of the preamble. -/
def longSize : Definition :=
  ⟨"BODY".toList, List.replicate (Limit.digits + 1) '9', 0, 0⟩

theorem unreadable_longSize (table : SymbolTable) : (table.insert longSize).Unreadable := by
  refine table.unreadable_insert rfl (fun c hc => ?_) ?_
  · rw [List.eq_of_mem_replicate hc]
    rfl
  · rw [longSize, List.length_replicate]
    omega

/-- Where the size cannot be read, an opening does no more than completing the current region. -/
theorem step_openRegion_unread [Platform] {s : Session} (h : s.symbols.Unreadable)
    (payload : List (Text × Json)) (index : Int) :
    (s.step (.openRegion payload index)).1 = ⟨s.symbols, s.collector.complete⟩
      ∧ ∃ e, (s.step (.openRegion payload index)).2.result = .error e := by
  obtain ⟨hnext, herror⟩ := Collector.withPreamble_of_unreadable h s.collector.complete _
  exact ⟨congrArg (Session.mk _) hnext, herror⟩

/-- Where the size cannot be read, a closing does nothing. -/
theorem step_closeRegion_unread [Platform] {s : Session} (h : s.symbols.Unreadable)
    (hstate : s.collector.state ≠ .none) (index : Int) :
    (s.step (.closeRegion index)).1 = s
      ∧ ∃ e, (s.step (.closeRegion index)).2.result = .error e := by
  obtain ⟨hnext, herror⟩ := Collector.withPreamble_of_unreadable h s.collector _
  simp only [step, step.ofStep, Collector.closeRegion, if_neg hstate]
  exact ⟨congrArg (Session.mk _) hnext, herror⟩

/-- A region is opened before the size of the preamble gets too long. -/
def openedUnread : List Request :=
  [.openRegion [("code".toList, .string "a".toList)] 0, .define longSize]

/-- The region that is opened there. -/
def firstRegion : Region :=
  .fresh [("code".toList, .string "a".toList)] 0

def readSize : Definition :=
  ⟨"BODY".toList, "0".toList, 0, 0⟩

theorem sameView_of_failed_closeRegion :
    ∃ e, ((after openedUnread).step (.closeRegion 1)).2.result = .error e
    ∧ Collector.SameView (after openedUnread).collector
      (after (openedUnread ++ [.closeRegion 1])).collector
    ∧ (after (openedUnread ++ .closeRegion 1 :: [.define readSize]
      ++ [.finish])).collector.completed = [0]
    ∧ ∀ before q rest, openedUnread ++ .closeRegion 1 :: [.define readSize] = before ++ q :: rest →
      ¬ Doubles (after before) q := by
  have hunread : (after openedUnread).symbols.Unreadable := unreadable_longSize .empty
  obtain ⟨hnext, e, he⟩ := step_closeRegion_unread hunread (by decide) 1
  have hafter : after (openedUnread ++ [.closeRegion 1]) = after openedUnread := by
    rw [after_concat, hnext]
  have hlater : ∀ rs, after (openedUnread ++ .closeRegion 1 :: rs)
      = rs.foldl (fun s r => (s.step r).1) (after openedUnread) := by
    intro rs
    rw [← hafter, after, List.append_cons, List.foldl_append]
    rfl
  obtain ⟨hview, hfinished⟩ := sameView_of_failed openedUnread (.closeRegion 1) e he
  obtain ⟨completed, hcompleted, -, hnodup⟩ := hfinished [.define readSize] (by
    rw [hlater]
    rfl)
  have hzero : completed = [0] := by
    rw [← hcompleted, List.append_assoc, List.cons_append, hlater]
    rfl
  exact ⟨e, he, hview.2 (.inl hunread), hcompleted.trans hzero, hnodup.1 (by simp [hzero])⟩

/-- An opening that fails completes the region in front of it, and the end of the records completes
it again. -/
theorem records_doubled :
    (∃ e, ((after openedUnread).step (.openRegion [] 1)).2.result = .error e)
    ∧ (after openedUnread).collector.records = []
    ∧ (after (openedUnread ++ [.openRegion [] 1])).collector.records = [firstRegion]
    ∧ (after (openedUnread ++ [.openRegion [] 1, .define readSize, .finish])).collector.records
      = [{ firstRegion with body := some 0 }, { firstRegion with body := some 0 }] := by
  have hunread : (after openedUnread).symbols.Unreadable := unreadable_longSize .empty
  obtain ⟨hnext, hfails⟩ := step_openRegion_unread hunread [] 1
  have hafter : after (openedUnread ++ [.openRegion [] 1])
      = ⟨SymbolTable.empty.insert longSize, ⟨[firstRegion], [0], true, some 0, .opened⟩⟩ := by
    rw [after_concat, hnext]
    rfl
  refine ⟨hfails, rfl, ?_, ?_⟩
  · rw [hafter]
    rfl
  · have hsplit : openedUnread ++ [.openRegion [] 1, .define readSize, .finish]
        = openedUnread ++ [.openRegion [] 1] ++ [.define readSize, .finish] := by simp
    rw [hsplit, after, List.foldl_append, ← after, hafter]
    rfl

end Session

end ContractAsm
