-- SUMMARY: Requests to a collector: what each can do, and what holds after any of them.
import ContractAsm.Proofs.JsonObject
import ContractAsm.Proofs.Reading

/-!
# Requests to a collector

A collector takes directives as lines or one by one, in any order, while symbols are defined beside
it. What one request can do to the regions is said once, and what holds of every collector that has
answered its requests follows from that: which state it is in, which regions it lists and in which
order, which of them is the global one, and what its records hold.
-/

namespace ContractAsm

/-! ## Requests -/

/-- A collector, and the symbols in which it looks up the size of the preamble. -/
structure Session where
  symbols : SymbolTable
  collector : Collector

inductive Request where
  | define (d : Definition)
  | consume (line : Text) (index lineNumber : Int)
  | openRegion (payload : List (Text × Json)) (index : Int)
  | closeRegion (index : Int)
  | markLine (srcline : Json) (proper : srcline.Proper) (index : Int)
  | finish

namespace Session

def start : Session := ⟨.empty, .empty⟩

variable [Platform]

/-- The session after a request, also if that fails, and the outcome of the request. -/
def step (s : Session) : Request → Session × Logged Failure Unit
  | .define d => (⟨s.symbols.insert d, s.collector⟩, discard (s.symbols.define d))
  | .consume line index n => ofStep (s.collector.consume s.symbols line index n)
  | .openRegion payload index => ofStep (s.collector.openRegion s.symbols payload index)
  | .closeRegion index => ofStep (s.collector.closeRegion s.symbols index)
  | .markLine srcline _ index => ofStep (s.collector.markLine s.symbols srcline index)
  | .finish => ofStep (s.collector.finish s.symbols)
where
  ofStep (x : Collector.Step) : Session × Logged Failure Unit :=
    (⟨s.symbols, x.1⟩, x.2)

/-- Answers requests in order, up to the first one that fails. -/
def run (s : Session) : List Request → Logged Failure Session
  | [] => pure s
  | r :: rs => do
    (s.step r).2
    (s.step r).1.run rs

end Session

/-! ## What requests come to -/

/-- What a request comes to for the regions. -/
inductive Effect where
  | opening (payload : List (Text × Json)) (index : Int)
  | closing (index : Int)
  | marking (srcline : Json) (index : Int)
  | finishing
  | nothing

/-- What a directive comes to. -/
def Directive.effect (d : Directive) (index : Int) : Effect :=
  match d.kind with
  | .opening => .opening d.payload index
  | .closing => .closing index
  | .sourceLine => .marking d.markedLine index
  | .unknown => .nothing

namespace Request

/-- What a request comes to. A line that is no directive comes to nothing. -/
def effect [Platform] : Request → Effect
  | .define _ => .nothing
  | .consume line index _ =>
    match Directive.decode line with
    | .ok (.ok d) => d.effect index
    | _ => .nothing
  | .openRegion payload index => .opening payload index
  | .closeRegion index => .closing index
  | .markLine srcline _ index => .marking srcline index
  | .finish => .finishing

def symbols (table : SymbolTable) : Request → SymbolTable
  | .define d => table.insert d
  | _ => table

end Request

/-- The state after an effect. A region that is closed can be closed again, and only a new one is
open. Without a region nothing but an opening counts. -/
def RegionState.after : RegionState → Effect → RegionState
  | _, .opening _ _ => .opened
  | _, .finishing => .none
  | .none, .closing _ => .none
  | _, .closing _ => .closed
  | state, .marking _ _ => state
  | state, .nothing => state

namespace Region

/-- What a region was when it was opened. -/
def asOpened (r : Region) : Region :=
  { r with stop := none, marks := [], body := none }

@[simp] theorem asOpened_fresh (payload : List (Text × Json)) (start : Int) :
    (fresh payload start).asOpened = fresh payload start := rfl

/-- No line of the compiled source is marked twice. -/
def Unrepeated (r : Region) : Prop :=
  r.marks.Pairwise fun m n => Json.same m.2 n.2 = false ∧ Json.same n.2 m.2 = false

end Region

namespace Request

variable [Platform]

/-- The region that an effect opens, with the body of the program at `b`. -/
def opened? (r : Request) (b : Int) : Option Region :=
  match r.effect with
  | .opening payload index => some (.fresh payload (index - b))
  | _ => none

/-- The state after some requests. -/
def state (rs : List Request) : RegionState :=
  rs.foldl (fun state r => state.after r.effect) .none

/-- The regions that requests open, in order. -/
def openings (table : SymbolTable) : List Request → List Region
  | [] => []
  | r :: rs => (r.opened? table.bodySize).toList ++ openings (r.symbols table) rs

theorem state_concat (rs : List Request) (r : Request) :
    state (rs ++ [r]) = (state rs).after r.effect := by
  simp [state]

theorem openings_concat (table : SymbolTable) (rs : List Request) (r : Request) :
    openings table (rs ++ [r]) = openings table rs
      ++ (r.opened? (rs.foldl symbols table).bodySize).toList := by
  induction rs generalizing table with
  | nil => simp [openings]
  | cons first rs ih => simp [openings, ih]

end Request

/-! ## Collectors that list every region once -/

namespace Collector

/-- Every region is listed once. -/
inductive Listed : Collector → Prop where
  | idle (regions : List Region) : Listed (ofRegions regions false)
  | active (front : List Region) (r : Region) : Listed (ofRegions (front ++ [r]) true)

variable {regions front : List Region} {r : Region}

/-- The state is that of the current region. -/
theorem Listed.state_eq {c : Collector} (h : c.Listed) : c.state = Region.stateOf c.current? := by
  cases h with
  | idle regions => rfl
  | active front r => rw [state_active, current?_active]

theorem Listed.state_eq_none_iff {c : Collector} (h : c.Listed) :
    c.state = .none ↔ c.current? = none := by
  rw [h.state_eq, Region.stateOf_eq_none_iff]

theorem Listed.state_eq_opened_iff {c : Collector} (h : c.Listed) :
    c.state = .opened ↔ ∃ r, c.current? = some r ∧ r.stop = none := by
  rw [h.state_eq]
  cases c.current? with
  | none => simp [Region.stateOf]
  | some r => cases hstop : r.stop <;> simp [Region.stateOf, hstop]

theorem Listed.state_eq_closed_iff {c : Collector} (h : c.Listed) :
    c.state = .closed ↔ ∃ r, c.current? = some r ∧ r.stop.isSome = true := by
  rw [h.state_eq]
  cases c.current? with
  | none => simp [Region.stateOf]
  | some r => cases hstop : r.stop <;> simp [Region.stateOf, hstop]

/-- The completed regions and the current one are all there are, in order. -/
theorem Listed.regions_eq {c : Collector} (h : c.Listed) :
    c.records ++ c.current?.toList = c.regions := by
  cases h with
  | idle regions =>
    rw [records_idle, current?_idle]
    exact List.append_nil regions
  | active front r =>
    rw [records_active, current?_active]
    rfl

/-- The numbers of the completed regions and of the current one. -/
def listed (c : Collector) : List Nat :=
  c.completed ++ if c.active then [c.regions.length - 1] else []

/-- Each region is listed once, in the order of the openings. -/
theorem Listed.listed_eq {c : Collector} (h : c.Listed) :
    c.listed = List.range c.regions.length := by
  cases h with
  | idle regions => simp [listed, ofRegions]
  | active front r => simp [listed, ofRegions, List.range_succ]

/-- The global region is the completed one that is listed first. -/
theorem Listed.global?_number {c : Collector} (h : c.Listed) :
    c.global? = c.completed.head?.bind (c.regions[·]?) := by
  cases h with
  | idle regions => rfl
  | active front r => rfl

/-- The global region is the first one, once it is completed. -/
theorem Listed.global?_eq {c : Collector} (h : c.Listed) :
    c.global? = if c.records = [] then none else c.regions.head? := by
  rw [h.global?_number]
  cases h with
  | idle regions =>
    rw [records_idle]
    cases regions with
    | nil => rfl
    | cons first rest => simp [ofRegions, List.range_succ_eq_map]
  | active front r =>
    rw [records_active, ofRegions_concat]
    cases front with
    | nil => rfl
    | cons first front => simp [List.range_succ_eq_map]

/-! ## What one request can do -/

/-- What an effect does to a collector, with the body of the program at `b`. -/
inductive Turns (b : Int) : Effect → Collector → Collector → Prop where
  | opening (regions : List Region) (active : Bool) (payload : List (Text × Json)) (index : Int) :
      Turns b (.opening payload index) (ofRegions regions active)
        (ofRegions (regions ++ [.fresh payload (index - b)]) true)
  | closing (front : List Region) (r : Region) (index : Int) :
      Turns b (.closing index) (ofRegions (front ++ [r]) true)
        (ofRegions (front ++ [{ r with stop := some (index - b) }]) true)
  | marking (front : List Region) (r : Region) (srcline : Json) (index : Int) :
      r.hasMark srcline = false →
      Turns b (.marking srcline index) (ofRegions (front ++ [r]) true)
        (ofRegions (front ++ [{ r with marks := r.marks ++ [(index - b, srcline)] }]) true)
  | marked (front : List Region) (r : Region) (srcline : Json) (index : Int) :
      r.hasMark srcline = true →
      Turns b (.marking srcline index) (ofRegions (front ++ [r]) true)
        (ofRegions (front ++ [r]) true)
  | finishing (first last : Region) (rest : List Region) :
      (first :: rest).getLast? = some last →
      Turns b .finishing (ofRegions (first :: rest) true)
        (ofRegions ({ first with stop := last.stop, body := some b } :: rest) false)
  | idle (e : Effect) (regions : List Region) : (∀ payload index, e ≠ .opening payload index) →
      Turns b e (ofRegions regions false) (ofRegions regions false)
  | nothing (c : Collector) : Turns b .nothing c c

section Step

variable [Platform] {c : Collector} {table : SymbolTable} {payload : List (Text × Json)}
  {index n : Int}

/-- An opening turns a listed collector as it should. -/
theorem Listed.turns_openRegion (hc : c.Listed)
    (h : (c.openRegion table payload index).2.result = .ok ()) :
    Turns table.bodySize (.opening payload index) c (c.openRegion table payload index).1 := by
  cases hc with
  | idle regions =>
    rw [openRegion_ofRegions (by simp) h]
    exact .opening regions false payload index
  | active front r =>
    rw [openRegion_ofRegions (by simp) h]
    exact .opening (front ++ [r]) true payload index

theorem Listed.turns_closeRegion (hc : c.Listed)
    (h : (c.closeRegion table index).2.result = .ok ()) :
    Turns table.bodySize (.closing index) c (c.closeRegion table index).1 := by
  cases hc with
  | idle regions => exact .idle _ regions (by simp)
  | active front r =>
    rw [closeRegion_active h]
    exact .closing front r index

omit [Platform] in
theorem Listed.turns_markLine (hc : c.Listed) {srcline : Json}
    (h : (c.markLine table srcline index).2.result = .ok ()) :
    Turns table.bodySize (.marking srcline index) c (c.markLine table srcline index).1 := by
  cases hc with
  | idle regions => exact .idle _ regions (by simp)
  | active front r =>
    rw [markLine_active h]
    split
    · next hmark => exact .marked front r srcline index hmark
    · next hmark => exact .marking front r srcline index (Bool.eq_false_iff.2 hmark)

omit [Platform] in
/-- The end of the session completes the current region. -/
theorem Listed.turns_finish (hc : c.Listed) (h : (c.finish table).2.result = .ok ()) :
    Turns table.bodySize .finishing c (c.finish table).1 := by
  cases hc with
  | idle regions => exact .idle _ regions (by simp)
  | active front r =>
    have hlast : (front ++ [r]).getLast? = some r := List.getLast?_concat
    -- the first region is changed, so the list is taken apart in front
    obtain ⟨first, rest, hcons⟩ : ∃ first rest, front ++ [r] = first :: rest :=
      List.exists_cons_of_ne_nil (by simp)
    rw [hcons] at hlast h ⊢
    rw [finish_active hlast h]
    exact .finishing first r rest hlast

/-- A directive has its effect. -/
theorem Listed.turns_apply (hc : c.Listed) {d : Directive}
    (h : (c.apply table d index n).2.result = .ok ()) :
    Turns table.bodySize (d.effect index) c (c.apply table d index n).1 := by
  obtain ⟨kind, payload⟩ := d
  cases kind with
  | opening => exact hc.turns_openRegion h
  | closing => exact hc.turns_closeRegion h
  | sourceLine => exact hc.turns_markLine h
  | unknown => exact .nothing c

/-- A line has the effect of its directive, if it holds one. -/
theorem Listed.turns_consume (hc : c.Listed) {line : Text}
    (h : (c.consume table line index n).2.result = .ok ()) :
    Turns table.bodySize (Request.effect (.consume line index n)) c
      (c.consume table line index n).1 := by
  simp only [consume, Request.effect] at h ⊢
  cases hdecode : Directive.decode line with
  | error l =>
    simp only [hdecode] at h
    cases h
  | ok decoded =>
    simp only [hdecode] at h
    cases decoded with
    | error f => exact .nothing c
    | ok d => exact hc.turns_apply h

end Step

/-! ## What effects keep -/

variable {b : Int} {e : Effect} {c c' : Collector}

/-- A turn keeps the regions listed. -/
theorem Turns.listed (h : Turns b e c c') (hc : c.Listed) : c'.Listed := by
  cases h with
  | opening | closing | marking | marked => exact .active _ _
  | finishing | idle => exact .idle _
  | nothing => exact hc

/-- It takes the state where the effect says. -/
theorem Turns.state_eq (h : Turns b e c c') : c'.state = c.state.after e := by
  cases h with
  | opening regions active payload index =>
    rw [state_active]
    cases (ofRegions regions active).state <;> rfl
  | closing front r index =>
    simp only [state_active, Region.stateOf]
    cases r.stop <;> rfl
  | marking front r srcline index =>
    simp only [state_active, Region.stateOf]
    cases r.stop <;> rfl
  | marked front r srcline index =>
    simp only [state_active, Region.stateOf]
    cases r.stop <;> rfl
  | finishing first last rest => cases (ofRegions (first :: rest) true).state <;> rfl
  | idle e regions hopening =>
    rw [state_idle]
    cases e with
    | opening payload index => exact absurd rfl (hopening payload index)
    | closing | marking | finishing | nothing => rfl
  | nothing => cases c.state <;> rfl

/-- A number that is completed stays so, in its place. -/
theorem Turns.completed_grows (h : Turns b e c c') : c.completed <+: c'.completed := by
  cases h with
  | opening regions active payload index =>
    cases active with
    | true =>
      rcases List.eq_nil_or_concat regions with rfl | ⟨front, r, rfl⟩
      · exact List.nil_prefix
      · exact ⟨[front.length], by simp [ofRegions, List.range_succ]⟩
    | false => exact ⟨[], by simp [ofRegions]⟩
  | closing front r index => exact ⟨[], by simp [ofRegions]⟩
  | marking front r srcline index => exact ⟨[], by simp [ofRegions]⟩
  | finishing first last rest => exact ⟨[rest.length], by simp [ofRegions, List.range_succ]⟩
  | marked | idle | nothing => exact List.prefix_rfl

/-- No region is lost or reordered, and only an opening adds one. -/
theorem Turns.asOpened_eq [Platform] {r : Request} (h : Turns b r.effect c c') :
    c'.regions.map Region.asOpened = c.regions.map Region.asOpened ++ (r.opened? b).toList := by
  unfold Request.opened?
  generalize r.effect = e at h
  cases h with
  | opening => simp [ofRegions]
  | closing => simp [ofRegions, Region.asOpened]
  | marking => simp [ofRegions, Region.asOpened]
  | finishing => simp [ofRegions, Region.asOpened]
  | marked | nothing => simp
  | idle e regions hopening =>
    cases e with
    | opening payload index => exact absurd rfl (hopening payload index)
    | closing | marking | finishing | nothing => simp

/-- Only the first region has a body. -/
def Bodied (c : Collector) : Prop :=
  ∀ r ∈ c.regions.tail, r.body = none

theorem bodied_concat {active : Bool} (hc : (ofRegions (front ++ [r]) active).Bodied) {r' : Region}
    (hbody : r'.body = r.body) : (ofRegions (front ++ [r']) true).Bodied := by
  cases front with
  | nil => simp [Bodied, ofRegions]
  | cons first front =>
    simp only [Bodied, ofRegions, List.cons_append, List.tail_cons, List.mem_append,
      List.mem_singleton, or_imp, forall_and, forall_eq] at hc ⊢
    exact ⟨hc.1, hbody.trans hc.2⟩

/-- A turn gives no body to a later region. -/
theorem Turns.bodied (h : Turns b e c c') (hc : c.Bodied) : c'.Bodied := by
  cases h with
  | opening regions active payload index =>
    cases regions with
    | nil => simp [Bodied, ofRegions]
    | cons first rest =>
      simp only [Bodied, ofRegions, List.cons_append, List.tail_cons, List.mem_append,
        List.mem_singleton, or_imp, forall_and, forall_eq] at hc ⊢
      exact ⟨hc, rfl⟩
  | closing front r index => exact bodied_concat hc rfl
  | marking front r srcline index => exact bodied_concat hc rfl
  | finishing | marked | idle | nothing => exact hc

/-- Every region marks proper values only, and none of them twice. -/
def Distinct (c : Collector) : Prop :=
  ∀ r ∈ c.regions, r.Unrepeated ∧ ∀ m ∈ r.marks, m.2.Proper

theorem distinct_concat {active : Bool} (hc : (ofRegions (front ++ [r]) active).Distinct)
    {r' : Region} (hr : r'.Unrepeated ∧ ∀ m ∈ r'.marks, m.2.Proper) :
    (ofRegions (front ++ [r']) true).Distinct := by
  intro x hx
  rcases List.mem_append.1 hx with hx | hx
  · exact hc x (List.mem_append_left _ hx)
  · rw [List.mem_singleton.1 hx]
    exact hr

end Collector

/-- A mark of a line that is not marked yet equals none of the earlier ones, either way round. -/
theorem Region.unrepeated_concat {r : Region} {srcline : Json} (hr : r.Unrepeated)
    (hmarks : ∀ m ∈ r.marks, m.2.Proper) (hproper : srcline.Proper)
    (hmark : r.hasMark srcline = false) (offset : Int) :
    Region.Unrepeated { r with marks := r.marks ++ [(offset, srcline)] } := by
  refine List.pairwise_append.2 ⟨hr, List.pairwise_singleton .., fun m hm n hn => ?_⟩
  rw [List.mem_singleton.1 hn]
  have hnew : Json.same m.2 srcline = false := by
    simpa using List.any_eq_false.1 hmark m hm
  refine ⟨hnew, ?_⟩
  cases hback : Json.same srcline m.2 with
  | false => rfl
  | true =>
    rw [Json.same_comm hproper (hmarks m hm) hback] at hnew
    cases hnew

namespace Collector

variable {b : Int} {c c' : Collector}

/-- A turn repeats no marked line. -/
theorem Turns.distinct {e : Effect} (h : Turns b e c c') (hc : c.Distinct)
    (he : ∀ srcline index, e = .marking srcline index → srcline.Proper) : c'.Distinct := by
  cases h with
  | opening regions active payload index =>
    intro x hx
    rcases List.mem_append.1 hx with hx | hx
    · exact hc x hx
    · rw [List.mem_singleton.1 hx]
      exact ⟨List.Pairwise.nil, by simp [Region.fresh]⟩
  | closing front r index => exact distinct_concat hc (hc r (by simp [ofRegions]))
  | marking front r srcline index hmark =>
    obtain ⟨hr, hmarks⟩ := hc r (by simp [ofRegions])
    have hproper := he srcline index rfl
    refine distinct_concat hc ⟨Region.unrepeated_concat hr hmarks hproper hmark _, ?_⟩
    simpa [or_imp, forall_and] using ⟨fun o v hv => hmarks (o, v) hv, hproper⟩
  | finishing first last rest =>
    intro x hx
    rcases List.mem_cons.1 hx with rfl | hx
    · exact hc first (List.mem_cons_self ..)
    · exact hc x (List.mem_cons_of_mem _ hx)
  | marked | idle | nothing => exact hc

end Collector

/-- What is read from a line has no repeated key. -/
theorem Directive.proper_payload [Platform] {line : Text} {d : Directive}
    (h : Directive.decode line = .ok (.ok d)) : (Json.object d.payload).Proper := by
  unfold Directive.decode at h
  split at h
  · next hread =>
    cases h
    exact Json.proper_read hread
  · cases h
  · cases h
  · cases h

/-- The line that is marked has no repeated key. -/
theorem Directive.proper_markedLine {d : Directive} (h : (Json.object d.payload).Proper) :
    d.markedLine.Proper := by
  cases h with
  | object hkeys hmembers =>
    unfold markedLine
    cases hfind : Json.find? "srcline".toList d.payload with
    | none => exact .null
    | some v => exact hmembers _ (Json.mem_of_find? hfind)

/-- A line that a request marks is proper, for it is read or given so. -/
theorem Request.proper_marking [Platform] {r : Request} {srcline : Json} {index : Int}
    (h : r.effect = .marking srcline index) : srcline.Proper := by
  cases r with
  | markLine srcline proper index =>
    cases h
    exact proper
  | consume line index n =>
    simp only [effect] at h
    split at h
    · next d hdecode =>
      have hline := Directive.proper_markedLine (Directive.proper_payload hdecode)
      unfold Directive.effect at h
      split at h
      · cases h
      · cases h
      · cases h
        exact hline
      · cases h
    · cases h
  | define | openRegion | closeRegion | finish => cases h

/-! ## What runs keep -/

namespace Session

section Runs

variable [Platform] {s : Session} {r : Request} {rs : List Request}

/-- Requests run one after the other. -/
theorem run_append (s : Session) (before after : List Request) :
    s.run (before ++ after) = s.run before >>= fun next => next.run after := by
  induction before generalizing s with
  | nil => simp [run]
  | cons r before ih => simp [run, ih]

theorem run_singleton_eq_ok {s next : Session} (h : (s.run [r]).result = .ok next) :
    (s.step r).2.result = .ok () ∧ next = (s.step r).1 := by
  obtain ⟨_, hstep, hrun⟩ := Logged.result_bind_eq_ok_iff.1 h
  cases hrun
  exact ⟨hstep, rfl⟩

/-- A request changes the symbols by its definition alone. -/
theorem symbols_step (s : Session) (r : Request) : (s.step r).1.symbols = r.symbols s.symbols := by
  cases r <;> rfl

/-- Each request turns the collector by its effect. -/
theorem turns_step (hs : s.collector.Listed) (h : (s.step r).2.result = .ok ()) :
    s.collector.Turns s.symbols.bodySize r.effect (s.step r).1.collector := by
  cases r with
  | define d => exact .nothing s.collector
  | consume line index n => exact hs.turns_consume h
  | openRegion payload index => exact hs.turns_openRegion h
  | closeRegion index => exact hs.turns_closeRegion h
  | markLine srcline proper index => exact hs.turns_markLine h
  | finish => exact hs.turns_finish h

/-- What holds after requests that were all answered. -/
structure Reached (rs : List Request) (s : Session) : Prop where
  listed : s.collector.Listed
  state : s.collector.state = Request.state rs
  regions : s.collector.regions.map Region.asOpened = Request.openings .empty rs
  symbols : s.symbols = rs.foldl Request.symbols .empty
  bodied : s.collector.Bodied
  distinct : s.collector.Distinct

/-- A new session has served no request. -/
theorem reached_start : Reached [] start where
  listed := .idle []
  state := rfl
  regions := rfl
  symbols := rfl
  bodied := by simp [Collector.Bodied, start, Collector.empty]
  distinct := by simp [Collector.Distinct, start, Collector.empty]

/-- One more request. -/
theorem Reached.step (hs : Reached rs s) (h : (s.step r).2.result = .ok ()) :
    Reached (rs ++ [r]) (s.step r).1 := by
  have hturns := turns_step hs.listed h
  refine ⟨hturns.listed hs.listed, ?_, ?_, ?_, hturns.bodied hs.bodied, ?_⟩
  · rw [Request.state_concat, hturns.state_eq, hs.state]
  · rw [Request.openings_concat, hturns.asOpened_eq, hs.regions, hs.symbols]
  · rw [symbols_step, hs.symbols, List.foldl_append]
    rfl
  · exact hturns.distinct hs.distinct fun srcline index he => Request.proper_marking he

/-- A session is where its requests have led it. -/
theorem reached_run (h : (start.run rs).result = .ok s) : Reached rs s := by
  induction rs using List.reverseRecOn generalizing s with
  | nil =>
    cases h
    exact reached_start
  | append_singleton rs r ih =>
    rw [run_append] at h
    obtain ⟨before, hbefore, hlast⟩ := Logged.result_bind_eq_ok_iff.1 h
    obtain ⟨hstep, rfl⟩ := run_singleton_eq_ok hlast
    exact (ih hbefore).step hstep

/-- Whatever is asked afterwards, completed regions stay completed in their places. -/
theorem completed_grows_run {before after : List Request} {s₀ : Session}
    (hbefore : Reached before s₀) (h : (s₀.run after).result = .ok s) :
    s₀.collector.completed <+: s.collector.completed := by
  induction after generalizing before s₀ with
  | nil =>
    cases h
    exact List.prefix_rfl
  | cons r after ih =>
    obtain ⟨_, hstep, hrest⟩ := Logged.result_bind_eq_ok_iff.1 h
    exact (turns_step hbefore.listed hstep).completed_grows.trans (ih (hbefore.step hstep) hrest)

/-- What a collector holds after some requests, all of them answered. -/
structure Consistent (rs : List Request) (s : Session) : Prop where
  /-- The state follows from what the requests come to. -/
  state : s.collector.state = Request.state rs
  /-- There is a state just if there is a current region. -/
  none_iff : Request.state rs = .none ↔ s.collector.current? = none
  /-- A region that is open has no end. -/
  opened : Request.state rs = .opened → ∃ r, s.collector.current? = some r ∧ r.stop = none
  /-- A region that is closed has one. -/
  closed : Request.state rs = .closed → ∃ r, s.collector.current? = some r ∧ r.stop.isSome = true
  /-- The completed regions, and then the current one, are those that were opened, in that order. -/
  regions : (s.collector.records ++ s.collector.current?.toList).map Region.asOpened
    = Request.openings .empty rs
  /-- By their numbers, each of them is listed once. -/
  listed : s.collector.listed = List.range (Request.openings .empty rs).length
  /-- The global region is the one opened first, as soon as any is completed. -/
  global : s.collector.global?.map Region.asOpened
    = if s.collector.records = [] then none else (Request.openings .empty rs).head?
  /-- The region that was global at any time before still is. -/
  kept : ∀ before after, rs = before ++ after → ∃ s₀, (start.run before).result = .ok s₀
    ∧ ∀ number, s₀.collector.completed.head? = some number →
      s.collector.completed.head? = some number
      ∧ s₀.collector.global? = s₀.collector.regions[number]?
      ∧ s.collector.global? = s.collector.regions[number]?
  /-- No two marks of a region have equal lines. -/
  unrepeated : ∀ r ∈ s.collector.records ++ s.collector.current?.toList, r.Unrepeated
  /-- Regions behind the first one have no body. -/
  bodied : ∀ r ∈ (s.collector.records ++ s.collector.current?.toList).tail, r.body = none

/-- After any requests in any order, none of which failed, the collector is consistent with them. -/
theorem consistent_run (rs : List Request) (s : Session) (h : (start.run rs).result = .ok s) :
    Consistent rs s := by
  have hs := reached_run h
  have hregions := hs.listed.regions_eq
  refine ⟨hs.state, ?_, ?_, ?_, ?_, ?_, ?_, ?_, ?_, ?_⟩
  · rw [← hs.state]
    exact hs.listed.state_eq_none_iff
  · rw [← hs.state]
    exact hs.listed.state_eq_opened_iff.1
  · rw [← hs.state]
    exact hs.listed.state_eq_closed_iff.1
  · rw [hregions, hs.regions]
  · rw [hs.listed.listed_eq, ← hs.regions, List.length_map]
  · rw [hs.listed.global?_eq, ← hs.regions, List.head?_map]
    split
    · rfl
    · rfl
  · rintro before after rfl
    rw [run_append] at h
    obtain ⟨s₀, hbefore, hafter⟩ := Logged.result_bind_eq_ok_iff.1 h
    have hs₀ := reached_run hbefore
    obtain ⟨later, hlater⟩ := completed_grows_run hs₀ hafter
    refine ⟨s₀, hbefore, fun number hnumber => ?_⟩
    have hstill : s.collector.completed.head? = some number := by
      rw [← hlater, List.head?_append, hnumber, Option.some_or]
    refine ⟨hstill, ?_, ?_⟩
    · rw [hs₀.listed.global?_number, hnumber, Option.bind_some]
    · rw [hs.listed.global?_number, hstill, Option.bind_some]
  · rw [hregions]
    exact fun r hr => (hs.distinct r hr).1
  · rw [hregions]
    exact hs.bodied

end Runs

/-- Marks and ends without a region, two regions with a change of the preamble between them, marks
of one line written in two ways, two ends, and a third region after the records were completed. -/
def interleaved : List Request := [
  .markLine (.int 4) (.int 4) 0,
  .closeRegion 0,
  .define ⟨"BODY".toList, "1x".toList, 0, 0⟩,
  .consume ";#\x7b\"code\": \"init\"\x7d".toList 1 2,
  .consume ";#\x7b\"srcline\": 7\x7d".toList 1 3,
  .markLine (.bool true) (.bool true) 2,
  .markLine (.int 1) (.int 1) 3,
  .closeRegion 3,
  .define ⟨"BODY".toList, "2".toList, 0, 0⟩,
  .openRegion [("code".toList, .string "run".toList)] 3,
  .finish,
  .finish,
  .consume ";#\x7b\"code\"\x7d".toList 5 9,
  .openRegion [] 6,
  .closeRegion 7,
  .closeRegion 8]

theorem consistent_run_interleaved :
    ∃ s, (start.run interleaved).result = .ok s ∧ Consistent interleaved s
      ∧ s.collector.state = .closed
      ∧ (s.collector.records ++ s.collector.current?.toList).map (fun r => (r.code.shown, r.start))
        = [("init".toList, 0), ("run".toList, 1), ("None".toList, 4)] := by
  obtain ⟨s, hs⟩ := exists_of_isOk (x := (start.run interleaved).result) (by decide +kernel)
  have hconsistent := consistent_run interleaved s hs
  refine ⟨s, hs, hconsistent, hconsistent.state.trans (by decide +kernel), ?_⟩
  have hopenings : (Request.openings .empty interleaved).map (fun r => (r.code.shown, r.start))
      = [("init".toList, 0), ("run".toList, 1), ("None".toList, 4)] := by decide +kernel
  rw [← hconsistent.regions, List.map_map] at hopenings
  exact hopenings

end Session

end ContractAsm
