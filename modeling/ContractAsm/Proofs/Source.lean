-- SUMMARY: What a source says, each line in view of the lines in front of it.
import ContractAsm.Listing
import ContractAsm.Proofs.JsonEquality
import ContractAsm.Proofs.Scan
import Mathlib.Data.List.TakeWhile

/-!
# What a source says

The lines of a source are read one by one, each in view of the lines in front of it only: the
scopes in which its references are looked up, the number of statements, the size of the preamble.
From this, the statements, the symbols and the debug records of the whole source are put together.
Nothing is carried from line to line, and nothing fails: this is what a listing is held against.

A line whose references all have locations is rewritten, each reference to its location. Any other
line fails at the first reference without one.
-/

namespace ContractAsm

open Text

/-! ## References to variables -/

namespace Variable

variable [Platform]

def references (t : Text) : List (Nat × Text) :=
  (scan reference t).filterMap fun
    | .char _ => none
    | .found start name => some (start, name)

namespace Context

variable (c : Context)

def location? (name : Text) : Option Text :=
  (c.resolve? name).map (·.2)

/-- The location in the current scope counts; the global scope is asked only if there is none. -/
theorem location?_eq (name : Text) : c.location? name
    = (c.current.bind (·.location? name)).or (c.global.bind (·.location? name)) := by
  unfold location? resolve? scopes
  cases c.current with
  | none =>
    cases c.global with
    | none => rfl
    | some global => cases h : global.location? name <;> simp [h]
  | some current =>
    cases h : current.location? name with
    | some location => simp [h]
    | none =>
      cases c.global with
      | none => simp [h]
      | some global => cases hg : global.location? name <;> simp [h, hg]

def lacks (r : Nat × Text) : Bool :=
  (c.location? r.2).isNone

/-- A text with its references replaced. One without a location stays. -/
def replace (t : Text) : Text :=
  replaceAll reference (fun name => (c.location? name).getD (token name)) t

/-- The failure at a reference of a line. -/
def undefined (line : Text) (r : Nat × Text) : UndefinedVariable where
  token := token r.2
  location := some ⟨c.filename, c.lineNumber, r.1 + 1⟩
  sourceLine := some (String.ofList line)
  searched := c.scopes.map fun s => String.ofList s.label.quoted

end Context

/-- What resolving a line comes to. -/
theorem result_resolve (c : Context) (line : Text) : (resolve c line).result =
    match (references line).find? c.lacks with
    | none => .ok (c.replace line)
    | some r => .error (.undefinedVariable (c.undefined line r)) := by
  unfold resolve references Context.replace replaceAll
  induction scan reference line with
  | nil => rfl
  | cons p ps ih =>
    cases p with
    | char x =>
      rw [resolvePieces, Logged.result_bind, ih, List.filterMap_cons]
      cases List.find? _ _ with
      | none => rfl
      | some r => rfl
    | found start name =>
      rw [resolvePieces, List.filterMap_cons]
      cases hresolve : c.resolve? name with
      | none =>
        have hlacks : c.lacks (start, name) = true := by
          simp [Context.lacks, Context.location?, hresolve]
        simp only [List.find?_cons, hlacks]
        rfl
      | some found =>
        have hlacks : c.lacks (start, name) = false := by
          simp [Context.lacks, Context.location?, hresolve]
        have hlocation : c.location? name = some found.2 := by
          simp [Context.location?, hresolve]
        simp only [List.find?_cons, hlacks, Logged.result_bind, ih, List.flatMap_cons,
          Piece.replace, hlocation]
        cases List.find? _ _ with
        | none => rfl
        | some r => rfl

end Variable

/-! ## Directives -/

/-- The scope of the region that a directive opens. -/
def Directive.scope (d : Directive) : Scope where
  label := if d.tag.isNothing then .string [] else d.tag
  entries := d.declared

namespace Source

section

variable [Platform]

/-- The directive that a line holds. -/
def directive? (line : Text) : Option Directive :=
  if Directive.isDirective (trim line) then
    match Directive.decode (trim line) with
    | .ok (.ok d) => some d
    | _ => none
  else none

/-- What a line that is no directive holds without blanks and comment, if that is anything. Its
selectors are expanded. -/
def code? (line : Text) : Option Text :=
  if Directive.isDirective (trim line) then none
  else if Listing.stripComment (trim line) = [] then none
  else some (Literal.expandSelectors (Listing.stripComment (trim line)))

omit [Platform] in
/-- What a line holds besides a comment has its selectors expanded. -/
theorem code?_eq_some {line t : Text} (h : code? line = some t) :
    Directive.isDirective (trim line) = false ∧ Listing.stripComment (trim line) ≠ []
      ∧ t = Literal.expandSelectors (Listing.stripComment (trim line)) := by
  unfold code? at h
  split at h
  · cases h
  · next hdirective =>
    split at h
    · cases h
    · next hne =>
      cases h
      exact ⟨Bool.eq_false_iff.2 hdirective, hne, rfl⟩

/-! ## Scopes -/

/-- The directives that open a region. -/
def openings (ls : List Text) : List Directive :=
  (ls.filterMap directive?).filter (·.kind == .opening)

/-- The scope behind some lines: that of the region opened last. -/
def currentScope (ls : List Text) : Option Scope :=
  (openings ls).getLast?.map (·.scope)

/-- The scope of the region opened first, once a second one is opened. -/
def globalScope (ls : List Text) : Option Scope :=
  if 2 ≤ (openings ls).length then (openings ls).head?.map (·.scope) else none

/-! ## Lines in their place -/

/-- A line of a source, together with the lines in front of it. -/
structure Place where
  before : List Text
  line : Text

/-- The places of some lines behind others. -/
def placesFrom (before : List Text) : List Text → List Place
  | [] => []
  | line :: rest => ⟨before, line⟩ :: placesFrom (before ++ [line]) rest

def places (ls : List Text) : List Place :=
  placesFrom [] ls

namespace Place

def number (x : Place) : Nat :=
  x.before.length + 1

def location? (x : Place) (name : Text) : Option Text :=
  ((currentScope x.before).bind (·.location? name)).or
    ((globalScope x.before).bind (·.location? name))

def references (x : Place) : List (Nat × Text) :=
  ((code? x.line).map Variable.references).getD []

/-- The first reference of the line that has no location. -/
def unresolved? (x : Place) : Option (Nat × Text) :=
  x.references.find? fun r => (x.location? r.2).isNone

/-- The text of the line, with its references replaced. One without a location stays. -/
def text? (x : Place) : Option Text :=
  (code? x.line).map (replaceAll Variable.reference fun name =>
    (x.location? name).getD (Variable.token name))

def operands? (x : Place) : Option Text :=
  x.text?.bind defineOperands?

/-- The statement on the line, unless it is a definition. -/
def statement? (x : Place) : Option Text :=
  x.text?.filter fun t => (defineOperands? t).isNone

end Place

/-! ## Statements and symbols -/

/-- The statements of some lines, with the numbers of their lines. -/
def statementLines (ls : List Text) : List (Nat × Text) :=
  (places ls).filterMap fun x => x.statement?.map (x.number, ·)

/-- The statements of some lines, numbered in order. -/
def statements (ls : List Text) : List Statement :=
  (statementLines ls).zipIdx.map fun s => ⟨s.1.2, s.2, s.1.1⟩

/-- The number of statements in front of a line. -/
def Place.index (x : Place) : Nat :=
  (statementLines x.before).length

def Place.definition? (x : Place) : Option Definition :=
  x.operands?.bind fun operands =>
    match SymbolTable.definition? operands x.index x.number with
    | .ok d => d
    | .error _ => none

def definitions (ls : List Text) : List Definition :=
  (places ls).filterMap Place.definition?

def symbols (ls : List Text) : SymbolTable :=
  (definitions ls).foldl .insert .empty

/-- The integer that a text starts with, or 0. -/
def leadingInteger (t : Text) : Int :=
  match Numeral.readLeading t with
  | .ok (some n) => n
  | _ => 0

/-- The size of the preamble: the integer that the last definition of `BODY` starts with, if there
is one, else 0. -/
def bodySize (ls : List Text) : Int :=
  match (definitions ls).reverse.find? (·.name == "BODY".toList) with
  | none => 0
  | some d => leadingInteger d.location

/-! ## Debug records -/

/-- A directive that asks for something, and its offset from the body of the program. -/
structure Event where
  directive : Directive
  offset : Int

namespace Event

def opens (e : Event) : Bool :=
  e.directive.kind == .opening

def closes (e : Event) : Bool :=
  e.directive.kind == .closing

def marks (e : Event) : Bool :=
  e.directive.kind == .sourceLine

end Event

/-- The event on a line. A directive that asks for nothing is none. -/
def Place.event? (x : Place) : Option Event :=
  ((directive? x.line).filter (·.kind != .unknown)).map (⟨·, x.index - bodySize x.before⟩)

def events (ls : List Text) : List Event :=
  (places ls).filterMap Place.event?

/-- An event that opens a region, and the events behind it up to the next such one. -/
structure Chapter where
  opening : Event
  rest : List Event

/-- The chapters of some events. Those in front of the first opening one belong to none. -/
def chapters : List Event → List Chapter
  | [] => []
  | e :: es => if e.opens then ⟨e, es.takeWhile (!·.opens)⟩ :: chapters es else chapters es

/-- Keeps of some marks those whose line is marked by none in front of them. -/
def firstMarksFrom (before : List (Int × Json)) : List (Int × Json) → List (Int × Json)
  | [] => []
  | m :: ms =>
    if before.any (fun earlier => Json.same earlier.2 m.2) then firstMarksFrom (before ++ [m]) ms
    else m :: firstMarksFrom (before ++ [m]) ms

/-- The marks with a line of their own. -/
def firstMarks (ms : List (Int × Json)) : List (Int × Json) :=
  firstMarksFrom [] ms

def Chapter.marks (c : Chapter) : List (Int × Json) :=
  (c.rest.filter Event.marks).map fun e => (e.offset, e.directive.markedLine)

/-- The region of a chapter. It ends at the last event that closes it. -/
def Chapter.region (c : Chapter) : Region where
  code := c.opening.directive.tag
  start := c.opening.offset
  stop := (c.rest.filter Event.closes).getLast?.map (·.offset)
  marks := firstMarks c.marks
  body := none
  declared := c.opening.directive.declared

def regions (ls : List Text) : List Region :=
  (chapters (events ls)).map Chapter.region

/-- The debug records of a source: its regions, of which the first one ends where the last one does
and has the size of the preamble. -/
def records (ls : List Text) : List Region :=
  match regions ls with
  | [] => []
  | first :: rest =>
    { first with
      stop := ((first :: rest).getLast (List.cons_ne_nil first rest)).stop
      body := some (bodySize ls) } :: rest

/-! ## One more line -/

omit [Platform] in
/-- Places are taken from the front to the end. -/
theorem placesFrom_append (before xs ys : List Text) :
    placesFrom before (xs ++ ys) = placesFrom before xs ++ placesFrom (before ++ xs) ys := by
  induction xs generalizing before with
  | nil => simp [placesFrom]
  | cons x xs ih => simp [placesFrom, ih]

omit [Platform] in
/-- A place is a line with all that is in front of it. -/
theorem mem_placesFrom_iff {before ls : List Text} {x : Place} : x ∈ placesFrom before ls
    ↔ ∃ front rest, ls = front ++ x.line :: rest ∧ x.before = before ++ front := by
  induction ls generalizing before with
  | nil => simp [placesFrom]
  | cons line ls ih =>
    rw [placesFrom, List.mem_cons, ih]
    constructor
    · rintro (rfl | ⟨front, rest, rfl, hbefore⟩)
      · exact ⟨[], ls, rfl, by simp⟩
      · exact ⟨line :: front, rest, rfl, by simp [hbefore]⟩
    · rintro ⟨front, rest, hls, hbefore⟩
      cases front with
      | nil =>
        obtain ⟨rfl, -⟩ := List.cons.inj hls
        left
        cases x
        simp_all
      | cons first front =>
        obtain ⟨rfl, rfl⟩ := List.cons.inj hls
        exact .inr ⟨front, rest, rfl, by simp [hbefore]⟩

omit [Platform] in
theorem places_concat (ls : List Text) (line : Text) :
    places (ls ++ [line]) = places ls ++ [⟨ls, line⟩] := by
  simp [places, placesFrom_append, placesFrom]

variable (ls : List Text) (line : Text)

omit [Platform] in
theorem filterMap_places_concat {β : Type} (f : Place → Option β) :
    (places (ls ++ [line])).filterMap f = (places ls).filterMap f ++ (f ⟨ls, line⟩).toList := by
  rw [places_concat, List.filterMap_append]
  cases h : f ⟨ls, line⟩ with
  | none => simp [h]
  | some b => simp [h]

theorem openings_concat : openings (ls ++ [line])
    = openings ls ++ ((directive? line).filter (·.kind == .opening)).toList := by
  unfold openings
  rw [List.filterMap_append, List.filter_append]
  cases h : directive? line with
  | none => simp [h]
  | some d =>
    by_cases hd : d.kind = .opening
    · simp [h, hd, Option.filter]
    · simp [h, hd]

theorem statementLines_concat : statementLines (ls ++ [line])
    = statementLines ls ++ ((Place.mk ls line).statement?.map (ls.length + 1, ·)).toList :=
  filterMap_places_concat ls line _

/-- A line adds its statement at the end, if it has one. -/
theorem statements_concat : statements (ls ++ [line]) = statements ls
    ++ ((Place.mk ls line).statement?.map
      (⟨·, (Place.mk ls line).index, ls.length + 1⟩)).toList := by
  unfold statements
  rw [statementLines_concat, List.zipIdx_append, List.map_append]
  cases (Place.mk ls line).statement? with
  | none => rfl
  | some t => simp [Place.index]

theorem length_statements : (statements ls).length = (statementLines ls).length := by
  simp [statements]

/-- The texts of the statements are those that the lines hold. -/
theorem map_text_statements :
    (statements ls).map (·.text) = (places ls).filterMap Place.statement? := by
  have htexts : (statements ls).map (·.text) = (statementLines ls).map (·.2) := by
    have hfst := congrArg (List.map Prod.snd) (List.zipIdx_map_fst 0 (statementLines ls))
    rw [List.map_map] at hfst
    rw [statements, List.map_map]
    exact hfst
  rw [htexts, statementLines, List.map_filterMap]
  simp

theorem text?_of_statement? {x : Place} {t : Text} (h : x.statement? = some t) :
    x.text? = some t :=
  (Option.filter_eq_some_iff.1 h).1

theorem definitions_concat :
    definitions (ls ++ [line]) = definitions ls ++ (Place.mk ls line).definition?.toList :=
  filterMap_places_concat ls line _

/-- A line adds its definition to the symbols, if it makes one. -/
theorem symbols_concat : symbols (ls ++ [line])
    = (Place.mk ls line).definition?.toList.foldl .insert (symbols ls) := by
  rw [symbols, definitions_concat, List.foldl_append, symbols]

theorem events_concat : events (ls ++ [line]) = events ls ++ (Place.mk ls line).event?.toList :=
  filterMap_places_concat ls line _

end

/-! ## One more event -/

variable {e : Event} {es : List Event}

/-- There is no chapter just if nothing opens a region. -/
theorem chapters_eq_nil_iff : chapters es = [] ↔ ∀ e ∈ es, e.opens = false := by
  induction es with
  | nil => simp [chapters]
  | cons a es ih => cases ha : a.opens <;> simp [chapters, ha, ih]

/-- Behind an opening event, the events in front of it stay as they are. -/
theorem takeWhile_not_opens_concat (h : e.opens = true ∨ chapters es ≠ []) :
    (es ++ [e]).takeWhile (!·.opens) = es.takeWhile (!·.opens) := by
  induction es with
  | nil => simpa [chapters] using h
  | cons a es ih =>
    cases ha : a.opens with
    | true => simp [ha]
    | false => simpa [ha] using ih (by simpa [chapters, ha] using h)

/-- An event that opens a region starts a chapter. -/
theorem chapters_concat_opening (he : e.opens = true) :
    chapters (es ++ [e]) = chapters es ++ [⟨e, []⟩] := by
  induction es with
  | nil => simp [chapters, he]
  | cons a es ih =>
    cases ha : a.opens <;> simp [chapters, ha, ih, takeWhile_not_opens_concat (.inl he)]

/-- Without a region nothing but an opening counts. -/
theorem chapters_concat_of_nil (he : e.opens = false) (h : chapters es = []) :
    chapters (es ++ [e]) = [] := by
  rw [chapters_eq_nil_iff] at h ⊢
  intro a ha
  rcases List.mem_append.1 ha with ha | ha
  · exact h a ha
  · rw [List.mem_singleton.1 ha, he]

/-- Any other event belongs to the last chapter. -/
theorem chapters_concat_of_concat (he : e.opens = false) {front : List Chapter} {c : Chapter}
    (h : chapters es = front ++ [c]) :
    chapters (es ++ [e]) = front ++ [⟨c.opening, c.rest ++ [e]⟩] := by
  induction es generalizing front with
  | nil => simp [chapters] at h
  | cons a es ih =>
    cases ha : a.opens with
    | false => simpa [chapters, ha] using ih (by simpa [chapters, ha] using h)
    | true =>
      rw [chapters, if_pos ha] at h
      rw [List.cons_append, chapters, if_pos ha]
      cases front with
      | nil =>
        -- the first chapter is the last one, so nothing behind it opens another
        obtain ⟨rfl, hnil⟩ := List.cons.inj h
        have hnone := chapters_eq_nil_iff.1 hnil
        have htake : es.takeWhile (!·.opens) = es :=
          List.takeWhile_eq_self_iff.2 fun e he => by simp [hnone e he]
        have htake' : (es ++ [e]).takeWhile (!·.opens) = es ++ [e] := by
          rw [List.takeWhile_append_of_pos fun e he => by simp [hnone e he]]
          simp [he]
        simp [htake, htake', chapters_concat_of_nil he hnil]
      | cons first front =>
        obtain ⟨rfl, hrest⟩ := List.cons.inj h
        rw [takeWhile_not_opens_concat (.inr (by simp [hrest])), ih hrest, List.cons_append]

/-! ## One more event in a chapter -/

variable (c : Chapter)

/-- A closing event sets the end of the region, over any earlier one. -/
theorem Chapter.region_concat_closing (he : e.directive.kind = .closing) :
    Chapter.region ⟨c.opening, c.rest ++ [e]⟩ = { c.region with stop := some e.offset } := by
  have hcloses : e.closes = true := by simp [Event.closes, he]
  have hmarks : e.marks = false := by simp [Event.marks, he]
  simp [Chapter.region, Chapter.marks, hcloses, hmarks]

/-- A mark counts unless its line is marked already. -/
theorem firstMarksFrom_concat (before ms : List (Int × Json)) (m : Int × Json) :
    firstMarksFrom before (ms ++ [m]) = firstMarksFrom before ms
      ++ if (before ++ ms).any (fun earlier => Json.same earlier.2 m.2) then [] else [m] := by
  induction ms generalizing before with
  | nil =>
    rw [List.append_nil]
    rfl
  | cons a ms ih =>
    have hnext := ih (before ++ [a])
    rw [List.append_assoc, List.singleton_append] at hnext
    rw [List.cons_append, firstMarksFrom, firstMarksFrom, hnext]
    split
    · rfl
    · rfl

/-- A line that is marked at all is marked by a mark that is kept. -/
theorem any_firstMarksFrom (before ms : List (Int × Json)) (line : Json) :
    (before ++ firstMarksFrom before ms).any (fun m => Json.same m.2 line)
      = (before ++ ms).any fun m => Json.same m.2 line := by
  induction ms generalizing before with
  | nil => rfl
  | cons a ms ih =>
    have ih := ih (before ++ [a])
    rw [firstMarksFrom]
    split
    · next hmarked =>
      -- the mark left out has the line of an earlier one, and equality goes on to `line`
      obtain ⟨m, hm, hsame⟩ := List.any_eq_true.1 hmarked
      have hskip : before.any (fun m => Json.same m.2 line)
          = (before ++ [a]).any fun m => Json.same m.2 line := by
        rw [List.any_append, List.any_cons, List.any_nil, Bool.or_false]
        cases ha : Json.same a.2 line with
        | false => rw [Bool.or_false]
        | true => rw [Bool.or_true, List.any_eq_true.2 ⟨m, hm, Json.same_trans hsame ha⟩]
      rw [List.any_append, hskip, ← List.any_append, ih]
      simp
    · simpa using ih

theorem Chapter.marks_concat (he : e.directive.kind = .sourceLine) :
    Chapter.marks ⟨c.opening, c.rest ++ [e]⟩
      = c.marks ++ [(e.offset, e.directive.markedLine)] := by
  simp [Chapter.marks, Event.marks, he]

/-- A line is marked in the region just if some event marks it. -/
theorem Chapter.hasMark_region (line : Json) :
    c.region.hasMark line = c.marks.any fun m => Json.same m.2 line :=
  any_firstMarksFrom [] c.marks line

/-- Another mark of a line changes nothing. -/
theorem Chapter.region_concat_marked (he : e.directive.kind = .sourceLine)
    (hmark : c.region.hasMark e.directive.markedLine = true) :
    Chapter.region ⟨c.opening, c.rest ++ [e]⟩ = c.region := by
  have hcloses : e.closes = false := by simp [Event.closes, he]
  rw [c.hasMark_region] at hmark
  simp [Chapter.region, c.marks_concat he, firstMarks, firstMarksFrom_concat, hmark, hcloses]

/-- The first mark of a line is added to the region. -/
theorem Chapter.region_concat_unmarked (he : e.directive.kind = .sourceLine)
    (hmark : c.region.hasMark e.directive.markedLine = false) :
    Chapter.region ⟨c.opening, c.rest ++ [e]⟩
      = { c.region with marks := c.region.marks ++ [(e.offset, e.directive.markedLine)] } := by
  have hcloses : e.closes = false := by simp [Event.closes, he]
  rw [c.hasMark_region] at hmark
  simp [Chapter.region, c.marks_concat he, firstMarks, firstMarksFrom_concat, hmark, hcloses]

end Source

end ContractAsm
