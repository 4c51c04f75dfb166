-- SUMMARY: Substitution of symbols word by word, in any order.
import ContractAsm.Proofs.SymbolTable
import ContractAsm.Proofs.Word

/-!
# Substitution of symbols

A definition whose name is a word replaces that word and nothing else. Where no location holds a
defined name, the table replaces every word by what it finds for it, whatever the order of the
definitions. A word that may lead from one name to the next is followed through the table instead.
-/

namespace ContractAsm

open Text

namespace Definition

/-- A name is recognised where it stands as a word of its own. -/
theorem recognise_eq_wordRule {name : Text} (hn : IsWord name) :
    recognise name = wordRule name := by
  have hhead : name.head?.any isWordChar = true := by
    cases name with
    | nil => exact absurd rfl hn.1
    | cons c name => simpa using hn.2 c (List.mem_cons_self ..)
  have hlast : name.getLast?.any isWordChar = true := by
    rw [List.getLast?_eq_some_getLast hn.1, Option.any_some]
    exact hn.2 _ (List.getLast_mem hn.1)
  -- a boundary at an end of the name is a break on its other side
  funext before t
  unfold recognise wordRule
  cases name.isPrefixOf? t with
  | none => rfl
  | some rest =>
    simp only [isBoundary, hhead, hlast]
    cases before.any isWordChar with
    | true => rfl
    | false =>
      cases rest.head?.any isWordChar with
      | true => rfl
      | false => rfl

/-- One definition replaces its name among the words of a line. -/
theorem substitute_eq_mapWords {d : Definition} (hn : IsWord d.name) (line : Text) :
    d.substitute line = mapWords (fun w => if w = d.name then d.location else w) line := by
  rw [substitute, if_neg hn.1, recognise_eq_wordRule hn, replaceAll_wordRule hn]

end Definition

namespace SymbolTable

/-! ## Replacing every word by its location -/

/-- What the table has for a word: its location, or the word itself if it is not defined. -/
def replacement (table : SymbolTable) (w : Text) : Text :=
  (table.get? w).getD w

theorem replacement_of_get? {table : SymbolTable} {w location : Text}
    (h : table.get? w = some location) : table.replacement w = location := by
  rw [replacement, h, Option.getD_some]

/-- An undefined word stands for itself. -/
theorem replacement_of_undefined {table : SymbolTable} {w : Text} (h : table.get? w = none) :
    table.replacement w = w := by
  rw [replacement, h, Option.getD_none]

/-- The substitutions of some definitions, one after the other. -/
def substituteEach (ds : List Definition) (line : Text) : Text :=
  ds.foldl (fun line d => d.substitute line) line

theorem substituteEach_cons (d : Definition) (ds : List Definition) (line : Text) :
    substituteEach (d :: ds) line = substituteEach ds (d.substitute line) := rfl

/-- Definitions are substituted word by word: what one of them puts in stays between the breaks at
which the next one finds it. -/
theorem substituteEach_eq_mapWords {ds : List Definition} (hnames : ∀ d ∈ ds, IsWord d.name)
    (line : Text) : substituteEach ds line = mapWords (substituteEach ds) line := by
  induction ds generalizing line with
  | nil => exact (mapWords_id line).symm
  | cons d ds ih =>
    have hd := hnames d (List.mem_cons_self ..)
    have ih := ih fun e he => hnames e (List.mem_cons_of_mem d he)
    rw [substituteEach_cons, Definition.substitute_eq_mapWords hd, ih, mapWords_mapWords]
    apply mapWords_congr
    intro w hw
    rw [substituteEach_cons, Definition.substitute_eq_mapWords hd, (mem_words hw).1.mapWords_eq,
      ← ih]

/-- Where no name is a word of the text, nothing is replaced. -/
theorem substituteEach_eq_self {ds : List Definition} (hnames : ∀ d ∈ ds, IsWord d.name) {t : Text}
    (h : ∀ d ∈ ds, d.name ∉ words t) : substituteEach ds t = t := by
  induction ds with
  | nil => rfl
  | cons d ds ih =>
    have hstay : d.substitute t = t := by
      rw [Definition.substitute_eq_mapWords (hnames d (List.mem_cons_self ..))]
      apply mapWords_eq_self
      intro w hw
      rw [if_neg]
      rintro rfl
      exact h d (List.mem_cons_self ..) hw
    rw [substituteEach_cons, hstay]
    exact ih (fun e he => hnames e (List.mem_cons_of_mem d he))
      fun e he => h e (List.mem_cons_of_mem d he)

/-- A word becomes the location of the first definition with its name, provided that this location
holds no name. -/
theorem substituteEach_word {ds : List Definition} (hnames : ∀ d ∈ ds, IsWord d.name) {w : Text}
    (hw : IsWord w)
    (hfresh : ∀ d, ds.find? (·.name == w) = some d → ∀ e ∈ ds, e.name ∉ words d.location) :
    substituteEach ds w = ((ds.find? (·.name == w)).map (·.location)).getD w := by
  induction ds with
  | nil => rfl
  | cons d ds ih =>
    have hnames' : ∀ e ∈ ds, IsWord e.name := fun e he => hnames e (List.mem_cons_of_mem d he)
    rw [substituteEach_cons, Definition.substitute_eq_mapWords (hnames d (List.mem_cons_self ..)),
      hw.mapWords_eq]
    by_cases hd : w = d.name
    · have hfind : (d :: ds).find? (·.name == w) = some d := by simp [hd]
      rw [if_pos hd, hfind, Option.map_some, Option.getD_some]
      exact substituteEach_eq_self hnames'
        fun e he => hfresh d hfind e (List.mem_cons_of_mem d he)
    · have hfind : (d :: ds).find? (·.name == w) = ds.find? (·.name == w) := by
        simp [Ne.symm hd]
      rw [hfind] at hfresh ⊢
      rw [if_neg hd]
      exact ih hnames' fun e he e' he' => hfresh e he e' (List.mem_cons_of_mem d he')

/-- No location holds a defined name. -/
def Resolved (table : SymbolTable) : Prop :=
  ∀ name location, table.get? name = some location → ∀ w ∈ words location, table.get? w = none

instance (table : SymbolTable) : Decidable table.Resolved :=
  decidable_of_iff (∀ d ∈ table.definitions, table.get? d.name = some d.location →
      ∀ w ∈ words d.location, table.get? w = none) <| by
    constructor
    · intro h name location hget
      obtain ⟨d, hd, rfl, rfl⟩ := exists_of_get? hget
      exact h d hd hget
    · intro h d _
      exact h d.name d.location

section Words

variable {table : SymbolTable} (hnames : ∀ d ∈ table.definitions, IsWord d.name)

include hnames

/-- A line is substituted word by word, whatever the locations bring in. -/
theorem substitute_eq_mapWords_substitute (line : Text) :
    table.substitute line = mapWords table.substitute line :=
  substituteEach_eq_mapWords (fun d hd => hnames d (mem_byLength.1 hd)) line

/-- If no location holds a defined name, a word is replaced by what the table has for it. -/
theorem substitute_word (hresolved : table.Resolved) {w : Text} (hw : IsWord w) :
    table.substitute w = table.replacement w := by
  have hfind : table.byLength.find? (·.name == w) = table.find? w := find?_byLength table w
  have hword : table.substitute w = _ :=
    substituteEach_word (fun d hd => hnames d (mem_byLength.1 hd)) hw (by
      intro d hd e he hmem
      have hget : table.get? w = some d.location := by rw [get?, ← hfind, hd, Option.map_some]
      exact get?_eq_none_iff.1 (hresolved w d.location hget _ hmem) e (mem_byLength.1 he) rfl)
  rw [hword, hfind, replacement, get?]

theorem substitute_eq_mapWords (hresolved : table.Resolved) (line : Text) :
    table.substitute line = mapWords table.replacement line := by
  rw [substitute_eq_mapWords_substitute hnames]
  exact mapWords_congr fun w hw => substitute_word hnames hresolved (mem_words hw).1

/-- Tables that have the same locations for all names substitute in the same way. -/
theorem substitute_congr (hresolved : table.Resolved) {table' : SymbolTable}
    (hget : ∀ name, table'.get? name = table.get? name) (line : Text) :
    table'.substitute line = table.substitute line := by
  have hnames' : ∀ d ∈ table'.definitions, IsWord d.name := by
    intro d hd
    cases hsome : table.get? d.name with
    | none => exact absurd rfl (get?_eq_none_iff.1 ((hget d.name).trans hsome) d hd)
    | some location =>
      obtain ⟨e, he, hname, -⟩ := exists_of_get? hsome
      exact hname ▸ hnames e he
  have hresolved' : table'.Resolved := by
    intro name location hlocation w hw
    rw [hget] at hlocation ⊢
    exact hresolved name location hlocation w hw
  rw [substitute_eq_mapWords hnames' hresolved', substitute_eq_mapWords hnames hresolved]
  apply mapWords_congr
  intro w _
  rw [replacement, replacement, hget]

/-- What has been put in is not replaced again. -/
theorem substitute_substitute (hresolved : table.Resolved) (line : Text) :
    table.substitute (table.substitute line) = table.substitute line := by
  rw [substitute_eq_mapWords hnames hresolved, substitute_eq_mapWords hnames hresolved,
    mapWords_mapWords]
  apply mapWords_congr
  intro w hw
  cases hget : table.get? w with
  | none => rw [replacement_of_undefined hget, (mem_words hw).1.mapWords_eq,
      replacement_of_undefined hget]
  | some location =>
    rw [replacement_of_get? hget]
    apply mapWords_eq_self
    intro v hv
    exact replacement_of_undefined (hresolved w location hget v hv)

end Words

/-- Substituting rewrites each word of a line by itself and copies all else. If no location holds a
defined name, a word gives way to its location, so it does not matter in which order the names were
defined, and substituting twice is the same as once. -/
theorem substitute_wordwise (table : SymbolTable)
    (hnames : ∀ d ∈ table.definitions, IsWord d.name) (line : Text) :
    table.substitute line = mapWords table.substitute line
    ∧ (table.Resolved →
      (∀ w, IsWord w → table.substitute w = (table.get? w).getD w)
      ∧ (∀ table' : SymbolTable, (∀ name, table'.get? name = table.get? name) →
        table'.substitute line = table.substitute line)
      ∧ table.substitute (table.substitute line) = table.substitute line) := by
  refine ⟨substitute_eq_mapWords_substitute hnames line, fun hresolved => ⟨?_, ?_, ?_⟩⟩
  · exact fun w hw => substitute_word hnames hresolved hw
  · exact fun table' hget => substitute_congr hnames hresolved hget line
  · exact substitute_substitute hnames hresolved line

/-- Names that start one another, one of them without a location. -/
def overlapping : SymbolTable := ⟨[
  ⟨"BODY".toList, "4".toList, 0, 1⟩, ⟨"BODY2".toList, "x.BODY3".toList, 0, 2⟩,
  ⟨"B".toList, [], 0, 3⟩, ⟨"loop".toList, "12 + n".toList, 0, 4⟩]⟩

theorem substitute_wordwise_overlapping :
    (∀ d ∈ overlapping.definitions, IsWord d.name) ∧ overlapping.Resolved
      ∧ mapWords overlapping.substitute "BODY2,BODY,BODY21 .loop é B-loop_".toList
        = "x.BODY3,4,BODY21 .12 + n é -loop_".toList
      ∧ (⟨overlapping.definitions.reverse⟩ : SymbolTable).substitute
          "BODY2,BODY,BODY21 .loop é B-loop_".toList
        = "x.BODY3,4,BODY21 .12 + n é -loop_".toList
      ∧ overlapping.substitute "x.BODY3,4,BODY21 .12 + n é -loop_".toList
        = "x.BODY3,4,BODY21 .12 + n é -loop_".toList := by
  have hnames : ∀ d ∈ overlapping.definitions, IsWord d.name := by decide
  have hresolved : overlapping.Resolved := by decide
  have hget : ∀ name, (⟨overlapping.definitions.reverse⟩ : SymbolTable).get? name
      = overlapping.get? name := by
    intro name
    simp only [overlapping, get?, find?, List.reverse_cons, List.reverse_nil, List.nil_append,
      List.cons_append, List.find?_cons, List.find?_nil]
    grind
  have hline : overlapping.substitute "BODY2,BODY,BODY21 .loop é B-loop_".toList
      = "x.BODY3,4,BODY21 .12 + n é -loop_".toList := by decide +kernel
  obtain ⟨hwords, hrest⟩ := substitute_wordwise overlapping hnames
    "BODY2,BODY,BODY21 .loop é B-loop_".toList
  obtain ⟨-, horder, htwice⟩ := hrest hresolved
  rw [hline] at hwords htwice
  exact ⟨hnames, hresolved, hwords.symm, (horder _ hget).trans hline, htwice⟩

/-! ## Tables of numbers -/

/-- A word that does not start with a digit. -/
def IsIdentifier (name : Text) : Prop :=
  IsWord name ∧ name.head?.any Char.isDigit = false

instance (name : Text) : Decidable (IsIdentifier name) :=
  inferInstanceAs (Decidable (_ ∧ _))

/-- A table that takes identifiers to rows of digits. -/
structure Numeric (table : SymbolTable) : Prop where
  identifier : ∀ d ∈ table.definitions, IsIdentifier d.name
  digits : ∀ d ∈ table.definitions, ∀ c ∈ d.location, c.isDigit = true

variable {table : SymbolTable}

theorem Numeric.substitute_eq (h : table.Numeric) (line : Text) :
    table.substitute line = mapWords table.replacement line := by
  apply substitute_eq_mapWords
  · intro d hd
    exact (h.identifier d hd).1
  · -- a word of a location starts with a digit, and no identifier does
    intro name location hget w hw
    obtain ⟨d, hd, -, rfl⟩ := exists_of_get? hget
    rw [get?_eq_none_iff]
    rintro e he rfl
    have hname := h.identifier e he
    obtain ⟨c, cs, hcons⟩ := List.exists_cons_of_ne_nil hname.1.1
    have hc : c ∈ d.location := (mem_words hw).2 c (by simp [hcons])
    have hfirst := hname.2
    rw [hcons] at hfirst
    simp [h.digits d hd c hc] at hfirst

/-- A definition by digits keeps the table numeric. -/
theorem Numeric.insert (h : table.Numeric) {d : Definition} (hname : IsIdentifier d.name)
    (hlocation : ∀ c ∈ d.location, c.isDigit = true) : (table.insert d).Numeric := by
  refine ⟨?_, ?_⟩
  · intro e he
    rcases eq_or_mem_of_mem_insert he with rfl | he
    · exact hname
    · exact h.identifier e he
  · intro e he
    rcases eq_or_mem_of_mem_insert he with rfl | he
    · exact hlocation
    · exact h.digits e he

theorem Numeric.isDigit_of_get? (h : table.Numeric) {name location : Text}
    (hget : table.get? name = some location) : ∀ c ∈ location, c.isDigit = true := by
  obtain ⟨d, hd, -, rfl⟩ := exists_of_get? hget
  exact h.digits d hd

theorem Numeric.isIdentifier_of_get? (h : table.Numeric) {name location : Text}
    (hget : table.get? name = some location) : IsIdentifier name := by
  obtain ⟨d, hd, rfl, -⟩ := exists_of_get? hget
  exact h.identifier d hd

/-- Such a table takes rows of word characters to rows of word characters. -/
theorem Numeric.isRow_replacement (h : table.Numeric) {w : Text} (hw : IsRow w) :
    IsRow (table.replacement w) := by
  cases hget : table.get? w with
  | none => rwa [replacement_of_undefined hget]
  | some location =>
    rw [replacement_of_get? hget]
    exact fun c hc => isWordChar_of_isDigit (h.isDigit_of_get? hget c hc)

/-! ## Following one word -/

/-- Where definitions lead a whole text: each takes its name to its location, one after the
other. -/
def followEach (ds : List Definition) (w : Text) : Text :=
  ds.foldl (fun w d => if w = d.name then d.location else w) w

/-- Where the table leads a whole text, longer names first. -/
def follow (table : SymbolTable) (w : Text) : Text :=
  followEach table.byLength w

theorem followEach_cons (d : Definition) (ds : List Definition) (w : Text) :
    followEach (d :: ds) w = followEach ds (if w = d.name then d.location else w) := rfl

/-- A word that none of the definitions names is kept. -/
theorem followEach_eq_self {ds : List Definition} {w : Text} (h : ∀ d ∈ ds, d.name ≠ w) :
    followEach ds w = w := by
  induction ds with
  | nil => rfl
  | cons d ds ih =>
    rw [followEach_cons, if_neg (h d (List.mem_cons_self ..)).symm]
    exact ih fun e he => h e (List.mem_cons_of_mem d he)

theorem follow_of_undefined {table : SymbolTable} {w : Text} (h : table.get? w = none) :
    table.follow w = w := by
  apply followEach_eq_self
  intro d hd
  exact get?_eq_none_iff.1 h d (mem_byLength.1 hd)

/-- Definitions substituted one after the other give a word just where following them leads to it:
a location that is no word cannot become one again. -/
theorem substituteEach_eq_word_iff {ds : List Definition} (hnames : ∀ d ∈ ds, IsWord d.name)
    {v : Text} (hv : IsWord v) (t : Text) :
    substituteEach ds t = v ↔ followEach ds t = v := by
  induction ds generalizing t with
  | nil => exact Iff.rfl
  | cons d ds ih =>
    have hd := hnames d (List.mem_cons_self ..)
    have hds : ∀ e ∈ ds, IsWord e.name := fun e he => hnames e (List.mem_cons_of_mem d he)
    rw [substituteEach_cons, ih hds, followEach_cons, Definition.substitute_eq_mapWords hd]
    -- a word is followed as it is; what is no word has no name in the table
    by_cases ht : IsWord t
    · rw [ht.mapWords_eq]
    · have hstay : ∀ x, ¬IsWord x → followEach ds x ≠ v := by
        intro x hx
        have hne : ∀ e ∈ ds, e.name ≠ x := by
          rintro e he rfl
          exact hx (hds e he)
        rw [followEach_eq_self hne]
        rintro rfl
        exact hx hv
      have htd : t ≠ d.name := by
        rintro rfl
        exact ht hd
      rw [if_neg htd]
      exact iff_of_false (hstay _ fun h => ht (isWord_of_isWord_mapWords h)) (hstay t ht)

/-- A text is taken to a word just if the definitions lead to it one after the other. -/
theorem substitute_eq_word_iff {table : SymbolTable}
    (hnames : ∀ d ∈ table.definitions, IsWord d.name) {v : Text} (hv : IsWord v) (t : Text) :
    table.substitute t = v ↔ table.follow t = v :=
  substituteEach_eq_word_iff (fun d hd => hnames d (mem_byLength.1 hd)) hv t

end SymbolTable

end ContractAsm
