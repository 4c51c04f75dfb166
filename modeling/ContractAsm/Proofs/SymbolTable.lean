-- SUMMARY: Laws of symbol tables: what is found after a definition.
import ContractAsm.Symbol
import Mathlib.Data.List.Induction
import Mathlib.Data.List.Sort

/-!
# The symbol table

A table that is filled in order has every name once, at the place of its first definition and with
the last one. Sorting it by the length of the names moves no definition past another one of its
length.
-/

namespace ContractAsm

namespace SymbolTable

variable {table : SymbolTable} {d e : Definition} {name location : Text}

/-! ## Looking up -/

theorem get?_eq_none_iff : table.get? name = none ↔ ∀ d ∈ table.definitions, d.name ≠ name := by
  simp [get?, find?]

/-- What is found of a name was defined for it. -/
theorem exists_of_get? (h : table.get? name = some location) :
    ∃ d ∈ table.definitions, d.name = name ∧ d.location = location := by
  obtain ⟨d, hfind, hlocation⟩ := Option.map_eq_some_iff.1 h
  exact ⟨d, List.mem_of_find?_eq_some hfind, by simpa using List.find?_some hfind, hlocation⟩

/-- A table that has every name once finds every definition by its name. -/
theorem find?_of_mem (hnames : (table.definitions.map (·.name)).Nodup)
    (hd : d ∈ table.definitions) : table.find? d.name = some d := by
  rw [find?, List.find?_eq_some_iff_append]
  obtain ⟨front, back, hsplit⟩ := List.append_of_mem hd
  refine ⟨by simp, front, back, hsplit, fun e he => ?_⟩
  -- no definition in front of it has its name
  rw [hsplit, List.map_append, List.map_cons] at hnames
  have hne := (List.nodup_append.1 hnames).2.2 e.name (List.mem_map_of_mem he) d.name (by simp)
  simpa using hne

/-! ## Define statements -/

/-- A second definition of a name is only reported. -/
theorem result_define (table : SymbolTable) (d : Definition) :
    (table.define d).result = .ok (table.insert d) := by
  unfold define
  split
  · rfl
  · rfl

/-- What a define statement comes to. -/
theorem result_defineStatement (table : SymbolTable) (operands : Text) (index n : Int) :
    (table.defineStatement operands index n).result = match definition? operands index n with
    | .ok (some d) => .ok (table.insert d, some d)
    | .ok none => .ok (table, none)
    | .error l => .error (.limit l) := by
  unfold defineStatement
  cases definition? operands index n with
  | error l => rfl
  | ok made =>
    cases made with
    | none => rfl
    | some d =>
      rw [Logged.result_bind_eq_ok_iff]
      exact ⟨some d, rfl, Logged.result_bind_eq_ok_iff.2 ⟨_, table.result_define d, rfl⟩⟩

/-- The name and the target of a define statement: the first and the last of its parts. There is no
target without a second part. -/
def target? (operands : Text) : Option (Text × Text) :=
  match operands.splitOn ' ' with
  | [] => none
  | name :: parts => parts.getLast?.map (name, ·)

/-- The definition that a define statement makes, by its name and target. -/
theorem definition?_eq (operands : Text) (index n : Int) : definition? operands index n
    = match target? operands with
      | some (name, target) =>
        (if target = ['.'] then Numeral.write index else .ok target).map
          fun location => some ⟨name, location, index, n⟩
      | none => .ok none := by
  unfold definition? target?
  cases operands.splitOn ' ' with
  | nil => rfl
  | cons name rest =>
    cases rest with
    | nil => rfl
    | cons part parts =>
      simp only [List.getLast?_eq_some_getLast (List.cons_ne_nil part parts), Option.map_some]
      split
      · rfl
      · rfl

/-- There is no target without a space. -/
theorem target?_eq_none {operands : Text} (h : ' ' ∉ operands) : target? operands = none := by
  rw [target?, List.splitOn_eq_singleton h]
  rfl

/-! ## Filling a table -/

/-- A new definition brings in nothing but itself. -/
theorem eq_or_mem_of_mem_insert (h : e ∈ (table.insert d).definitions) :
    e = d ∨ e ∈ table.definitions := by
  obtain ⟨definitions⟩ := table
  simp only [insert] at h ⊢
  induction definitions with
  | nil => exact .inl (List.mem_singleton.1 h)
  | cons a ds ih =>
    rw [insertInto] at h
    -- the definition takes the place of one with its name, or goes on to the rest
    split at h
    · rcases List.mem_cons.1 h with h | h
      · exact .inl h
      · exact .inr (List.mem_cons_of_mem a h)
    · rcases List.mem_cons.1 h with rfl | h
      · exact .inr (List.mem_cons_self ..)
      · rcases ih h with h | h
        · exact .inl h
        · exact .inr (List.mem_cons_of_mem a h)

/-- A new definition takes the place of the earlier one of its name. -/
theorem mem_insert_iff (hnames : (table.definitions.map (·.name)).Nodup) :
    e ∈ (table.insert d).definitions ↔ e = d ∨ e ∈ table.definitions ∧ e.name ≠ d.name := by
  obtain ⟨definitions⟩ := table
  simp only [insert] at hnames ⊢
  induction definitions with
  | nil => simp [insertInto]
  | cons a ds ih =>
    obtain ⟨ha, hds⟩ := List.nodup_cons.1 hnames
    have hother : ∀ e ∈ ds, e.name ≠ a.name := by
      intro e he heq
      exact ha (List.mem_map.2 ⟨e, he, heq⟩)
    rw [insertInto]
    split
    · next heq =>
      rw [← heq]
      grind
    · next hne => grind

/-- A name keeps the place of its first definition. -/
theorem map_name_insert (table : SymbolTable) (d : Definition) :
    (table.insert d).definitions.map (·.name)
      = if d.name ∈ table.definitions.map (·.name) then table.definitions.map (·.name)
        else table.definitions.map (·.name) ++ [d.name] := by
  obtain ⟨definitions⟩ := table
  simp only [insert]
  induction definitions with
  | nil => simp [insertInto]
  | cons a ds ih =>
    rw [insertInto]
    split
    · next heq => simp [heq]
    · next hne =>
      rw [List.map_cons, ih]
      split
      · next hmem => simp [hmem]
      · next hmem => simp [hmem, Ne.symm hne]

/-- However often a name is defined, it is in the table once. -/
theorem nodup_foldl_insert (ds : List Definition) :
    ((ds.foldl insert empty).definitions.map (·.name)).Nodup := by
  induction ds using List.reverseRecOn with
  | nil => exact List.nodup_nil
  | append_singleton ds d ih =>
    rw [List.foldl_append, List.foldl_cons, List.foldl_nil, map_name_insert]
    split
    · exact ih
    · next hmem => exact List.nodup_append.2 ⟨ih, by simp, by grind⟩

/-- A table filled in order has the names in the order of their first definitions. -/
theorem names_foldl_insert (ds : List Definition) :
    (ds.foldl insert empty).definitions.map (·.name) = (ds.map (·.name)).eraseDups := by
  induction ds using List.reverseRecOn with
  | nil => rfl
  | append_singleton ds d ih =>
    rw [List.foldl_append, List.foldl_cons, List.foldl_nil, map_name_insert, ih, List.map_append,
      List.eraseDups_append]
    by_cases hmem : d.name ∈ ds.map (·.name)
    · have hremove : [d.name].removeAll (ds.map (·.name)) = [] := by
        simpa [List.removeAll] using hmem
      rw [if_pos (List.mem_eraseDups.2 hmem), List.map_singleton, hremove, List.eraseDups_nil,
        List.append_nil]
    · have hremove : [d.name].removeAll (ds.map (·.name)) = [d.name] := by
        simpa [List.removeAll] using hmem
      rw [if_neg (mt List.mem_eraseDups.1 hmem), List.map_singleton, hremove]
      simp [List.eraseDups_cons]

/-- In a table filled in order, the last definition of a name counts. -/
theorem find?_foldl_insert (ds : List Definition) (name : Text) :
    (ds.foldl insert empty).find? name = ds.reverse.find? (·.name == name) := by
  induction ds using List.reverseRecOn with
  | nil => rfl
  | append_singleton ds d ih =>
    rw [List.foldl_append, List.foldl_cons, List.foldl_nil, List.reverse_concat, List.find?_cons]
    by_cases h : name = d.name
    · simp [h, find?_insert_self]
    · have hne : (d.name == name) = false := by simpa using Ne.symm h
      rw [find?_insert_of_ne _ d h, ih, hne]

/-- The last definition of a name counts. -/
theorem get?_foldl_insert (ds : List Definition) (name : Text) :
    (ds.foldl insert empty).get? name
      = (ds.reverse.find? (·.name == name)).map (·.location) := by
  rw [get?, find?_foldl_insert]

/-- A table filled in order has the last definition of every name in the place of the first. -/
theorem definitions_foldl_insert (ds : List Definition) : (ds.foldl insert empty).definitions
    = (ds.map (·.name)).eraseDups.filterMap fun name => ds.reverse.find? (·.name == name) := by
  rw [← names_foldl_insert, List.filterMap_map]
  symm
  calc (ds.foldl insert empty).definitions.filterMap
        ((fun name => ds.reverse.find? (·.name == name)) ∘ (·.name))
      = (ds.foldl insert empty).definitions.filterMap some := by
        apply List.filterMap_congr
        intro d hd
        rw [Function.comp_apply, ← find?_foldl_insert, find?_of_mem (nodup_foldl_insert ds) hd]
    _ = (ds.foldl insert empty).definitions := List.filterMap_some

/-- A table filled in order holds the last definition of every name. -/
theorem mem_foldl_insert {ds : List Definition} {d : Definition} :
    d ∈ (ds.foldl insert empty).definitions
      ↔ ∃ front back, ds = front ++ d :: back ∧ ∀ e ∈ back, e.name ≠ d.name := by
  induction ds using List.reverseRecOn with
  | nil => simp [empty]
  | append_singleton ds a ih =>
    rw [List.foldl_append, List.foldl_cons, List.foldl_nil,
      mem_insert_iff (nodup_foldl_insert ds), ih]
    constructor
    · rintro (rfl | ⟨⟨front, back, rfl, hback⟩, hne⟩)
      · exact ⟨ds, [], rfl, by simp⟩
      · refine ⟨front, back ++ [a], by simp, ?_⟩
        simpa [or_imp, forall_and] using ⟨hback, hne.symm⟩
    · rintro ⟨front, back, hds, hback⟩
      rcases List.eq_nil_or_concat back with rfl | ⟨back, b, rfl⟩
      · obtain ⟨-, hd⟩ := List.append_inj' hds rfl
        exact .inl (List.cons.inj hd).1.symm
      · rw [List.concat_eq_append, ← List.cons_append, ← List.append_assoc] at hds
        obtain ⟨rfl, hb⟩ := List.append_inj' hds rfl
        obtain ⟨rfl, -⟩ := List.cons.inj hb
        rw [List.concat_eq_append] at hback
        exact .inr ⟨⟨front, back, rfl, fun e he => hback e (by simp [he])⟩,
          (hback a (by simp)).symm⟩

/-- Every name that was defined is in the table. -/
theorem exists_mem_foldl_insert {ds : List Definition} {e : Definition} (he : e ∈ ds) :
    ∃ d ∈ (ds.foldl insert empty).definitions, d.name = e.name := by
  by_contra hnone
  have hget : (ds.foldl insert empty).get? e.name = none :=
    get?_eq_none_iff.2 fun d hd hname => hnone ⟨d, hd, hname⟩
  rw [get?_foldl_insert, Option.map_eq_none_iff, List.find?_eq_none] at hget
  exact hget e (List.mem_reverse.2 he) (by simp)

/-! ## Sorting by length -/

/-- The name of the first is at least as long as the name of the second. -/
def NotShorter (d e : Definition) : Prop :=
  e.name.length ≤ d.name.length

instance : DecidableRel NotShorter := fun _ _ => inferInstanceAs (Decidable (_ ≤ _))

instance : Std.Total NotShorter := ⟨fun _ _ => Nat.le_total ..⟩

instance : IsTrans Definition NotShorter := ⟨fun _ _ _ hde hef => Nat.le_trans hef hde⟩

theorem byLength_eq_insertionSort (table : SymbolTable) :
    table.byLength = table.definitions.insertionSort NotShorter := by
  have hinsert : ∀ (d : Definition) ds, insertByLength d ds = ds.orderedInsert NotShorter d := by
    intro d ds
    induction ds with
    | nil => rfl
    | cons e ds ih => rw [insertByLength, ih]; rfl
  unfold byLength
  induction table.definitions with
  | nil => rfl
  | cons d ds ih => rw [List.foldr_cons, ih, hinsert, List.insertionSort_cons]

/-- Sorting by length loses no definition. -/
theorem byLength_perm (table : SymbolTable) : table.byLength.Perm table.definitions := by
  rw [byLength_eq_insertionSort]
  exact List.perm_insertionSort NotShorter _

theorem mem_byLength : d ∈ table.byLength ↔ d ∈ table.definitions :=
  table.byLength_perm.mem_iff

/-- Longer names come first. -/
theorem pairwise_byLength (table : SymbolTable) : table.byLength.Pairwise NotShorter := by
  rw [byLength_eq_insertionSort]
  exact List.pairwise_insertionSort NotShorter _

/-- Definitions whose names have one length stay in order. -/
theorem filter_byLength (table : SymbolTable) (n : Nat) :
    table.byLength.filter (·.name.length == n) = table.definitions.filter (·.name.length == n) := by
  have hpairwise : (table.definitions.filter (·.name.length == n)).Pairwise NotShorter := by
    apply List.pairwise_of_forall_mem_list
    intro d hd e he
    rw [List.mem_filter, beq_iff_eq] at hd he
    rw [NotShorter, hd.2, he.2]
  have hsublist : (table.definitions.filter (·.name.length == n)).Sublist table.byLength := by
    rw [byLength_eq_insertionSort]
    exact List.sublist_insertionSort hpairwise List.filter_sublist
  -- it is a part of the sorted definitions of that length, and there are no more of them
  have hpart := hsublist.filter (·.name.length == n)
  rw [List.filter_filter, funext fun d => Bool.and_self _] at hpart
  exact (hpart.eq_of_length (table.byLength_perm.filter _).length_eq.symm).symm

/-- Sorting keeps the definitions of one name in order, so it changes no lookup. -/
theorem find?_byLength (table : SymbolTable) (name : Text) :
    table.byLength.find? (·.name == name) = table.find? name := by
  -- the definitions of one name are among those of one length
  have hfind : ∀ ds : List Definition, ds.find? (·.name == name)
      = (ds.filter (·.name.length == name.length)).find? (·.name == name) := by
    intro ds
    rw [List.find?_filter]
    congr 1
    funext d
    by_cases h : d.name = name
    · simp [h]
    · simp [h]
  rw [hfind, filter_byLength, ← hfind, find?]

end SymbolTable

end ContractAsm
