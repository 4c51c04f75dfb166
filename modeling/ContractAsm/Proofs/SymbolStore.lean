-- SUMMARY: Answers of a store of symbols after any calls.
import ContractAsm.Proofs.SymbolTable
import ContractAsm.SymbolStore

/-!
# Calls on a symbol store

Whatever calls a store has taken, its table is the one that the definitions among them make, and the
order of substitution that it keeps is the one of that table. So it answers as these definitions
say, and substitutes as a store does that has taken nothing else.
-/

namespace ContractAsm

namespace SymbolTable

/-- A define statement without a space is reported and ignored. -/
theorem defineStatement_of_not_mem (table : SymbolTable) {operands : Text} (h : ' ' ∉ operands)
    (index n : Int) : table.defineStatement operands index n
      = ⟨[⟨.warning, s!"line {n}: define '{String.ofList operands}' has no target, ignored"⟩],
        .ok (table, none)⟩ := by
  have hmade : definition? operands index n = .ok none := by
    rw [definition?_eq, target?_eq_none h]
  rw [defineStatement, hmade]
  rfl

theorem insert_of_undefined {table : SymbolTable} {d : Definition}
    (h : d.name ∉ table.definitions.map (·.name)) :
    table.insert d = ⟨table.definitions ++ [d]⟩ := by
  obtain ⟨definitions⟩ := table
  rw [insert, SymbolTable.mk.injEq]
  induction definitions with
  | nil => rfl
  | cons e ds ih =>
    rw [List.map_cons, List.mem_cons, not_or] at h
    rw [insertInto, if_neg (Ne.symm h.1), ih h.2, List.cons_append]

/-- A table is what its definitions make. -/
theorem foldl_insert_definitions {table : SymbolTable}
    (hnames : (table.definitions.map (·.name)).Nodup) :
    table.definitions.foldl insert empty = table := by
  obtain ⟨definitions⟩ := table
  induction definitions using List.reverseRecOn with
  | nil => rfl
  | append_singleton ds d ih =>
    rw [List.map_append, List.map_singleton, List.nodup_append] at hnames
    rw [List.foldl_append, ih hnames.1, List.foldl_cons, List.foldl_nil, insert_of_undefined]
    exact fun hmem => hnames.2.2 _ hmem d.name (by simp) rfl

end SymbolTable

namespace SymbolStore

variable {store : SymbolStore} {call : Call} {ds : List Definition} {d : Definition}

/-! ## One call -/

namespace Call

/-- The definition that a call makes, if any. -/
def definition? : Call → Option Definition
  | .define d => some d
  | .defineStatement operands index n =>
    (SymbolTable.target? operands).bind fun (name, target) =>
      (if target = ['.'] then (Numeral.write index).toOption else some target).map
        fun location => ⟨name, location, index, n⟩
  | _ => none

theorem definition?_defineStatement (operands : Text) (index n : Int) :
    (defineStatement operands index n).definition?
      = match SymbolTable.definition? operands index n with
        | .ok made => made
        | .error _ => none := by
  rw [SymbolTable.definition?_eq, definition?]
  cases SymbolTable.target? operands with
  | none => rfl
  | some part =>
    obtain ⟨name, target⟩ := part
    by_cases hhere : target = ['.']
    · simp only [Option.bind_some, hhere, if_true]
      cases Numeral.write index with
      | ok location => rfl
      | error l => rfl
    · simp only [Option.bind_some, hhere, if_false]
      rfl

end Call

theorem result_define (store : SymbolStore) (d : Definition) :
    (store.define d).result = .ok ⟨store.table.insert d, none⟩ := by
  rw [define, Logged.result_bind, SymbolTable.result_define]
  rfl

theorem result_defineStatement (store : SymbolStore) (operands : Text) (index n : Int) :
    (store.defineStatement operands index n).result
      = match SymbolTable.definition? operands index n with
        | .ok (some d) => .ok (⟨store.table.insert d, none⟩, some d)
        | .ok none => .ok (store, none)
        | .error l => .error (.limit l) := by
  rw [defineStatement, Logged.result_bind, SymbolTable.result_defineStatement]
  cases SymbolTable.definition? operands index n with
  | error l => rfl
  | ok made =>
    cases made with
    | none => rfl
    | some d => rfl

/-- A call that makes a definition adds it, and the order of substitution is given up. -/
theorem step_of_definition (h : call.definition? = some d) :
    (store.step call).1 = ⟨store.table.insert d, none⟩ := by
  cases call with
  | define e =>
    cases h
    simp only [step, settle, Logged.result_bind, result_define]
    rfl
  | defineStatement operands index n =>
    rw [Call.definition?_defineStatement] at h
    simp only [step, settle, Logged.result_bind, result_defineStatement]
    cases hmade : SymbolTable.definition? operands index n with
    | error l => simp [hmade] at h
    | ok made =>
      simp only [hmade] at h
      rw [h]
      rfl
  | get name => cases h
  | byLength => cases h
  | substitute line => cases h

/-- Any other call leaves the table, and keeps what it knows of the order of substitution. -/
theorem step_of_no_definition (h : call.definition? = none) :
    (store.step call).1 = store
      ∨ (store.step call).1 = ⟨store.table, some (store.order?.getD store.table.byLength)⟩ := by
  cases call with
  | define e => cases h
  | defineStatement operands index n =>
    rw [Call.definition?_defineStatement] at h
    left
    simp only [step, settle, Logged.result_bind, result_defineStatement]
    cases hmade : SymbolTable.definition? operands index n with
    | error l => rfl
    | ok made =>
      simp only [hmade] at h
      rw [h]
      rfl
  | get name => exact .inl rfl
  | byLength => exact .inl rfl
  | substitute line => exact .inr rfl

/-! ## A run -/

/-- A store that has taken some definitions: its table is what they make, and an order of
substitution that it keeps is the one of the table. -/
structure Holds (store : SymbolStore) (ds : List Definition) : Prop where
  table_eq : store.table = ds.foldl SymbolTable.insert .empty
  order_eq : ∀ order ∈ store.order?, order = store.table.byLength

theorem Holds.getD_order? (h : store.Holds ds) :
    store.order?.getD store.table.byLength = store.table.byLength := by
  cases horder : store.order? with
  | none => rfl
  | some order => exact h.order_eq order (by simp [horder])

/-- A call adds the definition that it makes. -/
theorem Holds.step (h : store.Holds ds) (call : Call) :
    (store.step call).1.Holds (ds ++ call.definition?.toList) := by
  cases hmade : call.definition? with
  | some d =>
    rw [step_of_definition hmade]
    refine ⟨?_, by simp⟩
    simp only [h.table_eq, Option.toList_some, List.foldl_append, List.foldl_cons, List.foldl_nil]
  | none =>
    rw [Option.toList_none, List.append_nil]
    rcases step_of_no_definition hmade with hstep | hstep
    · rw [hstep]
      exact h
    · -- the order that is kept from now on is the old one or a new one, both of them of this table
      rw [hstep, h.getD_order?]
      exact ⟨h.table_eq, by simp⟩

/-- The store after some calls. -/
def run (calls : List Call) : SymbolStore :=
  calls.foldl (fun store call => (store.step call).1) empty

/-- The definitions that some calls make, in order. -/
def made (calls : List Call) : List Definition :=
  calls.filterMap Call.definition?

theorem made_define (ds : List Definition) : made (ds.map .define) = ds := by
  rw [made, List.filterMap_map]
  exact List.filterMap_some

theorem holds_run (calls : List Call) : (run calls).Holds (made calls) := by
  -- from the front, since it is the last call whose definition counts last
  induction calls using List.reverseRecOn with
  | nil => exact ⟨rfl, by simp [run, empty]⟩
  | append_singleton calls call ih =>
    have hmade : made (calls ++ [call]) = made calls ++ call.definition?.toList := by
      rw [made, List.filterMap_append, made]
      cases hcall : call.definition? with
      | none => simp [hcall]
      | some d => simp [hcall]
    rw [hmade, run, List.foldl_append]
    exact ih.step call

theorem Holds.answer_substitute (h : store.Holds ds) (line : Text) :
    (store.step (.substitute line)).2
      = pure (.line ((ds.foldl SymbolTable.insert .empty).substitute line)) := by
  rw [SymbolStore.step, SymbolStore.substitute, h.getD_order?, ← h.table_eq]
  rfl

/-- A store answers as the definitions say that it was given in this order. -/
structure AnswersFor (store : SymbolStore) (ds : List Definition) : Prop where
  /-- Every name is in the table once. -/
  nodup_names : (store.table.definitions.map (·.name)).Nodup
  /-- The names stand in the order of their first definitions. -/
  names_eq : store.table.definitions.map (·.name) = (ds.map (·.name)).eraseDups
  /-- In the place of a name is its last definition. -/
  definitions_eq : store.table.definitions
    = (ds.map (·.name)).eraseDups.filterMap fun name => ds.reverse.find? (·.name == name)
  /-- The location of a name is the one of its last definition. -/
  get : ∀ name, (store.step (.get name)).2
    = pure (.location ((ds.reverse.find? (·.name == name)).map (·.location)))
  /-- The definitions by length are those of the table, longer names first, and those of one length
  in the order of the table. -/
  byLength : ∃ sorted, (store.step .byLength).2 = pure (.definitions sorted)
    ∧ sorted.Perm store.table.definitions
    ∧ sorted.Pairwise (fun d e => e.name.length ≤ d.name.length)
    ∧ ∀ n, sorted.filter (·.name.length == n)
      = store.table.definitions.filter (·.name.length == n)
  /-- A define statement without a target is reported and leaves the store as it is. -/
  no_target : ∀ operands index n, ' ' ∉ operands →
    store.step (.defineStatement operands index n) = (store,
      ⟨[⟨.warning, s!"line {n}: define '{String.ofList operands}' has no target, ignored"⟩],
        .ok (.made none)⟩)
  /-- A line is substituted as by a store that took the definitions and nothing else. -/
  substitute : ∀ line, (store.step (.substitute line)).2
    = ((run (ds.map .define)).step (.substitute line)).2
  /-- A line is substituted as by a store that took only the definitions that are left. -/
  substitute_remaining : ∀ line, (store.step (.substitute line)).2
    = ((run (store.table.definitions.map .define)).step (.substitute line)).2

/-- After any calls a store answers as the definitions say that they made. -/
theorem run_answersFor_made (calls : List Call) : (run calls).AnswersFor (made calls) := by
  have hholds := holds_run calls
  have hnames := SymbolTable.nodup_foldl_insert (made calls)
  rw [← hholds.table_eq] at hnames
  -- a store that has taken nothing but definitions is one after a run, too
  have hfresh : ∀ ds, (run (ds.map .define)).Holds ds := fun ds => by
    simpa only [made_define] using holds_run (ds.map .define)
  exact {
    nodup_names := hnames
    names_eq := by rw [hholds.table_eq, SymbolTable.names_foldl_insert]
    definitions_eq := by rw [hholds.table_eq, SymbolTable.definitions_foldl_insert]
    get := fun name => by rw [step, hholds.table_eq, SymbolTable.get?_foldl_insert]
    byLength := ⟨_, rfl, SymbolTable.byLength_perm _, SymbolTable.pairwise_byLength _,
      SymbolTable.filter_byLength _⟩
    no_target := fun operands index n hspace => by
      simp only [step, defineStatement, SymbolTable.defineStatement_of_not_mem _ hspace]
      rfl
    substitute := fun line => by
      rw [hholds.answer_substitute, (hfresh _).answer_substitute]
    substitute_remaining := fun line => by
      rw [hholds.answer_substitute, (hfresh _).answer_substitute,
        SymbolTable.foldl_insert_definitions hnames, hholds.table_eq] }

example :
    ((run [.define ⟨"loop".toList, "3".toList, 0, 1⟩, .substitute ".loop".toList,
      .defineStatement "loop .".toList 7 2]).step (.substitute ".loop".toList)).2
      = pure (.line ".7".toList) := by
  cbv

end SymbolStore

end ContractAsm
