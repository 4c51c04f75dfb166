-- SUMMARY: JSON values without repeated keys, on which equality is symmetric.
import ContractAsm.Json.Reader
import ContractAsm.Proofs.JsonEquality
import Mathlib.Data.List.Nodup
import Mathlib.Data.List.Perm.Subperm

/-!
# Objects with distinct keys

A value is proper if no object in it has a key twice. Everything that is read from a text is proper.
Between proper values equality goes both ways, although it looks up the members of one object in the
other one only.
-/

namespace ContractAsm.Json

/-- No object in the value has a key twice. -/
inductive Proper : Json → Prop where
  | null : Proper .null
  | bool (b : Bool) : Proper (.bool b)
  | int (n : Int) : Proper (.int n)
  | float (x : Binary64) : Proper (.float x)
  | string (s : Text) : Proper (.string s)
  | array {items : List Json} : (∀ x ∈ items, Proper x) → Proper (.array items)
  | object {members : List (Text × Json)} : (members.map (·.1)).Nodup →
      (∀ m ∈ members, Proper m.2) → Proper (.object members)

/-! ## Reading -/

/-- Putting a member brings in no value but its own. -/
theorem mem_put {key : Text} {value : Json} {members : List (Text × Json)} {m : Text × Json}
    (h : m ∈ put key value members) : m.2 = value ∨ m ∈ members := by
  induction members with
  | nil => exact .inl (by rw [List.mem_singleton.1 h])
  | cons member rest ih =>
    obtain ⟨k, v⟩ := member
    rw [put] at h
    split at h
    · rcases List.mem_cons.1 h with rfl | h
      · exact .inl rfl
      · exact .inr (List.mem_cons_of_mem _ h)
    · rcases List.mem_cons.1 h with rfl | h
      · exact .inr (List.mem_cons_self ..)
      · exact (ih h).imp_right (List.mem_cons_of_mem _)

/-- A key keeps its place when its value is replaced. -/
theorem keys_put (key : Text) (value : Json) (members : List (Text × Json)) :
    (put key value members).map (·.1)
      = if key ∈ members.map (·.1) then members.map (·.1) else members.map (·.1) ++ [key] := by
  induction members with
  | nil => simp [put]
  | cons member rest ih =>
    obtain ⟨k, v⟩ := member
    rw [put]
    split
    · next heq => simp [heq]
    · next hne =>
      rw [List.map_cons, ih]
      split
      · next hmem => simp [hmem]
      · next hmem => simp [hmem, Ne.symm hne]

/-- Members that make up a proper object. -/
def ProperMembers (members : List (Text × Json)) : Prop :=
  (members.map (·.1)).Nodup ∧ ∀ m ∈ members, Proper m.2

theorem ProperMembers.nil : ProperMembers [] :=
  ⟨List.nodup_nil, by simp⟩

/-- Putting a member repeats no key. -/
theorem ProperMembers.put {members : List (Text × Json)} (h : ProperMembers members) (key : Text)
    {value : Json} (hvalue : Proper value) : ProperMembers (put key value members) := by
  refine ⟨?_, fun m hm => ?_⟩
  · rw [keys_put]
    split
    · exact h.1
    · next hmem => exact List.nodup_append.2 ⟨h.1, by simp, by grind⟩
  · rcases mem_put hm with hm | hm
    · rw [hm]
      exact hvalue
    · exact h.2 m hm

theorem proper_constant {c : Text × Json} (h : c ∈ constants) : Proper c.2 := by
  simp only [constants, List.mem_cons, List.not_mem_nil, or_false] at h
  rcases h with rfl | rfl | rfl | rfl | rfl | rfl
  · exact .null
  · exact .bool true
  · exact .bool false
  · exact .float _
  · exact .float _
  · exact .float _

theorem proper_number {n : NumberParts} {v : Json} (h : n.value = .ok v) : Proper v := by
  unfold NumberParts.value at h
  split at h
  · cases hread : Numeral.read n.whole with
    | error l =>
      rw [hread] at h
      cases h
    | ok m =>
      rw [hread] at h
      cases h
      exact .int _
  · cases h
    exact .float _

/-- Numbers and constants have no keys. -/
theorem proper_scalar {t rest : Text} {v : Json} (h : readScalar t = .ok (v, rest)) : Proper v := by
  unfold readScalar at h
  split at h
  · next found hfound =>
    cases h
    obtain ⟨⟨name, value⟩, hc, hprefix⟩ := List.exists_of_findSome?_eq_some hfound
    obtain ⟨_, -, heq⟩ := Option.map_eq_some_iff.1 hprefix
    cases heq
    exact proper_constant hc
  · split at h
    · cases h
    · split at h
      · next hvalue =>
        cases h
        exact proper_number hvalue
      · cases h

/-- What a reader of values gives is proper, and so is what is put together from it. -/
structure ReadsProper [Platform] (fuel : Nat) : Prop where
  value : ∀ {room t v rest}, readValue fuel room t = .ok (v, rest) → Proper v
  members : ∀ {room done t v rest}, ProperMembers done →
    readMembers fuel room done t = .ok (v, rest) → Proper v
  items : ∀ {room done t v rest}, (∀ x ∈ done, Proper x) →
    readItems fuel room done t = .ok (v, rest) → Proper v

/-- One level of a value. -/
theorem ReadsProper.value_succ [Platform] {fuel room : Nat} (h : ReadsProper fuel) {t rest : Text}
    {v : Json}
    (hread : readValue (fuel + 1) room t = .ok (v, rest)) : Proper v := by
  unfold readValue at hread
  split at hread
  · split at hread
    · cases hread
      exact .string _
    · cases hread
  · split at hread
    · cases hread
    · split at hread
      · cases hread
        exact .object List.nodup_nil (by simp)
      · exact h.members .nil hread
  · split at hread
    · cases hread
    · split at hread
      · cases hread
        exact .array (by simp)
      · exact h.items (by simp) hread
  · exact proper_scalar hread

/-- One more member of an object. -/
theorem ReadsProper.members_succ [Platform] {fuel room : Nat} (h : ReadsProper fuel)
    {done : List (Text × Json)} (hdone : ProperMembers done) {t rest : Text} {v : Json}
    (hread : readMembers (fuel + 1) room done t = .ok (v, rest)) : Proper v := by
  unfold readMembers at hread
  split at hread
  · cases hread
  · split at hread
    · cases hread
    · next hvalue =>
      have hnext : ∀ key, ProperMembers (Json.put key _ done) :=
        fun key => hdone.put key (h.value hvalue)
      split at hread
      · cases hread
        exact .object (hnext _).1 (hnext _).2
      · exact h.members (hnext _) hread
      · cases hread

/-- One more item of an array. -/
theorem ReadsProper.items_succ [Platform] {fuel room : Nat} (h : ReadsProper fuel)
    {done : List Json}
    (hdone : ∀ x ∈ done, Proper x) {t rest : Text} {v : Json}
    (hread : readItems (fuel + 1) room done t = .ok (v, rest)) : Proper v := by
  unfold readItems at hread
  split at hread
  · cases hread
  · next hvalue =>
    have hnext := List.forall_mem_cons.2 ⟨h.value hvalue, hdone⟩
    split at hread
    · cases hread
      exact .array fun x hx => hnext x (List.mem_reverse.1 hx)
    · exact h.items hnext hread
    · cases hread

/-- No object that is read repeats a key. -/
theorem readsProper [Platform] (fuel : Nat) : ReadsProper fuel := by
  induction fuel with
  | zero =>
    refine ⟨fun h => ?_, fun _ h => ?_, fun _ h => ?_⟩
    · cases h
    · cases h
    · cases h
  | succ fuel ih =>
    exact ⟨ih.value_succ, fun hdone hread => ih.members_succ hdone hread,
      fun hdone hread => ih.items_succ hdone hread⟩

/-- A value that is read from a text is proper. -/
theorem proper_read [Platform] {t : Text} {v : Json} (h : read t = .ok v) : Proper v := by
  unfold read at h
  split at h
  · cases h
  · split at h
    · cases h
    · next hvalue =>
      split at h
      · cases h
        exact (readsProper _).value hvalue
      · cases h

/-! ## Equality goes both ways -/

/-- Without repeated keys, each member is found. -/
theorem find?_of_mem {members : List (Text × Json)} (hkeys : (members.map (·.1)).Nodup) {k : Text}
    {v : Json} (h : (k, v) ∈ members) : find? k members = some v := by
  induction members with
  | nil => cases h
  | cons member rest ih =>
    obtain ⟨k', v'⟩ := member
    obtain ⟨hfresh, hrest⟩ := List.nodup_cons.1 hkeys
    rcases List.mem_cons.1 h with heq | h
    · obtain ⟨rfl, rfl⟩ := Prod.mk.inj heq
      exact if_pos rfl
    · have hne : k' ≠ k := by
        rintro rfl
        exact hfresh (List.mem_map.2 ⟨(k', v), h, rfl⟩)
      exact (if_neg hne).trans (ih hrest h)

/-- Objects are alike if each member has one like it. -/
theorem alikeMembers_of_forall {xs ys : List (Text × Json)}
    (h : ∀ m ∈ xs, ∃ y, find? m.1 ys = some y ∧ alike m.2 y = true) :
    alikeMembers xs ys = true := by
  induction xs with
  | nil => rfl
  | cons m xs ih =>
    obtain ⟨y, hfind, hy⟩ := h m (List.mem_cons_self ..)
    rw [alikeMembers, hfind, Bool.and_eq_true]
    exact ⟨hy, ih fun m hm => h m (List.mem_cons_of_mem _ hm)⟩

/-- Objects of one size that are alike have the same keys. -/
theorem keys_subset {xs ys : List (Text × Json)} (hxs : (xs.map (·.1)).Nodup)
    (hlength : xs.length = ys.length) (h : alikeMembers xs ys = true) :
    ys.map (·.1) ⊆ xs.map (·.1) := by
  have hsub : xs.map (·.1) ⊆ ys.map (·.1) := by
    intro k hk
    obtain ⟨⟨k, x⟩, hx, rfl⟩ := List.mem_map.1 hk
    obtain ⟨y, hy, -⟩ := exists_of_alikeMembers h hx
    exact List.mem_map.2 ⟨(k, y), mem_of_find? hy, rfl⟩
  have hperm := (hxs.subperm hsub).perm_of_length_le (by simp [hlength])
  exact hperm.symm.subset

/-- Comparing numbers is symmetric. -/
theorem sameNumber_comm {a b : Json} (h : sameNumber a b = true) : sameNumber b a = true := by
  obtain ⟨hnumber, heq⟩ := sameNumber_iff.1 h
  exact sameNumber_iff.2 ⟨heq ▸ hnumber, heq.symm⟩

/-- Comparing arrays is symmetric if comparing their items is. -/
theorem alikeItems_comm {xs ys : List Json}
    (hxs : ∀ x ∈ xs, ∀ y, Proper y → alike x y = true → alike y x = true)
    (hys : ∀ y ∈ ys, Proper y) (h : alikeItems xs ys = true) : alikeItems ys xs = true := by
  induction xs generalizing ys with
  | nil =>
    cases ys with
    | nil => rfl
    | cons y ys => cases h
  | cons x xs ih =>
    cases ys with
    | nil => cases h
    | cons y ys =>
      rw [alikeItems, Bool.and_eq_true] at h ⊢
      exact ⟨hxs x (List.mem_cons_self ..) y (hys y (List.mem_cons_self ..)) h.1,
        ih (fun x hx => hxs x (List.mem_cons_of_mem _ hx))
          (fun y hy => hys y (List.mem_cons_of_mem _ hy)) h.2⟩

/-- Comparing objects of one size is symmetric if comparing their values is and no key is repeated.
-/
theorem alikeMembers_comm {xs ys : List (Text × Json)} (hkeys : (xs.map (·.1)).Nodup)
    (hxs : ∀ m ∈ xs, ∀ y, Proper y → alike m.2 y = true → alike y m.2 = true)
    (hys : ProperMembers ys) (hlength : xs.length = ys.length) (h : alikeMembers xs ys = true) :
    alikeMembers ys xs = true := by
  apply alikeMembers_of_forall
  rintro ⟨k, y⟩ hy
  obtain ⟨⟨k', x⟩, hx, rfl⟩ :=
    List.mem_map.1 (keys_subset hkeys hlength h (List.mem_map.2 ⟨(k, y), hy, rfl⟩))
  -- the counterpart of the member is the only member of the other object with that key
  obtain ⟨y', hfind, halike⟩ := exists_of_alikeMembers h hx
  cases (find?_of_mem hys.1 hy).symm.trans hfind
  exact ⟨x, find?_of_mem hkeys hx, hxs _ hx y (hys.2 _ hy) halike⟩

/-- Comparing values without repeated keys is symmetric. -/
theorem alike_comm {a b : Json} (ha : Proper a) (hb : Proper b) (h : alike a b = true) :
    alike b a = true := by
  induction ha generalizing b with
  | null =>
    obtain rfl : b = .null := by simpa [sameNumber] using alike_cases h
    exact h
  | string s =>
    obtain rfl : b = .string s := by simpa [sameNumber] using alike_cases h
    exact h
  | bool | int | float =>
    exact alike_of_sameNumber (sameNumber_comm (sameNumber_of_alike (by simp [magnitude?]) h))
  | @array xs _ ih =>
    obtain ⟨ys, rfl, hxy⟩ : ∃ ys, b = .array ys ∧ alikeItems xs ys = true := by
      simpa [sameNumber] using alike_cases h
    cases hb with
    | array hys => exact alikeItems_comm (fun x hx y => ih x hx) hys hxy
  | @object xs hkeys _ ih =>
    obtain ⟨ys, rfl, hlength, hxy⟩ :
        ∃ ys, b = .object ys ∧ xs.length = ys.length ∧ alikeMembers xs ys = true := by
      simpa [sameNumber] using alike_cases h
    cases hb with
    | object hys hproper =>
      have hmembers := alikeMembers_comm hkeys (fun m hm y => ih m hm) ⟨hys, hproper⟩ hlength hxy
      simp [alike, hlength, hmembers]

/-- Of two equal proper values, each equals the other. -/
theorem same_comm {a b : Json} (ha : Proper a) (hb : Proper b) (h : same a b = true) :
    same b a = true := by
  unfold same at h
  split at h
  · cases h
  · next hnan =>
    have hba := alike_comm ha hb h
    unfold same
    split
    · -- nothing but not-a-number itself is alike to it
      have hnumber := (sameNumber_iff.1 (sameNumber_of_alike (by simp [magnitude?]) hba)).2
      cases a with
      | float x => cases x <;> simp_all [magnitude?, Binary64.magnitude]
      | _ => simp [magnitude?, Binary64.magnitude] at hnumber
    · exact hba

end ContractAsm.Json
