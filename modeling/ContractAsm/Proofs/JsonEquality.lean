-- SUMMARY: Equality of JSON values, and when it is an equivalence.
import ContractAsm.Json.Basic
import Mathlib.Data.Rat.Cast.Order

/-!
# Equality of values

Numbers are compared by what they stand for, whatever their kind, so their equality is that of one
magnitude. Equality of values is built on it level by level and goes from one value to the next.
-/

namespace ContractAsm

/-- What a number stands for. -/
inductive Magnitude where
  | nan
  | infinite (negative : Bool)
  | finite (value : ℚ)

namespace Binary64

/-- What a floating-point number stands for. -/
def magnitude : Binary64 → Magnitude
  | .nan => .nan
  | .infinite negative => .infinite negative
  | .finite negative m e => .finite ((quotient negative m e).1 / (quotient negative m e).2)

/-- The denominator of a quotient is not zero. -/
theorem quotient_den_ne_zero (negative : Bool) (m : Nat) (e : Int) :
    ((quotient negative m e).2 : ℚ) ≠ 0 := by
  have hpower : ∀ k, Nat.pow 2 k ≠ 0 := fun k => (Nat.pow_pos (by decide)).ne'
  simp only [quotient, scale]
  split
  · simp
  · exact_mod_cast Nat.mul_ne_zero one_ne_zero (hpower (-e).toNat)

/-- A double is compared with an integer by value. -/
theorem sameInt_iff (x : Binary64) (n : Int) : x.sameInt n = true ↔ x.magnitude = .finite n := by
  cases x with
  | nan => simp [sameInt, magnitude]
  | infinite negative => simp [sameInt, magnitude]
  | finite negative m e =>
    simp only [sameInt, magnitude, Magnitude.finite.injEq, beq_iff_eq,
      div_eq_iff (quotient_den_ne_zero negative m e)]
    norm_cast

/-- Two doubles are compared by value. -/
theorem sameValue_iff (x y : Binary64) : x.sameValue y = true ↔ x.magnitude = y.magnitude := by
  cases x with
  | nan => cases y <;> simp [sameValue, magnitude]
  | infinite negative => cases y <;> simp [sameValue, magnitude]
  | finite negative m e =>
    cases y with
    | nan => simp [sameValue, magnitude]
    | infinite negative' => simp [sameValue, magnitude]
    | finite negative' m' e' =>
      simp only [sameValue, magnitude, Magnitude.finite.injEq, beq_iff_eq,
        div_eq_div_iff (quotient_den_ne_zero negative m e) (quotient_den_ne_zero negative' m' e')]
      norm_cast

end Binary64

namespace Json

/-- What a value stands for if it is a number; truth values count as numbers. -/
def magnitude? : Json → Option Magnitude
  | .bool b => some (.finite (boolInt b))
  | .int n => some (.finite n)
  | .float x => some x.magnitude
  | _ => none

theorem boolInt_inj : ∀ {b c : Bool}, boolInt b = boolInt c ↔ b = c := by decide

/-- Two numbers are the same if they stand for the same. -/
theorem sameNumber_iff {a b : Json} :
    sameNumber a b = true ↔ a.magnitude? ≠ none ∧ a.magnitude? = b.magnitude? := by
  cases a <;> cases b <;>
    simp [sameNumber, magnitude?, Binary64.sameInt_iff, Binary64.sameValue_iff, boolInt_inj] <;>
    exact eq_comm

/-- Comparing numbers is transitive. -/
theorem sameNumber_trans {a b c : Json} (hab : sameNumber a b = true)
    (hbc : sameNumber b c = true) : sameNumber a c = true := by
  rw [sameNumber_iff] at hab hbc ⊢
  exact ⟨hab.1, hab.2.trans hbc.2⟩

theorem mem_of_find? {key : Text} {v : Json} {members : List (Text × Json)}
    (h : find? key members = some v) : (key, v) ∈ members := by
  induction members with
  | nil => cases h
  | cons member rest ih =>
    obtain ⟨k, w⟩ := member
    by_cases hk : k = key
    · simp only [find?, hk, if_true, Option.some.injEq] at h
      rw [hk, h]
      exact List.mem_cons_self ..
    · simp only [find?, hk, if_false] at h
      exact List.mem_cons_of_mem _ (ih h)

/-- Everything that values which are alike can be. -/
theorem alike_cases {a b : Json} (h : alike a b = true) :
    (a = .null ∧ b = .null) ∨ (∃ s, a = .string s ∧ b = .string s)
      ∨ (∃ xs ys, a = .array xs ∧ b = .array ys ∧ alikeItems xs ys = true)
      ∨ (∃ xs ys, a = .object xs ∧ b = .object ys ∧ xs.length = ys.length
        ∧ alikeMembers xs ys = true)
      ∨ sameNumber a b = true := by
  cases a <;> cases b <;> simp_all [alike, sameNumber]

theorem alike_of_sameNumber {a b : Json} (h : sameNumber a b = true) : alike a b = true := by
  cases a <;> cases b <;> simp_all [alike, sameNumber]

/-- A number is like numbers only. -/
theorem sameNumber_of_alike {a b : Json} (ha : a.magnitude? ≠ none) (h : alike a b = true) :
    sameNumber a b = true := by
  rcases alike_cases h with ⟨rfl, -⟩ | ⟨s, rfl, -⟩ | ⟨xs, ys, rfl, -⟩ | ⟨xs, ys, rfl, -⟩ | h
  · exact absurd rfl ha
  · exact absurd rfl ha
  · exact absurd rfl ha
  · exact absurd rfl ha
  · exact h

/-- What a number is alike to is a number too. -/
theorem alike_trans_of_number {a b c : Json} (ha : a.magnitude? ≠ none) (hab : alike a b = true)
    (hbc : alike b c = true) : alike a c = true := by
  have hab := sameNumber_of_alike ha hab
  have hb : b.magnitude? ≠ none := (sameNumber_iff.1 hab).2 ▸ ha
  exact alike_of_sameNumber (sameNumber_trans hab (sameNumber_of_alike hb hbc))

/-- A member of an object has its counterpart in every object that is alike. -/
theorem exists_of_alikeMembers {xs ys : List (Text × Json)} (h : alikeMembers xs ys = true)
    {k : Text} {x : Json} (hx : (k, x) ∈ xs) : ∃ y, find? k ys = some y ∧ alike x y = true := by
  induction xs with
  | nil => cases hx
  | cons member xs ih =>
    obtain ⟨k', x'⟩ := member
    rw [alikeMembers, Bool.and_eq_true] at h
    rcases List.mem_cons.1 hx with hx | hx
    · obtain ⟨rfl, rfl⟩ := Prod.mk.inj hx
      cases hfind : find? k ys with
      | none => simp [hfind] at h
      | some y => exact ⟨y, rfl, by simpa [hfind] using h.1⟩
    · exact ih h.2 hx

mutual

/-- Comparing values is transitive. -/
theorem alike_trans {a b c : Json} (hab : alike a b = true) (hbc : alike b c = true) :
    alike a c = true := by
  match a with
  | .array xs =>
    obtain ⟨ys, rfl, hxy⟩ : ∃ ys, b = .array ys ∧ alikeItems xs ys = true := by
      simpa [sameNumber] using alike_cases hab
    obtain ⟨zs, rfl, hyz⟩ : ∃ zs, c = .array zs ∧ alikeItems ys zs = true := by
      simpa [sameNumber] using alike_cases hbc
    exact alikeItems_trans hxy hyz
  | .object xs =>
    obtain ⟨ys, rfl, hlength, hxy⟩ :
        ∃ ys, b = .object ys ∧ xs.length = ys.length ∧ alikeMembers xs ys = true := by
      simpa [sameNumber] using alike_cases hab
    obtain ⟨zs, rfl, hlength', hyz⟩ :
        ∃ zs, c = .object zs ∧ ys.length = zs.length ∧ alikeMembers ys zs = true := by
      simpa [sameNumber] using alike_cases hbc
    simp [alike, hlength, hlength', alikeMembers_trans hxy hyz]
  | .null =>
    obtain rfl : b = .null := by simpa [sameNumber] using alike_cases hab
    exact hbc
  | .string s =>
    obtain rfl : b = .string s := by simpa [sameNumber] using alike_cases hab
    exact hbc
  | .bool _ | .int _ | .float _ => exact alike_trans_of_number (by simp [magnitude?]) hab hbc

/-- Comparing arrays is transitive. -/
theorem alikeItems_trans {xs ys zs : List Json} (hxy : alikeItems xs ys = true)
    (hyz : alikeItems ys zs = true) : alikeItems xs zs = true := by
  match xs, ys, zs with
  | [], [], [] => rfl
  | x :: xs, y :: ys, z :: zs =>
    rw [alikeItems, Bool.and_eq_true] at hxy hyz ⊢
    exact ⟨alike_trans hxy.1 hyz.1, alikeItems_trans hxy.2 hyz.2⟩

/-- Comparing objects is transitive. -/
theorem alikeMembers_trans {xs ys zs : List (Text × Json)} (hxy : alikeMembers xs ys = true)
    (hyz : alikeMembers ys zs = true) : alikeMembers xs zs = true := by
  match xs with
  | [] => rfl
  | (k, x) :: xs =>
    obtain ⟨y, hy, hxy'⟩ := exists_of_alikeMembers hxy (List.mem_cons_self ..)
    obtain ⟨z, hz, hyz'⟩ := exists_of_alikeMembers hyz (mem_of_find? hy)
    rw [alikeMembers, Bool.and_eq_true] at hxy ⊢
    rw [hz]
    exact ⟨alike_trans hxy' hyz', alikeMembers_trans hxy.2 hyz⟩

end

/-- Equality goes from one value to the next. -/
theorem same_trans {a b c : Json} (hab : same a b = true) (hbc : same b c = true) :
    same a c = true := by
  -- of the first value alone it counts whether it is not a number
  have halike : ∀ {x y}, same x y = true → alike x y = true := by
    intro x y h
    unfold same at h
    split at h
    · cases h
    · exact h
  have hac := alike_trans (halike hab) (halike hbc)
  unfold same at hab ⊢
  split
  · cases hab
  · exact hac

end Json

end ContractAsm
