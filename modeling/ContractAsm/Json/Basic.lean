-- SUMMARY: JSON values: members, equality, and how they are shown.
import ContractAsm.Number.Binary64
import ContractAsm.Text.Quoted

/-!
# JSON values

Debug directives carry JSON values. Integers and floating-point numbers are kept apart, objects
keep the order of their keys, and two values are compared by what they stand for.
-/

namespace ContractAsm

/-- A JSON value. The keys of an object are distinct. -/
inductive Json where
  | null
  | bool (value : Bool)
  | int (value : Int)
  | float (value : Binary64)
  | string (value : Text)
  | array (items : List Json)
  | object (members : List (Text × Json))

namespace Json

instance : Inhabited Json := ⟨.null⟩

/-! ## Members -/

def find? (key : Text) : List (Text × Json) → Option Json
  | [] => none
  | (k, v) :: rest => if k = key then some v else find? key rest

/-- Puts a value under a key: in the place of the key if it is there, else at the end. -/
def put (key : Text) (value : Json) : List (Text × Json) → List (Text × Json)
  | [] => [(key, value)]
  | (k, v) :: rest => if k = key then (k, value) :: rest else (k, v) :: put key value rest

theorem find?_put_self (key : Text) (value : Json) (members : List (Text × Json)) :
    find? key (put key value members) = some value := by
  induction members with
  | nil => simp [put, find?]
  | cons member rest ih =>
    obtain ⟨k, v⟩ := member
    by_cases h : k = key
    · simp [put, find?, h]
    · simp [put, find?, h, ih]

theorem find?_put_of_ne {key other : Text} (value : Json) (members : List (Text × Json))
    (h : other ≠ key) : find? other (put key value members) = find? other members := by
  induction members with
  | nil => simp [put, find?, h.symm]
  | cons member rest ih =>
    obtain ⟨k, v⟩ := member
    by_cases hk : k = key
    · simp [put, find?, hk, h.symm]
    · simp [put, find?, hk, ih]

/-! ## Comparing -/

/-- A truth value counts as the integer 1 or 0. -/
def boolInt (b : Bool) : Int :=
  if b then 1 else 0

/-- Equality of numbers across their kinds. -/
def sameNumber : Json → Json → Bool
  | .bool a, .bool b => a == b
  | .bool a, .int n => boolInt a == n
  | .bool a, .float x => x.sameInt (boolInt a)
  | .int n, .bool b => n == boolInt b
  | .int n, .int m => n == m
  | .int n, .float x => x.sameInt n
  | .float x, .bool b => x.sameInt (boolInt b)
  | .float x, .int n => x.sameInt n
  | .float x, .float y => x.sameValue y
  | _, _ => false

mutual

/-- Equality of values inside of containers, where not-a-number equals itself. -/
def alike : Json → Json → Bool
  | .null, .null => true
  | .string s, .string t => s == t
  | .array xs, .array ys => alikeItems xs ys
  | .object xs, .object ys => xs.length == ys.length && alikeMembers xs ys
  | a, b => sameNumber a b

def alikeItems : List Json → List Json → Bool
  | [], [] => true
  | x :: xs, y :: ys => alike x y && alikeItems xs ys
  | _, _ => false

/-- Every member of the first object is in the second, under the same key. -/
def alikeMembers : List (Text × Json) → List (Text × Json) → Bool
  | [], _ => true
  | (k, x) :: xs, ys =>
    (match find? k ys with
      | some y => alike x y
      | none => false) && alikeMembers xs ys

end

/-- Equality of two values, where not-a-number by itself equals nothing. -/
def same (a b : Json) : Bool :=
  match a with
  | .float .nan => false
  | _ => alike a b

/-- The values that count as nothing: null, false, zero, and what is empty. -/
def isNothing : Json → Bool
  | .null => true
  | .bool b => !b
  | .int n => n == 0
  | .float x => x.isZero
  | .string s => s.isEmpty
  | .array items => items.isEmpty
  | .object members => members.isEmpty

/-! ## Showing

The text of a value in messages and in substituted locations: a string by itself is shown as it
is, and between quotes inside of a container. -/

section

variable [Platform]

mutual

/-- A value as it is shown inside of a container. -/
def quoted : Json → Text
  | .null => "None".toList
  | .bool b => (if b then "True" else "False").toList
  | .int n => Numeral.decimal n
  | .float x => x.toText
  | .string s => Text.quoted s
  | .array items => '[' :: quotedItems items ++ [']']
  | .object members => '{' :: quotedMembers members ++ ['}']

def quotedItems : List Json → Text
  | [] => []
  | [x] => quoted x
  | x :: xs => quoted x ++ ", ".toList ++ quotedItems xs

def quotedMembers : List (Text × Json) → Text
  | [] => []
  | [(k, x)] => Text.quoted k ++ ": ".toList ++ quoted x
  | (k, x) :: xs => Text.quoted k ++ ": ".toList ++ quoted x ++ ", ".toList ++ quotedMembers xs

end

/-- A value as it is shown by itself. -/
def shown : Json → Text
  | .string s => s
  | v => quoted v

end

end Json

end ContractAsm
