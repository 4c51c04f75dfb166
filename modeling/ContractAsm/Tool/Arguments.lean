-- SUMMARY: Command-line arguments: options, their values and plain arguments.
import ContractAsm.Text.Basic

/-!
# Command-line arguments

Options and other arguments may be mixed. A long option takes its value behind an equals sign or
from the next argument; short options can be joined, and the rest of a joined argument is the value
of an option that takes one. Behind two dashes everything is a plain argument.
-/

namespace ContractAsm.Tool

/-- An option of a tool. -/
structure Flag (κ : Type) where
  key : κ
  short : Option Char
  long : String
  takesValue : Bool

/-- How a tool can be misused. -/
inductive Misuse where
  /-- There is no such option. -/
  | unknownOption
  /-- An option lacks its value, or has one that it does not take. -/
  | optionValue
  /-- The input file is not given. -/
  | missingInput
  /-- The value of a parameter is of no use. -/
  | badValue
  /-- There are more arguments than parameters. -/
  | extraArgument
  deriving DecidableEq, Repr

/-- The arguments of a call: the options in order, each with its value if it takes one, and the
plain arguments. -/
structure Arguments (κ : Type) where
  options : List (κ × Text)
  plain : List Text

namespace Arguments

def addOption (key : κ) (value : Text) (a : Arguments κ) : Arguments κ :=
  { a with options := (key, value) :: a.options }

def addPlain (value : Text) (a : Arguments κ) : Arguments κ :=
  { a with plain := value :: a.plain }

/-- The value that an option was given last. -/
def value? [BEq κ] (a : Arguments κ) (key : κ) : Option Text :=
  (a.options.reverse.find? (·.1 == key)).map (·.2)

/-- The options that were given, in the order in which each was given first, with the value that it
was given last. -/
def given [BEq κ] (a : Arguments κ) : List (κ × Text) :=
  (a.options.map (·.1)).eraseDups.filterMap fun key => (a.value? key).map fun value => (key, value)

def has [BEq κ] (a : Arguments κ) (key : κ) : Bool :=
  a.options.any (·.1 == key)

/-- The option among some that was given first. -/
def first? [BEq κ] (a : Arguments κ) (keys : List κ) : Option κ :=
  (a.options.map (·.1)).find? keys.contains

theorem has_eq_isSome [BEq κ] (a : Arguments κ) (key : κ) : a.has key = (a.value? key).isSome := by
  rw [has, value?, Option.isSome_map, List.isSome_find?, List.any_reverse]

theorem first?_eq_none [BEq κ] [LawfulBEq κ] {a : Arguments κ} {keys : List κ}
    (h : ∀ key ∈ keys, a.has key = false) : a.first? keys = none := by
  rw [first?, List.find?_eq_none]
  intro key hkey hcontains
  obtain ⟨option, hoption, rfl⟩ := List.mem_map.1 hkey
  have hhas : a.has option.1 = true := List.any_eq_true.2 ⟨option, hoption, beq_self_eq_true _⟩
  rw [h option.1 (List.contains_iff_mem.1 hcontains)] at hhas
  cases hhas

theorem value?_of_mem_given [BEq κ] {a : Arguments κ} {key : κ} {value : Text}
    (h : (key, value) ∈ a.given) : a.value? key = some value := by
  obtain ⟨key', -, hgiven⟩ := List.mem_filterMap.1 h
  obtain ⟨value', hvalue, hpair⟩ := Option.map_eq_some_iff.1 hgiven
  cases hpair
  exact hvalue

/-- What one argument gives: options, and an option that waits for its value. -/
structure Reading (κ : Type) where
  options : List (κ × Text)
  waiting : Option κ

def readShort (flags : List (Flag κ)) : Text → Except Misuse (Reading κ)
  | [] => .ok ⟨[], none⟩
  | c :: rest =>
    match flags.find? (·.short == some c) with
    | none => .error .unknownOption
    | some flag =>
      if flag.takesValue then
        if rest.isEmpty then .ok ⟨[], some flag.key⟩ else .ok ⟨[(flag.key, rest)], none⟩
      else (readShort flags rest).map fun r => { r with options := (flag.key, []) :: r.options }

/-- Reads an argument that starts with a dash. -/
def readOption (flags : List (Flag κ)) (arg : Text) : Except Misuse (Reading κ) :=
  let name := arg.takeWhile (· != '=')
  match flags.find? (·.long.toList == name), arg.drop name.length with
  | some flag, [] => .ok (if flag.takesValue then ⟨[], some flag.key⟩ else ⟨[(flag.key, [])], none⟩)
  | some flag, _ :: value =>
    if flag.takesValue then .ok ⟨[(flag.key, value)], none⟩ else .error .optionValue
  | none, _ =>
    if "--".toList.isPrefixOf arg then .error .unknownOption else readShort flags (arg.drop 1)

/-- Reads arguments; the first is the value of an option that waits for one. -/
def readFrom (flags : List (Flag κ)) (waiting : Option κ) :
    List Text → Except Misuse (Arguments κ)
  | [] => if waiting.isSome then .error .optionValue else .ok ⟨[], []⟩
  | arg :: rest =>
    match waiting with
    | some key => (readFrom flags none rest).map (addOption key arg)
    | none =>
      if arg = "--".toList then .ok ⟨[], rest⟩
      else if arg.head? = some '-' ∧ 1 < arg.length then do
        let r ← readOption flags arg
        let a ← readFrom flags r.waiting rest
        return r.options.foldr (fun (key, value) a => a.addOption key value) a
      else (readFrom flags none rest).map (addPlain arg)

def read (flags : List (Flag κ)) (args : List Text) : Except Misuse (Arguments κ) :=
  readFrom flags none args

end Arguments

end ContractAsm.Tool
