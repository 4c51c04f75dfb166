-- SUMMARY: Paths in their plain form.
import ContractAsm.Text.Basic

/-!
# Paths

A path is brought to a normal form, without empty parts and parts that stay in place. Parts that go
up are kept.
-/

namespace ContractAsm.Tool

/-- A path in normal form. The root is empty for a relative path. -/
structure Path where
  root : Text
  parts : List Text
  deriving DecidableEq, Repr

namespace Path

/-- The root that a text starts with: exactly two slashes are kept, any other number is one. -/
def rootOf (t : Text) : Text :=
  match (t.takeWhile (· == '/')).length with
  | 0 => []
  | 2 => "//".toList
  | _ => "/".toList

def ofText (t : Text) : Path :=
  ⟨rootOf t, (t.splitOn '/').filter fun part => !part.isEmpty && part != ['.']⟩

/-- The text of a path. The path without parts is the working directory. -/
def toText (p : Path) : Text :=
  match p.root ++ ['/'].intercalate p.parts with
  | [] => ['.']
  | t => t

/-- Takes the suffix off a file name: what follows the last point, unless the name starts or ends
with that point. -/
def stem (name : Text) : Text :=
  let tail := name.reverse.takeWhile (· != '.')
  let stem := name.take (name.length - tail.length - 1)
  if tail.isEmpty || stem.isEmpty || tail.length == name.length then name else stem

/-- Replaces the suffix of the last part, or adds one. -/
def withSuffix (p : Path) (suffix : Text) : Path :=
  match p.parts.getLast? with
  | some name => { p with parts := p.parts.dropLast ++ [stem name ++ suffix] }
  | none => p

end Path

end ContractAsm.Tool
