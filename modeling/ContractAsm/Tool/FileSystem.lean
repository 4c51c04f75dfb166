-- SUMMARY: File systems as trees of directories and files, and the paths through them.
import ContractAsm.Text.Quoted
import ContractAsm.Text.Utf8

/-!
# File systems

A file system is a tree of directories and files around a working directory. Paths are followed part
by part, and every part but the last has to lead to a directory.
-/

namespace ContractAsm.Tool

/-- What a path leads to. -/
inductive Node where
  | file (contents : Bytes)
  | directory
  deriving DecidableEq, Repr

/-- Why a path cannot be read or written. -/
inductive FileFault where
  | notFound
  | isDirectory
  | notDirectory
  | nameTooLong
  /-- The path holds the null character, which no name can. -/
  | nullCharacter
  deriving DecidableEq, Repr

def FileFault.refusal [Platform] (number : Nat) (what : String) (path : Text) : String :=
  s!"[Errno {number}] {what}: {String.ofList (Text.quoted path)}"

def FileFault.message [Platform] (f : FileFault) (path : Text) : String :=
  match f with
  | .notFound => refusal 2 "No such file or directory" path
  | .notDirectory => refusal 20 "Not a directory" path
  | .isDirectory => refusal 21 "Is a directory" path
  | .nameTooLong => refusal 36 "File name too long" path
  | .nullCharacter => "embedded null byte"

/-- A place in the tree: the names on the way to it from the working directory. The way may start
with steps up, or at the root instead. -/
abbrev Place := List Text

namespace Place

def stepUp : Text := "..".toList

/-- The name of the root, which no other place has. -/
def rootName : Text := "/".toList

def root : Place := [rootName]

/-- Whether a place is the working directory or below it. -/
def isLocal (place : Place) : Bool :=
  place.head? != some stepUp && place.head? != some rootName

/-- Whether a place is a directory in every tree: the root, the working directory, or one above
it. -/
def isGiven (place : Place) : Bool :=
  place == root || place.all (· == stepUp)

/-- The directory that a place is in. The root is in itself. -/
def parent (place : Place) : Place :=
  if place == root then root
  else if place.all (· == stepUp) then place ++ [stepUp]
  else place.dropLast

end Place

/-- The nodes of a tree, by their places. Directories that every tree has are not listed. -/
structure FileSystem where
  nodes : List (Place × Node)
  deriving DecidableEq, Repr

namespace FileSystem

/-- What there is around an empty working directory. -/
def fresh : FileSystem := ⟨[
  (["/".toList, "dev".toList], .directory),
  (["/".toList, "dev".toList, "null".toList], .file []),
  (["/".toList, "tmp".toList], .directory)]⟩

def node? (fs : FileSystem) (place : Place) : Option Node :=
  if place.isGiven then some .directory
  else (fs.nodes.find? (·.1 == place)).map (·.2)

/-- Puts a node at a place: instead of what is there, or in addition to the rest. -/
def putNode (place : Place) (node : Node) : List (Place × Node) → List (Place × Node)
  | [] => [(place, node)]
  | (p, n) :: rest => if p = place then (p, node) :: rest else (p, n) :: putNode place node rest

def put (fs : FileSystem) (place : Place) (node : Node) : FileSystem :=
  ⟨putNode place node fs.nodes⟩

theorem node?_put_self (fs : FileSystem) {place : Place} (node : Node)
    (h : place.isGiven = false) : (fs.put place node).node? place = some node := by
  obtain ⟨nodes⟩ := fs
  induction nodes with
  | nil => simp [put, putNode, node?, h]
  | cons entry rest ih =>
    obtain ⟨p, n⟩ := entry
    by_cases hp : p = place
    · simp [put, putNode, node?, h, hp]
    · simpa [put, putNode, node?, h, hp] using ih

theorem node?_put_of_ne (fs : FileSystem) {place other : Place} (node : Node)
    (h : other ≠ place) : (fs.put place node).node? other = fs.node? other := by
  obtain ⟨nodes⟩ := fs
  by_cases hg : other.isGiven
  · simp [node?, hg]
  · induction nodes with
    | nil => simp [put, putNode, node?, hg, h.symm]
    | cons entry rest ih =>
      obtain ⟨p, n⟩ := entry
      by_cases hp : p = place
      · simp [put, putNode, node?, hg, hp, h.symm]
      · by_cases ho : p = other
        · subst ho
          simp [put, putNode, node?, hg, hp]
        · simpa [put, putNode, node?, hg, hp, ho] using ih

/-! ## Following paths -/

/-- The greatest length of a name, in bytes. -/
def nameLimit : Nat := 255

/-- The greatest length of a path, in bytes. -/
def pathLimit : Nat := 4095

/-- Follows the parts of a path from a place on. Each step starts from a directory. -/
def follow (fs : FileSystem) (place : Place) : List Text → Except FileFault Place
  | [] => .ok place
  | part :: rest =>
    match fs.node? place with
    | none => .error .notFound
    | some (.file _) => .error .notDirectory
    | some .directory =>
      if part.isEmpty || part == ['.'] then fs.follow place rest
      else if part == Place.stepUp then fs.follow place.parent rest
      else if nameLimit < (Utf8.encode part).length then .error .nameTooLong
      else fs.follow (place ++ [part]) rest

/-- The place that a path leads to. The empty path leads nowhere. -/
def place (fs : FileSystem) (path : Text) : Except FileFault Place :=
  if '\x00' ∈ path then .error .nullCharacter
  else if pathLimit < (Utf8.encode path).length then .error .nameTooLong
  else match path with
    | [] => .error .notFound
    | '/' :: rest => fs.follow Place.root (rest.splitOn '/')
    | path => fs.follow [] (path.splitOn '/')

/-! ## Reading and writing -/

def look (fs : FileSystem) (path : Text) : Option Node :=
  match fs.place path with
  | .ok place => fs.node? place
  | .error _ => none

def read (fs : FileSystem) (path : Text) : Except FileFault Bytes := do
  match fs.node? (← fs.place path) with
  | some (.file contents) => return contents
  | some .directory => throw .isDirectory
  | none => throw .notFound

/-- Writes a file, which need not be there. -/
def write (fs : FileSystem) (path : Text) (contents : Bytes) : Except FileFault FileSystem := do
  let place ← fs.place path
  match fs.node? place with
  | some .directory => throw .isDirectory
  | _ => return fs.put place (.file contents)

end FileSystem

end ContractAsm.Tool
