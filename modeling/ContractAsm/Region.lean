-- SUMMARY: Debug regions, and the collector that directives act on.
import ContractAsm.Directive
import ContractAsm.Symbol
import ContractAsm.Variable

/-!
# Debug regions

Directives divide a program into regions. An opening directive starts a region and completes the one
before it, a closing directive sets its end, and source-line directives tie statements to lines of
the compiled source. All offsets count from the body of the program, whose place is looked up anew
at every directive.

The regions are numbered in the order in which they are opened. A collector keeps them by number,
together with the numbers of the completed ones. A step that fails may already have completed a
region, which then is completed again by a later step; hence a number can be listed more than once.
-/

namespace ContractAsm

/-- The debug information of one region. The code is its tag, null if there is none. The body is the
size of the preamble and is set on the first record of a program only. -/
structure Region where
  code : Json
  start : Int
  stop : Option Int
  marks : List (Int × Json)
  body : Option Int
  declared : List Json

namespace Region

/-- A region when it is opened. -/
def fresh (payload : List (Text × Json)) (start : Int) : Region where
  code := Directive.tag ⟨.opening, payload⟩
  start := start
  stop := none
  marks := []
  body := none
  declared := Directive.declared ⟨.opening, payload⟩

/-- Whether a line of the compiled source is marked already. -/
def hasMark (r : Region) (srcline : Json) : Bool :=
  r.marks.any fun (_, marked) => Json.same marked srcline

/-- The variables that the region declares. A tag that counts as nothing gives an empty label. -/
def scope (r : Region) : Scope where
  label := if r.code.isNothing then .string [] else r.code
  entries := r.declared

def toJson (r : Region) : Json :=
  let member (key : String) (value : Option Json) : List (Text × Json) :=
    value.toList.map (key.toList, ·)
  .object <|
    (match r.code with
      | .null => []
      | code => member "code" code)
    ++ member "begin" (some (.int r.start))
    ++ member "end" (r.stop.map .int)
    ++ member "lines" (some (.array (r.marks.map fun (o, line) => .array [.int o, line])))
    ++ member "body" (r.body.map .int)

end Region

/-- Whether directives have a region to act on, and whether its end is set. -/
inductive RegionState where
  | none
  | opened
  | closed
  deriving DecidableEq, Repr

/-- The regions of a program while it is read: all of them by number, the numbers of the completed
ones, whether the last one opened is still current, the number of the global one, and the state. -/
structure Collector where
  regions : List Region
  completed : List Nat
  active : Bool
  global : Option Nat
  state : RegionState

namespace Collector

def empty : Collector := ⟨[], [], false, none, .none⟩

/-! ## Views -/

/-- The region that directives act on. -/
def current? (c : Collector) : Option Region :=
  if c.active then c.regions.getLast? else none

def records (c : Collector) : List Region :=
  c.completed.filterMap (c.regions[·]?)

def global? (c : Collector) : Option Region :=
  c.global.bind (c.regions[·]?)

/-! ## Updates -/

/-- Completes the current region, if there is one. The first that is completed is the global one
from then on. -/
def complete (c : Collector) : Collector :=
  if c.state = .none then c
  else
    let number := c.regions.length - 1
    { c with completed := c.completed ++ [number], global := c.global.or (some number) }

/-- Adds a region, which becomes current. -/
def push (c : Collector) (r : Region) : Collector :=
  { c with regions := c.regions ++ [r], active := true, state := .opened }

def updateCurrent (c : Collector) (f : Region → Region) : Collector :=
  { c with regions := c.regions.modify (c.regions.length - 1) f }

def close (c : Collector) (stop : Int) : Collector :=
  { c.updateCurrent fun r => { r with stop := some stop } with state := .closed }

def updateFirst (c : Collector) (f : Region → Region) : Collector :=
  match c.completed with
  | [] => c
  | number :: _ => { c with regions := c.regions.modify number f }

/-- Gives the current region up. -/
def release (c : Collector) : Collector :=
  { c with active := false, state := .none }

/-! ## Steps

A step gives the collector after it, also when it fails. -/

/-- The collector after a step, and the outcome of the step. -/
abbrev Step := Collector × Logged Failure Unit

/-- Goes on with the size of the preamble, or stays where it is if that cannot be read. -/
def withPreamble (c : Collector) (symbols : SymbolTable) (f : Int → Step) : Step :=
  let size := symbols.preambleSize
  match size.result with
  | .ok n =>
    let (next, outcome) := f n
    (next, ⟨size.log ++ outcome.log, outcome.result⟩)
  | .error e => (c, ⟨size.log, .error e⟩)

section

variable [Platform]

/-- Reports what happened to a region and at which offset. -/
def reportOffset (what : String) (code : Json) (offset : Int) : Logged Failure Unit := do
  let text ← Logged.ofConversion (Numeral.write offset)
  Logged.report .debug
    s!"{what} region '{String.ofList code.shown}' at offset {String.ofList text}"

/-- Completes the current region and opens a new one. The completion stays if the offset of the new
region cannot be read. -/
def openRegion (c : Collector) (symbols : SymbolTable) (payload : List (Text × Json))
    (index : Int) : Step :=
  let c := c.complete
  c.withPreamble symbols fun size =>
    let r := Region.fresh payload (index - size)
    (c.push r, reportOffset "Opened" r.code r.start)

def closeRegion (c : Collector) (symbols : SymbolTable) (index : Int) : Step :=
  if c.state = .none then
    (c, Logged.report .debug "close directive outside of any region, ignored")
  else
    c.withPreamble symbols fun size =>
      let stop := index - size
      let code := (c.current?.map (·.code)).getD .null
      (c.close stop, reportOffset "Closed" code stop)

/-- Ties the next statement to a line of the compiled source, unless the line is marked already. -/
def markLine (c : Collector) (symbols : SymbolTable) (srcline : Json) (index : Int) : Step :=
  if c.state = .none then (c, pure ())
  else if c.current?.any (·.hasMark srcline) then (c, pure ())
  else c.withPreamble symbols fun size =>
    (c.updateCurrent fun r => { r with marks := r.marks ++ [(index - size, srcline)] }, pure ())

def apply (c : Collector) (symbols : SymbolTable) (d : Directive) (index lineNumber : Int) : Step :=
  match d.kind with
  | .opening => c.openRegion symbols d.payload index
  | .closing => c.closeRegion symbols index
  | .sourceLine => c.markLine symbols d.markedLine index
  | .unknown =>
    (c, Logged.report .debug s!"line {lineNumber}: ignoring directive without known key")

/-- Carries out a directive line. A line that is no directive after all is reported and ignored. -/
def consume (c : Collector) (symbols : SymbolTable) (line : Text) (index lineNumber : Int) : Step :=
  match Directive.decode line with
  | .ok (.ok d) => c.apply symbols d index lineNumber
  | .ok (.error f) =>
    (c, Logged.report .warning
      s!"Failed to parse debug info: {String.ofList line} ({f.message})")
  | .error l => (c, Logged.fail (.limit l))

end

/-- Completes the current region. The first record then takes the end of the current region and
notes the size of the preamble. -/
def finish (c : Collector) (symbols : SymbolTable) : Step :=
  if c.state = .none then (c, pure ())
  else
    let stop := c.current?.bind (·.stop)
    let c := c.complete.updateFirst fun first => { first with stop }
    c.withPreamble symbols fun size =>
      ((c.updateFirst fun first => { first with body := some size }).release, pure ())

end Collector

end ContractAsm
