-- SUMMARY: A store of symbols that answers calls and keeps the order of substitution.
import ContractAsm.Symbol

/-!
# Symbol stores

A store holds a symbol table through a sequence of calls. The order in which the definitions are
substituted is worked out at the first substitution and kept for the next ones, until there is a new
definition.
-/

namespace ContractAsm

/-- A symbol table, and its order of substitution if that has been worked out. -/
structure SymbolStore where
  table : SymbolTable
  order? : Option (List Definition)
  deriving DecidableEq, Repr

namespace SymbolStore

def empty : SymbolStore := ⟨.empty, none⟩

/-- Adds a definition and gives up the order of substitution. -/
def define (store : SymbolStore) (d : Definition) : Logged Failure SymbolStore := do
  return ⟨← store.table.define d, none⟩

/-- Carries out a define statement. Without a target it makes no definition, so the order of
substitution stays. -/
def defineStatement (store : SymbolStore) (operands : Text) (statementIndex sourceLine : Int) :
    Logged Failure (SymbolStore × Option Definition) := do
  match ← store.table.defineStatement operands statementIndex sourceLine with
  | (table, some d) => return (⟨table, none⟩, some d)
  | (table, none) => return (⟨table, store.order?⟩, none)

/-- Replaces every defined name of a line by its location, and keeps the order in which it does. -/
def substitute (store : SymbolStore) (line : Text) : SymbolStore × Text :=
  let order := store.order?.getD store.table.byLength
  (⟨store.table, some order⟩, order.foldl (fun line d => d.substitute line) line)

/-! ## Calls -/

inductive Call where
  | define (d : Definition)
  | defineStatement (operands : Text) (statementIndex sourceLine : Int)
  | get (name : Text)
  | byLength
  | substitute (line : Text)
  deriving DecidableEq, Repr

/-- What a store answers: the definition that was made, a location, the definitions by length, or a
line. -/
inductive Answer where
  | made (d : Option Definition)
  | location (location : Option Text)
  | definitions (ds : List Definition)
  | line (line : Text)
  deriving DecidableEq, Repr

/-- The store after a call that may fail, and its answer. A call that fails changes nothing. -/
def settle (store : SymbolStore) (x : Logged Failure (SymbolStore × Answer)) :
    SymbolStore × Logged Failure Answer :=
  match x.result with
  | .ok (next, answer) => (next, ⟨x.log, .ok answer⟩)
  | .error e => (store, ⟨x.log, .error e⟩)

def step (store : SymbolStore) : Call → SymbolStore × Logged Failure Answer
  | .define d => store.settle do
    return (← store.define d, .made (some d))
  | .defineStatement operands statementIndex sourceLine => store.settle do
    let (next, d) ← store.defineStatement operands statementIndex sourceLine
    return (next, .made d)
  | .get name => (store, pure (.location (store.table.get? name)))
  | .byLength => (store, pure (.definitions store.table.byLength))
  | .substitute line =>
    let (next, line) := store.substitute line
    (next, pure (.line line))

end SymbolStore

end ContractAsm
