-- SUMMARY: Scripts: requests to the world around a tool, and running them.
import ContractAsm.Text.Control
import ContractAsm.Tool.FileSystem

/-!
# Scripts

A script is a tree of requests to the outside: each node asks for something and goes on with the
answer. A script runs over a file system that is a value, and equally over a real one.
-/

namespace ContractAsm.Tool

/-- Where text is printed. -/
inductive Stream where
  | output
  | error
  deriving DecidableEq, Repr

/-- A program that looks at paths, reads and writes files, and prints. -/
inductive Script (α : Type) where
  | done (a : α)
  | look (path : Text) (next : Option Node → Script α)
  | read (path : Text) (next : Except FileFault Bytes → Script α)
  | write (path : Text) (contents : Bytes) (next : Except FileFault Unit → Script α)
  | print (stream : Stream) (text : Text) (next : Script α)

namespace Script

/-- Goes on with another script. -/
def bind : Script α → (α → Script β) → Script β
  | .done a, f => f a
  | .look path next, f => .look path fun r => (next r).bind f
  | .read path next, f => .read path fun r => (next r).bind f
  | .write path contents next, f => .write path contents fun r => (next r).bind f
  | .print stream text next, f => .print stream text (next.bind f)

instance : Monad Script where
  pure := .done
  bind := bind

def line (stream : Stream) (text : String) : Script Unit :=
  .print stream (text.toList ++ ['\n']) (.done ())

def lines (stream : Stream) : List String → Script Unit
  | [] => .done ()
  | text :: rest => (line stream text).bind fun _ => lines stream rest

/-- Prints a text without its control sequences. -/
def display (stream : Stream) (text : Text) : Script Unit :=
  .print stream (Text.withoutControls text) (.done ())

/-- Prints lines without their control sequences. -/
def displayLines (stream : Stream) (texts : List String) : Script Unit :=
  lines stream (texts.map fun text => String.ofList (Text.withoutControls text.toList))

/-- What scripts see and change. -/
structure World where
  files : FileSystem
  output : Text
  error : Text

def World.print (w : World) (stream : Stream) (text : Text) : World :=
  match stream with
  | .output => { w with output := w.output ++ text }
  | .error => { w with error := w.error ++ text }

def run : Script α → World → α × World
  | .done a, w => (a, w)
  | .look path next, w => (next (w.files.look path)).run w
  | .read path next, w => (next (w.files.read path)).run w
  | .write path contents next, w =>
    match w.files.write path contents with
    | .ok files => (next (.ok ())).run { w with files }
    | .error f => (next (.error f)).run w
  | .print stream text next, w => next.run (w.print stream text)

@[simp] theorem run_pure (a : α) (w : World) : (pure a : Script α).run w = (a, w) := rfl

@[simp] theorem run_bind (s : Script α) (f : α → Script β) (w : World) :
    (s >>= f).run w = (f (s.run w).1).run (s.run w).2 := by
  change (s.bind f).run w = _
  induction s generalizing w with
  | done a => rfl
  | look path next ih => exact ih _ w
  | read path next ih => exact ih _ w
  | write path contents next ih =>
    simp only [bind, run]
    cases w.files.write path contents with
    | ok files => exact ih _ _
    | error f => exact ih _ _
  | print stream text next ih => exact ih _

end Script

end ContractAsm.Tool
