-- SUMMARY: Computations that may fail and report as they go.
/-!
# Logged computations

A computation may fail and reports as it goes. What it reported before a failure is kept. The
result of a sequence is the sequence of the results, whatever was reported.
-/

namespace ContractAsm

/-- The weight of a report. -/
inductive Level where
  | debug
  | info
  | warning
  | error
  | critical
  deriving DecidableEq, Repr

namespace Level

/-- All levels, the least weight first. -/
def all : List Level :=
  [.debug, .info, .warning, .error, .critical]

def name : Level → String
  | .debug => "DEBUG"
  | .info => "INFO"
  | .warning => "WARNING"
  | .error => "ERROR"
  | .critical => "CRITICAL"

def weight : Level → Nat
  | .debug => 10
  | .info => 20
  | .warning => 30
  | .error => 40
  | .critical => 50

end Level

structure LogEntry where
  level : Level
  message : String
  deriving DecidableEq, Repr

/-- A result or a failure, with the reports made on the way to it. -/
structure Logged (ε α : Type) where
  log : List LogEntry
  result : Except ε α

namespace Logged

/-- Runs the second computation on the result of the first. -/
def bind (x : Logged ε α) (f : α → Logged ε β) : Logged ε β :=
  match x.result with
  | .ok a =>
    let y := f a
    ⟨x.log ++ y.log, y.result⟩
  | .error e => ⟨x.log, .error e⟩

instance : Monad (Logged ε) where
  pure a := ⟨[], .ok a⟩
  bind := bind

def report (level : Level) (message : String) : Logged ε Unit :=
  ⟨[⟨level, message⟩], .ok ()⟩

def fail (e : ε) : Logged ε α :=
  ⟨[], .error e⟩

/-- A result or a failure without a report. -/
def ofExcept (x : Except ε α) : Logged ε α :=
  ⟨[], x⟩

@[simp] theorem result_pure (a : α) : (pure a : Logged ε α).result = .ok a := rfl

@[simp] theorem log_pure (a : α) : (pure a : Logged ε α).log = [] := rfl

@[simp] theorem result_bind (x : Logged ε α) (f : α → Logged ε β) :
    (x >>= f).result = x.result >>= fun a => (f a).result := by
  cases x with
  | mk log result => cases result <;> rfl

/-- A sequence succeeds just if both of its parts do. -/
theorem result_bind_eq_ok_iff {x : Logged ε α} {f : α → Logged ε β} {b : β} :
    (x >>= f).result = .ok b ↔ ∃ a, x.result = .ok a ∧ (f a).result = .ok b := by
  rw [result_bind]
  cases x.result with
  | error e => simp [Bind.bind, Except.bind]
  | ok a => simp [Bind.bind, Except.bind]

@[simp] theorem result_report (level : Level) (message : String) :
    (report level message : Logged ε Unit).result = .ok () := rfl

@[simp] theorem result_fail (e : ε) : (fail e : Logged ε α).result = .error e := rfl

@[simp] theorem result_ofExcept (x : Except ε α) : (ofExcept x).result = x := rfl

@[simp] theorem log_ofExcept (x : Except ε α) : (ofExcept x).log = [] := rfl

theorem bind_pure_id (x : Logged ε α) : x.bind pure = x := by
  cases x with
  | mk log result => cases result <;> simp [bind]

theorem bind_bind (x : Logged ε α) (f : α → Logged ε β) (g : β → Logged ε γ) :
    (x.bind f).bind g = x.bind fun a => (f a).bind g := by
  cases x with
  | mk log result =>
    cases result with
    | error e => rfl
    | ok a => cases h : (f a).result <;> simp [bind, h]

instance : LawfulMonad (Logged ε) :=
  LawfulMonad.mk' _ bind_pure_id (fun _ _ => rfl) bind_bind

end Logged

end ContractAsm
