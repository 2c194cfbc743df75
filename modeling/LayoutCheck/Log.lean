/-!
Messages that a computation leaves beside its value, and the level below which they are not shown.

`Logged` keeps the messages in the order in which they were logged; `value_bind` says that they
never influence the value.
-/

namespace LayoutCheck

/-- How serious a message is. -/
inductive Severity where
  | debug
  | info
  | warn
  | error
  deriving DecidableEq, Repr

namespace Severity

/-- Position in the order of seriousness. -/
def rank : Severity → Nat
  | debug => 0
  | info => 1
  | warn => 2
  | error => 3

def label : Severity → String
  | debug => "DEBUG"
  | info => "INFO"
  | warn => "WARN"
  | error => "ERROR"

end Severity

/-- The least serious messages that are shown; `silent` shows none. -/
inductive LogLevel where
  | debug
  | info
  | warn
  | error
  | silent
  deriving DecidableEq, Repr

namespace LogLevel

/-- The severity from which on messages are shown. -/
def threshold : LogLevel → Option Severity
  | debug => some .debug
  | info => some .info
  | warn => some .warn
  | error => some .error
  | silent => none

/-- A request for debugging overrides whatever level was asked for. -/
def withDebug (level : LogLevel) (debugging : Bool) : LogLevel :=
  if debugging then debug else level

end LogLevel

structure Message where
  severity : Severity
  text : String
  deriving DecidableEq, Repr

namespace Message

/-- The message as one text, led by its severity. -/
def render (m : Message) : String := m.severity.label ++ " " ++ m.text

def shownAt (level : LogLevel) (m : Message) : Bool :=
  match level.threshold with
  | some least => decide (least.rank ≤ m.severity.rank)
  | none => false

end Message

/-- A value and the messages logged while it was computed, oldest first. -/
structure Logged (α : Type) where
  value : α
  messages : List Message
  deriving DecidableEq, Repr

namespace Logged

variable {α β : Type}

def bind (x : Logged α) (f : α → Logged β) : Logged β :=
  let y := f x.value
  ⟨y.value, x.messages ++ y.messages⟩

instance : Monad Logged where
  pure a := ⟨a, []⟩
  bind := Logged.bind

/-- Logs messages and has no value of its own. -/
def tell (messages : List Message) : Logged Unit := ⟨(), messages⟩

@[simp] theorem value_pure (a : α) : (pure a : Logged α).value = a := rfl

@[simp] theorem messages_pure (a : α) : (pure a : Logged α).messages = [] := rfl

@[simp] theorem value_bind (x : Logged α) (f : α → Logged β) :
    (x >>= f).value = (f x.value).value := rfl

@[simp] theorem messages_bind (x : Logged α) (f : α → Logged β) :
    (x >>= f).messages = x.messages ++ (f x.value).messages := rfl

@[simp] theorem value_map (f : α → β) (x : Logged α) : (f <$> x).value = f x.value := rfl

@[simp] theorem messages_map (f : α → β) (x : Logged α) : (f <$> x).messages = x.messages := by
  simp [Functor.map, bind]

@[simp] theorem value_tell (ms : List Message) : (tell ms).value = () := rfl

@[simp] theorem messages_tell (ms : List Message) : (tell ms).messages = ms := rfl

instance : LawfulMonad Logged :=
  LawfulMonad.mk' Logged
    (fun x => by cases x; simp [Functor.map, Logged.bind])
    (fun a f => by simp [Bind.bind, Logged.bind, Pure.pure])
    (fun x f g => by simp [Bind.bind, Logged.bind, List.append_assoc])

end Logged

namespace Log

def debug (text : String) : Logged Unit := .tell [⟨.debug, text⟩]

def info (text : String) : Logged Unit := .tell [⟨.info, text⟩]

def warn (text : String) : Logged Unit := .tell [⟨.warn, text⟩]

def error (text : String) : Logged Unit := .tell [⟨.error, text⟩]

end Log

end LayoutCheck
