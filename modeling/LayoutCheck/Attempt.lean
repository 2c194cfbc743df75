import LayoutCheck.Log

/-!
Computations that log messages and may fail.

What was logged before a failure stays logged. `outcome_bind` and `messages_bind` say what becomes
of the outcome and of the messages when one computation follows another.
-/

namespace LayoutCheck

abbrev Attempt (ε α : Type) := ExceptT ε Logged α

namespace Attempt

variable {ε α β : Type}

/-- The value or the failure. -/
def outcome (x : Attempt ε α) : Except ε α := x.run.value

/-- What was logged, oldest first. -/
def messages (x : Attempt ε α) : List Message := x.run.messages

/-- Turns the failure into one of another kind. -/
def mapError {δ : Type} (f : ε → δ) (x : Attempt ε α) : Attempt δ α :=
  ExceptT.mk ((fun r => r.mapError f) <$> x.run)

@[simp] theorem outcome_pure (a : α) : outcome (pure a : Attempt ε α) = .ok a := rfl

@[simp] theorem messages_pure (a : α) : messages (pure a : Attempt ε α) = [] := rfl

@[simp] theorem outcome_throw (e : ε) : outcome (throw e : Attempt ε α) = .error e := rfl

@[simp] theorem messages_throw (e : ε) : messages (throw e : Attempt ε α) = [] := rfl

@[simp] theorem outcome_lift (x : Logged α) :
    outcome (ExceptT.lift x : Attempt ε α) = .ok x.value := rfl

@[simp] theorem messages_lift (x : Logged α) :
    messages (ExceptT.lift x : Attempt ε α) = x.messages := by
  simp [messages]

theorem outcome_bind (x : Attempt ε α) (f : α → Attempt ε β) :
    outcome (x >>= f) = (outcome x).bind (fun a => outcome (f a)) := by
  simp only [outcome, ExceptT.run_bind, Logged.value_bind]
  cases x.run.value <;> rfl

theorem messages_bind (x : Attempt ε α) (f : α → Attempt ε β) :
    messages (x >>= f) =
      match outcome x with
      | .ok a => messages x ++ messages (f a)
      | .error _ => messages x := by
  simp only [messages, outcome, ExceptT.run_bind, Logged.messages_bind]
  cases x.run.value <;> simp

@[simp] theorem outcome_mapError {δ : Type} (f : ε → δ) (x : Attempt ε α) :
    outcome (mapError f x) = (outcome x).mapError f := rfl

@[simp] theorem messages_mapError {δ : Type} (f : ε → δ) (x : Attempt ε α) :
    messages (mapError f x) = messages x := by
  simp [messages, mapError]

end Attempt

end LayoutCheck
