/-!
# Log records

What an operation logs is part of its result: a `Logged` value carries its records in the order in
which they are emitted.
-/

set_option autoImplicit false

namespace WordFields

inductive LogLevel where
  | warn | debug | trace
  deriving DecidableEq, Repr

def LogLevel.name : LogLevel → String
  | .warn => "WARN"
  | .debug => "DEBUG"
  | .trace => "TRACE"

structure LogRecord where
  level : LogLevel
  text : String
  deriving DecidableEq, Repr

structure Logged (α : Type) where
  value : α
  log : List LogRecord
  deriving DecidableEq, Repr

namespace Logged

variable {α : Type}

/-- A value with nothing logged. -/
def quiet (value : α) : Logged α := ⟨value, []⟩

/-- The same result after the records `first`. -/
def after (first : List LogRecord) (result : Logged α) : Logged α :=
  ⟨result.value, first ++ result.log⟩

end Logged

end WordFields
