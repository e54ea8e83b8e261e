/-!
# Refusals and faults

An operation that checks its input refuses it with an error of its own type. An operation whose
caller has to guarantee the input stops with a `Fault` when the guarantee does not hold: a shift by
the whole word or more, a position outside the 64-bit range, or a refusal that nobody was ready to
take. Keeping the two apart in one result type makes it possible to state that checked operations
only ever refuse.
-/

set_option autoImplicit false

namespace WordFields

/-- Why an operation stopped although its caller vouched for the input. -/
inductive Fault where
  /-- The range of a mask ends past the word. -/
  | rangePastWord
  /-- A word was shifted by its width or more. -/
  | shiftTooFar
  /-- A difference of positions left the 64-bit range. -/
  | positionOverflow
  /-- The input was refused, with this text, in a form that has no way to refuse. -/
  | refused (text : String)
  deriving DecidableEq, Repr

def Fault.message : Fault → String
  | .rangePastWord => "assertion failed: self.end <= W::BITS"
  | .shiftTooFar => "attempt to shift with overflow"
  | .positionOverflow => "attempt to subtract with overflow"
  | .refused text => text

/-- How an operation ends without a value. -/
inductive Failure (ε : Type) where
  | refusal (error : ε)
  | fault (fault : Fault)
  deriving DecidableEq, Repr

/-- The result of an operation that can refuse its input with an `ε`. -/
abbrev Outcome (ε α : Type) := Except (Failure ε) α

namespace Outcome

variable {ε δ α : Type}

def refuse (error : ε) : Outcome ε α := .error (.refusal error)

def stop (fault : Fault) : Outcome ε α := .error (.fault fault)

/-- Restates every refusal; values and faults stay. -/
def mapRefusal (f : ε → δ) : Outcome ε α → Outcome δ α
  | .ok a => .ok a
  | .error (.refusal e) => refuse (f e)
  | .error (.fault t) => stop t

/-- The form for callers who vouch for the input: what would be refused is a fault with the
refusal's own text. -/
def demand (text : ε → String) : Outcome ε α → Outcome ε α
  | .ok a => .ok a
  | .error (.refusal e) => stop (.refused (text e))
  | .error (.fault t) => stop t

theorem demand_eq_ok_iff (text : ε → String) (r : Outcome ε α) (a : α) :
    r.demand text = .ok a ↔ r = .ok a := by
  rcases r with (_ | _) | _ <;> simp [demand, stop]

end Outcome

end WordFields
