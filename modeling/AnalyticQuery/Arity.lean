import AnalyticQuery.Error

/-!
# Numbers of arguments

How many arguments a function, an operator or a geometry takes.
-/

namespace AnalyticQuery

/-- The accepted numbers of arguments. -/
inductive Arity where
  | exact (count : Nat)
  | range (min : Nat) (max : Option Nat)
  deriving DecidableEq, Repr

namespace Arity

/-- Any number of arguments from a minimum on. -/
def atLeast (min : Nat) : Arity := .range min none

/-- Any number of arguments between two bounds, both included. -/
def between (min max : Nat) : Arity := .range min (some max)

/-- Whether a number of arguments is accepted. -/
def accepts : Arity → Nat → Bool
  | .exact count, got => got == count
  | .range min max, got => min ≤ got && max.all (got ≤ ·)

/-- The accepted numbers in words. -/
def expectation : Arity → String
  | .exact count => s!"expected {count}"
  | .range min (some max) => s!"expected between {min} and {max}"
  | .range min none => s!"expected at least {min}"

/-- Fails unless the number of arguments is accepted. -/
def check (arity : Arity) (name : String) (got : Nat) : Result Unit :=
  if arity.accepts got then .ok ()
  else .error (.argsLength name s!"{arity.expectation}, got {got}")

/-- A check succeeds exactly for the accepted numbers. -/
theorem check_ok_iff (arity : Arity) (name : String) (got : Nat) :
    arity.check name got = .ok () ↔ arity.accepts got = true := by
  unfold check
  split <;> simp_all

end Arity

end AnalyticQuery
