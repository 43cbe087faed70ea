import AnalyticQuery.Sql.Position

/-!
# Faults in SQL text

Why text is not SQL, in words that name the place of the fault.
-/

namespace AnalyticQuery.Sql

/-- Why text is not SQL. -/
inductive Fault where
  /-- A text cannot stand where it does. -/
  | unexpected (found : String) (position : Position)
  /-- The text ends too early. -/
  | unexpectedEnd
  /-- A token is not well formed, or a construct lacks a part; some of these know no place. -/
  | malformed (detail : String) (position : Option Position)
  /-- Too many constructs stand inside each other. -/
  | tooDeep
  deriving DecidableEq, Repr

namespace Fault

/-- The wording of a fault. -/
def detail : Fault → String
  | unexpected found position => s!"sql parser error: unexpected {found} at {position.text}"
  | unexpectedEnd => "sql parser error: unexpected end of input"
  | malformed detail none => s!"sql parser error: {detail}"
  | malformed detail (some position) => s!"sql parser error: {detail} at {position.text}"
  | tooDeep => "sql parser error: recursion limit exceeded"

/-- The place of a fault: the first one that its wording names. A place that is spelled out in the
text that was found comes before the place of that text. -/
def position? (fault : Fault) : Option Position := Position.ofText? fault.detail

end Fault

end AnalyticQuery.Sql
