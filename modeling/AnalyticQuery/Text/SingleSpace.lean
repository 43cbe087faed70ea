import AnalyticQuery.Text.Blank

/-!
# Blanks in SQL text

SQL text with single spaces for runs of blanks, except inside quotes.
-/

namespace AnalyticQuery.Text

/-- Whether the characters stand inside quotes, and whether a space is due before the next one. -/
structure SpaceState where
  /-- The open quote. -/
  quote : Option Char := none
  /-- Whether any character was written. -/
  started : Bool := false
  /-- Whether a space is due. -/
  pending : Bool := false

/-- Single spaces for runs of blanks, from a state on. -/
def squeezeFrom : SpaceState → List Char → List Char
  | _, [] => []
  | state, c :: cs =>
    match state.quote with
    | some q =>
      c :: squeezeFrom { state with quote := if c == q then none else some q } cs
    | none =>
      if isBlank c then squeezeFrom { state with pending := state.started } cs
      else
        let quote := if c == '\'' || c == '"' then some c else none
        let rest := squeezeFrom { quote, started := true, pending := false } cs
        if state.pending then ' ' :: c :: rest else c :: rest

/-- A text with single spaces for the runs of blanks outside quotes, and none at its ends. -/
def squeeze (s : String) : String := String.ofList (squeezeFrom {} s.toList)

end AnalyticQuery.Text
