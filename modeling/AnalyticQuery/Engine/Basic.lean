import AnalyticQuery.CastType

/-!
# Engines

The database engines that queries are rendered for.
-/

namespace AnalyticQuery

/-- A database engine. -/
inductive Engine where
  | pg
  | trino
  deriving DecidableEq, Repr

namespace Engine

/-- The name of an engine. -/
def name : Engine → String
  | pg => "pg"
  | trino => "trino"

/-- All engines. -/
def all : List Engine := [pg, trino]

/-- The engine's name of a cast type. -/
def castTypeName : Engine → CastType → String
  | pg, .double => "double precision"
  | trino, .numeric => "decimal"
  | trino, .text => "varchar"
  | trino, .timestamptz => "timestamp with time zone"
  | trino, .interval => "interval day to second"
  | trino, .jsonb => "json"
  | _, type => type.name

end Engine

/-- The engines that are known under their names. -/
structure EngineRegistry where
  /-- The known engines. -/
  engines : List Engine := []

namespace EngineRegistry

/-- Adds an engine. -/
def register (registry : EngineRegistry) (engine : Engine) : EngineRegistry :=
  if registry.engines.contains engine then registry else ⟨registry.engines ++ [engine]⟩

/-- The known engine with a name, in any case. -/
def get? (registry : EngineRegistry) (name : String) : Option Engine :=
  registry.engines.find? (·.name == name.toLower)

/-- The names of the known engines, in order. -/
def names (registry : EngineRegistry) : List String :=
  (registry.engines.map Engine.name).mergeSort (fun a b => decide (a ≤ b))

/-- The registry with all engines. -/
def standard : EngineRegistry := Engine.all.foldl register {}

end EngineRegistry

end AnalyticQuery
