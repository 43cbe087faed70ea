import AnalyticQuery.Error

/-!
# Scopes

The names that are visible where an expression is built. A scope is never changed: each declaration
gives a new one, so a nested select cannot leak names into the one around it.
-/

namespace AnalyticQuery

/-- What a visible name stands for. -/
inductive RefTarget where
  | view (name : String)
  | cte (name : String)
  | subquery
  deriving DecidableEq, Repr

/-- The view whose rows a name stands for, unless it is a common table or a subquery. -/
def RefTarget.view? : RefTarget → Option String
  | .view name => some name
  | _ => none

/-- Where a column is found. -/
structure ResolvedColumn where
  /-- The name that qualifies the column in SQL. -/
  qualifier : Option String
  /-- The view that the column is read from, if it is one. -/
  origin : Option String
  deriving DecidableEq, Repr

/-- The visible names. -/
structure Scope where
  /-- The relations of the nearest select, in order. -/
  refs : List (String × RefTarget) := []
  /-- The common tables declared by any enclosing select. -/
  ctes : List String := []
  /-- The common tables that the nearest select declares itself. -/
  localCtes : List String := []
  /-- Whether a select encloses the expression. -/
  inSelect : Bool := false
  deriving DecidableEq, Repr

namespace Scope

/-- The scope of an expression outside any select. -/
def root : Scope := {}

/-- Whether a relation has this name. -/
def hasRef (scope : Scope) (name : String) : Bool := scope.refs.any (·.1 == name)

/-- Whether a common table has this name. -/
def isCte (scope : Scope) (name : String) : Bool := scope.ctes.contains name

/-- The scope of a nested select: the relations are seen by lateral subqueries only, the common
tables by all. -/
def childSelect (scope : Scope) (lateral : Bool) : Scope where
  refs := if lateral then scope.refs else []
  ctes := scope.ctes
  localCtes := []
  inSelect := true

/-- Declares a relation under a name that is not in use. -/
def withRef (scope : Scope) (name : String) (target : RefTarget) : Result Scope :=
  if scope.hasRef name then .error (.identifierInUse name)
  else .ok { scope with refs := scope.refs ++ [(name, target)] }

/-- Declares a common table. It may hide one of an enclosing select but not one of its own
select. -/
def withCte (scope : Scope) (name : String) : Result Scope :=
  if scope.localCtes.contains name || scope.hasRef name then .error (.identifierInUse name)
  else .ok { scope with
    ctes := if scope.ctes.contains name then scope.ctes else scope.ctes ++ [name]
    localCtes := scope.localCtes ++ [name] }

/-- Finds a column: by its view where one is given, otherwise in the only relation in sight. Outside
any select a column is taken as it is written. -/
def resolveColumn (scope : Scope) (view : Option String) (column : String) :
    Result ResolvedColumn :=
  if scope.inSelect then
    match view with
    | some view =>
      match scope.refs.find? (·.1 == view) with
      | some (name, target) => .ok ⟨some name, target.view?⟩
      | none => .error (.unknownView view)
    | none =>
      match scope.refs with
      | [(name, target)] => .ok ⟨some name, target.view?⟩
      | [] => .error (.unknownView s!"no view in scope for column '{column}'")
      | refs =>
        let candidates := ", ".intercalate (refs.map (·.1))
        .error (.ambiguousColumn s!"'{column}' could belong to any of {candidates}")
  else .ok ⟨view, view.filter (!scope.isCte ·)⟩

end Scope

end AnalyticQuery
