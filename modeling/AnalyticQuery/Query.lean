import AnalyticQuery.Engine.Basic
import AnalyticQuery.Text.SingleSpace
import AnalyticQuery.Tree.Build
import AnalyticQuery.Tree.Ql
import AnalyticQuery.Tree.Shorten
import AnalyticQuery.Tree.Sql

/-!
# Queries

A query is a tree with the choices it was read with. It is rendered as SQL for an engine, written
back as a query value or a short expression, and asked for the views and parameters that it reads.
-/

namespace AnalyticQuery

/-- A query that was read. -/
structure Query where
  /-- The root of the tree. -/
  root : Node
  /-- The choices it was read with. -/
  options : ParseOptions

namespace Query

/-- Equality of trees and choices. -/
def same (a b : Query) : Bool := a.root == b.root && a.options.same b.options

/-- Reads a query: a query value, or SQL text where the choices say so. -/
def read (value : Json) (options : ParseOptions) : Result Query := do
  match options.queryType, value with
  | .ql, value => return ⟨← Build.root options value, options⟩
  | .sql, .string text => return ⟨← Build.root options (← Sql.toQl text), options⟩
  | .sql, other =>
    throw (.invalidExpression s!"a sql query must be a string, got {other.text}")

/-- The SQL of a query for the engine with a name. -/
def sql (query : Query) (engine : String) (options : SqlOptions) : Result String := do
  match EngineRegistry.standard.get? engine with
  | none => throw (.unknownEngine query.root.type.name engine)
  | some engine => return Text.squeeze (← query.root.sqlAliased ⟨engine, options⟩)

/-- The query value of a query. -/
def toQl (query : Query) (options : QlOptions) : Json := query.root.toQl options

/-- The short expression of a query. -/
def shortText (query : Query) (options : QlOptions) : Result String := query.root.shortText options

/-- Adds a name to a list of names, once. -/
def insertName (names : List String) (name : String) : List String :=
  if names.contains name then names else names ++ [name]

/-- The columns read from a view with one more; all columns stand for any. -/
def insertColumn (columns : List String) (name : String) : List String :=
  if columns.contains "*" then columns
  else if name == "*" then ["*"]
  else insertName columns name

/-- The views with the columns read from them, with one more view. -/
def touchView (views : List (String × List String)) (view : String)
    (f : List String → List String) : List (String × List String) :=
  match views with
  | [] => [(view, f [])]
  | (name, columns) :: rest =>
    if name == view then (name, f columns) :: rest else (name, columns) :: touchView rest view f

/-- The views with the columns read from them, after one expression. -/
def visitViews (views : List (String × List String)) (node : Node) : List (String × List String) :=
  match node with
  | .view name false _ => touchView views name id
  | .column column _ =>
    match column.origin with
    | some origin => touchView views origin (insertColumn · column.name)
    | none => views
  | _ => views

/-- The views that a query reads with the columns it reads of each, in the order of their first
mention. -/
def viewColumns (query : Query) : List (String × List String) :=
  query.root.preorder.foldl visitViews []

/-- The names of the parameters that a query refers to, in the order of their first mention. -/
def parameters (query : Query) : List String :=
  query.root.preorder.foldl (fun names node =>
    match node with
    | .parameter name _ _ => insertName names name
    | _ => names) []

end Query

end AnalyticQuery
