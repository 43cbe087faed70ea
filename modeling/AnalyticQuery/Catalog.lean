import AnalyticQuery.Options

/-!
# View catalogs

What is known of the columns of views, and its data form.
-/

namespace AnalyticQuery

/-- What is known of a column. -/
structure ColumnInfo where
  /-- The type of the places whose ids the column holds. -/
  geoType : Option String := none
  /-- The category of the column. -/
  category : Option String := none
  deriving DecidableEq, Repr

/-- What is known of a view. -/
structure ViewInfo where
  /-- The query that defines the view. -/
  query : Option Json := none
  /-- The columns under their names, in order; a name stands once. -/
  columns : List (String × ColumnInfo) := []
  /-- The foreign connections of the view. -/
  fdwConnections : Option Json := none

/-- Sets the value of a key: in its place where it is present, otherwise at the end. -/
def insertEntry {α : Type} : List (String × α) → String → α → List (String × α)
  | [], key, value => [(key, value)]
  | entry :: entries, key, value =>
    if entry.1 == key then (key, value) :: entries else entry :: insertEntry entries key value

/-- What is known of views, under their names in order; a name stands once. -/
structure Catalog where
  /-- The views. -/
  views : List (String × ViewInfo) := []

namespace Catalog

/-- Sets what is known of a view. -/
def insert (catalog : Catalog) (name : String) (view : ViewInfo) : Catalog :=
  ⟨insertEntry catalog.views name view⟩

/-- What is known of a view. -/
def get? (catalog : Catalog) (name : String) : Option ViewInfo := catalog.views.lookup name

/-- The type of the places whose ids a column holds. -/
def geoType? (catalog : Catalog) (view column : String) : Option String := do
  let info ← catalog.get? view
  let column ← info.columns.lookup column
  column.geoType

end Catalog

/-! ## Data form -/

/-- The view with columns of these names. -/
def ViewInfo.ofColumns (columns : List (String × ColumnInfo)) : ViewInfo where
  columns := columns.foldl (fun entries (name, info) => insertEntry entries name info) []

/-- What a value says of a column, if its fields have the right types. -/
def ColumnInfo.ofJson? : Json → Option ColumnInfo
  | .object fields => do
    return { geoType := ← Fields.stringOr? fields "geo_type",
             category := ← Fields.stringOr? fields "category" }
  | _ => none

/-- What is known of a column as data. -/
def ColumnInfo.toJson (info : ColumnInfo) : Json :=
  .object [("geo_type", .ofOption .string info.geoType),
    ("category", .ofOption .string info.category)]

/-- What a value says of a view, if its fields have the right types. -/
def ViewInfo.ofJson? : Json → Option ViewInfo
  | .object fields => do
    let columns ← match Fields.get? fields "columns" with
      | none => some []
      | some (.object columns) => columns.mapM fun (name, info) => do
        return (name, ← ColumnInfo.ofJson? info)
      | some _ => none
    let present (key : String) : Option Json := (Fields.get? fields key).filter (!·.isNull)
    return { query := present "query", columns, fdwConnections := present "fdwConnections" }
  | _ => none

/-- What is known of a view as data. -/
def ViewInfo.toJson (info : ViewInfo) : Json :=
  .object [("query", info.query.getD .null),
    ("columns", .object (info.columns.map fun (name, column) => (name, column.toJson))),
    ("fdwConnections", info.fdwConnections.getD .null)]

/-- The catalog that a value writes, if its fields have the right types. -/
def Catalog.ofJson? : Json → Option Catalog
  | .object fields => do
    return ⟨← fields.mapM fun (name, view) => do return (name, ← ViewInfo.ofJson? view)⟩
  | _ => none

/-- The catalog as data. -/
def Catalog.toJson (catalog : Catalog) : Json :=
  .object (catalog.views.map fun (name, view) => (name, view.toJson))

end AnalyticQuery
