import AnalyticQuery.Proofs.Geo.Values
import AnalyticQuery.Proofs.Tree.Rereading

/-!
# Equations between places in trees

Which equations of a tree compare places of different types, said of the tree: the operands are
columns that are not cast, and each is looked for among the views that the nearest select reads
itself. The search in a tree's query value finds these equations and no others.
-/

namespace AnalyticQuery

open Geo (Refs)

/-! ## Trees -/

/-- The view among some in which a column is looked for: the one that is written, or the only
one. -/
def Column.viewIn (refs : Refs) (c : Column) : Option String :=
  match c.view with
  | some name => refs.lookup name
  | none =>
    match refs with
    | [(_, view)] => some view
    | _ => none

/-- The relations that a select reads itself, in order. -/
def Clauses.relations (c : Clauses Node) : List Node :=
  c.source.toList ++ c.joins.filterMap Node.joined?

/-- The type of place with a name. -/
def GeometryType.place? (typeName : String) : Option GeometryType :=
  (GeometryType.ofName typeName).toOption.filter (·.isPlace)

namespace Node

/-- What an expression is, without the short expressions kept around it. -/
def bare : Node → Node
  | short _ inner => inner.bare
  | n => n

/-- The view that a relation is, under its name. -/
def viewRef? : Node → Option (String × String)
  | view name _ label => some (label.getD name, name)
  | _ => none

/-- The views among some relations, under their names. -/
def viewRefs (relations : List Node) : Refs :=
  (relations.filterMap viewRef?).foldl (fun refs ref => insertEntry refs ref.1 ref.2) []

/-- The views in which the columns directly inside an expression are looked for. -/
def refsInside (refs : Refs) : Node → Refs
  | select _ c _ => viewRefs c.relations
  | _ => refs

/-- The type of the places that an expression holds, if it is a column that is not cast. -/
def placeType? (catalog : Catalog) (refs : Refs) : Node → Option String
  | column c tag =>
    if tag.cast.isNone then (c.viewIn refs).bind (catalog.geoType? · c.name) else none
  | short _ inner => inner.placeType? catalog refs
  | _ => none

/-- The types of the places that the two sides of an equation hold, where they differ. -/
def crossing? (catalog : Catalog) (refs : Refs) : Node → Option (String × String)
  | operation .eq [left, right] none _ => do
    let leftType ← left.placeType? catalog refs
    let rightType ← right.placeType? catalog refs
    if leftType = rightType then none else some (leftType, rightType)
  | _ => none

/-- The function that tells whether two shapes intersect. -/
def geoIntersects : FunctionSpec :=
  { name := "geo_intersects", arity := .exact 2, category := .geo }

/-- The shape of the place that an expression holds. -/
def placeShape (type : GeometryType) (n : Node) : Node := geometry type [n.bare.retag {}] {}

/-- The intersection that stands for an equation between places of different types. -/
def intersection? (catalog : Catalog) (refs : Refs) (n : Node) : Option Node := do
  let (leftType, rightType) ← n.crossing? catalog refs
  let leftType ← GeometryType.place? leftType
  let rightType ← GeometryType.place? rightType
  match n with
  | operation _ [left, right] _ tag =>
    return call geoIntersects [placeShape leftType left, placeShape rightType right] false tag
  | _ => none

mutual

/-- The tree that is read back with intersections in place of its equations between places of
different types. -/
def crossed (catalog : Catalog) : Refs → Node → Node
  | _, select role ⟨withs, source, joins, distinct, columns, filter, groupBy, having, orderBy,
      limit, offset⟩ tag =>
    let refs := viewRefs (source.toList ++ joins.filterMap joined?)
    rereadHere (select role ⟨crossedAll catalog refs withs, crossedOption catalog refs source,
      crossedAll catalog refs joins, distinct, crossedAll catalog refs columns,
        crossedOption catalog refs filter,
      crossedAll catalog refs groupBy, crossedOption catalog refs having,
        crossedAll catalog refs orderBy, limit,
      offset⟩ tag)
  | refs, compound role op all left right tag =>
    compound role op all (crossed catalog refs left) (crossed catalog refs right) tag
  | refs, join type relation on =>
    rereadHere (join type (crossed catalog refs relation) (crossedOption catalog refs on))
  | _, view name isCte label => view name isCte label
  | _, column c tag => column c tag
  | _, parameter name value tag => parameter name value tag
  | refs, call f args distinct tag => call f (crossedAll catalog refs args) distinct tag
  | refs, geometry type args tag => geometry type (crossedAll catalog refs args) tag
  | refs, operation op operands qualifier tag =>
    ((operation op operands qualifier tag).intersection? catalog refs).getD
      (rereadHere (operation op (crossedAll catalog refs operands) qualifier tag))
  | refs, case branches otherwise tag =>
    rereadHere
      (case (crossedBranches catalog refs branches) (crossedOption catalog refs otherwise) tag)
  | refs, array items tag => array (crossedAll catalog refs items) tag
  | refs, list items => list (crossedAll catalog refs items)
  | refs, sort value direction nulls => sort (crossed catalog refs value) direction nulls
  | _, constant value tag => constant value tag
  | refs, short _ inner => crossed catalog refs inner

/-- The expressions of a list as they are read back. -/
def crossedAll (catalog : Catalog) : Refs → List Node → List Node
  | _, [] => []
  | refs, n :: ns => crossed catalog refs n :: crossedAll catalog refs ns

/-- An expression that may be there as it is read back. -/
def crossedOption (catalog : Catalog) : Refs → Option Node → Option Node
  | _, none => none
  | refs, some n => some (crossed catalog refs n)

/-- The branches of a case as they are read back. -/
def crossedBranches (catalog : Catalog) : Refs → List (Node × Node) → List (Node × Node)
  | _, [] => []
  | refs, (c, r) :: rest =>
    (crossed catalog refs c, crossed catalog refs r) :: crossedBranches catalog refs rest

end

variable {catalog : Catalog} {refs : Refs} {n m : Node}

private theorem crossedAll_eq (refs : Refs) (ns : List Node) :
    crossedAll catalog refs ns = ns.map (crossed catalog refs) := by
  induction ns with
  | nil => rfl
  | cons n ns ih => rw [crossedAll, ih, List.map_cons]

private theorem crossedOption_eq (refs : Refs) (n : Option Node) :
    crossedOption catalog refs n = n.map (crossed catalog refs) := by
  cases n <;> rfl

private theorem crossedBranches_eq (refs : Refs) (bs : List (Node × Node)) :
    crossedBranches catalog refs bs = bs.map fun b =>
      (b.1.crossed catalog refs, b.2.crossed catalog refs) := by
  induction bs with
  | nil => rfl
  | cons b bs ih => rw [crossedBranches, ih, List.map_cons]

/-- An equation between places of different types becomes an intersection; everything else is read
back from what is inside it. -/
theorem crossed_eq (refs : Refs) (n : Node) :
    n.crossed catalog refs = (n.intersection? catalog (n.refsInside refs)).getD
      (n.mapWritten (crossed catalog (n.refsInside refs))).rereadHere := by
  cases n <;>
    simp only [crossed, crossedAll_eq, crossedOption_eq, crossedBranches_eq] <;> rfl

end Node

end AnalyticQuery
