import AnalyticQuery.Options
import AnalyticQuery.Ql.Tag
import AnalyticQuery.Short.Printer
import AnalyticQuery.Tree.Node

/-!
# Query values of a tree

The query value that an expression is written back as.
-/

namespace AnalyticQuery

/-- A field with a list, where the list is not empty. -/
def listField (key : String) (items : List Json) : Fields :=
  if items.isEmpty then [] else [(key, .array items)]

/-- A field with a value, where the value is there. -/
def optionField (key : String) (value : Option Json) : Fields :=
  (value.map fun value => (key, value)).toList

/-- A field with the truth value true, where it is true. -/
def flagField (key : String) (flag : Bool) : Fields :=
  if flag then [(key, .bool true)] else []

/-- The query value of a column. -/
def Column.toQl (c : Column) : Json :=
  .object ([("type", .string "column"), ("column", .string c.name)] ++
    optionField "view" (c.view.map .string))

/-- The query value of a limit. -/
def Limit.toQl : Limit → Json
  | .count rows => .nat rows
  | .all => .string "all"

/-- The query value of a select from the query values of its clauses. -/
def Clauses.toQl (c : Clauses Json) : Json :=
  .object ([("type", .string "select")] ++ listField "with" c.withs ++
    optionField "from" c.source ++ listField "joins" c.joins ++ flagField "distinct" c.distinct ++
    [("columns", .array c.columns)] ++ optionField "where" c.filter ++
    listField "groupBy" c.groupBy ++ optionField "having" c.having ++
    listField "orderBy" c.orderBy ++ optionField "limit" (c.limit.map Limit.toQl) ++
    optionField "offset" (c.offset.map .nat))

/-- The fields that name an operator. -/
def Operator.qlFields : Operator → Fields
  | .and => [("type", .string "and")]
  | .or => [("type", .string "or")]
  | op => [("type", .string "operator"), ("value", .string op.name)]

/-- A query value with the alias and the cast of an expression. -/
def Tag.onto (tag : Tag) (value : Json) : Json :=
  value.tagged tag.label (tag.cast.map CastType.name)

/-- The query value of a view: an object. -/
def viewQl (name : String) : Json := .object [("type", .string "view"), ("view", .string name)]

namespace Node

/-- The name of a view without an alias, which stands for itself as a relation. -/
def bareView? : Node → Option String
  | view name _ none => some name
  | _ => none

mutual

/-- The query value of an expression. -/
def toQl (options : QlOptions) : Node → Json
  | select _ ⟨withs, source, joins, distinct, columns, filter, groupBy, having, orderBy, limit,
      offset⟩ tag =>
    tag.onto (Clauses.toQl ⟨toQlAll options withs, toQlRelation options source,
      toQlAll options joins, distinct, toQlAll options columns, toQlOption options filter,
      toQlAll options groupBy, toQlOption options having, toQlAll options orderBy, limit, offset⟩)
  | compound _ op all left right tag =>
    tag.onto (.object ([("type", .string "select"),
      (op.name, .array [toQl options left, toQl options right])] ++ flagField "all" all))
  | join type relation on =>
    let relation' := match relation.bareView? with
      | some name => .string name
      | none => toQl options relation
    .object ([("type", .string "join"), ("joinType", .string type.name), ("view", relation')] ++
      optionField "on" (toQlOption options on))
  | view name _ label => Tag.onto { label } (viewQl name)
  | column c tag => tag.onto c.toQl
  | parameter name value tag =>
    let reference : Json := .object [("type", .string "parameter"), ("value", .string name)]
    tag.onto
      (if options.keepParamRefs then reference else (toQlOption options value).getD reference)
  | call f args distinct tag =>
    tag.onto (.object ([("type", .string "function"), ("value", .string f.name),
      ("args", .array (toQlAll options args))] ++ flagField "distinct" distinct))
  | geometry type args tag =>
    tag.onto (.object [("type", .string "geometry"), ("geometryType", .string type.name),
      ("args", .array (toQlAll options args))])
  | operation op operands qualifier tag =>
    tag.onto (.object (op.qlFields ++ [("operands", .array (toQlAll options operands))] ++
      optionField "qualifier" (qualifier.map (.string ·.name))))
  | case branches otherwise tag =>
    tag.onto (.object
      ([("type", .string "case"), ("cases", .array (toQlBranches options branches))] ++
        optionField "defaultCase" (toQlOption options otherwise)))
  | array items tag => tag.onto (.array (toQlAll options items))
  | list items => .object [("type", .string "list"), ("values", .array (toQlAll options items))]
  | sort value direction nulls =>
    .object ([("type", .string "sort"), ("value", toQl options value)] ++
      optionField "direction" (direction.map (.string ·.name)) ++
      optionField "nulls" (nulls.map (.string ·.name)))
  | constant value tag => tag.onto value.toJson
  | short source inner =>
    if options.keepShorts then .object [("type", .string "short"), ("value", .string source.text)]
    else toQl options inner

/-- The query values of a list of expressions. -/
def toQlAll (options : QlOptions) : List Node → List Json
  | [] => []
  | n :: ns => toQl options n :: toQlAll options ns

/-- The query value of an expression that may be there. -/
def toQlOption (options : QlOptions) : Option Node → Option Json
  | none => none
  | some n => some (toQl options n)

/-- The query value of a relation that may be there: a view without an alias is its name. -/
def toQlRelation (options : QlOptions) : Option Node → Option Json
  | none => none
  | some n =>
    match n.bareView? with
    | some name => some (.string name)
    | none => some (toQl options n)

/-- The query values of the branches of a case. -/
def toQlBranches (options : QlOptions) : List (Node × Node) → List Json
  | [] => []
  | (condition, result) :: rest =>
    .array [toQl options condition, toQl options result] :: toQlBranches options rest

end

end Node

end AnalyticQuery
