import AnalyticQuery.Error
import AnalyticQuery.Options
import AnalyticQuery.Short.Printer
import AnalyticQuery.Tree.Node

/-!
# Short forms of a tree

The short expression that an expression is written as. Selects, joins, sort items and cases have
none.
-/

namespace AnalyticQuery

/-- The short expression of an argument: a scalar or an array is wrapped in its form. -/
def Argument.toShort : Argument → Short
  | .short s => s
  | .array items => (Short.ofName "array").push (.array items)
  | scalar => (Short.ofName "primitive").push scalar

/-- An argument with the alias and the cast of an expression. -/
def Tag.ontoArgument (tag : Tag) (arg : Argument) : Argument :=
  if tag.label.isNone && tag.cast.isNone then arg
  else .short (Node.tagShort arg.toShort tag.label tag.cast)

/-- The short expression of a column. -/
def Column.toShort (c : Column) : Short :=
  let s := (Short.ofName "column").push (.string c.name)
  match c.view with
  | some view => s.push (.string view)
  | none => s

/-- The short expression of an operator without its operands. -/
def Operator.toShort : Operator → Short
  | .and => Short.ofName "and"
  | .or => Short.ofName "or"
  | op => (Short.ofName "operator").push (.string op.name)

namespace Node

mutual

/-- The argument that an expression is written as; scalars and arrays without alias and cast stay
bare. -/
def toArgument (options : QlOptions) : Node → Result Argument
  | select .. | compound .. => .error (.notShortable "select")
  | join .. => .error (.notShortable "join")
  | sort .. => .error (.notShortable "sort")
  | case .. => .error (.notShortable "case")
  | view name _ label =>
    .ok (Tag.ontoArgument { label } (.short ((Short.ofName "view").push (.string name))))
  | column c tag => .ok (tag.ontoArgument (.short c.toShort))
  | parameter name value tag => do
    let reference := Argument.short ((Short.ofName "param").push (.string name))
    let bound ← if options.keepParamRefs then pure none else toArgumentOption options value
    return tag.ontoArgument (bound.getD reference)
  | call f args distinct tag => do
    let args ← toArgumentAll options args
    let s := ((Short.ofName "function").push (.string f.name)).push (.array args)
    return tag.ontoArgument (.short (if distinct then s.set "distinct" (.bool true) else s))
  | geometry type args tag => do
    let args ← toArgumentAll options args
    return tag.ontoArgument
      (.short (((Short.ofName "geo").push (.string type.name)).push (.array args)))
  | operation op operands qualifier tag => do
    let operands ← toArgumentAll options operands
    let s := op.toShort.push (.array operands)
    return tag.ontoArgument
      (.short (match qualifier with
        | some qualifier => s.push (.string qualifier.name)
        | none => s))
  | array items tag => do return tag.ontoArgument (.array (← toArgumentAll options items))
  | list items => do
    return .short ((Short.ofName "list").push (.array (← toArgumentAll options items)))
  | constant value tag => .ok (tag.ontoArgument value.toArgument)
  | short source inner =>
    if options.keepShorts then .ok (.short source) else toArgument options inner

/-- The arguments that a list of expressions is written as. -/
def toArgumentAll (options : QlOptions) : List Node → Result (List Argument)
  | [] => .ok []
  | n :: ns => do
    let first ← toArgument options n
    let rest ← toArgumentAll options ns
    return first :: rest

/-- The argument that an expression that may be there is written as. -/
def toArgumentOption (options : QlOptions) : Option Node → Result (Option Argument)
  | none => .ok none
  | some n => do return some (← toArgument options n)

end

/-- The text of the short expression that an expression is written as. -/
def shortText (options : QlOptions) (n : Node) : Result String := do
  return (← n.toArgument options).toShort.text

end Node

end AnalyticQuery
