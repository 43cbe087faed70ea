import AnalyticQuery.Options
import AnalyticQuery.Scope
import AnalyticQuery.Short.Form
import AnalyticQuery.Short.Reader
import AnalyticQuery.Sql.Ingest
import AnalyticQuery.Tree.Node

/-!
# Building trees

Trees are built from query values. The rules of each kind of expression are plain functions over a
`Builder`, which says how the values inside the current one are built and how a value is built that
a text or a parameter stands for. The recursion is closed at the end: inside a value it goes down
the value's depth, each expansion of a text uses up one of a number of levels that the value's texts
bound, and each bound parameter uses up one of the bindings.
-/

namespace AnalyticQuery

/-- Where a value stands that is built. -/
inductive Position where
  /-- Where an expression is expected. -/
  | expression
  /-- Where a select in a role is expected. -/
  | select (role : SelectRole)
  deriving DecidableEq, Repr

/-- How a value is built, while some parameters are being resolved. -/
abbrev BuildFn := List String → Position → Json → Scope → Result Node

/-- What the rules of expressions build on. -/
structure Builder where
  /-- The caller's choices. -/
  options : ParseOptions
  /-- The bound parameters whose values are being built, the outermost first. -/
  resolving : List String
  /-- How a value inside the current one is built. -/
  part : BuildFn
  /-- How a value is built that a text stands for. -/
  expansion : BuildFn
  /-- How a value is built that is bound to a parameter. -/
  binding : BuildFn

namespace Builder

/-- Builds an expression inside the current value. -/
def expression (b : Builder) (value : Json) (scope : Scope) : Result Node :=
  b.part b.resolving .expression value scope

/-- Builds the expressions of a list inside the current value. -/
def expressions (b : Builder) (values : List Json) (scope : Scope) : Result (List Node) :=
  values.mapM (b.expression · scope)

/-- Builds an expression inside the current value, where it is there. -/
def optional (b : Builder) (value : Option Json) (scope : Scope) : Result (Option Node) :=
  match value with
  | some value => do return some (← b.expression value scope)
  | none => .ok none

/-- The builder for the parts of a value that a text stands for. -/
def outside (b : Builder) : Builder := { b with part := b.expansion }

/-- The builder for the parts of a value that may have been expanded from a text. -/
def forParts (b : Builder) (expanded : Bool) : Builder := if expanded then b.outside else b

/-! ## Expressions -/

/-- Builds a column. -/
def column (obj : QlObject) (scope : Scope) : Result Node := do
  obj.checkKeys ["column", "view"]
  let name ← obj.string "column"
  let view ← obj.string? "view"
  let found ← scope.resolveColumn view name
  return .column ⟨name, view, found.qualifier, found.origin⟩ {}

/-- The parameters under resolution with one more, unless it is among them already. -/
def resolve (b : Builder) (name : String) : Result (List String) :=
  if b.resolving.contains name then
    let chain := " -> ".intercalate (b.resolving ++ [name])
    .error (.invalidParameter s!"cyclic parameter binding: {chain}")
  else .ok (b.resolving ++ [name])

/-- Builds the value bound to a parameter, where there is one. -/
def boundValue (b : Builder) (name : String) (scope : Scope) : Result (Option Node) := do
  match b.options.parameter? name with
  | some bound =>
    let resolving ← b.resolve name
    return some (← b.binding resolving .expression bound scope)
  | none =>
    if b.options.paramsMustHaveValues then throw (.missingParameter name)
    return none

variable (b : Builder) (obj : QlObject) (scope : Scope)

/-- Builds a parameter with the value bound to it. -/
def parameter : Result Node := do
  obj.checkKeys ["value"]
  let name ← obj.string "value"
  if name.startsWith "__" then
    throw (.invalidParameter s!"'{name}': names starting with '__' are reserved")
  return .parameter name (← b.boundValue name scope) {}

/-- Builds a function call. -/
def call : Result Node := do
  obj.checkKeys ["value", "args", "distinct"]
  let function ← FunctionRegistry.standard.lookup (← obj.string "value")
  let args ← b.expressions ((← obj.array? "args").getD []) scope
  function.arity.check function.name args.length
  let distinct := (← obj.bool? "distinct").getD false
  if distinct && !function.isAggregate then
    throw (obj.fault s!"distinct is only allowed on aggregates, not {function.name}")
  return .call function args distinct {}

/-- Builds a shape. -/
def geometry : Result Node := do
  obj.checkKeys ["geometryType", "args"]
  let type ← GeometryType.ofName (← obj.string "geometryType")
  let args ← b.expressions (← obj.array "args") scope
  type.arity.check type.name args.length
  return .geometry type args {}

/-- The operands of an operand of a logical operator, if it is the same operator without alias and
cast. -/
def absorbed? (op : Operator) : Node → Option (List Node)
  | .operation inner operands _ tag => if inner == op && tag == {} then some operands else none
  | _ => none

/-- The operands of a logical operator, with those of the same operator in place of it. -/
def flatten (op : Operator) (operands : List Node) : List Node :=
  operands.flatMap fun operand => (absorbed? op operand).getD [operand]

/-- An operator over its operands, as its rules allow. -/
def operation (op : Operator) (operands : List Node) (qualifier : Option Qualifier) :
    Result Node := do
  let operands := if op.isLogical then flatten op operands else operands
  op.arity.check op.name operands.length
  if qualifier.isSome && !op.allowsQualifier then
    throw (.invalidOperator s!"{op.name} does not accept a qualifier")
  return .operation op operands qualifier {}

/-- The operator that an object names. -/
def operatorOf (obj : QlObject) : Result Operator := do
  match obj.type with
  | .and => obj.checkKeys ["operands"]; return .and
  | .or => obj.checkKeys ["operands"]; return .or
  | _ =>
    obj.checkKeys ["value", "operands", "qualifier"]
    Operator.ofName (← obj.string "value")

/-- Builds an operator over its operands. -/
def operator : Result Node := do
  let op ← operatorOf obj
  let operands ← b.expressions (← obj.array "operands") scope
  let qualifier ← obj.named? "qualifier" Qualifier.ofName
  operation op operands qualifier

/-- Builds a branch of a case. -/
def branch (b : Builder) (scope : Scope) (value : Json) : Result (Node × Node) := do
  match value with
  | .array [condition, result] =>
    let condition ← b.expression condition scope
    let result ← b.expression result scope
    return (condition, result)
  | other =>
    throw (.invalidExpression s!"case: each case must be a [when, then] pair, got {other.text}")

/-- Builds a case. -/
def case : Result Node := do
  obj.checkKeys ["cases", "defaultCase"]
  let cases ← obj.array "cases"
  if cases.isEmpty then throw (obj.fault "at least one case is required")
  let branches ← cases.mapM (b.branch scope)
  let otherwise ← b.optional (obj.get? "defaultCase") scope
  return .case branches otherwise {}

/-- Builds an array. -/
def array : Result Node := do
  obj.checkKeys ["values"]
  return .array (← b.expressions (← obj.array "values") scope) {}

/-- Builds a list of values. -/
def list : Result Node := do
  obj.checkKeys ["values"]
  let items ← b.expressions (← obj.array "values") scope
  if items.isEmpty then throw (obj.fault "a list cannot be empty")
  return .list items

/-- Builds a sort item. -/
def sort : Result Node := do
  obj.checkKeys ["value", "direction", "nulls"]
  let value ← b.expression (← obj.required "value") scope
  let direction ← obj.named? "direction" SortDirection.ofName
  let nulls ← obj.named? "nulls" NullsOrder.ofName
  return .sort value direction nulls

/-- Builds a constant. -/
def constant (obj : QlObject) : Result Node := do
  obj.checkKeys ["value"]
  return .constant (← Primitive.ofJson ((obj.get? "value").getD .null)) {}

/-- Builds the expression inside a cast. -/
def cast : Result Node := do
  obj.checkKeys ["value"]
  let tag ← obj.tag
  if tag.cast.isNone then throw (obj.fault "missing 'cast'")
  let node ← b.expression (← obj.required "value") scope
  node.fold tag.label tag.cast

/-- Builds what a short expression stands for, and keeps the short expression around it where that
is asked for. -/
def expandShort (b : Builder) (s : Short) (scope : Scope) : Result Node := do
  let inner ← b.outside.expression (← s.expand) scope
  return if b.options.keepShorts then .short s inner else inner

/-- Builds a short expression. -/
def short : Result Node := do
  obj.checkKeys ["value"]
  let s ← Short.ofText (← obj.string "value")
  let node ← b.expandShort s scope
  let tag ← obj.tag
  node.fold tag.label tag.cast

/-- Builds what SQL text stands for. -/
def sql : Result Node := do
  obj.checkKeys ["value"]
  let value ← Sql.toQl (← obj.string "value")
  let tag ← obj.tag
  let node ← b.outside.expression value scope
  node.fold tag.label tag.cast

/-! ## Relations -/

/-- A relation's value with short expressions and SQL text expanded, and whether it was expanded. -/
def normalizeRelation (value : Json) : Result (Json × Bool) := do
  match value with
  | .object _ =>
    let obj ← QlObject.ofJson value
    let expanded ← match obj.type with
      | .short =>
        obj.checkKeys ["value"]
        let s ← Short.ofText (← obj.string "value")
        pure (some (← s.expand))
      | .sql =>
        obj.checkKeys ["value"]
        pure (some (← Sql.toQl (← obj.string "value")))
      | _ => pure none
    match expanded with
    | none => return (value, false)
    | some expanded =>
      let label ← obj.string? "as"
      let cast ← obj.string? "cast"
      return (expanded.tagged label cast, true)
  | _ => return (value, false)

/-- A view by its name. -/
def viewOfName (name : String) (scope : Scope) : Result Node :=
  if name.isEmpty then .error (.invalidExpression "view name cannot be empty")
  else .ok (.view name (scope.isCte name) none)

/-- Builds a view. -/
def view (obj : QlObject) (scope : Scope) : Result Node := do
  obj.checkKeys ["view"]
  let node ← viewOfName (← obj.string "view") scope
  let tag ← obj.tag
  node.fold tag.label tag.cast

/-- The name and the target that a relation declares. -/
def declaration (node : Node) : Result (String × RefTarget) :=
  match node with
  | .view name isCte label => .ok (label.getD name, if isCte then .cte name else .view name)
  | other =>
    match other.alias? with
    | some label => .ok (label, .subquery)
    | none => .error (.invalidExpression "a subquery in from or joins must be aliased")

/-- Declares a relation. -/
def declare (scope : Scope) (node : Node) : Result Scope := do
  let (name, target) ← declaration node
  scope.withRef name target

/-- Builds a relation from its expanded value. -/
def relationNode (b : Builder) (value : Json) (scope : Scope) (lateral : Bool) : Result Node := do
  match value with
  | .string name => viewOfName name scope
  | .object _ =>
    let obj ← QlObject.ofJson value
    match obj.type with
    | .view => view obj scope
    | .select => b.part b.resolving (.select (.range lateral)) value scope
    | other => throw (.invalidExpression s!"{other.name} cannot be used as a relation")
  | other => throw (.invalidExpression s!"invalid relation {other.text}")

/-- Builds a relation and declares it. -/
def relation (b : Builder) (value : Json) (scope : Scope) (lateral : Bool) :
    Result (Node × Scope) := do
  let (value, expanded) ← normalizeRelation value
  let node ← (b.forParts expanded).relationNode value scope lateral
  return (node, ← declare scope node)

/-- The type of a join, from what is written and what is joined: without a condition an inner join
is a cross join, lateral where a subquery is joined. -/
def joinType (written : Option JoinType) (hasOn isSubquery : Bool) : JoinType :=
  match written with
  | none | some .inner =>
    if hasOn then .inner else if isSubquery then .lateral else .cross
  | some type => type

/-- Fails where a join lacks the condition that it needs, has one that it cannot have, or is lateral
without a subquery. -/
def checkJoin (obj : QlObject) (type : JoinType) (hasOn isSubquery : Bool) : Result Unit :=
  match type with
  | .left | .right | .inner =>
    if hasOn then .ok () else .error (obj.fault s!"{type.name} join requires 'on'")
  | .cross | .lateral =>
    if hasOn then .error (obj.fault s!"{type.name} join cannot have 'on'")
    else if type == .lateral && !isSubquery then
      .error (obj.fault "lateral join requires a subquery")
    else .ok ()

/-- Builds a join from its object and declares its relation; the condition sees the relation. -/
def joinNode : Result (Node × Scope) := do
  obj.checkKeys ["joinType", "view", "on"]
  let joined ← obj.required "view"
  let isSubquery := QlObject.isType (← normalizeRelation joined).1 .select
  let written ← obj.named? "joinType" JoinType.ofName
  let type := joinType written (obj.has "on") isSubquery
  checkJoin obj type (obj.has "on") isSubquery
  let (relation, scope) ← b.relation joined scope (type == .lateral)
  let on ← b.optional (obj.get? "on") scope
  let tag ← obj.tag
  let node ← (Node.join type relation on).fold tag.label tag.cast
  return (node, scope)

/-- Builds a join and declares its relation. -/
def join (b : Builder) (value : Json) (scope : Scope) : Result (Node × Scope) := do
  let (value, expanded) ← normalizeRelation value
  if !QlObject.isType value .join then
    throw (.invalidExpression s!"joins entries must be joins, got {value.text}")
  (b.forParts expanded).joinNode (← QlObject.ofJson value) scope

/-! ## Selects -/

/-- The fields of a select's clauses. -/
def clauseKeys : List String :=
  ["with", "from", "joins", "distinct", "columns", "where", "having", "groupBy", "orderBy", "limit",
    "offset"]

/-- Declares a common table under its alias. -/
def declareCte (scope : Scope) (node : Node) : Result Scope :=
  match node.alias? with
  | some name => scope.withCte name
  | none => .ok scope

/-- The common tables of a select, each declared for those after it. -/
def ctes (b : Builder) (obj : QlObject) : List Json → Scope → Result (List Node × Scope)
  | [], scope => .ok ([], scope)
  | value :: values, scope => do
    if !QlObject.isType value .select then throw (obj.fault "with entries must be selects")
    let node ← b.part b.resolving (.select .cte) value scope
    let scope ← declareCte scope node
    let (nodes, scope) ← ctes b obj values scope
    return (node :: nodes, scope)

/-- The joins of a select, each declared for those after it. -/
def joins (b : Builder) : List Json → Scope → Result (List Node × Scope)
  | [], scope => .ok ([], scope)
  | value :: values, scope => do
    let (node, scope) ← b.join value scope
    let (nodes, scope) ← joins b values scope
    return (node :: nodes, scope)

/-- The first relation of a select, where it is there, declared for what comes after it. -/
def source (b : Builder) (value : Option Json) (scope : Scope) : Result (Option Node × Scope) := do
  match value with
  | some value =>
    let (node, scope) ← b.relation value scope false
    return (some node, scope)
  | none => return (none, scope)

/-- The limit that a value writes. -/
def limitOf (obj : QlObject) (value : Json) : Result Limit :=
  let fault := obj.fault s!"limit must be a non-negative integer or 'all', got {value.text}"
  match value with
  | .string s => if s.toLower == "all" then .ok .all else .error fault
  | .number n =>
    match n.nat64? with
    | some rows => .ok (.count rows)
    | none => .error fault
  | _ => .error fault

/-- The offset that a value writes. -/
def offsetOf (obj : QlObject) (value : Json) : Result Nat :=
  let fault := obj.fault s!"offset must be a non-negative integer, got {value.text}"
  match value with
  | .number n =>
    match n.nat64? with
    | some rows => .ok rows
    | none => .error fault
  | _ => .error fault

/-- Whether a select in a role sees the relations before it. -/
def seesSiblings (role : SelectRole) : Bool := role == .range true

/-- Builds the clauses of a select. -/
def clauses (role : SelectRole) :
    Result (Clauses Node) := do
  obj.checkKeys clauseKeys
  let scope := scope.childSelect (seesSiblings role)
  let (withs, scope) ← b.ctes obj ((← obj.array? "with").getD []) scope
  let (source, scope) ← b.source (obj.get? "from") scope
  let (joins, scope) ← b.joins ((← obj.array? "joins").getD []) scope
  let distinct := (← obj.bool? "distinct").getD false
  let columns ← b.expressions (← obj.array "columns") scope
  if columns.isEmpty then throw (obj.fault "at least one column is required")
  let filter ← b.optional (obj.get? "where") scope
  let having ← b.optional (obj.get? "having") scope
  let groupBy ← b.expressions ((← obj.array? "groupBy").getD []) scope
  let orderBy ← b.expressions ((← obj.array? "orderBy").getD []) scope
  let limit ← (obj.get? "limit").mapM (limitOf obj)
  let offset ← (obj.get? "offset").mapM (offsetOf obj)
  return {
    withs, source, joins, distinct, columns, filter, groupBy, having, orderBy, limit, offset }

/-- Builds a side of a set operation. -/
def side (op : SetOperator) (value : Json) :
    Result Node :=
  if QlObject.isType value .select then b.part b.resolving (.select .operand) value scope
  else .error (obj.fault s!"{op.name} operands must be selects")

/-- Builds a set operation. -/
def compound (role : SelectRole) (op : SetOperator) :
    Result Node := do
  if clauseKeys.any obj.has then
    throw (obj.fault s!"{op.name} cannot be mixed with select clauses")
  obj.checkKeys [op.name, "all"]
  match ← obj.array op.name with
  | [left, right] =>
    let all := (← obj.bool? "all").getD false
    let left ← b.side obj scope op left
    let right ← b.side obj scope op right
    return .compound role op all left right {}
  | _ => throw (obj.fault s!"{op.name} takes exactly two selects")

/-- Fails where a select lacks the alias that its role needs. -/
def checkAlias (role : SelectRole) (node : Node) : Result Unit :=
  match role, node.alias? with
  | .cte, none => .error (.invalidExpression "a cte must be aliased")
  | .range _, none => .error (.invalidExpression "a subquery in from or joins must be aliased")
  | _, _ => .ok ()

/-- Builds a select in a role. -/
def select (role : SelectRole) : Result Node := do
  let node ← match SetOperator.all.filter (obj.has ·.name) with
    | [] => pure (Node.select role (← b.clauses obj scope role) {})
    | [op] => b.compound obj scope role op
    | _ => throw (obj.fault "only one of union, intersect or except is allowed")
  let tag ← obj.tag
  let node ← node.fold tag.label tag.cast
  checkAlias role node
  return node

/-! ## Values -/

/-- Builds an object where an expression is expected. -/
def object : Result Node := do
  let node ← match obj.type with
    | .select => return ← b.select obj scope .subquery
    | .short => return ← b.short obj scope
    | .sql => return ← b.sql obj scope
    | .cast => return ← b.cast obj scope
    | .view | .join => throw (obj.fault "only allowed in from and joins")
    | .column => column obj scope
    | .parameter => b.parameter obj scope
    | .function => b.call obj scope
    | .geometry => b.geometry obj scope
    | .operator | .and | .or => b.operator obj scope
    | .case => b.case obj scope
    | .array => b.array obj scope
    | .list => b.list obj scope
    | .sort => b.sort obj scope
    | .primitive => constant obj
  let tag ← obj.tag
  node.fold tag.label tag.cast

/-- Builds a value at a position. Bare scalars are constants and bare arrays are arrays. -/
def value (b : Builder) (position : Position) (value : Json) (scope : Scope) : Result Node := do
  match position, value with
  | .select role, value => b.select (← QlObject.ofJson value) scope role
  | .expression, .array items => return .array (← b.expressions items scope) {}
  | .expression, .object fields => b.object (← QlObject.ofJson (.object fields)) scope
  | .expression, scalar => return .constant (← Primitive.ofJson scalar) {}

end Builder

/-! ## The recursion -/

namespace Build

/-- Builds a value of at most a depth, given how expansions and bound values are built. -/
def within (options : ParseOptions) (expansion binding : BuildFn) : Nat → BuildFn
  | 0, _, _, _, _ => .error .exhausted
  | depth + 1, resolving, position, value, scope =>
    Builder.value ⟨options, resolving, within options expansion binding depth, expansion, binding⟩
      position value scope

/-- Builds a value with at most a number of expansions inside each other, given how bound values are
built. -/
def levels (options : ParseOptions) (binding : BuildFn) : Nat → BuildFn
  | 0, _, _, _, _ => .error .exhausted
  | level + 1, resolving, position, value, scope =>
    within options (levels options binding level) binding (value.depth + 1) resolving position value
      scope

/-- A number of levels that is enough for a value: every expansion of a text uses up some of its
characters. -/
def enoughLevels (value : Json) : Nat := 64 * value.textSize + 64

/-- Builds a value with at most a number of bound parameters inside each other. -/
def chains (options : ParseOptions) : Nat → BuildFn
  | 0, _, _, _, _ => .error .exhausted
  | count + 1, resolving, position, value, scope =>
    levels options (chains options count) (enoughLevels value) resolving position value scope

/-- The number of parameters that can still be resolved inside each other, and one for the value
itself: no parameter is resolved inside its own value. -/
def chainsLeft (options : ParseOptions) (resolving : List String) : Nat :=
  (options.parameters.getD []).length + 1 - resolving.length

/-- Builds a value while some parameters are being resolved. -/
def run (options : ParseOptions) : BuildFn := fun resolving =>
  chains options (chainsLeft options resolving) resolving

/-- Builds an expression in a scope. -/
def expression (options : ParseOptions) (value : Json) (scope : Scope) : Result Node :=
  run options [] .expression value scope

/-- Builds a select in a role. -/
def select (options : ParseOptions) (value : Json) (scope : Scope) (role : SelectRole) :
    Result Node :=
  run options [] (.select role) value scope

/-- Builds a relation and declares it. -/
def relation (options : ParseOptions) (value : Json) (scope : Scope) (lateral : Bool) :
    Result (Node × Scope) :=
  Builder.relation ⟨options, [], run options, run options, run options⟩ value scope lateral

/-- Builds the root of a tree; a select there is the root select. -/
def root (options : ParseOptions) (value : Json) : Result Node :=
  if QlObject.isType value .select then select options value .root .root
  else expression options value .root

end Build

end AnalyticQuery
