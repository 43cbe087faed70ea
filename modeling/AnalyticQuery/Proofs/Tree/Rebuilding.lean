import AnalyticQuery.Proofs.Ql.Fields
import AnalyticQuery.Proofs.Tree.Parallel

/-!
# Building expressions again

An expression is written as a query value, with references for its parameters, and built again from
that value in the same scope. Each kind of expression is taken alone, over parts that are built
again from their own values. What is built again may differ from what was written in any way that
the rules of the builder keep.
-/

namespace AnalyticQuery

open Builder Operator QlObject Result

variable {v : Json} {n : Node} {branches : List (Node × Node)}

namespace Node

/-- The query value of an expression, with references in place of the values of parameters. Short
expressions that are kept are written in their short form or as what they stand for. -/
def ql (kept : Bool) (n : Node) : Json := n.toQl { keepShorts := kept, keepParamRefs := true }

variable {kept : Bool}

/-- The values of a list of expressions, one by one. -/
theorem toQlAll_eq_map (o : QlOptions) (ns : List Node) : toQlAll o ns = ns.map (toQl o) := by
  induction ns with
  | nil => rfl
  | cons n ns ih => rw [toQlAll, ih, List.map_cons]

/-- The values of the branches of a case, one by one. -/
theorem toQlBranches_eq_map (o : QlOptions) (branches : List (Node × Node)) :
    toQlBranches o branches = branches.map fun b => .array [b.1.toQl o, b.2.toQl o] := by
  induction branches with
  | nil => rfl
  | cons b branches ih => rw [toQlBranches, ih, List.map_cons]

theorem toQlAll_eq (ns : List Node) :
    toQlAll { keepShorts := kept, keepParamRefs := true } ns = ns.map (ql kept) :=
  toQlAll_eq_map _ ns

theorem toQlOption_eq (n : Option Node) :
    toQlOption { keepShorts := kept, keepParamRefs := true } n = n.map (ql kept) := by
  cases n <;> rfl

theorem toQlBranches_eq (branches : List (Node × Node)) :
    toQlBranches { keepShorts := kept, keepParamRefs := true } branches =
      branches.map fun b => .array [b.1.ql kept, b.2.ql kept] :=
  toQlBranches_eq_map _ branches

/-! ## Nulls -/

/-- The expressions directly inside an expression that are written with it: all but the value bound
to a parameter. -/
def inQl : Node → List Node
  | .parameter .. => []
  | other => other.children

/-- The expressions that stand in fields where a null counts as no value. -/
def nullable : Node → List Node
  | .select _ c _ => c.filter.toList ++ c.having.toList
  | .join _ _ on => on.toList
  | .case _ otherwise _ => otherwise.toList
  | .sort value _ _ => [value]
  | _ => []

/-- Whether an expression is a null without alias and cast. -/
def isBareNull : Node → Bool
  | .constant .null tag => tag == {}
  | _ => false

open Relation in
/-- No null stands where it would count as no value, in all that is written of an expression. -/
def NullsKept (n : Node) : Prop :=
  ∀ m, ReflTransGen (fun a b => b ∈ a.inQl) n m → ∀ k ∈ m.nullable, k.isBareNull = false

variable {m : Node}

/-- No null stands where it would count as no value, directly inside an expression. -/
theorem NullsKept.here (h : n.NullsKept) : ∀ k ∈ n.nullable, k.isBareNull = false := h n .refl

/-- What is written with an expression keeps its nulls, too. -/
theorem NullsKept.of_mem (h : n.NullsKept) (hm : m ∈ n.inQl) : m.NullsKept :=
  fun k hk => h k (.head hm hk)

/-- An expression keeps its nulls if it does directly inside and below each part that is written. -/
theorem NullsKept.intro (here : ∀ k ∈ n.nullable, k.isBareNull = false)
    (below : ∀ m ∈ n.inQl, m.NullsKept) : n.NullsKept := by
  intro m hm
  obtain rfl | ⟨k, hk, hm⟩ := hm.cases_head
  · exact here
  · exact below k hk m hm

theorem isNull_onto (tag : Tag) (v : Json) (h : v.isNull = false ∨ tag ≠ {}) :
    (tag.onto v).isNull = false := by
  obtain ⟨label, cast⟩ := tag
  cases label <;> cases cast <;> simp_all [Tag.onto, Json.tagged]

/-- Only a null without alias and cast is written as null. -/
theorem isNull_ql (hs : n.isShort = true → kept = true) (hn : n.isBareNull = false) :
    (n.ql kept).isNull = false := by
  unfold ql
  cases n with
  | short =>
    rw [hs rfl]
    rfl
  | constant p tag =>
    apply isNull_onto
    cases p with
    | null => exact .inr (by simpa [isBareNull] using hn)
    | _ => exact .inl rfl
  | parameter | view | column | call | geometry | operation | case | array | select | compound =>
    exact isNull_onto _ _ (.inl rfl)
  | join | list | sort => rfl

end Node

/-! ## Kinds of expressions -/

namespace Builder

open QlObject (written)

variable {lax : Error → Prop} {R : Node → Node → Prop} {b : Builder} {s : Scope} {tag : Tag}
  {values : List Json}
variable {ns : List Node} {write : Node → Json} {name : String} {op : Operator}
  {qualifier : Option Qualifier}
  {p : Primitive}

/-- Expressions are built again one by one. -/
theorem exists_expressions (h : ∀ n ∈ ns, ∃ m, b.expression (write n) s = .ok m ∧ R n m) :
    ∃ ms, b.expressions (ns.map write) s = .ok ms ∧ List.Forall₂ R ns ms := by
  induction ns with
  | nil => exact ⟨[], rfl, .nil⟩
  | cons n ns ih =>
    obtain ⟨m, hm, hnm⟩ := h n List.mem_cons_self
    obtain ⟨ms, hms, hrest⟩ := ih fun k hk => h k (List.mem_cons_of_mem _ hk)
    rw [expressions] at hms
    exact ⟨m :: ms, by simp [expressions, hm, hms], .cons hnm hrest⟩

/-- An expression that may be there is built again. -/
theorem exists_optional {o : Option Node}
    (h : ∀ n ∈ o, ∃ m, b.expression (write n) s = .ok m ∧ R n m) :
    ∃ p, b.optional (o.map write) s = .ok p ∧ Option.Rel R o p := by
  cases o with
  | none => exact ⟨none, rfl, .none⟩
  | some n =>
    obtain ⟨m, hm, hnm⟩ := h n rfl
    exact ⟨some m, by simp [optional, hm], .some hnm⟩

/-- The fields of a column. -/
def columnFields (c : Column) : Fields :=
  [("type", .string "column"), ("column", .string c.name)] ++ optionField "view"
    (c.view.map .string)

theorem own_columnFields (c : Column) : (columnFields c).Own .column :=
  ⟨rfl, by simp [columnFields], by simp [columnFields]⟩

/-- The fields of a function call with the values of its arguments. -/
def callFields (f : FunctionSpec) (values : List Json) (distinct : Bool) : Fields :=
  [("type", .string "function"), ("value", .string f.name), ("args", .array values)] ++
    flagField "distinct" distinct

theorem own_callFields (f : FunctionSpec) (values : List Json) (distinct : Bool) :
    (callFields f values distinct).Own .function :=
  ⟨rfl, by simp [callFields], by simp [callFields]⟩

/-- The fields of a shape with the values of its arguments. -/
def geometryFields (type : GeometryType) (values : List Json) : Fields :=
  [("type", .string "geometry"), ("geometryType", .string type.name), ("args", .array values)]

theorem own_geometryFields (type : GeometryType) (values : List Json) :
    (geometryFields type values).Own .geometry :=
  ⟨rfl, by simp [geometryFields], by simp [geometryFields]⟩

/-- The fields of a reference to a parameter. -/
def parameterFields (name : String) : Fields :=
  [("type", .string "parameter"), ("value", .string name)]

theorem own_parameterFields (name : String) : (parameterFields name).Own .parameter :=
  ⟨rfl, by simp [parameterFields], by simp [parameterFields]⟩

/-- The value bound to a parameter is built again as it was. -/
theorem boundValue_eq_some (hbound : b.options.parameter? name = some v)
    (fresh : name ∉ b.resolving) (hn : b.binding (b.resolving ++ [name]) .expression v s = .ok n) :
    b.boundValue name s = .ok (some n) := by
  have hresolve : b.resolve name = .ok (b.resolving ++ [name]) := by
    simp [resolve, fresh]
  simp [boundValue, hresolve, hbound, hn]

/-- A parameter without a value is built again where it needs none. -/
theorem boundValue_eq_none (hfree : b.options.parameter? name = none)
    (allowed : b.options.paramsMustHaveValues = false) : b.boundValue name s = .ok none := by
  simp [boundValue, hfree, allowed]

/-- Operands with none to absorb stay as they are. -/
theorem flatten_of_flat {operands : List Node} (flat : ∀ n ∈ operands, absorbed? op n = none) :
    flatten op operands = operands := by
  induction operands with
  | nil => rfl
  | cons operand operands ih =>
    have hhead := flat operand List.mem_cons_self
    have htail := ih fun n hn => flat n (List.mem_cons_of_mem _ hn)
    rw [flatten] at htail
    rw [flatten, List.flatMap_cons, hhead, htail]
    rfl

/-- The kind of object that an operator is written as. -/
def operatorKind : Operator → ExpressionType
  | .and => .and
  | .or => .or
  | _ => .operator

private theorem qlFields_cases (op : Operator) :
    (op = .and ∨ op = .or) ∨
      (operatorKind op = .operator ∧
        op.qlFields = [("type", .string "operator"), ("value", .string op.name)]) := by
  cases op <;> simp [operatorKind, qlFields]

private theorem operatorName_ne_empty (op : Operator) : op.name ≠ "" := by
  cases op <;> decide

private theorem qualifierName_ne_empty (qualifier : Qualifier) : qualifier.name ≠ "" := by
  cases qualifier <;> decide

/-- The operator of an object is read back; a logical operator has no qualifier. -/
theorem operatorOf_written {items : List Json}
    (qualified : qualifier.isSome → op.allowsQualifier = true) :
    operatorOf (written (op.qlFields ++ [("operands", .array items)] ++
      optionField "qualifier" (qualifier.map (.string ·.name))) (operatorKind op) tag) =
        .ok op := by
  obtain hlogical | ⟨hkind, hfields⟩ := qlFields_cases op
  · have hnone : qualifier = none := by
      cases qualifier with
      | none => rfl
      | some _ =>
        have hallows := qualified rfl
        obtain rfl | rfl := hlogical <;> cases hallows
    subst hnone
    have hkeys : ∀ type, (written (op.qlFields ++ [("operands", .array items)]) type tag).checkKeys
        ["operands"] = .ok () := by
      intro type
      apply checkKeys_written
      obtain rfl | rfl := hlogical <;> simp [qlFields]
    obtain rfl | rfl := hlogical <;> simp [operatorOf, operatorKind, optionField, hkeys]
  · rw [hkind, hfields]
    let F : Fields := [("type", .string "operator"), ("value", .string op.name)] ++
      [("operands", .array items)] ++ optionField "qualifier" (qualifier.map (.string ·.name))
    have hkeys : (written F .operator tag).checkKeys ["value", "operands", "qualifier"] = .ok () :=
      checkKeys_written (by simp [F, Fields.keysIn_optionField])
    have hname : (written F .operator tag).string "value" = .ok op.name :=
      string_eq_ok (by simp [F, get?_written]) (operatorName_ne_empty op)
    simp only [operatorOf, type_written, hkeys, hname, ok_bind, ofName_name, F]

/-- The fields of an operator with the values of its operands. -/
def operationFields (op : Operator) (values : List Json) (qualifier : Option Qualifier) : Fields :=
  op.qlFields ++ [("operands", .array values)] ++ optionField "qualifier"
    (qualifier.map (.string ·.name))

theorem own_operationFields (op : Operator) (values : List Json) (qualifier : Option Qualifier) :
    (operationFields op values qualifier).Own (operatorKind op) := by
  obtain (rfl | rfl) | ⟨hkind, hfields⟩ := qlFields_cases op
  · exact ⟨rfl, by simp [operationFields, qlFields], by simp [operationFields, qlFields]⟩
  · exact ⟨rfl, by simp [operationFields, qlFields], by simp [operationFields, qlFields]⟩
  · rw [hkind]
    exact ⟨by simp [operationFields, hfields, ExpressionType.name],
      by simp [operationFields, hfields],
      by simp [operationFields, hfields]⟩

theorem get?_operationFields {key : String} (htype : key ≠ "type") (hvalue : key ≠ "value") :
    Fields.get? (operationFields op values qualifier) key =
      Fields.get? ([("operands", .array values)] ++
      optionField "qualifier" (qualifier.map (.string ·.name))) key := by
  obtain (rfl | rfl) | ⟨-, hfields⟩ := qlFields_cases op
  · simp [operationFields, qlFields, htype.symm]
  · simp [operationFields, qlFields, htype.symm]
  · simp [operationFields, hfields, htype.symm, hvalue.symm]

/-- The qualifier of an operator is read back. -/
theorem qualifier_operationFields (op : Operator) (qualifier : Option Qualifier) :
    (written (operationFields op values qualifier) (operatorKind op) tag).named? "qualifier"
      Qualifier.ofName =
      .ok qualifier := by
  refine named?_eq_ok ?_ qualifierName_ne_empty Qualifier.ofName_name
  cases qualifier <;> simp [get?_written, get?_operationFields]

/-- The objects that operators are written as are built by one rule. -/
theorem object_operator (op : Operator) (obj : QlObject) (htype : obj.type = operatorKind op) :
    b.object obj s = b.operator obj s >>= fun m => obj.tag >>= fun tag =>
      m.fold tag.label tag.cast := by
  obtain ⟨F, type⟩ := obj
  have hcases : type = .and ∨ type = .or ∨ type = .operator := by
    obtain (rfl | rfl) | ⟨hkind, -⟩ := qlFields_cases op
    · exact .inl htype
    · exact .inr (.inl htype)
    · exact .inr (.inr (htype.trans hkind))
  obtain rfl | rfl | rfl := hcases <;> rfl

/-- The branches of a case are built again. -/
theorem exists_branches
    (conditions : ∀ p ∈ branches, ∃ m, b.expression (write p.1) s = .ok m ∧ R p.1 m)
    (results : ∀ p ∈ branches, ∃ m, b.expression (write p.2) s = .ok m ∧ R p.2 m) :
    ∃ ms, (branches.map fun p => Json.array [write p.1, write p.2]).mapM (b.branch s) = .ok ms ∧
      List.Forall₂ (fun p q => R p.1 q.1 ∧ R p.2 q.2) branches ms := by
  induction branches with
  | nil => exact ⟨[], rfl, .nil⟩
  | cons p branches ih =>
    obtain ⟨m, hm, hcondition⟩ := conditions p List.mem_cons_self
    obtain ⟨k, hk, hresult⟩ := results p List.mem_cons_self
    obtain ⟨ms, hms, hrest⟩ := ih (fun q hq => conditions q (List.mem_cons_of_mem _ hq))
      fun q hq => results q (List.mem_cons_of_mem _ hq)
    have hbranch : b.branch s (.array [write p.1, write p.2]) = .ok (m, k) := by
      simp [branch, hm, hk]
    exact ⟨(m, k) :: ms, by simp [hbranch, hms], .cons ⟨hcondition, hresult⟩ hrest⟩

/-- A field that may be there holds its value, unless that is null. -/
theorem filter_notNull {o : Option Json} (h : ∀ v ∈ o, v.isNull = false) :
    o.filter (!·.isNull) = o := by
  cases o with
  | none => rfl
  | some v => simp [h v rfl]

/-- The fields of a case with the values of its branches and of its default. -/
def caseFields (values : List Json) (default : Option Json) : Fields :=
  [("type", .string "case"), ("cases", .array values)] ++ optionField "defaultCase" default

theorem own_caseFields (values : List Json) (default : Option Json) :
    (caseFields values default).Own .case :=
  ⟨rfl, by simp [caseFields], by simp [caseFields]⟩

/-- The fields of a list with its values. -/
def listFields (values : List Json) : Fields :=
  [("type", .string "list"), ("values", .array values)]

theorem own_listFields (values : List Json) : (listFields values).Own .list :=
  ⟨rfl, by simp [listFields], by simp [listFields]⟩

variable {direction : Option SortDirection} {nulls : Option NullsOrder}

/-- The fields of a sort item with the value that it sorts by. -/
def sortFields (v : Json) (direction : Option SortDirection) (nulls : Option NullsOrder) : Fields :=
  [("type", .string "sort"), ("value", v)] ++ optionField "direction"
    (direction.map (.string ·.name)) ++
    optionField "nulls" (nulls.map (.string ·.name))

theorem own_sortFields (v : Json) (direction : Option SortDirection) (nulls : Option NullsOrder) :
    (sortFields v direction nulls).Own .sort :=
  ⟨rfl, by simp [sortFields], by simp [sortFields]⟩

/-- The direction of a sort item is read back. -/
theorem direction_sortFields :
    (written (sortFields v direction nulls) .sort {}).named? "direction" SortDirection.ofName =
      .ok direction := by
  refine named?_eq_ok ?_ (fun d => by cases d <;> decide) SortDirection.ofName_name
  cases direction <;> simp [sortFields, get?_written]

/-- The order of nulls of a sort item is read back. -/
theorem nulls_sortFields :
    (written (sortFields v direction nulls) .sort {}).named? "nulls" NullsOrder.ofName =
      .ok nulls := by
  refine named?_eq_ok ?_ (fun o => by cases o <;> decide) NullsOrder.ofName_name
  cases nulls <;> simp [sortFields, get?_written]

/-- The fields of an array with its values. -/
def arrayFields (values : List Json) : Fields :=
  [("type", .string "array"), ("values", .array values)]

theorem own_arrayFields (values : List Json) : (arrayFields values).Own .array :=
  ⟨rfl, by simp [arrayFields], by simp [arrayFields]⟩

private theorem int64?_ofInt {number : Number} {i : Int} (h : number.int64? = some i) :
    (Number.ofInt i).int64? = some i := by
  cases number with
  | real => cases h
  | integer n inWord =>
    rw [Number.int64?] at h
    split at h
    · next hlt =>
      cases h
      rw [Number.ofInt, dif_pos inWord, Number.int64?, if_pos hlt]
    · cases h

/-- A constant that was read is read back from its value. -/
theorem ofJson_toJson (h : Primitive.ofJson v = .ok p) :
    Primitive.ofJson p.toJson = .ok p := by
  cases p with
  | int i =>
    have hint : (Number.ofInt i).int64? = some i := by
      cases v with
      | number n =>
        have h : Primitive.ofNumber n = .int i := Except.ok.inj h
        unfold Primitive.ofNumber at h
        split at h
        · next hn =>
          cases h
          exact int64?_ofInt hn
        · cases h
      | _ => cases h
    simp [Primitive.toJson, Primitive.ofJson, Primitive.ofNumber, Json.int, hint]
  | _ => rfl

/-! ## Values that are built again -/

variable (hR : Node.Congruence (.ofFirst lax) R)

include hR

/-- An object is built if its own fields are, whatever alias and cast it has. -/
theorem value_tagged (type : ExpressionType) (kind : QlObject → Result Node)
    (tag : Tag) {F : Fields} (hown : F.Own type)
    (hobject : ∀ obj, obj.type = type → b.object obj s =
      kind obj >>= fun m => obj.tag >>= fun tag => m.fold tag.label tag.cast)
    (named : tag.label ≠ some "") (hshort : n.isShort = false) (hbare : n.tag = {})
    (hcanAlias : tag.label.isSome → n.canAlias = true)
    (hcanCast : tag.cast.isSome → n.canCast = true)
    (hkind : ∃ m, kind (written F type tag) = .ok m ∧ R n m) :
    ∃ m, b.value .expression (tag.onto (.object F)) s = .ok m ∧ R (n.retag tag) m := by
  obtain ⟨m, hm, hnm⟩ := hkind
  have hfold := Node.fold_eq_ok hshort hbare named hcanAlias hcanCast
  obtain ⟨k, hk, hnk⟩ := (hR.fold hnm tag.label tag.cast).exists_ok hfold
  have hvalue : b.value .expression (.object (F ++ tag.fields)) s =
      QlObject.ofJson (.object (F ++ tag.fields)) >>= fun obj => b.object obj s := rfl
  refine ⟨k, ?_, hnk⟩
  rw [tag.onto_object hown.cast hown.label, hvalue, ofJson_written hown.type, ok_bind,
    hobject (written F type tag) rfl, hm, ok_bind, tag_written hown.cast hown.label named, ok_bind,
    hk]

/-- A column is built again. -/
theorem value_column {c : Column} (hname : c.name ≠ "") (hview : c.view ≠ some "")
    (found : s.resolveColumn c.view c.name = .ok ⟨c.qualifier, c.origin⟩)
    (named : tag.label ≠ some "") :
    ∃ m, b.value .expression (tag.onto c.toQl) s = .ok m ∧ R (.column c tag) m := by
  let F : Fields := columnFields c
  refine value_tagged hR .column (column · s) tag (F := F) (n := .column c {})
    (own_columnFields c) (by rintro ⟨F, _⟩ rfl; rfl) named rfl rfl (fun _ => rfl) (fun _ => rfl)
    ⟨.column c {}, ?_, hR.column c⟩
  have hkeys : (written F .column tag).checkKeys ["column", "view"] = .ok () :=
    checkKeys_written (by simp [F, columnFields, Fields.keysIn_optionField])
  have hname : (written F .column tag).string "column" = .ok c.name :=
    string_eq_ok (by simp [F, columnFields, get?_written]) hname
  have hview : (written F .column tag).string? "view" = .ok c.view :=
    string?_eq_ok (by cases hv : c.view <;> simp [F, columnFields, hv, get?_written]) hview
  simp [column, hkeys, hname, hview, found]

/-- A function call is built again over its arguments. -/
theorem value_call {f : FunctionSpec} {distinct : Bool}
    (known : FunctionRegistry.standard.get? f.name = some f ∧ f.name ≠ "")
    (parts : ∃ ms, b.expressions values s = .ok ms ∧ List.Forall₂ R ns ms)
    (arity : f.arity.accepts ns.length = true) (aggregate : distinct = true → f.isAggregate = true)
    (named : tag.label ≠ some "") :
    ∃ m, b.value .expression (tag.onto (.object (callFields f values distinct))) s = .ok m ∧
      R (.call f ns distinct tag) m := by
  obtain ⟨ms, hms, hnm⟩ := parts
  let F : Fields := callFields f values distinct
  refine value_tagged hR .function (b.call · s) tag (F := F) (n := .call f ns distinct {})
    (own_callFields ..) (by rintro ⟨F, _⟩ rfl; rfl) named rfl rfl (fun _ => rfl) (fun _ => rfl)
    ⟨.call f ms distinct {}, ?_, hR.call hnm⟩
  have hkeys : (written F .function tag).checkKeys ["value", "args", "distinct"] = .ok () :=
    checkKeys_written (by simp [F, callFields, Fields.keysIn_flagField])
  have hname : (written F .function tag).string "value" = .ok f.name :=
    string_eq_ok (by simp [F, callFields, get?_written]) known.2
  have hlookup : FunctionRegistry.standard.lookup f.name = .ok f := by
    rw [FunctionRegistry.lookup, known.1]
  have hitems : (written F .function tag).get? "args" = some (.array values) := by
    simp [F, callFields, get?_written]
  obtain ⟨flag, hflag, hdistinct⟩ : ∃ flag, (written F .function tag).bool? "distinct" = .ok flag ∧
      flag.getD false = distinct :=
    bool?_eq_ok (by cases distinct <;> simp [F, callFields, get?_written])
  have harity := (Arity.check_ok_iff f.arity f.name ns.length).mpr arity
  rw [hnm.length_eq] at harity
  simpa [call, hkeys, hname, hlookup, array?_eq_some hitems, hms, harity, hflag,
    hdistinct] using aggregate

/-- A shape is built again over its arguments. -/
theorem value_geometry {type : GeometryType}
    (parts : ∃ ms, b.expressions values s = .ok ms ∧ List.Forall₂ R ns ms)
    (arity : type.arity.accepts ns.length = true) (named : tag.label ≠ some "") :
    ∃ m, b.value .expression (tag.onto (.object (geometryFields type values))) s = .ok m ∧
      R (.geometry type ns tag) m := by
  obtain ⟨ms, hms, hnm⟩ := parts
  let F : Fields := geometryFields type values
  refine value_tagged hR .geometry (b.geometry · s) tag (F := F) (n := .geometry type ns {})
    (own_geometryFields ..) (by rintro ⟨F, _⟩ rfl; rfl) named rfl rfl (fun _ => rfl) (fun _ => rfl)
    ⟨.geometry type ms {}, ?_, hR.geometry hnm⟩
  have hkeys : (written F .geometry tag).checkKeys ["geometryType", "args"] = .ok () :=
    checkKeys_written (by simp [F, geometryFields])
  have hname : (written F .geometry tag).string "geometryType" = .ok type.name :=
    string_eq_ok (by simp [F, geometryFields, get?_written]) (by cases type <;> decide)
  have hitems : (written F .geometry tag).get? "args" = some (.array values) := by
    simp [F, geometryFields, get?_written]
  have harity := (Arity.check_ok_iff type.arity type.name ns.length).mpr arity
  rw [hnm.length_eq] at harity
  simp [geometry, hkeys, hname, GeometryType.ofName_name, array_eq_ok hitems, hms, harity]

/-- A parameter is built again if its value is. -/
theorem value_parameter {value : Option Node} (hasName : name ≠ "")
    (unreserved : name.startsWith "__" = false)
    (hvalue : ∃ w, b.boundValue name s = .ok w ∧ Option.Rel R value w)
    (named : tag.label ≠ some "") :
    ∃ m, b.value .expression (tag.onto (.object (parameterFields name))) s = .ok m ∧
      R (.parameter name value tag) m := by
  obtain ⟨w, hw, hrel⟩ := hvalue
  let F : Fields := parameterFields name
  refine value_tagged hR .parameter (b.parameter · s) tag (F := F) (n := .parameter name value {})
    (own_parameterFields name) (by rintro ⟨F, _⟩ rfl; rfl) named rfl rfl (fun _ => rfl)
      (fun _ => rfl)
    ⟨.parameter name w {}, ?_, hR.parameter hrel⟩
  have hkeys : (written F .parameter tag).checkKeys ["value"] = .ok () :=
    checkKeys_written (by simp [F, parameterFields])
  have hname : (written F .parameter tag).string "value" = .ok name :=
    string_eq_ok (by simp [F, parameterFields, get?_written]) hasName
  simp only [parameter, hkeys, hname, ok_bind, unreserved, hw]
  rfl

/-- An operator is built again over its operands. -/
theorem value_operation (parts : ∃ ms, b.expressions values s = .ok ms ∧ List.Forall₂ R ns ms)
    (arity : op.arity.accepts ns.length = true)
    (qualified : qualifier.isSome → op.allowsQualifier = true)
    (flat : op.isLogical = true → ∀ n ∈ ns, absorbed? op n = none) (named : tag.label ≠ some "") :
    ∃ m, b.value .expression (tag.onto (.object (operationFields op values qualifier))) s = .ok m ∧
      R (.operation op ns qualifier tag) m := by
  obtain ⟨ms, hms, hnm⟩ := parts
  -- the rules of an operator are those for what was built, and the relation is kept by them
  have hflat : (if op.isLogical then flatten op ns else ns) = ns := by
    split
    · next hlogical => exact flatten_of_flat (flat hlogical)
    · rfl
  have hbuilt : operation op ns qualifier = .ok (.operation op ns qualifier {}) := by
    have harity := (Arity.check_ok_iff op.arity op.name ns.length).mpr arity
    simp only [operation, hflat, harity, ok_bind]
    simpa using qualified
  obtain ⟨m, hm, hrel⟩ := (hR.operation hnm).exists_ok hbuilt
  let F : Fields := operationFields op values qualifier
  refine value_tagged hR (operatorKind op) (b.operator · s) tag (F := F)
    (n := .operation op ns qualifier {})
    (own_operationFields ..) (object_operator op) named rfl rfl (fun _ => rfl) (fun _ => rfl)
      ⟨m, ?_, hrel⟩
  have hop : operatorOf (written F (operatorKind op) tag) = .ok op := operatorOf_written qualified
  have hitems : (written F (operatorKind op) tag).get? "operands" = some (.array values) := by
    simp [get?_written, F, get?_operationFields]
  have hqualifier : (written F (operatorKind op) tag).named? "qualifier" Qualifier.ofName =
    .ok qualifier :=
    qualifier_operationFields op qualifier
  simp only [operator, hop, array_eq_ok hitems, hms, hqualifier, ok_bind, hm]

/-- A case is built again, unless its default is null. -/
theorem value_case {otherwise : Option Node}
    {default : Option Json} (nonempty : branches ≠ [])
    (parts : ∃ ms, values.mapM (b.branch s) = .ok ms ∧
      List.Forall₂ (fun p q => R p.1 q.1 ∧ R p.2 q.2) branches ms)
    (other : ∃ p, b.optional default s = .ok p ∧ Option.Rel R otherwise p)
    (hnull : ∀ v ∈ default, v.isNull = false) (named : tag.label ≠ some "") :
    ∃ m, b.value .expression (tag.onto (.object (caseFields values default))) s = .ok m ∧
      R (.case branches otherwise tag) m := by
  obtain ⟨ms, hms, hnm⟩ := parts
  obtain ⟨p, hp, hrel⟩ := other
  let F : Fields := caseFields values default
  refine value_tagged hR .case (b.case · s) tag (F := F) (n := .case branches otherwise {})
    (own_caseFields ..) (by rintro ⟨F, _⟩ rfl; rfl) named rfl rfl (fun _ => rfl) (fun _ => rfl)
    ⟨.case ms p {}, ?_, hR.case hnm hrel⟩
  have hkeys : (written F .case tag).checkKeys ["cases", "defaultCase"] = .ok () :=
    checkKeys_written (by simp [F, caseFields, Fields.keysIn_optionField])
  have hitems : (written F .case tag).get? "cases" = some (.array values) := by
    simp [F, caseFields, get?_written]
  have hdefault : (written F .case tag).get? "defaultCase" = default := by
    rw [get?_written (by decide) (by decide)]
    simpa [F, caseFields] using filter_notNull hnull
  have hvalues : values ≠ [] := by
    rintro rfl
    cases hms
    cases hnm
    exact nonempty rfl
  simpa [case, hkeys, array_eq_ok hitems, hms, hdefault, hp] using hvalues

/-- A list of values is built again. -/
theorem value_list (nonempty : ns ≠ [])
    (parts : ∃ ms, b.expressions values s = .ok ms ∧ List.Forall₂ R ns ms) :
    ∃ m, b.value .expression (.object (listFields values)) s = .ok m ∧ R (.list ns) m := by
  obtain ⟨ms, hms, hnm⟩ := parts
  let F : Fields := listFields values
  refine value_tagged hR .list (b.list · s) {} (F := F) (n := .list ns) (own_listFields _)
    (by rintro ⟨F, _⟩ rfl; rfl) nofun rfl rfl nofun nofun ⟨.list ms, ?_, hR.list hnm⟩
  have hkeys : (written F .list {}).checkKeys ["values"] = .ok () :=
    checkKeys_written (by simp [F, listFields])
  have hvalues : (written F .list {}).get? "values" = some (.array values) := by
    simp [F, listFields, get?_written]
  have hne : ms ≠ [] := by
    rintro rfl
    cases hnm
    exact nonempty rfl
  simp [list, hkeys, array_eq_ok hvalues, hms, hne]

/-- A sort item is built again, unless its value is null. -/
theorem value_sort (part : ∃ m, b.expression v s = .ok m ∧ R n m) (hnull : v.isNull = false) :
    ∃ m, b.value .expression (.object (sortFields v direction nulls)) s = .ok m ∧
      R (.sort n direction nulls) m := by
  obtain ⟨m, hm, hnm⟩ := part
  let F : Fields := sortFields v direction nulls
  refine value_tagged hR .sort (b.sort · s) {} (F := F) (n := .sort n direction nulls)
    (own_sortFields ..)
    (by rintro ⟨F, _⟩ rfl; rfl) nofun rfl rfl nofun nofun ⟨.sort m direction nulls, ?_, hR.sort hnm⟩
  have hkeys : (written F .sort {}).checkKeys ["value", "direction", "nulls"] = .ok () :=
    checkKeys_written (by simp [F, sortFields, Fields.keysIn_optionField])
  have hget : (written F .sort {}).get? "value" = some v := by
    simp [F, sortFields, get?_written, hnull]
  simp [sort, hkeys, QlObject.required, hget, hm, direction_sortFields, nulls_sortFields, F]

/-- A bare array is built again. -/
theorem value_bareArray (parts : ∃ ms, b.expressions values s = .ok ms ∧ List.Forall₂ R ns ms) :
    ∃ m, b.value .expression (.array values) s = .ok m ∧ R (.array ns {}) m := by
  obtain ⟨ms, hms, hnm⟩ := parts
  refine ⟨.array ms {}, ?_, hR.array hnm⟩
  have hvalue : b.value .expression (.array values) s =
      b.expressions values s >>= fun items => pure (.array items {}) := rfl
  rw [hvalue, hms]
  rfl

/-- An array is built again from its object. -/
theorem value_arrayObject (parts : ∃ ms, b.expressions values s = .ok ms ∧ List.Forall₂ R ns ms)
    (named : tag.label ≠ some "") :
    ∃ m, b.value .expression (tag.onto (.object (arrayFields values))) s = .ok m ∧
      R (.array ns tag) m := by
  obtain ⟨ms, hms, hnm⟩ := parts
  let F : Fields := arrayFields values
  refine value_tagged hR .array (b.array · s) tag (F := F) (n := .array ns {}) (own_arrayFields _)
    (by rintro ⟨F, _⟩ rfl; rfl) named rfl rfl (fun _ => rfl) (fun _ => rfl)
      ⟨.array ms {}, ?_, hR.array hnm⟩
  have hkeys : (written F .array tag).checkKeys ["values"] = .ok () :=
    checkKeys_written (by simp [F, arrayFields])
  have hvalues : (written F .array tag).get? "values" = some (.array values) := by
    simp [F, arrayFields, get?_written]
  simp [array, hkeys, array_eq_ok hvalues, hms]

/-- An array is built again, as a bare array or as an object with an alias or a cast. -/
theorem value_array (parts : ∃ ms, b.expressions values s = .ok ms ∧ List.Forall₂ R ns ms)
    (named : tag.label ≠ some "") :
    ∃ m, b.value .expression (tag.onto (.array values)) s = .ok m ∧ R (.array ns tag) m := by
  by_cases htag : tag = {}
  · subst htag
    exact value_bareArray hR parts
  · rw [Tag.onto_taggable _ htag]
    exact value_arrayObject hR parts named

/-- A constant is built from its object. -/
theorem value_constantObject (read : Primitive.ofJson v = .ok p) (named : tag.label ≠ some "") :
    ∃ m, b.value .expression (tag.onto (.object [("type", .string "primitive"), ("value", v)])) s =
      .ok m ∧ R (.constant p tag) m := by
  let F : Fields := [("type", .string "primitive"), ("value", v)]
  refine value_tagged hR .primitive constant tag (F := F) (n := .constant p {})
    ⟨rfl, by simp [F], by simp [F]⟩ (by rintro ⟨F, _⟩ rfl; rfl) named rfl rfl (fun _ => rfl)
      (fun _ => rfl)
    ⟨.constant p {}, ?_, hR.constant p⟩
  have hkeys : (written F .primitive tag).checkKeys ["value"] = .ok () :=
    checkKeys_written (by simp [F])
  -- A null field counts as absent, and what is absent is read as null.
  have hvalue : ((written F .primitive tag).get? "value").getD .null = v := by
    rw [get?_written (by decide) (by decide)]
    cases v <;> rfl
  simp [constant, hkeys, hvalue, read]

/-- A constant is built again, as a bare scalar or as an object with an alias or a cast. -/
theorem value_constant (read : Primitive.ofJson v = .ok p) (named : tag.label ≠ some "") :
    ∃ m, b.value .expression (tag.onto p.toJson) s = .ok m ∧ R (.constant p tag) m := by
  by_cases htag : tag = {}
  · subst htag
    have hvalue : b.value .expression p.toJson s =
        Primitive.ofJson p.toJson >>= fun p => pure (.constant p {}) := by
      cases p <;> rfl
    refine ⟨.constant p {}, ?_, hR.constant p⟩
    rw [Tag.onto_empty, hvalue, ofJson_toJson read]
    rfl
  · have htaggable : p.toJson.taggable = [("type", .string "primitive"), ("value", p.toJson)] := by
      cases p <;> rfl
    rw [Tag.onto_taggable _ htag, htaggable]
    exact value_constantObject hR (ofJson_toJson read) named

end Builder

end AnalyticQuery
