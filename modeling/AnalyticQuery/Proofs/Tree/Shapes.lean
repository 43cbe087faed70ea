import AnalyticQuery.Proofs.Result
import AnalyticQuery.Tree.Build

/-!
# What the rules of the builder return

What is known once a rule of the builder succeeds: the node that it returns, what the node's parts
were built from, and the checks that were passed. Facts about built trees are read off here, and the
rules are not taken apart again.
-/

namespace AnalyticQuery.Builder

open Result

variable {v : Json} {o : Option Node} {role : SelectRole}

variable {b : Builder} {obj : QlObject} {s t : Scope} {n : Node}

/-! ## Expressions -/

/-- An expression that may be there is built where it is. -/
theorem optional_shape {v : Option Json} (h : b.optional v s = .ok o) :
    (v = none ∧ o = none) ∨ ∃ w n, v = some w ∧ o = some n ∧ b.expression w s = .ok n := by
  cases v with
  | none =>
    cases h
    exact .inl ⟨rfl, rfl⟩
  | some w =>
    obtain ⟨n, hn, h⟩ := of_bind h
    cases h
    exact .inr ⟨w, n, rfl, rfl, hn⟩

/-- A column is found in scope. -/
theorem column_shape (h : column obj s = .ok n) :
    ∃ name view found, obj.string "column" = .ok name ∧ obj.string? "view" = .ok view ∧
      s.resolveColumn view name = .ok found ∧
        n = .column ⟨name, view, found.qualifier, found.origin⟩ {} := by
  obtain ⟨-, -, h⟩ := of_bind h
  obtain ⟨name, hname, h⟩ := of_bind h
  obtain ⟨view, hview, h⟩ := of_bind h
  obtain ⟨found, hfound, h⟩ := of_bind h
  cases h
  exact ⟨name, view, found, hname, hview, hfound, rfl⟩

/-- A parameter has a name that is not reserved, and the value that is bound to it. -/
theorem parameter_shape (h : b.parameter obj s = .ok n) :
    ∃ name value, obj.string "value" = .ok name ∧ name.startsWith "__" = false ∧
      b.boundValue name s = .ok value ∧ n = .parameter name value {} := by
  obtain ⟨-, -, h⟩ := of_bind h
  obtain ⟨name, hname, h⟩ := of_bind h
  dsimp only at h
  split at h
  · cases h
  next hunreserved =>
  obtain ⟨value, hvalue, h⟩ := of_bind h
  cases h
  exact ⟨name, value, hname, by simpa using hunreserved, hvalue, rfl⟩

/-- A call is of a function of the registry, with as many arguments as it takes. -/
theorem call_shape (h : b.call obj s = .ok n) :
    ∃ name f values args flag, obj.string "value" = .ok name ∧
      FunctionRegistry.standard.lookup name = .ok f ∧ obj.array? "args" = .ok values ∧
      b.expressions (values.getD []) s = .ok args ∧ f.arity.check f.name args.length = .ok () ∧
      obj.bool? "distinct" = .ok flag ∧ (flag.getD false = true → f.isAggregate = true) ∧
      n = .call f args (flag.getD false) {} := by
  obtain ⟨-, -, h⟩ := of_bind h
  obtain ⟨name, hname, h⟩ := of_bind h
  obtain ⟨f, hf, h⟩ := of_bind h
  obtain ⟨values, hvalues, h⟩ := of_bind h
  obtain ⟨args, hargs, h⟩ := of_bind h
  obtain ⟨⟨⟩, harity, h⟩ := of_bind h
  obtain ⟨flag, hflag, h⟩ := of_bind h
  dsimp only at h
  split at h
  · cases h
  next haggregate =>
  cases h
  refine ⟨name, f, values, args, flag, hname, hf, hvalues, hargs, harity, hflag, ?_, rfl⟩
  intro hdistinct
  simpa [hdistinct] using haggregate

/-- A shape has as many arguments as its type takes. -/
theorem geometry_shape (h : b.geometry obj s = .ok n) :
    ∃ name type values args, obj.string "geometryType" = .ok name ∧
      GeometryType.ofName name = .ok type ∧
      obj.array "args" = .ok values ∧ b.expressions values s = .ok args ∧
      type.arity.check type.name args.length = .ok () ∧ n = .geometry type args {} := by
  obtain ⟨-, -, h⟩ := of_bind h
  obtain ⟨name, hname, h⟩ := of_bind h
  obtain ⟨type, htype, h⟩ := of_bind h
  obtain ⟨values, hvalues, h⟩ := of_bind h
  obtain ⟨args, hargs, h⟩ := of_bind h
  obtain ⟨⟨⟩, harity, h⟩ := of_bind h
  cases h
  exact ⟨name, type, values, args, hname, htype, hvalues, hargs, harity, rfl⟩

/-- An operator stands over its operands, taken up where it is logical. -/
theorem operation_shape {op : Operator} {operands : List Node} {qualifier : Option Qualifier}
    (h : operation op operands qualifier = .ok n) :
    n = .operation op (if op.isLogical then flatten op operands else operands) qualifier {} ∧
      op.arity.check op.name (if op.isLogical then flatten op operands else operands).length =
        .ok () ∧
      (qualifier.isSome → op.allowsQualifier = true) := by
  obtain ⟨⟨⟩, harity, h⟩ := of_bind h
  dsimp only at h
  split at h
  · cases h
  next hqualified =>
  cases h
  refine ⟨rfl, harity, fun hsome => ?_⟩
  simpa [hsome] using hqualified

theorem operator_shape (h : b.operator obj s = .ok n) :
    ∃ op values operands qualifier, operatorOf obj = .ok op ∧ obj.array "operands" = .ok values ∧
      b.expressions values s = .ok operands ∧
        obj.named? "qualifier" Qualifier.ofName = .ok qualifier ∧
      operation op operands qualifier = .ok n := by
  obtain ⟨op, hop, h⟩ := of_bind h
  obtain ⟨values, hvalues, h⟩ := of_bind h
  obtain ⟨operands, hoperands, h⟩ := of_bind h
  obtain ⟨qualifier, hqualifier, h⟩ := of_bind h
  exact ⟨op, values, operands, qualifier, hop, hvalues, hoperands, hqualifier, h⟩

/-- A branch is a pair of a condition and a result. -/
theorem branch_shape {p : Node × Node} (h : b.branch s v = .ok p) :
    ∃ condition result, v = .array [condition, result] ∧ b.expression condition s = .ok p.1 ∧
      b.expression result s = .ok p.2 := by
  unfold branch at h
  split at h
  · next condition result =>
    obtain ⟨c, hc, h⟩ := of_bind h
    obtain ⟨r, hr, h⟩ := of_bind h
    cases h
    exact ⟨condition, result, rfl, hc, hr⟩
  · cases h

/-- A case has a branch at least. -/
theorem case_shape (h : b.case obj s = .ok n) :
    ∃ values branches otherwise, obj.array "cases" = .ok values ∧
      values.mapM (b.branch s) = .ok branches ∧
      branches ≠ [] ∧ b.optional (obj.get? "defaultCase") s = .ok otherwise ∧
      n = .case branches otherwise {} := by
  obtain ⟨-, -, h⟩ := of_bind h
  obtain ⟨values, hvalues, h⟩ := of_bind h
  dsimp only at h
  split at h
  · cases h
  next hnonempty =>
  obtain ⟨branches, hbranches, h⟩ := of_bind h
  obtain ⟨otherwise, hotherwise, h⟩ := of_bind h
  cases h
  refine ⟨values, branches, otherwise, hvalues, hbranches, ?_, hotherwise, rfl⟩
  rintro rfl
  cases mapM_eq_ok_iff.mp hbranches
  exact hnonempty rfl

theorem array_shape (h : b.array obj s = .ok n) :
    ∃ values items, obj.array "values" = .ok values ∧ b.expressions values s = .ok items ∧
      n = .array items {} := by
  obtain ⟨-, -, h⟩ := of_bind h
  obtain ⟨values, hvalues, h⟩ := of_bind h
  obtain ⟨items, hitems, h⟩ := of_bind h
  cases h
  exact ⟨values, items, hvalues, hitems, rfl⟩

/-- A list has an item at least. -/
theorem list_shape (h : b.list obj s = .ok n) :
    ∃ values items, obj.array "values" = .ok values ∧ b.expressions values s = .ok items ∧
      items ≠ [] ∧
      n = .list items := by
  obtain ⟨-, -, h⟩ := of_bind h
  obtain ⟨values, hvalues, h⟩ := of_bind h
  obtain ⟨items, hitems, h⟩ := of_bind h
  dsimp only at h
  split at h
  · cases h
  next hnonempty =>
  cases h
  refine ⟨values, items, hvalues, hitems, ?_, rfl⟩
  rintro rfl
  exact hnonempty rfl

theorem sort_shape (h : b.sort obj s = .ok n) :
    ∃ v value direction nulls, obj.required "value" = .ok v ∧ b.expression v s = .ok value ∧
      obj.named? "direction" SortDirection.ofName = .ok direction ∧
      obj.named? "nulls" NullsOrder.ofName = .ok nulls ∧ n = .sort value direction nulls := by
  obtain ⟨-, -, h⟩ := of_bind h
  obtain ⟨v, hv, h⟩ := of_bind h
  obtain ⟨value, hvalue, h⟩ := of_bind h
  obtain ⟨direction, hdirection, h⟩ := of_bind h
  obtain ⟨nulls, hnulls, h⟩ := of_bind h
  cases h
  exact ⟨v, value, direction, nulls, hv, hvalue, hdirection, hnulls, rfl⟩

theorem constant_shape (h : constant obj = .ok n) :
    ∃ p, Primitive.ofJson ((obj.get? "value").getD .null) = .ok p ∧ n = .constant p {} := by
  obtain ⟨-, -, h⟩ := of_bind h
  obtain ⟨p, hp, h⟩ := of_bind h
  cases h
  exact ⟨p, hp, rfl⟩

/-! ## Relations -/

/-- A view is named and is a common table where one of its name is declared. -/
theorem viewOfName_shape {name : String} (h : viewOfName name s = .ok n) :
    name ≠ "" ∧ n = .view name (s.isCte name) none := by
  unfold viewOfName at h
  split at h
  · cases h
  next hname =>
  cases h
  exact ⟨fun he => hname (by rw [he]; rfl), rfl⟩

theorem view_shape (h : view obj s = .ok n) :
    ∃ name tag, obj.string "view" = .ok name ∧ name ≠ "" ∧ obj.tag = .ok tag ∧
      (Node.view name (s.isCte name) none).fold tag.label tag.cast = .ok n := by
  obtain ⟨-, -, h⟩ := of_bind h
  obtain ⟨name, hname, h⟩ := of_bind h
  obtain ⟨m, hm, h⟩ := of_bind h
  obtain ⟨tag, htag, h⟩ := of_bind h
  obtain ⟨hne, rfl⟩ := viewOfName_shape hm
  exact ⟨name, tag, hname, hne, htag, h⟩

/-- A relation is built in the scope before it and declared in it. -/
theorem relation_shape {lateral : Bool} (h : b.relation v s lateral = .ok (n, t)) :
    ∃ w expanded, normalizeRelation v = .ok (w, expanded) ∧
      (b.forParts expanded).relationNode w s lateral = .ok n ∧ declare s n = .ok t := by
  obtain ⟨⟨w, expanded⟩, hnormal, h⟩ := of_bind h
  obtain ⟨m, hm, h⟩ := of_bind h
  obtain ⟨u, hu, h⟩ := of_bind h
  cases h
  exact ⟨w, expanded, hnormal, hm, hu⟩

/-- A join is of the type that follows from what is written and what is joined, and its condition
sees its relation. -/
theorem joinNode_shape (h : b.joinNode obj s = .ok (n, t)) :
    ∃ joined w expanded written relation on tag, obj.required "view" = .ok joined ∧
      normalizeRelation joined = .ok (w, expanded) ∧
        obj.named? "joinType" JoinType.ofName = .ok written ∧
      checkJoin obj (joinType written (obj.has "on") (QlObject.isType w .select)) (obj.has "on")
        (QlObject.isType w .select) = .ok () ∧
      b.relation joined s
        (joinType written (obj.has "on") (QlObject.isType w .select) == .lateral) =
        .ok (relation, t) ∧
      b.optional (obj.get? "on") t = .ok on ∧
      (Node.join (joinType written (obj.has "on") (QlObject.isType w .select)) relation on).fold
        (Tag.label tag) tag.cast = .ok n := by
  obtain ⟨-, -, h⟩ := of_bind h
  obtain ⟨joined, hjoined, h⟩ := of_bind h
  obtain ⟨⟨w, expanded⟩, hw, h⟩ := of_bind h
  obtain ⟨written, hwritten, h⟩ := of_bind h
  obtain ⟨⟨⟩, hcheck, h⟩ := of_bind h
  obtain ⟨⟨relation, u⟩, hrelation, h⟩ := of_bind h
  obtain ⟨on, hon, h⟩ := of_bind h
  obtain ⟨tag, -, h⟩ := of_bind h
  obtain ⟨m, hm, h⟩ := of_bind h
  cases h
  exact ⟨joined, w, expanded, written, relation, on, tag, hjoined, hw, hwritten, hcheck,
    hrelation, hon, hm⟩

theorem join_shape (h : b.join v s = .ok (n, t)) :
    ∃ w expanded obj, normalizeRelation v = .ok (w, expanded) ∧ QlObject.ofJson w = .ok obj ∧
      (b.forParts expanded).joinNode obj s = .ok (n, t) := by
  obtain ⟨⟨w, expanded⟩, hnormal, h⟩ := of_bind h
  dsimp only at h
  split at h
  · cases h
  obtain ⟨obj, hobj, h⟩ := of_bind h
  exact ⟨w, expanded, obj, hnormal, hobj, h⟩

/-! ## Selects -/

/-- The first relation of a select is built where it is there. -/
theorem source_shape {v : Option Json} (h : b.source v s = .ok (o, t)) :
    (v = none ∧ o = none ∧ t = s) ∨ ∃ w n, v = some w ∧ o = some n ∧
      b.relation w s false = .ok (n, t) := by
  cases v with
  | none =>
    cases h
    exact .inl ⟨rfl, rfl, rfl⟩
  | some w =>
    obtain ⟨⟨n, u⟩, hn, h⟩ := of_bind h
    cases h
    exact .inr ⟨w, n, rfl, rfl, hn⟩

/-- What the clauses of a select are built from, each in the scope after those before it. -/
structure ClauseSteps (b : Builder) (obj : QlObject) (s s₁ s₂ s₃ : Scope) (c : Clauses Node) :
    Prop where
  withs : ∃ values, obj.array? "with" = .ok values ∧
    b.ctes obj (values.getD []) s = .ok (c.withs, s₁)
  source : b.source (obj.get? "from") s₁ = .ok (c.source, s₂)
  joins : ∃ values, obj.array? "joins" = .ok values ∧
    b.joins (values.getD []) s₂ = .ok (c.joins, s₃)
  distinct : ∃ flag, obj.bool? "distinct" = .ok flag ∧ c.distinct = flag.getD false
  columns : ∃ values, obj.array "columns" = .ok values ∧ b.expressions values s₃ = .ok c.columns
  nonempty : c.columns ≠ []
  filter : b.optional (obj.get? "where") s₃ = .ok c.filter
  having : b.optional (obj.get? "having") s₃ = .ok c.having
  groupBy : ∃ values, obj.array? "groupBy" = .ok values ∧
    b.expressions (values.getD []) s₃ = .ok c.groupBy
  orderBy : ∃ values, obj.array? "orderBy" = .ok values ∧
    b.expressions (values.getD []) s₃ = .ok c.orderBy
  limit : (obj.get? "limit").mapM (limitOf obj) = .ok c.limit
  offset : (obj.get? "offset").mapM (offsetOf obj) = .ok c.offset

theorem clauses_shape {c : Clauses Node} (h : b.clauses obj s role = .ok c) :
    ∃ s₁ s₂ s₃, ClauseSteps b obj (s.childSelect (seesSiblings role)) s₁ s₂ s₃ c := by
  obtain ⟨-, -, h⟩ := of_bind h
  obtain ⟨withValues, hwithValues, h⟩ := of_bind h
  obtain ⟨⟨withs, s₁⟩, hwiths, h⟩ := of_bind h
  obtain ⟨⟨source, s₂⟩, hsource, h⟩ := of_bind h
  obtain ⟨joinValues, hjoinValues, h⟩ := of_bind h
  obtain ⟨⟨joins, s₃⟩, hjoins, h⟩ := of_bind h
  obtain ⟨distinct, hdistinct, h⟩ := of_bind h
  obtain ⟨columnValues, hcolumnValues, h⟩ := of_bind h
  obtain ⟨columns, hcolumns, h⟩ := of_bind h
  dsimp only at h
  split at h
  · cases h
  next hnonempty =>
  obtain ⟨filter, hfilter, h⟩ := of_bind h
  obtain ⟨having', hhaving, h⟩ := of_bind h
  obtain ⟨groupValues, hgroupValues, h⟩ := of_bind h
  obtain ⟨groupBy, hgroupBy, h⟩ := of_bind h
  obtain ⟨orderValues, horderValues, h⟩ := of_bind h
  obtain ⟨orderBy, horderBy, h⟩ := of_bind h
  obtain ⟨limit, hlimit, h⟩ := of_bind h
  obtain ⟨offset, hoffset, h⟩ := of_bind h
  cases h
  refine ⟨s₁, s₂, s₃, ⟨withValues, hwithValues, hwiths⟩, hsource, ⟨joinValues, hjoinValues, hjoins⟩,
    ⟨distinct, hdistinct, rfl⟩, ⟨columnValues, hcolumnValues, hcolumns⟩, ?_, hfilter, hhaving,
    ⟨groupValues, hgroupValues, hgroupBy⟩, ⟨orderValues, horderValues, horderBy⟩, hlimit, hoffset⟩
  rintro rfl
  exact hnonempty rfl

/-- A set operation is built over its two sides. -/
theorem compound_shape {op : SetOperator} (h : b.compound obj s role op = .ok n) :
    ∃ v w flag left right, obj.array op.name = .ok [v, w] ∧ obj.bool? "all" = .ok flag ∧
      b.part b.resolving (.select .operand) v s = .ok left ∧
      b.part b.resolving (.select .operand) w s = .ok right ∧
      n = .compound role op (flag.getD false) left right {} := by
  have hside : ∀ {value : Json} {k : Node}, b.side obj s op value = .ok k →
      b.part b.resolving (.select .operand) value s = .ok k := by
    intro value k hk
    unfold side at hk
    split at hk
    · exact hk
    · cases hk
  unfold compound at h
  split at h
  · cases h
  obtain ⟨-, -, h⟩ := of_bind h
  obtain ⟨sides, hsides, h⟩ := of_bind h
  split at h
  · next v w =>
    obtain ⟨flag, hflag, h⟩ := of_bind h
    obtain ⟨left, hleft, h⟩ := of_bind h
    obtain ⟨right, hright, h⟩ := of_bind h
    cases h
    exact ⟨v, w, flag, left, right, hsides, hflag, hside hleft, hside hright, rfl⟩
  · cases h

end AnalyticQuery.Builder
