import AnalyticQuery.Proofs.Tree.RoundTrip

/-!
# What is read of written values

A value that an expression is written as may be built to something else than the expression: the
parts may be built in another scope, and a null counts as no value. What is known once the value is
built: it is built to an expression of the same kind over whatever its parts are built to.
-/

namespace AnalyticQuery.Builder

open Node QlObject Result

open QlObject (written)

variable {name : String} {v : Json} {f : FunctionSpec} {distinct : Bool} {role : SelectRole}

variable {b : Builder} {obj : QlObject} {s t : Scope} {tag : Tag} {values : List Json} {k m : Node}

/-! ## Expressions -/

/-- A fold of an expression without alias and cast gives it both. -/
theorem eq_retag_of_fold (tag : Tag) (hs : k.isShort = false) (hbare : k.tag = {})
    (h : k.fold tag.label tag.cast = .ok m) : m = k.retag tag := by
  obtain ⟨rfl, -, -⟩ := fold_cases hs h
  simp [alias?, cast?, hbare]

/-- An object is built from its own fields, and its alias and its cast are given to what they are
built to. -/
theorem exists_of_value_tagged (type : ExpressionType) (kind : QlObject → Result Node) (tag : Tag)
    {F : Fields}
    (hown : F.Own type) (named : tag.label ≠ some "")
    (hobject : ∀ obj, obj.type = type → b.object obj s =
      kind obj >>= fun m => obj.tag >>= fun tag => m.fold tag.label tag.cast)
    (h : b.value .expression (tag.onto (.object F)) s = .ok m) :
    ∃ k, kind (written F type tag) = .ok k ∧ k.fold tag.label tag.cast = .ok m := by
  have hvalue : b.value .expression (.object (F ++ tag.fields)) s =
      QlObject.ofJson (.object (F ++ tag.fields)) >>= fun obj => b.object obj s := rfl
  rw [tag.onto_object hown.cast hown.label, hvalue, ofJson_written hown.type, ok_bind,
    hobject (written F type tag) rfl] at h
  obtain ⟨k, hk, h⟩ := of_bind h
  rw [tag_written hown.cast hown.label named] at h
  exact ⟨k, hk, h⟩

/-- A column is built to the column that is found in scope. -/
theorem exists_of_value_column {c : Column} (hname : c.name ≠ "") (hview : c.view ≠ some "")
    (named : tag.label ≠ some "") (h : b.value .expression (tag.onto c.toQl) s = .ok m) :
    ∃ found, s.resolveColumn c.view c.name = .ok found ∧
      m = .column ⟨c.name, c.view, found.qualifier, found.origin⟩ tag := by
  obtain ⟨k, hk, hfold⟩ := exists_of_value_tagged .column (Builder.column · s) tag
    (own_columnFields c) named
    (by rintro ⟨F, _⟩ rfl; rfl) h
  obtain ⟨name, view, found, hname', hview', hfound, rfl⟩ := column_shape hk
  rw [string_eq_ok (by simp [columnFields, get?_written]) hname] at hname'
  rw [string?_eq_ok (by cases hv : c.view <;> simp [columnFields, hv, get?_written])
    hview] at hview'
  cases hname'
  cases hview'
  exact ⟨found, hfound, eq_retag_of_fold tag rfl rfl hfold⟩

/-- A parameter is built with the value that is bound to it. -/
theorem exists_of_value_parameter (hasName : name ≠ "") (named : tag.label ≠ some "")
    (h : b.value .expression (tag.onto (.object (parameterFields name))) s = .ok m) :
    ∃ value, b.boundValue name s = .ok value ∧ m = .parameter name value tag := by
  obtain ⟨k, hk, hfold⟩ := exists_of_value_tagged .parameter (b.parameter · s) tag
    (own_parameterFields name) named
    (by rintro ⟨F, _⟩ rfl; rfl) h
  obtain ⟨name', value, hname', -, hvalue, rfl⟩ := parameter_shape hk
  rw [string_eq_ok (by simp [parameterFields, get?_written]) hasName] at hname'
  cases hname'
  exact ⟨value, hvalue, eq_retag_of_fold tag rfl rfl hfold⟩

/-- The value that is bound to a parameter is built from what is bound. -/
theorem exists_of_boundValue {value : Option Node} (hbound : b.options.parameter? name = some v)
    (fresh : name ∉ b.resolving) (h : b.boundValue name s = .ok value) :
    ∃ n, b.binding (b.resolving ++ [name]) .expression v s = .ok n ∧ value = some n := by
  have hresolve : b.resolve name = .ok (b.resolving ++ [name]) := by
    simp [resolve, fresh]
  unfold boundValue at h
  rw [hbound] at h
  dsimp only at h
  rw [hresolve, ok_bind] at h
  obtain ⟨n, hn, h⟩ := of_bind h
  cases h
  exact ⟨n, hn, rfl⟩

/-- A call is built to a call of the function that it names. -/
theorem exists_of_call (known : FunctionRegistry.standard.get? f.name = some f ∧ f.name ≠ "")
    (hname : obj.get? "value" = some (.string f.name))
    (hargs : obj.get? "args" = some (.array values))
    (hdistinct : obj.get? "distinct" = if distinct then some (.bool true) else none)
    (h : b.call obj s = .ok k) :
    ∃ ms, b.expressions values s = .ok ms ∧ k = .call f ms distinct {} := by
  obtain ⟨name, f', found, args, flag, hname', hf, hfound, hargs', -, hflag, -, rfl⟩ := call_shape h
  rw [string_eq_ok hname known.2] at hname'
  cases hname'
  rw [FunctionRegistry.lookup, known.1] at hf
  cases hf
  rw [array?_eq_some hargs] at hfound
  cases hfound
  obtain ⟨flag', hflag', hdistinct⟩ := bool?_eq_ok hdistinct
  rw [hflag'] at hflag
  cases hflag
  exact ⟨args, hargs', by rw [hdistinct]⟩

theorem exists_of_value_call (known : FunctionRegistry.standard.get? f.name = some f ∧ f.name ≠ "")
    (named : tag.label ≠ some "")
    (h : b.value .expression (tag.onto (.object (callFields f values distinct))) s = .ok m) :
    ∃ ms, b.expressions values s = .ok ms ∧ m = .call f ms distinct tag := by
  obtain ⟨k, hk, hfold⟩ := exists_of_value_tagged .function (b.call · s) tag
    (own_callFields ..) named
    (by rintro ⟨F, _⟩ rfl; rfl) h
  have hargs : (written (callFields f values distinct) .function tag).get? "args" =
      some (.array values) := by
    simp [callFields, get?_written]
  have hdistinct : (written (callFields f values distinct) .function tag).get? "distinct" =
      if distinct then some (.bool true) else none := by
    cases distinct <;> simp [callFields, get?_written]
  obtain ⟨ms, hms, rfl⟩ := exists_of_call known
    (by simp [callFields, get?_written]) hargs hdistinct hk
  exact ⟨ms, hms, eq_retag_of_fold tag rfl rfl hfold⟩

/-- A shape is built to a shape of its type. -/
theorem exists_of_value_geometry {type : GeometryType} (named : tag.label ≠ some "")
    (h : b.value .expression (tag.onto (.object (geometryFields type values))) s = .ok m) :
    ∃ ms, b.expressions values s = .ok ms ∧ m = .geometry type ms tag := by
  obtain ⟨k, hk, hfold⟩ := exists_of_value_tagged .geometry (b.geometry · s) tag
    (own_geometryFields ..) named
    (by rintro ⟨F, _⟩ rfl; rfl) h
  obtain ⟨name, type', found, args, hname, htype, hfound, hargs, -, rfl⟩ := geometry_shape hk
  have hname' : (written (geometryFields type values) .geometry tag).string "geometryType" =
    .ok type.name :=
    string_eq_ok (by simp [geometryFields, get?_written]) (by cases type <;> decide)
  rw [hname'] at hname
  cases hname
  rw [GeometryType.ofName_name] at htype
  cases htype
  have hitems : (written (geometryFields type values) .geometry tag).get? "args" =
      some (.array values) := by
    simp [geometryFields, get?_written]
  rw [array_eq_ok hitems] at hfound
  cases hfound
  exact ⟨args, hargs, eq_retag_of_fold tag rfl rfl hfold⟩

/-- An operator is built over its operands, taken up where it is logical. -/
theorem exists_of_value_operation {op : Operator} {qualifier : Option Qualifier}
    (qualified : qualifier.isSome → op.allowsQualifier = true) (named : tag.label ≠ some "")
    (h : b.value .expression (tag.onto (.object (operationFields op values qualifier))) s = .ok m) :
    ∃ ms, b.expressions values s = .ok ms ∧
      m = .operation op (if op.isLogical then flatten op ms else ms) qualifier tag := by
  obtain ⟨k, hk, hfold⟩ := exists_of_value_tagged (operatorKind op) (b.operator · s) tag
    (own_operationFields ..) named
    (object_operator op) h
  obtain ⟨op', found, operands, qualifier', hop, hfound, hoperands, hqualifier, hk⟩ :=
    operator_shape hk
  rw [operationFields, operatorOf_written qualified] at hop
  cases hop
  have hitems : (written (operationFields op values qualifier) (operatorKind op) tag).get?
    "operands" =
      some (.array values) := by
    simp [get?_written, get?_operationFields]
  rw [array_eq_ok hitems] at hfound
  cases hfound
  rw [qualifier_operationFields] at hqualifier
  cases hqualifier
  obtain ⟨rfl, -, -⟩ := operation_shape hk
  exact ⟨operands, hoperands, eq_retag_of_fold tag rfl rfl hfold⟩

/-- A case is built over its branches, and its default is left out where it is null. -/
theorem exists_of_value_case {default : Option Json} (named : tag.label ≠ some "")
    (h : b.value .expression (tag.onto (.object (caseFields values default))) s = .ok m) :
    ∃ branches otherwise, values.mapM (b.branch s) = .ok branches ∧
      b.optional (default.filter (!·.isNull)) s = .ok otherwise ∧
        m = .case branches otherwise tag := by
  obtain ⟨k, hk, hfold⟩ := exists_of_value_tagged .case (b.case · s) tag (own_caseFields ..) named
    (by rintro ⟨F, _⟩ rfl; rfl) h
  obtain ⟨found, branches, otherwise, hfound, hbranches, -, hotherwise, rfl⟩ := case_shape hk
  have hitems : (written (caseFields values default) .case tag).get? "cases" =
      some (.array values) := by
    simp [caseFields, get?_written]
  rw [array_eq_ok hitems] at hfound
  cases hfound
  have hdefault : (written (caseFields values default) .case tag).get? "defaultCase" =
      default.filter (!·.isNull) := by
    rw [get?_written (by decide) (by decide)]
    simp [caseFields]
  rw [hdefault] at hotherwise
  exact ⟨branches, otherwise, hbranches, hotherwise, eq_retag_of_fold tag rfl rfl hfold⟩

/-- A list is built over its items. -/
theorem exists_of_value_list (h : b.value .expression (.object (listFields values)) s = .ok m) :
    ∃ ms, b.expressions values s = .ok ms ∧ m = .list ms := by
  obtain ⟨k, hk, hfold⟩ := exists_of_value_tagged .list (b.list · s) {} (own_listFields _) nofun
    (by rintro ⟨F, _⟩ rfl; rfl) h
  obtain ⟨found, items, hfound, hitems, -, rfl⟩ := list_shape hk
  have hvalues : (written (listFields values) .list {}).get? "values" = some (.array values) := by
    simp [listFields, get?_written]
  rw [array_eq_ok hvalues] at hfound
  cases hfound
  exact ⟨items, hitems, eq_retag_of_fold {} rfl rfl hfold⟩

/-- An array is built over its items, from a bare array and from an object. -/
theorem exists_of_value_array (named : tag.label ≠ some "")
    (h : b.value .expression (tag.onto (.array values)) s = .ok m) :
    ∃ ms, b.expressions values s = .ok ms ∧ m = .array ms tag := by
  by_cases htag : tag = {}
  · subst htag
    obtain ⟨ms, hms, h⟩ := of_bind h
    cases h
    exact ⟨ms, hms, rfl⟩
  · rw [Tag.onto_taggable _ htag] at h
    obtain ⟨k, hk, hfold⟩ := exists_of_value_tagged .array (b.array · s) tag
      (own_arrayFields values) named
      (by rintro ⟨F, _⟩ rfl; rfl) h
    obtain ⟨found, items, hfound, hitems, rfl⟩ := array_shape hk
    have hvalues : (written (arrayFields values) .array tag).get? "values" =
        some (.array values) := by
      simp [arrayFields, get?_written]
    rw [array_eq_ok hvalues] at hfound
    cases hfound
    exact ⟨items, hitems, eq_retag_of_fold tag rfl rfl hfold⟩

/-- A sort item is built over its value, which is not null. -/
theorem exists_of_value_sort {direction : Option SortDirection} {nulls : Option NullsOrder}
    (h : b.value .expression (.object (sortFields v direction nulls)) s = .ok m) :
    ∃ n, b.expression v s = .ok n ∧ m = .sort n direction nulls := by
  obtain ⟨k, hk, hfold⟩ := exists_of_value_tagged .sort (b.sort · s) {} (own_sortFields ..) nofun
    (by rintro ⟨F, _⟩ rfl; rfl) h
  obtain ⟨w, value, direction', nulls', hw, hvalue, hdirection, hnulls, rfl⟩ := sort_shape hk
  rw [direction_sortFields] at hdirection
  cases hdirection
  rw [nulls_sortFields] at hnulls
  cases hnulls
  have hget := get?_of_required hw
  rw [get?_written (by decide) (by decide)] at hget
  have hv : v = w := by simpa [sortFields] using (Option.filter_eq_some_iff.mp hget).1
  exact ⟨value, hv ▸ hvalue, eq_retag_of_fold {} rfl rfl hfold⟩

/-- A constant that was read is read back. -/
theorem eq_of_value_constant {p : Primitive} (read : Primitive.ofJson v = .ok p)
    (named : tag.label ≠ some "") (h : b.value .expression (tag.onto p.toJson) s = .ok m) :
    m = .constant p tag := by
  obtain ⟨k, hk, rfl⟩ :=
    value_constant (b := b) (s := s) (congruence_eq (.ofFirst fun _ => True)) read named
  rw [hk] at h
  cases h
  rfl

/-! ## Relations and joins -/

/-- A relation whose value is its own normal form is built from it and declared. -/
theorem exists_of_relation {lateral : Bool} (hnormal : normalizeRelation v = .ok (v, false))
    (h : b.relation v s lateral = .ok (m, t)) :
    b.relationNode v s lateral = .ok m ∧ declare s m = .ok t := by
  obtain ⟨w, expanded, hnormal', hm, ht⟩ := relation_shape h
  rw [hnormal] at hnormal'
  cases hnormal'
  exact ⟨hm, ht⟩

/-- A join is built over its relation and over its condition, which is left out where it is null.
Its type follows from the one that is written and from both of them. -/
theorem exists_of_join {type : JoinType} {w : Option Json}
    (hnormal : normalizeRelation v = .ok (v, false))
    (h : b.join (.object (joinFields type v w)) s = .ok (m, t)) :
    ∃ type' relation on,
      type' = joinType (some type) (w.filter (!·.isNull)).isSome (QlObject.isType v .select) ∧
      (type' = .lateral → QlObject.isType v .select = true) ∧
      b.relation v s (type' == .lateral) = .ok (relation, t) ∧
        b.optional (w.filter (!·.isNull)) t = .ok on ∧
      m = .join type' relation on := by
  let F := joinFields type v w
  have hown : F.Own .join := own_joinFields type v w
  have hobject : Json.object F = .object (F ++ Tag.fields {}) := by
    rw [← Tag.onto_object {} hown.cast hown.label]
    rfl
  change b.join (.object F) s = _ at h
  rw [hobject] at h
  obtain ⟨u, expanded, obj, hnormal', hobj, h⟩ := join_shape h
  rw [normalizeRelation_own hown (by decide) (by decide)] at hnormal'
  cases hnormal'
  rw [ofJson_written hown.type] at hobj
  cases hobj
  obtain ⟨joined, u, expanded, found, relation, on, tag, hjoined, hu, hfound, hcheck,
    hrelation, hon, hm⟩ :=
    joinNode_shape h
  have hget := get?_of_required hjoined
  rw [get?_written (by decide) (by decide)] at hget
  obtain rfl : v = joined := by simpa [F, joinFields] using (Option.filter_eq_some_iff.mp hget).1
  rw [hnormal] at hu
  cases hu
  rw [joinType_joinFields] at hfound
  cases hfound
  have hcondition : (written F .join {}).get? "on" = w.filter (!·.isNull) := by
    rw [get?_written (by decide) (by decide)]
    simp [F, joinFields]
  rw [QlObject.has, hcondition] at hcheck hrelation hm
  rw [hcondition] at hon
  obtain rfl := eq_of_fold_join hm
  exact ⟨_, relation, on, rfl, (checkJoin_cases hcheck).2, hrelation, hon, rfl⟩

/-! ## Selects -/

/-- A select is built over its clauses, without those that are null. -/
theorem exists_of_select {v : Clauses Json} (named : tag.label ≠ some "")
    (limit : ∀ rows, v.limit = some (.count rows) → rows < 1 <<< 64)
    (offset : ∀ rows, v.offset = some rows → rows < 1 <<< 64)
    (h : b.select (written (selectFields v) .select tag) s role = .ok m) :
    ∃ c s₁ s₂ s₃, m = .select role c tag ∧ c.distinct = v.distinct ∧ c.limit = v.limit ∧
      c.offset = v.offset ∧
      ClauseReads b (written (selectFields v) .select tag) (withoutNulls v)
        (s.childSelect (seesSiblings role)) s₁ s₂ s₃ c := by
  have hown := own_selectFields v
  have hholds := holdsClauses_withoutNulls v tag
  have hplain : ∀ op : SetOperator, (written (selectFields v) .select tag).get? op.name = none := by
    intro op
    cases op <;> simp [SetOperator.name, get?_written, selectFields]
  obtain ⟨c, tag', htag, rfl, hc⟩ := select_parts hplain h
  rw [tag_written hown.cast hown.label named] at htag
  cases htag
  obtain ⟨s₁, s₂, s₃, hsteps⟩ := clauses_shape hc
  obtain ⟨flag, hflag, hdistinct⟩ := hsteps.distinct
  obtain ⟨flag', hflag', hdistinct'⟩ := bool?_eq_ok hholds.distinct
  rw [hflag'] at hflag
  cases hflag
  have hlimit := hsteps.limit
  rw [hholds.limit, withoutNulls, limit_eq_ok limit] at hlimit
  have hoffset := hsteps.offset
  rw [hholds.offset, withoutNulls, offset_eq_ok offset] at hoffset
  exact ⟨c, s₁, s₂, s₃, rfl, hdistinct.trans hdistinct', (Except.ok.inj hlimit).symm,
    (Except.ok.inj hoffset).symm,
    hsteps.reads hholds.toClauseValues⟩

/-- A set operation is built over its sides. -/
theorem exists_of_compound {op : SetOperator} {all : Bool} {w : Json} (named : tag.label ≠ some "")
    (h : b.select (written (compoundFields op all v w) .select tag) s role = .ok m) :
    ∃ left right, b.part b.resolving (.select .operand) v s = .ok left ∧
      b.part b.resolving (.select .operand) w s = .ok right ∧
        m = .compound role op all left right tag := by
  have hown := own_compoundFields op all v w
  have hsides : (written (compoundFields op all v w) .select tag).get? op.name =
      some (.array [v, w]) := by
    cases op <;> simp [SetOperator.name, get?_written, compoundFields]
  have hothers : ∀ op', op' ≠ op →
      (written (compoundFields op all v w) .select tag).get? op'.name = none := by
    intro op' hne
    cases op <;> cases op' <;> simp_all [SetOperator.name, get?_written, compoundFields]
  have hall : (written (compoundFields op all v w) .select tag).get? "all" =
      if all then some (.bool true) else none := by
    cases op <;> cases all <;> simp [SetOperator.name, get?_written, compoundFields]
  obtain ⟨flag, left, right, tag', hflag, htag, rfl, hleft, hright⟩ :=
    compound_parts hsides hothers h
  rw [tag_written hown.cast hown.label named] at htag
  cases htag
  obtain ⟨flag', hflag', hall⟩ := bool?_eq_ok hall
  rw [hflag'] at hflag
  cases hflag
  exact ⟨left, right, hleft, hright, by rw [hall]⟩

end AnalyticQuery.Builder
