import AnalyticQuery.Proofs.Sql.Lowering

/-!
# Values of SQL queries

The value of an SQL query, opened. A select has a field for each of its clauses, with the values of
what is written there. A set operation has its two sides, and a query in parentheses is lowered as
the query inside.
-/

namespace AnalyticQuery.Sql

open Result

variable {x : Extracted}
variable {vs : List Json} {v : Json}

/-! ## Clauses of a select -/

/-- The expressions that rows are grouped by. -/
def GroupBy.exprs : GroupBy Expr → List Expr
  | .all => []
  | .keys es => es

/-- The expression of a column with its alias. -/
def Item.labelled? : Item Expr → Option (Expr × Option String)
  | .expr e => some (e, none)
  | .aliased e label => some (e, some label.text)
  | _ => none

/-- The condition after `ON`. -/
def JoinConstraint.on? : JoinConstraint Expr → Option Expr
  | .on e => some e
  | _ => Option.none

/-- The condition of a join; a cross join has none. -/
def Join.on? (j : Join Expr Relation) : Option Expr :=
  if j.kind = .cross then none else j.constraint.on?

/-- The type of the joins that can have a condition. -/
def JoinKind.type? : JoinKind → Option JoinType
  | .inner => some .inner
  | .left => some .left
  | .right => some .right
  | _ => none

/-- The joins of the relations of a select: each relation after the first is joined to those before
it. -/
def joinsOf : List (JoinedRelation Expr Relation) → List (Join Expr Relation)
  | [] => []
  | first :: rest =>
    first.joins ++ rest.flatMap fun r => ⟨r.relation, .cross, .none, false⟩ :: r.joins

/-! ## Their values -/

/-- A join and its value. A cross join is lateral where its relation depends on those before it. -/
inductive Join.Lowered (x : Extracted) (j : Join Expr Relation) : Json → Prop
  | intro {view lateral on} (type : JoinType) : j.relation.lower x = .ok (view, lateral) →
      lowerExpr? x j.on? = .ok on →
      j.kind.type? = some type ∨ j.kind = .cross ∧ type = (if lateral then .lateral else .cross) →
      Lowered x j (joinValue type.name view on)

private theorem lowerExpr?_of_lowerConstraint {c : JoinConstraint Expr} {on : Option Json}
    (h : lowerConstraint x c = .ok on) : lowerExpr? x c.on? = .ok on := by
  cases c with
  | on e => rwa [lowerConstraint] at h
  | «using» => rw [lowerConstraint] at h; cases h
  | natural => rw [lowerConstraint] at h; cases h
  | none => rwa [lowerConstraint] at h

private theorem lowered_cross {relation : Relation} {constraint : JoinConstraint Expr}
    {global : Bool} {view : Json} {lateral : Bool} (h : relation.lower x = .ok (view, lateral)) :
    Join.Lowered x ⟨relation, .cross, constraint, global⟩
      (joinValue (if lateral then "lateral" else "cross") view none) := by
  have hnone : lowerExpr? x (Join.on? ⟨relation, .cross, constraint, global⟩) = .ok none := by
    rw [Join.on?, if_pos rfl, lowerExpr?]
  cases lateral with
  | false => exact .intro .cross h hnone (.inr ⟨rfl, rfl⟩)
  | true => exact .intro .lateral h hnone (.inr ⟨rfl, rfl⟩)

private theorem lowered_of_lowerJoins {js : List (Join Expr Relation)}
    (h : lowerJoins x js = .ok vs) : List.Forall₂ (fun j v => j.Lowered x v) js vs := by
  induction js generalizing vs with
  | nil =>
    rw [lowerJoins] at h
    cases h
    exact .nil
  | cons j js ih =>
    obtain ⟨relation, kind, constraint, global⟩ := j
    rw [lowerJoins] at h
    obtain ⟨⟨view, lateral⟩, hview, h⟩ := of_bind h
    dsimp only at h
    have hrest : ∀ {name : String} {on : Option Json},
        (if (lateral && name != "lateral") = true then
          x.unsupported "LATERAL subqueries only support CROSS JOIN" "lateral"
        else do return joinValue name view on :: (← lowerJoins x js)) = .ok vs →
        Join.Lowered x ⟨relation, kind, constraint, global⟩ (joinValue name view on) →
        List.Forall₂ (fun j v => j.Lowered x v)
            (⟨relation, kind, constraint, global⟩ :: js) vs := by
      intro name on h hfirst
      split at h
      · cases h
      obtain ⟨ws, hws, h⟩ := of_bind h
      cases h
      exact .cons hfirst (ih hws)
    have hcondition : ∀ {type : JoinType} {on : Option Json}, kind.type? = some type →
        lowerConstraint x constraint = .ok on →
        Join.Lowered x ⟨relation, kind, constraint, global⟩ (joinValue type.name view on) := by
      intro type on htype hon
      have hne : kind ≠ .cross := by
        rintro rfl
        cases htype
      exact .intro type hview (by simpa [Join.on?, hne] using lowerExpr?_of_lowerConstraint hon)
        (.inl htype)
    cases kind with
    | inner =>
      obtain ⟨on, hon, h⟩ := of_bind h
      exact hrest h (hcondition rfl hon)
    | left =>
      obtain ⟨on, hon, h⟩ := of_bind h
      exact hrest h (hcondition rfl hon)
    | right =>
      obtain ⟨on, hon, h⟩ := of_bind h
      exact hrest h (hcondition rfl hon)
    | cross => exact hrest h (lowered_cross hview)
    | full => cases h
    | «foreign» => cases h

private theorem lowered_of_lowerOthers {rest : List (JoinedRelation Expr Relation)}
    (h : lowerOthers x rest = .ok vs) :
    List.Forall₂ (fun j v => j.Lowered x v)
      (rest.flatMap fun r => ⟨r.relation, .cross, .none, false⟩ :: r.joins) vs := by
  induction rest generalizing vs with
  | nil =>
    rw [lowerOthers] at h
    cases h
    exact .nil
  | cons r rest ih =>
    obtain ⟨relation, joins⟩ := r
    rw [lowerOthers] at h
    obtain ⟨⟨view, lateral⟩, hview, h⟩ := of_bind h
    obtain ⟨js, hjs, h⟩ := of_bind h
    obtain ⟨ws, hws, h⟩ := of_bind h
    cases h
    exact .cons (lowered_cross hview) (List.rel_append (lowered_of_lowerJoins hjs) (ih hws))

/-- The values of the clauses of a select, each from what is written there. -/
structure LoweredClauses (x : Extracted) (c : QueryClauses Expr Body Query)
    (s : SelectClauses Expr Relation) (k : Clauses Json) : Prop where
  withs : lowerCtes x c.ctes = .ok k.withs
  source : Option.Rel (fun r v => Relation.lower x r = .ok (v, false))
    (s.source.head?.map (·.relation)) k.source
  joins : List.Forall₂ (fun j v => j.Lowered x v) (joinsOf s.source) k.joins
  columns : lowerItems x s.items = .ok k.columns
  filter : lowerExpr? x s.filter = .ok k.filter
  groupBy : lowerExprs x s.groupBy.exprs = .ok k.groupBy
  having : lowerExpr? x s.having = .ok k.having
  orderBy : lowerSorts x c.orderBy = .ok k.orderBy

/-- The fields of a select without those of the clauses around it. -/
def bodyFields (k : Clauses Json) : Fields :=
  [("type", .string "select")] ++ (if k.distinct then [("distinct", .bool true)] else [])
    ++ (field? "from" k.source ++ listField? "joins" k.joins) ++ [("columns", .array k.columns)]
    ++ field? "where" k.filter ++ listField? "groupBy" k.groupBy ++ field? "having" k.having

/-- The fields of a select with those of the clauses around it. -/
def selectFields (k : Clauses Json) (limit offset : Option Json) : Fields :=
  bodyFields k ++
    (listField? "with" k.withs ++ listField? "orderBy" k.orderBy ++ field? "limit" limit
    ++ field? "offset" offset)

/-- The fields of a select: those of its clauses, and no set operation. -/
structure SelectFields (F : Fields) (k : Clauses Json) : Prop where
  type : F.get? "type" = some (.string "select")
  operators : ∀ op : SetOperator, F.get? op.name = none
  withs : F.get? "with" = if k.withs.isEmpty then none else some (.array k.withs)
  source : F.get? "from" = k.source
  joins : F.get? "joins" = if k.joins.isEmpty then none else some (.array k.joins)
  columns : F.get? "columns" = some (.array k.columns)
  filter : F.get? "where" = k.filter
  groupBy : F.get? "groupBy" = if k.groupBy.isEmpty then none else some (.array k.groupBy)
  having : F.get? "having" = k.having
  orderBy : F.get? "orderBy" = if k.orderBy.isEmpty then none else some (.array k.orderBy)

@[simp] theorem get?_field? (key k : String) (v : Option Json) :
    Fields.get? (field? key v) k = if key = k then v else none := by
  cases v <;> simp [field?]

@[simp] theorem get?_listField? (key k : String) (values : List Json) :
    Fields.get? (listField? key values) k =
      if key = k then (if values.isEmpty then none else some (.array values)) else none := by
  cases values <;> simp [listField?]

/-- A query and its value: what stands around its body are clauses of a select, and nothing stands
around other bodies. -/
inductive Query.Lowered (x : Extracted) : Query → Json → Prop
  | select {c s k limit offset} : c.body = .select s → LoweredClauses x c s k →
      countValue? x "LIMIT" c.limit = .ok limit → countValue? x "OFFSET" c.offset = .ok offset →
      Lowered x (.mk c) (.object (selectFields k limit offset))
  | nested {c q v} : c.body = .nested q → c.hasTail = false → q.lower x = .ok v →
      Lowered x (.mk c) v
  | compound {c op quantifier left right v w} (all : Bool) :
      c.body = .compound op quantifier left right → c.hasTail = false → left.lower x = .ok v →
      right.lower x = .ok w →
      Lowered x (.mk c) (.object ([("type", .string "select"), (op.name, .array [v, w])]
        ++ if all then [("all", .bool true)] else []))

theorem exists_of_lowerSource {source : List (JoinedRelation Expr Relation)} {F : Fields}
    (h : lowerSource x source = .ok F) :
    ∃ (view : Option Json) (joins : List Json), F = field? "from" view ++ listField? "joins" joins ∧
      Option.Rel (fun r v => Relation.lower x r = .ok (v, false))
        (source.head?.map (·.relation)) view ∧
      List.Forall₂ (fun j v => j.Lowered x v) (joinsOf source) joins := by
  cases source with
  | nil =>
    rw [lowerSource] at h
    cases h
    exact ⟨none, [], rfl, .none, .nil⟩
  | cons first rest =>
    obtain ⟨relation, joins⟩ := first
    rw [lowerSource] at h
    obtain ⟨⟨view, lateral⟩, hview, h⟩ := of_bind h
    cases lateral with
    | true => cases h
    | false =>
      obtain ⟨js, hjs, h⟩ := of_bind h
      obtain ⟨others, hothers, h⟩ := of_bind h
      cases h
      exact ⟨some view, js ++ others, rfl, .some hview,
        List.rel_append (lowered_of_lowerJoins hjs) (lowered_of_lowerOthers hothers)⟩

private theorem lowerExprs_of_lowerGroupBy {g : GroupBy Expr} (h : lowerGroupBy x g = .ok vs) :
    lowerExprs x g.exprs = .ok vs := by
  cases g with
  | all => rw [lowerGroupBy] at h; cases h
  | keys es => rwa [lowerGroupBy] at h

/-- The value of a select without the clauses around it. -/
theorem exists_of_lowerSelect {s : SelectClauses Expr Relation} {F : Fields}
    (h : lowerSelect x s = .ok F) :
    ∃ k : Clauses Json, F = bodyFields k ∧
      Option.Rel (fun r v => Relation.lower x r = .ok (v, false))
        (s.source.head?.map (·.relation)) k.source ∧
      List.Forall₂ (fun j v => j.Lowered x v) (joinsOf s.source) k.joins ∧
      lowerItems x s.items = .ok k.columns ∧ lowerExpr? x s.filter = .ok k.filter ∧
      lowerExprs x s.groupBy.exprs = .ok k.groupBy ∧ lowerExpr? x s.having = .ok k.having := by
  obtain ⟨distinctness, top, items, into, source, views, filter, groupBy, placement, having,
    windows, qualify,
    windowsFirst⟩ := s
  rw [lowerSelect] at h
  obtain ⟨_, -, h⟩ := of_bind h
  obtain ⟨marks, hmarks, h⟩ := of_bind h
  obtain ⟨fields, hsource, h⟩ := of_bind h
  obtain ⟨columns, hcolumns, h⟩ := of_bind h
  obtain ⟨filters, hfilter, h⟩ := of_bind h
  obtain ⟨groups, hgroups, h⟩ := of_bind h
  obtain ⟨havings, hhaving, h⟩ := of_bind h
  obtain ⟨view, joins, rfl, hview, hjoins⟩ := exists_of_lowerSource hsource
  cases h
  have hdistinct : ∃ distinct : Bool, marks =
      if distinct then [("distinct", .bool true)] else [] := by
    cases distinctness with
    | none => cases hmarks; exact ⟨false, rfl⟩
    | distinct => cases hmarks; exact ⟨true, rfl⟩
    | on => cases hmarks
  obtain ⟨distinct, rfl⟩ := hdistinct
  exact ⟨{ source := view, joins, distinct, columns, filter := filters, groupBy := groups,
           having := havings },
    rfl, hview, hjoins, hcolumns, hfilter, lowerExprs_of_lowerGroupBy hgroups, hhaving⟩

/-- A select has the fields of its clauses. -/
theorem selectFields_get? (k : Clauses Json) (limit offset : Option Json) :
    SelectFields (selectFields k limit offset) k := by
  have hmark : ∀ key, key ≠ "distinct" →
      Fields.get? (if k.distinct then [("distinct", .bool true)] else []) key = none := by
    intro key hkey
    cases k.distinct <;> simp [hkey.symm]
  constructor
  case operators =>
    intro op
    cases op <;> simp [selectFields, bodyFields, hmark, SetOperator.name]
  all_goals simp [selectFields, bodyFields, hmark]

/-! ## Columns and relations -/

/-- A column and its value. -/
inductive Item.Lowered (x : Extracted) : Item Expr → Json → Prop
  | expr {e v} : e.lower x = .ok v → Lowered x (.expr e) v
  | aliased {e label v} : e.lower x = .ok v →
      Lowered x (.aliased e label) (v.tagged (some label.text) none)
  | wildcard : Lowered x .wildcard (columnValue "*" none)
  | wildcardOf (view : Ident) : Lowered x (.wildcardOf [view]) (columnValue "*" (some view.text))

theorem Item.lowered {i : Item Expr} (h : lowerItem x i = .ok v) : i.Lowered x v := by
  rw [lowerItem.eq_def] at h
  cases i with
  | expr e => exact .expr h
  | aliased e label =>
    obtain ⟨w, hw, h⟩ := of_bind h
    cases h
    exact .aliased hw
  | wildcard =>
    cases h
    exact .wildcard
  | wildcardOf name =>
    dsimp only at h
    split at h
    · cases h
      exact .wildcardOf _
    · cases h

/-- A relation and its value: a short expression in quotes, the name of a view, or a query. -/
inductive Relation.Lowered (x : Extracted) : Relation → Json → Bool → Prop
  | short {ident args ordinality label hints s} (name : Option String) : ident.quote = some '"' →
      x.short? ident.text = some s →
      Lowered x (.table [ident] args ordinality label hints) ((shortValue s).tagged name none) false
  | view {ident args ordinality label hints} :
      (ident.quote = some '"' → x.short? ident.text = none) →
      Lowered x (.table [ident] args ordinality label hints) (.string ident.text) false
  | labelledView {ident args ordinality label hints} (name : String) :
      (ident.quote = some '"' → x.short? ident.text = none) →
      Lowered x (.table [ident] args ordinality label hints)
        (.object [("type", .string "view"), ("view", .string ident.text), ("as", .string name)])
          false
  | derived {lateral q label v} (name : Option String) : q.lower x = .ok v →
      Lowered x (.derived lateral q label) (v.tagged name none) lateral

theorem Relation.lowered {r : Relation} {lateral : Bool} (h : r.lower x = .ok (v, lateral)) :
    r.Lowered x v lateral := by
  rw [Relation.lower.eq_def] at h
  cases r with
  | table name args ordinality label hints =>
    obtain ⟨w, hw, h⟩ := of_bind h
    cases h
    unfold tableValue at hw
    split at hw
    · cases hw
    split at hw
    · obtain ⟨name, -, hw⟩ := of_bind hw
      simp only [beq_iff_eq] at hw
      split at hw
      · next s hs =>
        cases hw
        split at hs
        · next hquote => exact .short name hquote hs
        · cases hs
      · next hs =>
        have hnone := fun hquote => (if_pos hquote).symm.trans hs
        split at hw
        · cases hw
          exact .labelledView _ hnone
        · cases hw
          exact .view hnone
    · cases hw
  | derived isLateral q label =>
    obtain ⟨name, -, h⟩ := of_bind h
    obtain ⟨u, hu, h⟩ := of_bind h
    cases h
    exact .derived name hu
  | joined | «foreign» => cases h

/-! ## Lists and counts of a query -/

theorem lowerItems_eq (items : List (Item Expr)) :
    lowerItems x items = items.mapM (lowerItem x) := by
  induction items with
  | nil => rw [lowerItems]; rfl
  | cons item items ih => rw [lowerItems, ih, List.mapM_cons]

/-- The value of a common table is that of its query under its name. -/
theorem tagged_of_lowerCtes {ctes : List (Cte Query)} (h : lowerCtes x ctes = .ok vs) :
    List.Forall₂
      (fun cte v => ∃ u, cte.query.lower x = .ok u ∧ v = u.tagged (some cte.label.name.text) none)
      ctes vs := by
  induction ctes generalizing vs with
  | nil =>
    rw [lowerCtes] at h
    cases h
    exact .nil
  | cons cte ctes ih =>
    obtain ⟨label, query, modifier, source⟩ := cte
    rw [lowerCtes] at h
    split at h
    · cases h
    obtain ⟨name, hname, h⟩ := of_bind h
    obtain ⟨u, hu, h⟩ := of_bind h
    obtain ⟨ws, hws, h⟩ := of_bind h
    cases h
    unfold TableAlias.lower at hname
    split at hname
    · cases hname
      exact .cons ⟨u, hu, rfl⟩ (ih hws)
    · cases hname

/-- The value of a sort order from that of what is sorted by. -/
theorem sortValue_of_lowerSorts {keys : List (SortKey Expr)} (h : lowerSorts x keys = .ok vs) :
    List.Forall₂
      (fun key v => ∃ u, key.value.lower x = .ok u ∧ v = sortValue u key.ascending key.nullsFirst)
      keys vs := by
  induction keys generalizing vs with
  | nil =>
    rw [lowerSorts] at h
    cases h
    exact .nil
  | cons key keys ih =>
    obtain ⟨value, ascending, nullsFirst⟩ := key
    rw [lowerSorts] at h
    obtain ⟨u, hu, h⟩ := of_bind h
    obtain ⟨ws, hws, h⟩ := of_bind h
    cases h
    exact .cons ⟨u, hu, rfl⟩ (ih hws)

theorem exists_of_countValue? {clause : String} {e : Option Expr} {o : Option Json}
    (h : countValue? x clause e = .ok o) : o = none ∨ ∃ n : Nat, o = some (.nat n) := by
  cases e with
  | none =>
    cases h
    exact .inl rfl
  | some e =>
    rw [countValue?, map_eq_pure_bind] at h
    obtain ⟨w, hw, h⟩ := of_bind h
    cases h
    unfold countValue at hw
    split at hw
    · split at hw <;> cases hw
      exact .inr ⟨_, rfl⟩
    · cases hw

/-- The value of a query, opened. -/
theorem Query.lowered {q : Query} (h : q.lower x = .ok v) : q.Lowered x v := by
  obtain ⟨c⟩ := q
  obtain ⟨w, withs, orders, limitValue, offsetValue, hw, hwiths, horders, hlimit, hoffset,
    htail, rfl⟩ :=
    exists_of_lower h
  -- A body that combines other queries has nothing around it, so that its value is the whole one.
  have hbare : c.body.isCombined = true → c.hasTail = false ∧ ∀ F, extended (.object F)
      (listField? "with" withs ++ listField? "orderBy" orders ++ field? "limit" limitValue
        ++ field? "offset" offsetValue) = .object F := by
    intro hbody
    have hnone := htail hbody
    refine ⟨hnone, fun F => ?_⟩
    simp only [QueryClauses.hasTail, Bool.or_eq_false_iff, Bool.not_eq_false', List.isEmpty_iff,
      Option.isSome_eq_false_iff, Option.isNone_iff_eq_none] at hnone
    obtain ⟨⟨⟨hctes, horderBy⟩, hlimitNone⟩, hoffsetNone⟩ := hnone
    rw [hctes, lowerCtes] at hwiths
    rw [horderBy, lowerSorts] at horders
    rw [hlimitNone] at hlimit
    rw [hoffsetNone] at hoffset
    cases hwiths
    cases horders
    cases hlimit
    cases hoffset
    simp [extended, listField?, field?]
  obtain ⟨F, rfl, -⟩ := Body.isSelect_lower c.body hw
  generalize hbody : c.body = body at hw hbare
  cases Body.lowered hw with
  | select hs =>
    obtain ⟨k, rfl, hsource, hjoins, hcolumns, hfilter, hgroups, hhaving⟩ :=
      exists_of_lowerSelect hs
    exact .select (k := { k with withs, orderBy := orders }) hbody
      ⟨hwiths, hsource, hjoins, hcolumns, hfilter, hgroups, hhaving, horders⟩ hlimit hoffset
  | nested hq =>
    obtain ⟨hnone, hvalue⟩ := hbare rfl
    rw [hvalue]
    exact .nested hbody hnone hq
  | compound all ha hb =>
    obtain ⟨hnone, hvalue⟩ := hbare rfl
    rw [hvalue]
    exact .compound all hbody hnone ha hb

/-- A body alone is lowered as the query that it makes. -/
theorem Body.lower_mk {body : Body} (h : body.lower x = .ok v) :
    (Query.mk { body }).lower x = .ok v := by
  obtain ⟨F, rfl, -⟩ := Body.isSelect_lower body h
  rw [Query.lower, lowerCtes, lowerSorts]
  simp [QueryClauses.check, QueryClauses.hasTail, h, countValue?, extended, listField?, field?]

end AnalyticQuery.Sql
