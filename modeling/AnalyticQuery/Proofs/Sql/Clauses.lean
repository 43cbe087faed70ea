import AnalyticQuery.Proofs.Sql.Select

/-!
# Clauses of SQL queries in trees

What the clauses of an SQL query become in the tree that is built from its value. Every select, at
any depth, keeps its common tables, relations, joins, columns, groups and sort orders, in the order
in which they are written. It keeps a condition unless the condition is `NULL`: the value of that is
null, and a field with null reads as one that is absent.
-/

open Relation (ReflTransGen)

namespace AnalyticQuery.Sql

open Builder Clauses QlObject Result

variable {v : Json} {F : Fields} {position : AnalyticQuery.Position} {vs : List Json}
  {ns : List Node}
variable {lateral : Bool}

variable {x : Extracted} {options : ParseOptions} {b : Builder}

/-! ## What a query becomes -/

/-- A node is built from an expression under an alias, where there is one. -/
def Expr.Becomes (x : Extracted) (options : ParseOptions) (e : Expr) (label : Option String)
    (n : Node) :
    Prop :=
  ∃ v s, e.lower x = .ok v ∧ Build.Makes options .expression (v.tagged label none) s n

/-- A node is built from a query, with any alias and cast. -/
def Query.Becomes (x : Extracted) (options : ParseOptions) (q : Query) (n : Node) : Prop :=
  ∃ v w position s m tag, q.lower x = .ok v ∧ v.SameBody w ∧ Build.Makes options position w s m ∧
    n = m.retag tag

/-- An expression that may be there, unless it is `NULL`. -/
def present (o : Option Expr) : Option Expr := o.filter (!·.isNull)

/-- The query that a relation is. -/
def Relation.query? : Relation → Option Query
  | .derived _ query _ => some query
  | _ => none

/-- A join in a tree has the condition that is written, and then the type that is written. -/
inductive Join.Matches (x : Extracted) (options : ParseOptions) (j : Join Expr Relation) :
    Node → Prop
  | intro {type relation on} : Option.Rel (Expr.Becomes x options · none ·) (present j.on?) on →
      (on.isSome = true → j.kind.type? = some type) →
      (∀ q ∈ j.relation.query?, q.Becomes x options relation) →
        Matches x options j (.join type relation on)

/-- A sort order in a tree has the value, the direction and the place of nulls that are written. -/
inductive SortKey.Matches (x : Extracted) (options : ParseOptions) (key : SortKey Expr) :
    Node → Prop
  | intro {n} : key.value.Becomes x options none n →
      Matches x options key (.sort n (key.ascending.map fun b => if b then .asc else .desc)
        (key.nullsFirst.map fun b => if b then .first else .last))

/-- The clauses of a select in a tree are those that are written, in order. -/
structure ClausesMatch (x : Extracted) (options : ParseOptions) (c : QueryClauses Expr Body Query)
    (s : SelectClauses Expr Relation) (k : Clauses Node) : Prop where
  withs :
    List.Forall₂ (fun cte n => n.alias? = some cte.label.name.text ∧ cte.query.Becomes x options n)
    c.ctes k.withs
  source : Option.Rel (fun r n => ∀ q ∈ r.query?, q.Becomes x options n)
    (s.source.head?.map (·.relation)) k.source
  joins : List.Forall₂ (fun j n => j.Matches x options n) (joinsOf s.source) k.joins
  columns : List.Forall₂ (fun item n => ∀ p ∈ item.labelled?, p.1.Becomes x options p.2 n)
    s.items k.columns
  filter : Option.Rel (Expr.Becomes x options · none ·) (present s.filter) k.filter
  groupBy : List.Forall₂ (Expr.Becomes x options · none ·) s.groupBy.exprs k.groupBy
  having : Option.Rel (Expr.Becomes x options · none ·) (present s.having) k.having
  orderBy : List.Forall₂ (fun key n => key.Matches x options n) c.orderBy k.orderBy

/-- A query in a tree: a select with the clauses that are written, or a set operation over its two
sides. Nothing is written around the latter. -/
inductive Query.Matches (x : Extracted) (options : ParseOptions) : Query → Node → Prop
  | select {c s role k tag} : c.body = .select s → ClausesMatch x options c s k →
      Matches x options (.mk c) (.select role k tag)
  | nested {c q n} : c.body = .nested q → c.hasTail = false → q.Becomes x options n →
      Matches x options (.mk c) n
  | compound {c op quantifier left right role all l r tag} :
      c.body = .compound op quantifier left right → c.hasTail = false →
      (Query.mk { body := left }).Becomes x options l →
      (Query.mk { body := right }).Becomes x options r →
      Matches x options (.mk c) (.compound role op all l r tag)

/-! ## Values of clauses -/

variable {n : Node} {s t : Scope} {q : Query} {e : Expr} {o : Option Expr}

private theorem sameBody_tagged (v : Json) (label : Option String) :
    v.SameBody (v.tagged label none) := by
  cases label with
  | none => exact .refl v
  | some name =>
    intro key halias _
    have hfields : (v.tagged (some name) none).taggable =
        v.taggable.insert "as" (.string name) := rfl
    rw [hfields, Fields.get?_insert, if_neg halias.symm]

/-- A select under an alias is an object with a select. -/
theorem IsSelect.tagged (h : IsSelect v) (label : Option String) :
    IsSelect (v.tagged label none) := by
  obtain ⟨F, rfl, htype⟩ := h
  cases label with
  | none => exact ⟨F, rfl, htype⟩
  | some name =>
    exact ⟨Fields.insert F "as" (.string name), rfl, by simp [Fields.get?_insert, htype]⟩

/-- What is built from a value with a select is built from an object with the fields of the
value. -/
theorem exists_select {w : Json} {m : Node} (htype : F.get? "type" = some (.string "select"))
    (hw : (Json.object F).SameBody w) (h : Build.Makes options position w s m) :
    ∃ (b : Builder) (role : SelectRole) (obj : QlObject), b.MakesParts options ∧
      (∀ key, key ≠ "as" → key ≠ "cast" → obj.get? key = (F.get? key).filter (!·.isNull)) ∧
      b.select obj s role = .ok m := by
  obtain ⟨obj, hobj, hselect, hget⟩ := hw.object? (Json.object?_of_type .select htype)
  obtain ⟨b, role, hb, h⟩ := h.select hobj hselect
  exact ⟨b, role, obj, hb, hget, h⟩

private theorem Query.Becomes.of_makes {label : Option String} (hv : q.lower x = .ok v)
    (h : Build.Makes options position (v.tagged label none) s n) : q.Becomes x options n :=
  ⟨v, _, position, s, n, ⟨n.alias?, n.cast?⟩, hv, sameBody_tagged v label, h,
    (Node.retag_tag n).symm⟩

/-- A condition that may be there is built, unless it is `NULL`. -/
theorem becomes_present {w : Option Json} {r : Option Node} (hb : b.MakesParts options)
    (hw : lowerExpr? x o = .ok w)
    (h : Option.Rel (fun v n => b.expression v s = .ok n) (w.filter (!·.isNull)) r) :
    Option.Rel (Expr.Becomes x options · none ·) (present o) r := by
  cases o with
  | none =>
    rw [lowerExpr?] at hw
    cases hw
    cases h
    exact .none
  | some e =>
    obtain ⟨v, hv, rfl⟩ := exists_of_lowerExpr? hw rfl
    unfold present
    rw [Option.filter_some, ← Expr.isNull_lower hv]
    rw [Option.filter_some] at h
    split at h
    · next hnull =>
      rw [if_pos hnull]
      cases h with
      | some hn => exact .some ⟨v, s, hv, hb hn⟩
    · next hnull =>
      rw [if_neg hnull]
      cases h
      exact .none

private theorem becomes_exprs {es : List Expr} (hb : b.MakesParts options)
    (hvs : lowerExprs x es = .ok vs)
    (h : List.Forall₂ (fun v n => b.expression v s = .ok n) vs ns) :
    List.Forall₂ (Expr.Becomes x options · none ·) es ns :=
  Result.forall₂_comp (forall₂_of_lowerExprs hvs) h fun hv hn => ⟨_, s, hv, hb hn⟩

private theorem becomes_items {items : List (Item Expr)} (hb : b.MakesParts options)
    (hvs : lowerItems x items = .ok vs)
    (h : List.Forall₂ (fun v n => b.expression v s = .ok n) vs ns) :
    List.Forall₂ (fun item n => ∀ p ∈ item.labelled?, p.1.Becomes x options p.2 n) items ns := by
  rw [lowerItems_eq, mapM_eq_ok_iff] at hvs
  refine Result.forall₂_comp hvs h ?_
  intro item v n hv hn p hp
  cases Item.lowered hv with
  | expr hu | aliased hu =>
    cases hp
    exact ⟨_, s, hu, hb hn⟩
  | wildcard | wildcardOf => cases hp

/-- What is built from a select under an alias has the alias. -/
theorem alias?_of_makes {name : String} (hv : IsSelect v)
    (h : Build.Makes options position (v.tagged (some name) none) s n) :
    n.alias? = some name := by
  obtain ⟨F, rfl, htype⟩ := hv
  obtain ⟨b, role, -, h⟩ := h.select
    (Json.object?_of_type (F := Fields.insert F "as" (.string name)) .select
      (by simpa [Fields.get?_insert])) rfl
  obtain ⟨-, htag⟩ := select_tag h
  obtain ⟨label, hlabel, htag⟩ := of_bind htag
  obtain ⟨cast, -, htag⟩ := of_bind htag
  have hn : n.tag.label = label := by
    injection htag with htag
    rw [← htag]
  unfold string? at hlabel
  rw [get?, Fields.get?_insert, if_pos rfl] at hlabel
  simp only [Option.filter_some, Json.isNull, Bool.not_false, if_true] at hlabel
  split at hlabel
  · cases hlabel
  · cases hlabel
    exact hn

/-! ## Relations -/

/-- The value of a relation that is a query is that of the query under its alias. -/
theorem tagged_of_lower {r : Relation} (h : r.lower x = .ok (v, lateral)) :
    ∀ q ∈ r.query?, ∃ u label, q.lower x = .ok u ∧ v = u.tagged label none := by
  intro q hq
  cases Relation.lowered h with
  | derived name hu =>
    cases hq
    exact ⟨_, name, hu, rfl⟩
  | _ => cases hq

/-- The value of a relation is not null. -/
theorem isNull_relation {r : Relation} (h : r.lower x = .ok (v, lateral)) :
    v.isNull = false := by
  cases Relation.lowered h with
  | short name => cases name <;> rfl
  | view | labelledView => rfl
  | derived name hu =>
    obtain ⟨F, hF, -⟩ := (Query.isSelect_lower _ hu).tagged name
    rw [hF]
    rfl

/-- A relation that is a query is built from the query. -/
theorem becomes_relation {r : Relation} {isLateral : Bool} (hb : b.MakesParts options)
    (hv : r.lower x = .ok (v, isLateral)) (h : b.relation v s lateral = .ok (n, t)) :
    ∀ q ∈ r.query?, q.Becomes x options n := by
  intro q hq
  obtain ⟨u, label, hu, rfl⟩ := tagged_of_lower hv q hq
  obtain ⟨F, hF, htype⟩ := (Query.isSelect_lower _ hu).tagged label
  have hmade : Build.Makes options (.select (.range lateral)) (u.tagged label none) s n := by
    rw [hF] at h ⊢
    exact hb (relation_select (Json.object?_of_type .select htype) rfl h)
  exact .of_makes hu hmade

private theorem becomes_source {first : Option Relation} {v : Option Json} {r : Option Node}
    (hb : b.MakesParts options)
    (hv : Option.Rel (fun r v => Relation.lower x r = .ok (v, false)) first v)
    (h : Option.Rel (fun v n => ∃ s t, b.relation v s false = .ok (n, t))
      (v.filter (!·.isNull)) r) :
    Option.Rel (fun r n => ∀ q ∈ r.query?, q.Becomes x options n) first r := by
  cases hv with
  | none =>
    cases h
    exact .none
  | some hr =>
    rw [Option.filter_some, isNull_relation hr] at h
    cases h with
    | some hn =>
      obtain ⟨s, t, hn⟩ := hn
      exact .some (becomes_relation hb hr hn)

/-- The fields of a join. -/
theorem get?_join (type : JoinType) {view : Json} (on : Option Json) (hview : view.isNull = false) :
    ∃ obj : QlObject, (joinValue type.name view on).object? = .ok obj ∧ obj.type = .join ∧
      obj.named? "joinType" JoinType.ofName = .ok (some type) ∧ obj.get? "view" = some view ∧
      obj.get? "on" = on.filter (!·.isNull) := by
  refine ⟨_, Json.object?_of_type .join rfl, rfl, ?_, ?_, ?_⟩
  · refine named?_eq_ok (a := some type) ?_
      (by intro type; cases type <;> decide) JoinType.ofName_name
    simp [get?, Json.isNull]
  · simp [get?, hview]
  · simp [get?]

/-- A join that has a condition is of the type that is written. -/
theorem joinType_of_on (type : JoinType) (isSubquery : Bool) :
    joinType (some type) true isSubquery = type := by
  cases type <;> rfl

/-- A join is built with its condition, unless that is `NULL`. -/
theorem matches_join {j : Join Expr Relation} (hb : b.MakesParts options) (hv : j.Lowered x v)
    (h : b.join v s = .ok (n, t)) : j.Matches x options n := by
  obtain ⟨type, hview, hon, htype⟩ := hv
  next view lateral on =>
  obtain ⟨obj, hobj, hjoin, hname, hviewField, honField⟩ :=
    get?_join type on (isNull_relation hview)
  obtain ⟨joined, written, isSubquery, relation, r, hjoined, hwritten, rfl, hrelation, hr⟩ :=
    join_parts hobj hjoin h
  rw [hviewField] at hjoined
  cases hjoined
  rw [hname] at hwritten
  cases hwritten
  have hhas : obj.has "on" = (on.filter (!·.isNull)).isSome := by rw [has, honField]
  rw [honField] at hr
  have hfound := optional_parts hr
  have hcondition := becomes_present hb hon hfound
  refine .intro hcondition ?_ (becomes_relation hb hview hrelation)
  intro hsome
  obtain ⟨k, rfl⟩ := Option.isSome_iff_exists.mp hsome
  have hwritten : j.on?.isSome = true := by
    unfold present at hcondition
    cases hj : j.on? with
    | none => rw [hj] at hcondition; cases hcondition
    | some => rfl
  have hpresent : obj.has "on" = true := by
    rw [hhas]
    cases hfilter : on.filter (!·.isNull) with
    | none => rw [hfilter] at hfound; cases hfound
    | some => rfl
  rw [hpresent, joinType_of_on]
  obtain htype | ⟨hcross, -⟩ := htype
  · exact htype
  · rw [Join.on?, if_pos hcross] at hwritten
    cases hwritten

/-! ## Sort orders -/

/-- The fields of a sort order. -/
theorem get?_sort (v : Json) (ascending nullsFirst : Option Bool) :
    ∃ obj : QlObject, (sortValue v ascending nullsFirst).object? = .ok obj ∧ obj.type = .sort ∧
      obj.get? "value" = (some v).filter (!·.isNull) ∧
      obj.get? "direction" = (ascending.map fun b => if b then SortDirection.asc else .desc).map
        (.string <| ·.name) ∧
      obj.get? "nulls" = (nullsFirst.map fun b => if b then NullsOrder.first else .last).map
        (.string <| ·.name) := by
  refine ⟨_, Json.object?_of_type .sort rfl, rfl, ?_, ?_, ?_⟩
  · simp [get?]
  · obtain _ | _ | _ := ascending <;> simp [get?, SortDirection.name, Json.isNull]
  · obtain _ | _ | _ := nullsFirst <;> simp [get?, NullsOrder.name, Json.isNull]

/-- A sort order is built from the value that it sorts by. -/
theorem matches_sort {key : SortKey Expr} (hv : key.value.lower x = .ok v)
    (h : Build.Makes options .expression (sortValue v key.ascending key.nullsFirst) s n) :
    key.Matches x options n := by
  obtain ⟨b, hb, h⟩ := h.exists_builder
  obtain ⟨⟨F, type⟩, hobj, rfl, hvalue, hdirection, hnulls⟩ :=
    get?_sort v key.ascending key.nullsFirst
  rw [value_eq_object hobj (by simp)] at h
  obtain ⟨k, hk, h⟩ := of_bind h
  obtain ⟨tag, -, h⟩ := of_bind h
  obtain ⟨_, -, hk⟩ := of_bind hk
  obtain ⟨w, hw, hk⟩ := of_bind hk
  obtain ⟨m, hm, hk⟩ := of_bind hk
  have hread := named?_eq_ok hdirection (by intro d; cases d <;> decide) SortDirection.ofName_name
  have hreadNulls := named?_eq_ok hnulls (by intro d; cases d <;> decide) NullsOrder.ofName_name
  rw [hread, ok_bind, hreadNulls, ok_bind] at hk
  cases hk
  obtain ⟨rfl, -, -⟩ := Node.fold_cases rfl h
  have hsame : v = w := by
    unfold required at hw
    rw [hvalue, Option.filter_some] at hw
    split at hw
    · next hfilter =>
      cases hw
      split at hfilter
      · exact Option.some.inj hfilter
      · cases hfilter
    · cases hw
  subst hsame
  exact .intro ⟨v, s, hv, hb hm⟩

/-! ## Selects -/

/-- The values of the clauses of a select, without conditions that are null. -/
def presentValues (k : Clauses Json) : Clauses Json :=
  { k with
    source := k.source.filter (!·.isNull)
    filter := k.filter.filter (!·.isNull)
    having := k.having.filter (!·.isNull) }

private theorem SelectFields.clauseValues {k : Clauses Json} {obj : QlObject}
    (hF : SelectFields F k)
    (hobj : ∀ key, key ≠ "as" → key ≠ "cast" → obj.get? key = (F.get? key).filter (!·.isNull)) :
    Builder.ClauseValues obj (presentValues k) := by
  have hlist : ∀ {key : String} {items : List Json}, key ≠ "as" → key ≠ "cast" →
      F.get? key = (if items.isEmpty then none else some (.array items)) →
      obj.get? key = if items.isEmpty then none else some (.array items) := by
    intro key items halias hcast hkey
    rw [hobj key halias hcast, hkey]
    split <;> rfl
  refine ⟨hlist (by decide) (by decide) hF.withs, ?_,
    hlist (by decide) (by decide) hF.joins, ?_, ?_,
    hlist (by decide) (by decide) hF.groupBy, ?_, hlist (by decide) (by decide) hF.orderBy⟩
  · rw [hobj _ (by decide) (by decide), hF.source]
    rfl
  · rw [hobj _ (by decide) (by decide), hF.columns]
    rfl
  · rw [hobj _ (by decide) (by decide), hF.filter]
    rfl
  · rw [hobj _ (by decide) (by decide), hF.having]
    rfl

/-- The clauses of a select are built from what is written. -/
theorem clausesMatch {c : QueryClauses Expr Body Query} {sel : SelectClauses Expr Relation}
    {k : Clauses Json} {r : Clauses Node} (hb : b.MakesParts options)
    (hk : LoweredClauses x c sel k) (h : Builder.ClauseParts b (presentValues k) r s) :
    ClausesMatch x options c sel r where
  withs := by
    refine Result.forall₂_comp (tagged_of_lowerCtes hk.withs) h.withs ?_
    rintro cte v n ⟨u, hu, rfl⟩ ⟨t, hn⟩
    exact ⟨alias?_of_makes (Query.isSelect_lower _ hu) (hb hn), .of_makes hu (hb hn)⟩
  source := becomes_source hb hk.source h.source
  joins := by
    refine Result.forall₂_comp hk.joins h.joins ?_
    rintro j v n hj ⟨t, t', hn⟩
    exact matches_join hb hj hn
  columns := becomes_items hb hk.columns h.columns
  filter := becomes_present hb hk.filter h.filter
  groupBy := becomes_exprs hb hk.groupBy h.groupBy
  having := becomes_present hb hk.having h.having
  orderBy := by
    refine Result.forall₂_comp (sortValue_of_lowerSorts hk.orderBy) h.orderBy ?_
    rintro key v n ⟨u, hu, rfl⟩ hn
    exact matches_sort hu (hb hn)

/-- What a query becomes has all that is written in it. -/
theorem Query.Becomes.matches (h : q.Becomes x options n) : q.Matches x options n := by
  obtain ⟨v, w, position, s, m, tag, hv, hsame, hm, rfl⟩ := h
  cases Query.lowered hv with
  | @select c sel k limit offset hbody hk _ _ =>
    have hF := selectFields_get? k limit offset
    obtain ⟨b, role, obj, hb, hget, hselect⟩ := exists_select hF.type hsame hm
    have hoperators : ∀ op : SetOperator, obj.get? op.name = none := by
      intro op
      rw [hget _ (by cases op <;> decide) (by cases op <;> decide), hF.operators op]
      rfl
    obtain ⟨r, own, -, rfl, hr⟩ := select_parts hoperators hselect
    obtain ⟨t, hparts⟩ := clauses_parts (hF.clauseValues hget) hr
    exact .select hbody (clausesMatch hb hk hparts)
  | @nested c q v hbody htail hq =>
    exact .nested hbody htail ⟨v, w, position, s, m, tag, hq, hsame, hm, rfl⟩
  | @compound c op quantifier left right u u' all hbody htail hleft hright =>
    have hall : ∀ key, key ≠ "all" →
        Fields.get? (if all then [("all", .bool true)] else []) key = none := by
      intro key hkey
      cases all <;> simp [hkey.symm]
    obtain ⟨b, role, obj, hb, hget, hselect⟩ := exists_select (by simp) hsame hm
    have hname : ∀ op : SetOperator, op.name ≠ "as" ∧ op.name ≠ "cast" ∧ op.name ≠ "all" ∧
        op.name ≠ "type" := by
      intro op
      cases op <;> decide
    have hsides : obj.get? op.name = some (.array [u, u']) := by
      rw [hget _ (hname op).1 (hname op).2.1]
      simp [(hname op).2.2.2.symm, Json.isNull]
    have hothers : ∀ op', op' ≠ op → obj.get? op'.name = none := by
      intro op' hne
      have hnames : op.name ≠ op'.name := by
        revert hne
        cases op <;> cases op' <;> simp [SetOperator.name]
      rw [hget _ (hname op').1 (hname op').2.1]
      simp [(hname op').2.2.2.symm, hnames, hall _ (hname op').2.2.1]
    obtain ⟨keep, l, r, own, -, -, rfl, hl, hr⟩ := compound_parts hsides hothers hselect
    have hside : ∀ {body : Body} {value : Json} {k : Node}, body.lower x = .ok value →
        b.part b.resolving (.select .operand) value s = .ok k →
        (Query.mk { body }).Becomes x options k := by
      intro body value k hvalue hk
      have hmade : Build.Makes options (.select .operand) (value.tagged none none) s k := hb hk
      exact .of_makes (Body.lower_mk hvalue) hmade
    exact .compound hbody htail (hside hleft hl) (hside hright hr)

/-! ## Nested queries -/

/-- The expressions of a select. -/
def SelectClauses.exprs (s : SelectClauses Expr Relation) : List Expr :=
  (s.items.filterMap Item.labelled?).map (·.1) ++ (joinsOf s.source).filterMap Join.on? ++
    s.filter.toList
    ++ s.groupBy.exprs ++ s.having.toList

/-- The relations of a select. -/
def SelectClauses.relations (s : SelectClauses Expr Relation) : List Relation :=
  s.source.head?.toList.map (·.relation) ++ (joinsOf s.source).map (·.relation)

/-- Whether a query is written inside another one, in no third one between them. -/
inductive Query.Nests : Query → Query → Prop
  | cte {c cte} : cte ∈ c.ctes → Nests (.mk c) cte.query
  | nested {c q} : c.body = .nested q → Nests (.mk c) q
  | left {c op quantifier left right} : c.body = .compound op quantifier left right →
      Nests (.mk c) (.mk { body := left })
  | right {c op quantifier left right} : c.body = .compound op quantifier left right →
      Nests (.mk c) (.mk { body := right })
  | relation {c s r q} : c.body = .select s → r ∈ s.relations → r.query? = some q → Nests (.mk c) q
  | expr {c s e q} : c.body = .select s → e ∈ s.exprs → e.Holds q → Nests (.mk c) q
  | order {c key q} : key ∈ c.orderBy → key.value.Holds q → Nests (.mk c) q

/-- A query inside an expression is built inside what the expression becomes. -/
theorem Expr.Becomes.holds {label : Option String} (h : e.Becomes x options label n)
    (hq : e.Holds q) : ∃ m, n.Encloses m ∧ q.Becomes x options m := by
  obtain ⟨v, s, hv, hn⟩ := h
  obtain ⟨-, u, hu, hreaches⟩ := hq.reaches hv
  obtain ⟨w, m, hsame, hm, hin⟩ := hn.reaches (hreaches.tagged label none)
  have hquery : m.isQuery = true := by
    obtain ⟨F, rfl, htype⟩ := Query.isSelect_lower _ hu
    obtain ⟨b, role, obj, -, -, hselect⟩ := exists_select htype hsame hm
    exact (select_tag hselect).1
  obtain ⟨tag, htag⟩ := hin m .refl hquery
  exact ⟨m.retag tag, htag, u, w, .expression, s, m, tag, hu, hsame, hm, rfl⟩

/-- An expression that holds a query is not `NULL`. -/
theorem Expr.Holds.mem_present (h : e.Holds q) (he : e ∈ o) :
    e ∈ present o := by
  have hnull : e.isNull = false := by
    clear he
    induction h with
    | @here e q hq => cases e <;> first | rfl | cases hq
    | @inside e c q hc _ ih =>
      cases e with
      | literal => cases hc
      | nested e =>
        obtain rfl := List.mem_singleton.mp hc
        exact ih
      | unary op e =>
        obtain rfl := List.mem_singleton.mp hc
        simp [Expr.isNull, ih]
      | _ => rfl
  cases he
  simp [present, hnull]

/-- What a condition holds is built inside what it becomes. -/
theorem exists_of_present {r : Option Node}
    (h : Option.Rel (Expr.Becomes x options · none ·) (present o) r) (he : e ∈ o) (hq : e.Holds q) :
    ∃ n ∈ r, ∃ m, n.Encloses m ∧ q.Becomes x options m := by
  have hpresent : present o = some e := hq.mem_present he
  rw [hpresent] at h
  cases h with
  | some hn => exact ⟨_, rfl, hn.holds hq⟩

/-- A query inside an expression of a select is built inside what the select becomes. -/
theorem ClausesMatch.expr {c : QueryClauses Expr Body Query} {s : SelectClauses Expr Relation}
    {k : Clauses Node} (h : ClausesMatch x options c s k) (he : e ∈ s.exprs) (hq : e.Holds q) :
    ∃ n ∈ k.parts, ∃ m, n.Encloses m ∧ q.Becomes x options m := by
  unfold SelectClauses.exprs at he
  simp only [List.mem_append, Option.mem_toList, List.mem_map, List.mem_filterMap] at he
  obtain (((⟨p, ⟨item, hitem, hp⟩, rfl⟩ | ⟨j, hj, hon⟩) | hfilter) | hgroup) | hhaving := he
  · obtain ⟨n, hn, hbecomes⟩ := exists_of_forall₂ h.columns hitem
    exact ⟨n, by simp [parts, hn], (hbecomes p hp).holds hq⟩
  · obtain ⟨n, hn, hmatch⟩ := exists_of_forall₂ h.joins hj
    obtain ⟨hcondition, -, -⟩ := hmatch
    obtain ⟨m, hm, k', hk', hbecomes⟩ := exists_of_present hcondition hon hq
    cases hm
    have hpart : ∀ n ∈ k.joins, n ∈ k.parts := by
      intro n hn
      simp [parts, hn]
    exact ⟨_, hpart _ hn, k', .of_child (by simp [Node.children]) hk', hbecomes⟩
  · obtain ⟨n, hn, hinside⟩ := exists_of_present h.filter hfilter hq
    exact ⟨n, by simp [parts, Option.mem_def.mp hn], hinside⟩
  · obtain ⟨n, hn, hbecomes⟩ := exists_of_forall₂ h.groupBy hgroup
    exact ⟨n, by simp [parts, hn], hbecomes.holds hq⟩
  · obtain ⟨n, hn, hinside⟩ := exists_of_present h.having hhaving hq
    exact ⟨n, by simp [parts, Option.mem_def.mp hn], hinside⟩

/-- A query that is a relation of a select is built inside what the select becomes. -/
theorem ClausesMatch.relation {c : QueryClauses Expr Body Query} {s : SelectClauses Expr Relation}
    {k : Clauses Node} {r : Relation} (h : ClausesMatch x options c s k) (hr : r ∈ s.relations)
    (hq : r.query? = some q) : ∃ n ∈ k.parts, ∃ m, n.Encloses m ∧ q.Becomes x options m := by
  unfold SelectClauses.relations at hr
  simp only [List.mem_append, List.mem_map, Option.mem_toList] at hr
  obtain ⟨first, hfirst, rfl⟩ | ⟨j, hj, rfl⟩ := hr
  · have hsource := h.source
    rw [Option.mem_def.mp hfirst] at hsource
    cases hk : k.source with
    | none => rw [hk] at hsource; cases hsource
    | some n =>
      rw [hk] at hsource
      cases hsource with
      | some hn => exact ⟨n, by simp [parts, hk], n, .refl, hn q hq⟩
  · obtain ⟨n, hn, hmatch⟩ := exists_of_forall₂ h.joins hj
    obtain ⟨-, -, hrelation⟩ := hmatch
    have hpart : ∀ n ∈ k.joins, n ∈ k.parts := by
      intro n hn
      simp [parts, hn]
    exact ⟨_, hpart _ hn, _, .of_child (by simp [Node.children]) .refl, hrelation q hq⟩

/-- A query without clauses around its body has no common tables and no sort orders. -/
theorem bare_of_hasTail {c : QueryClauses Expr Body Query} (h : c.hasTail = false) :
    c.ctes = [] ∧ c.orderBy = [] := by
  simp only [QueryClauses.hasTail, Bool.or_eq_false_iff, Bool.not_eq_false', List.isEmpty_iff] at h
  exact h.1.1

/-- A query inside another one is built inside what that one becomes. -/
theorem Query.Becomes.nests {q q' : Query} (h : q.Becomes x options n) (hq : q.Nests q') :
    ∃ m, n.Encloses m ∧ q'.Becomes x options m := by
  have hinside : ∀ {role k tag}, (∃ n ∈ parts k, ∃ m, n.Encloses m ∧ q'.Becomes x options m) →
      ∃ m, (Node.select role k tag).Encloses m ∧ q'.Becomes x options m := by
    rintro role k tag ⟨n, hn, m, hm, hbecomes⟩
    exact ⟨m, .of_child hn hm, hbecomes⟩
  cases h.matches with
  | @select c s role k tag hbody hmatch =>
    cases hq with
    | cte hcte =>
      obtain ⟨n, hn, -, hbecomes⟩ := exists_of_forall₂ hmatch.withs hcte
      exact hinside ⟨n, by simp [parts, hn], n, .refl, hbecomes⟩
    | relation hbody' hr hq =>
      rw [hbody] at hbody'
      cases hbody'
      exact hinside (hmatch.relation hr hq)
    | expr hbody' he hq =>
      rw [hbody] at hbody'
      cases hbody'
      exact hinside (hmatch.expr he hq)
    | order hkey hq =>
      obtain ⟨n, hn, hsort⟩ := exists_of_forall₂ hmatch.orderBy hkey
      obtain ⟨hbecomes⟩ := hsort
      obtain ⟨m, hm, hinner⟩ := hbecomes.holds hq
      have hpart : ∀ n ∈ k.orderBy, n ∈ k.parts := by
        intro n hn
        simp [parts, hn]
      exact hinside ⟨_, hpart _ hn, m, .of_child (by simp [Node.children]) hm, hinner⟩
    | nested hbody' | left hbody' | right hbody' => rw [hbody] at hbody'; cases hbody'
  | @nested c q n hbody htail hbecomes =>
    cases hq with
    | nested hbody' =>
      rw [hbody] at hbody'
      cases hbody'
      exact ⟨n, .refl, hbecomes⟩
    | cte hcte => rw [(bare_of_hasTail htail).1] at hcte; cases hcte
    | order hkey => rw [(bare_of_hasTail htail).2] at hkey; cases hkey
    | relation hbody' | expr hbody' | left hbody' | right hbody' =>
      rw [hbody] at hbody'; cases hbody'
  | @compound c op quantifier left right role all l r tag hbody htail hl hr =>
    cases hq with
    | left hbody' =>
      rw [hbody] at hbody'
      cases hbody'
      exact ⟨l, .of_child (by simp [Node.children]) .refl, hl⟩
    | right hbody' =>
      rw [hbody] at hbody'
      cases hbody'
      exact ⟨r, .of_child (by simp [Node.children]) .refl, hr⟩
    | cte hcte => rw [(bare_of_hasTail htail).1] at hcte; cases hcte
    | order hkey => rw [(bare_of_hasTail htail).2] at hkey; cases hkey
    | relation hbody' | expr hbody' | nested hbody' => rw [hbody] at hbody'; cases hbody'

/-- What is built of the value of a query at the root is built of the query. -/
theorem Query.Becomes.of_root (h : q.lower x = .ok v) (hn : Build.root options v = .ok n) :
    q.Becomes x options n := by
  obtain ⟨F, rfl, htype⟩ := Query.isSelect_lower _ h
  have hselect : isType (.object F) .select = true := by
    have hname : ExpressionType.ofName? "select" = some .select :=
      ExpressionType.ofName?_name .select
    simp [isType, htype, hname]
  rw [Build.root, hselect] at hn
  have hmade : Build.Makes options (.select .root) ((Json.object F).tagged none none) .root n :=
    .of_run hn
  exact .of_makes h hmade

/-- Every query of an SQL query, at any depth, is in the tree that is built of it, with all that is
written in it but for conditions that are `NULL`. -/
theorem Query.exists_matches {q q' : Query} {v : Json} {n : Node} (h : q.lower x = .ok v)
    (hn : Build.root options v = .ok n) (hq : ReflTransGen Query.Nests q q') :
    ∃ m, n.Encloses m ∧ q'.Matches x options m := by
  have hbecomes : ∃ m, n.Encloses m ∧ q'.Becomes x options m := by
    induction hq with
    | refl => exact ⟨n, .refl, .of_root h hn⟩
    | tail _ hstep ih =>
      obtain ⟨m, hm, hbecomes⟩ := ih
      obtain ⟨m', hm', hbecomes'⟩ := hbecomes.nests hstep
      exact ⟨m', ReflTransGen.trans hm hm', hbecomes'⟩
  obtain ⟨m, hm, hbecomes⟩ := hbecomes
  exact ⟨m, hm, hbecomes.matches⟩

/-- A select of a column of a table, with some joins and maybe a condition. -/
def oneColumn (view column : String) (joins : List (Join Expr Relation)) (filter : Option Expr) :
    Query :=
  .mk { body := .select {
    items := [.expr (.column [⟨view, none⟩, ⟨column, none⟩])]
    source := [⟨.table [⟨view, none⟩] none false none [], joins⟩]
    filter } }

/-- The condition of a subquery in the condition of a query is in the tree. -/
theorem Query.exists_matches_subquery :
    let inner := oneColumn "w" "b" [] (some (.literal (.bool false)))
    ∃ v n, (oneColumn "v" "a" [] (some (.exists true inner))).lower ⟨[], [], []⟩ = .ok v ∧
      Build.root {} v = .ok n ∧ ∃ m, n.Encloses m ∧ inner.Matches ⟨[], [], []⟩ {} m := by
  intro inner
  let column (view column : String) : Json := .object
    [("type", .string "column"), ("column", .string column), ("view", .string view)]
  let select (view column : String) : Clauses Node :=
    { source := some (.view view false none)
      columns := [.column ⟨column, some view, some view, some view⟩ {}] }
  let value : Json := .object
    [("type", .string "select"), ("from", .string "v"), ("columns", .array [column "v" "a"]),
      ("where", operation "not exists" [.object [("type", .string "select"), ("from", .string "w"),
        ("columns", .array [column "w" "b"]), ("where", .bool false)]])]
  have hlower : (oneColumn "v" "a" [] (some (.exists true inner))).lower ⟨[], [], []⟩ =
      .ok value := rfl
  have hroot : ∃ n, Build.root {} value = .ok n := by
    refine ⟨.select .root { select "v" "a" with filter := some ?_ } {}, ?_⟩
    · exact .operation .notExists
        [.select .subquery { select "w" "b" with filter := some (.constant (.bool false) {}) } {}]
          none {}
    · cbv
  obtain ⟨n, hn⟩ := hroot
  have hnests : Query.Nests (oneColumn "v" "a" [] (some (.exists true inner))) inner :=
    .expr (e := .exists true inner) rfl (by simp [SelectClauses.exprs]) (.here rfl)
  exact ⟨value, n, hlower, hn, exists_matches hlower hn (.single hnests)⟩

/-- A condition that is `NULL` is not in the tree, and an inner join on one is a cross join. -/
theorem Query.root_null_conditions :
    (oneColumn "v" "a"
      [⟨.table [⟨"w", none⟩] none false none [], .inner, .on (.literal .null), false⟩]
      (some (.literal .null))).lower ⟨[], [], []⟩ >>= Build.root {} =
      .ok (.select .root
        { source := some (.view "v" false none)
          joins := [.join .cross (.view "w" false none) none]
          columns := [.column ⟨"a", some "v", some "v", some "v"⟩ {}]
          filter := none } {}) := by
  have hlower : (oneColumn "v" "a"
      [⟨.table [⟨"w", none⟩] none false none [], .inner, .on (.literal .null), false⟩]
      (some (.literal .null))).lower ⟨[], [], []⟩ =
        .ok (.object [("type", .string "select"), ("from", .string "v"),
          ("joins", .array [joinValue "inner" (.string "w") (some .null)]),
          ("columns", .array [columnValue "a" (some "v")]), ("where", .null)]) := rfl
  rw [hlower, Result.ok_bind]
  cbv

end AnalyticQuery.Sql
