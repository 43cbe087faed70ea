import AnalyticQuery.Proofs.Tree.Fuel

/-!
# Trees are built again from their query values

The relations, joins and selects of a tree are built again from their query values in the same
scopes. With the other kinds of expressions this gives the round trip: what was built is built again
from the value it is written as. Where short expressions are expanded it is built again exactly.
-/

namespace AnalyticQuery

open Build Builder List QlObject Result

variable {n : Node} {role : SelectRole} {F : Fields} {c : Clauses Node} {tag : Tag} {place : Place}
variable {R : Node → Node → Prop} {kept : Bool} {s : Scope}

namespace Node

variable {lateral hasOn isSubquery : Bool} {ns : List Node} {number : Number}

/-- The value of a relation, given how its expression is written: a view without an alias is its
name. -/
def relationWith (g : Node → Json) (n : Node) : Json :=
  match n.bareView? with
  | some name => .string name
  | none => g n

/-- The values of the clauses of a select, given how its expressions are written. -/
def clausesWith (g : Node → Json) (c : Clauses Node) : Clauses Json where
  withs := c.withs.map g
  source := c.source.map (relationWith g)
  joins := c.joins.map g
  distinct := c.distinct
  columns := c.columns.map g
  filter := c.filter.map g
  groupBy := c.groupBy.map g
  having := c.having.map g
  orderBy := c.orderBy.map g
  limit := c.limit
  offset := c.offset

/-- The query value of a relation. -/
def relationQl (kept : Bool) (n : Node) : Json := n.relationWith (ql kept)

/-- The query values of the clauses of a select. -/
def clausesQl (kept : Bool) (c : Clauses Node) : Clauses Json := clausesWith (ql kept) c

/-- The value of a relation that may be there. -/
theorem toQlRelation_eq (n : Option Node) :
    toQlRelation { keepShorts := kept, keepParamRefs := true } n = n.map (relationQl kept) := by
  cases n with
  | none => rfl
  | some n =>
    rw [toQlRelation, Option.map_some, relationQl, relationWith]
    cases n.bareView? <;> rfl

/-- The fields of a select. -/
def selectFields (v : Clauses Json) : Fields :=
  [("type", .string "select")] ++ listField "with" v.withs ++ optionField "from" v.source ++
    listField "joins" v.joins ++ flagField "distinct" v.distinct ++
      [("columns", .array v.columns)] ++
    optionField "where" v.filter ++ listField "groupBy" v.groupBy ++
      optionField "having" v.having ++
    listField "orderBy" v.orderBy ++ optionField "limit" (v.limit.map Limit.toQl) ++
    optionField "offset" (v.offset.map .nat)

/-- The fields of a set operation. -/
def compoundFields (op : SetOperator) (all : Bool) (left right : Json) : Fields :=
  [("type", .string "select"), (op.name, .array [left, right])] ++ flagField "all" all

/-- The fields of a join. -/
def joinFields (type : JoinType) (relation : Json) (on : Option Json) : Fields :=
  [("type", .string "join"), ("joinType", .string type.name), ("view", relation)] ++
    optionField "on" on

/-- The value of a select has its fields, with its alias and cast. -/
theorem ql_select (role : SelectRole) (c : Clauses Node) (tag : Tag) :
    (select role c tag).ql kept = tag.onto (.object (selectFields (clausesQl kept c))) := by
  rw [ql, toQl]
  simp only [toQlAll_eq, toQlOption_eq, toQlRelation_eq, Clauses.toQl, selectFields, clausesQl,
    clausesWith]
  rfl

/-- The value of a set operation has its fields, with its alias and cast. -/
theorem ql_compound (role : SelectRole) (op : SetOperator) (all : Bool) (left right : Node)
    (tag : Tag) :
    (compound role op all left right tag).ql kept =
      tag.onto (.object (compoundFields op all (left.ql kept) (right.ql kept))) := by
  rw [ql, toQl]
  rfl

/-- The value of a join has its fields. -/
theorem ql_join (type : JoinType) (relation : Node) (on : Option Node) :
    (join type relation on).ql kept =
      .object (joinFields type (relation.relationQl kept) (on.map (ql kept))) := by
  rw [ql, toQl, toQlOption_eq, joinFields, relationQl, relationWith]
  cases relation.bareView? <;> rfl

/-- The fields of a select name its kind and hold no alias and no cast. -/
theorem own_selectFields (v : Clauses Json) : (selectFields v).Own .select :=
  ⟨rfl, by simp [selectFields], by simp [selectFields]⟩

/-- The fields of a set operation name its kind and hold no alias and no cast. -/
theorem own_compoundFields (op : SetOperator) (all : Bool) (left right : Json) :
    (compoundFields op all left right).Own .select := by
  cases op <;>
    exact ⟨rfl,
      by simp [compoundFields, SetOperator.name], by simp [compoundFields, SetOperator.name]⟩

/-- The fields of a join name its kind and hold no alias and no cast. -/
theorem own_joinFields (type : JoinType) (relation : Json) (on : Option Json) :
    (joinFields type relation on).Own .join :=
  ⟨rfl, by simp [joinFields], by simp [joinFields]⟩

/-- A select or a set operation is written with the kind of a select. -/
theorem exists_own_of_role? (kept : Bool) (h : n.role? = some role) :
    n.bareView? = none ∧ ∃ F tag, n.ql kept = .object (F ++ Tag.fields tag) ∧
      Fields.Own F .select := by
  cases n with
  | select role' c tag =>
    have hown := own_selectFields (clausesQl kept c)
    exact ⟨rfl, _, tag, by rw [ql_select, tag.onto_object hown.cast hown.label], hown⟩
  | compound role' op all left right tag =>
    have hown := own_compoundFields op all (left.ql kept) (right.ql kept)
    exact ⟨rfl, _, tag, by rw [ql_compound, tag.onto_object hown.cast hown.label], hown⟩
  | _ => cases h

/-- The value of a relation is not null. -/
theorem isNull_relationQl (hs : n.isShort = false) (hn : n.isBareNull = false) :
    (n.relationQl kept).isNull = false := by
  unfold relationQl relationWith
  split
  · rfl
  · exact isNull_ql (by simp [hs]) hn

end Node

namespace Builder

open QlObject (written)

variable {lax : Error → Prop} {b : Builder} {t : Scope}
  {obj : QlObject}
variable {type : JoinType} {write : Node → Json} {rows : Nat} {v : Clauses Json}

/-! ## Relations -/

/-- A value that is no text to expand is its own normal form. -/
theorem normalizeRelation_own {type : ExpressionType} (hown : F.Own type) (hshort : type ≠ .short)
    (hsql : type ≠ .sql) :
    normalizeRelation (.object (F ++ tag.fields)) = .ok (.object (F ++ tag.fields), false) := by
  simp only [normalizeRelation, ofJson_written hown.type, ok_bind, type_written]
  cases type with
  | short => exact absurd rfl hshort
  | sql => exact absurd rfl hsql
  | _ => rfl

/-- A select is its own normal form as a relation. -/
theorem normalizeRelation_select (h : n.role? = some role) :
    normalizeRelation (n.relationQl kept) = .ok (n.relationQl kept, false) ∧
      isType (n.relationQl kept) .select = true ∧ n.relationQl kept = n.ql kept := by
  obtain ⟨hbare, F, tag, hql, hown⟩ := Node.exists_own_of_role? kept h
  have hrelation : n.relationQl kept = .object (F ++ tag.fields) := by
    rw [Node.relationQl, Node.relationWith, hbare, hql]
  rw [hrelation, hql]
  exact ⟨normalizeRelation_own hown (by decide) (by decide), isType_written hown.type .select, rfl⟩

/-- The fields of a view. -/
def viewFields (name : String) : Fields := [("type", .string "view"), ("view", .string name)]

theorem own_viewFields (name : String) : (viewFields name).Own .view :=
  ⟨rfl, by simp [viewFields], by simp [viewFields]⟩

private theorem relationQl_view (name label : String) (isCte : Bool) :
    (Node.view name isCte (some label)).relationQl kept =
      .object (viewFields name ++ Tag.fields { label := some label }) := by
  have hown := own_viewFields name
  rw [← Tag.onto_object _ hown.cast hown.label]
  rfl

/-- A view is its own normal form as a relation. -/
theorem normalizeRelation_view (name : String) (isCte : Bool) (label : Option String) :
    normalizeRelation ((Node.view name isCte label).relationQl kept) =
      .ok ((Node.view name isCte label).relationQl kept, false) := by
  cases label with
  | none => rfl
  | some label =>
    rw [relationQl_view]
    exact normalizeRelation_own (own_viewFields name) (by decide) (by decide)

/-- A view is not written as a select. -/
theorem isType_view (name : String) (isCte : Bool) (label : Option String) :
    isType ((Node.view name isCte label).relationQl kept) .select = false := by
  cases label with
  | none => rfl
  | some label =>
    rw [relationQl_view]
    exact isType_written (own_viewFields name).type .select

/-- A view is built again where a relation is expected. -/
theorem relationNode_view {name : String} {label : Option String} (hname : name ≠ "")
    (named : label ≠ some "") :
    b.relationNode ((Node.view name (s.isCte name) label).relationQl kept) s false =
      .ok (.view name (s.isCte name) label) := by
  have hview : viewOfName name s = .ok (.view name (s.isCte name) none) := by
    have hne : name.isEmpty = false := by
      rw [← Bool.not_eq_true, String.isEmpty_iff]
      exact hname
    simp [viewOfName, hne]
  cases label with
  | none => exact hview
  | some label =>
    let tag : Tag := { label := some label }
    have hown := own_viewFields name
    have hkeys : (written (viewFields name) .view tag).checkKeys ["view"] = .ok () :=
      checkKeys_written (by simp [viewFields])
    have hstring : (written (viewFields name) .view tag).string "view" = .ok name :=
      string_eq_ok (by simp [viewFields, get?_written]) hname
    have htag : (written (viewFields name) .view tag).tag = .ok tag :=
      tag_written hown.cast hown.label named
    have hfold : (Node.view name (s.isCte name) none).fold tag.label tag.cast =
        .ok (.view name (s.isCte name) (some label)) :=
      Node.fold_eq_ok rfl rfl named (fun _ => rfl) (by rintro ⟨⟩)
    simp only [relationQl_view, relationNode, ofJson_written hown.type, ok_bind, type_written, view,
      hkeys, hstring, hview, htag, hfold, tag]

/-- A relation is built again and declared. -/
theorem exists_relation (hR : Node.Congruence (.ofFirst lax) R) {v : Json}
    (hnormal : normalizeRelation v = .ok (v, false))
    (part : ∃ m, b.relationNode v s lateral = .ok m ∧
      Node.RelatedAt R (.select (.range lateral)) n m) (ht : declare s n = .ok t) :
    ∃ m, b.relation v s lateral = .ok (m, t) ∧ R n m := by
  obtain ⟨m, hm, hnm, hn, hshort⟩ := part
  have hdeclare : declare s m = .ok t := by
    rw [← ht, declare, declare, hR.declaration hnm hn hshort]
  have hparts : b.forParts false = b := rfl
  exact ⟨m, by simp [relation, hnormal, hparts, hm, hdeclare], hnm⟩

/-! ## Joins -/

/-- A join keeps the type that it is written with. -/
theorem joinType_some (h : hasOn = type.hasCondition) :
    joinType (some type) hasOn isSubquery = type := by
  subst h
  cases type <;> rfl

/-- A join passes its check if it has a condition where its type asks for one, and a subquery where
it is lateral. -/
theorem checkJoin_eq_ok (h : hasOn = type.hasCondition)
    (hlateral : type = .lateral → isSubquery = true) :
    checkJoin obj type hasOn isSubquery = .ok () := by
  subst h
  cases type with
  | lateral =>
    rw [hlateral rfl]
    rfl
  | _ => rfl

private theorem joinName_ne_empty (type : JoinType) : type.name ≠ "" := by
  cases type <;> decide

/-- The type of a join is read back. -/
theorem joinType_joinFields (type : JoinType) (v : Json) (w : Option Json) :
    (written (Node.joinFields type v w) .join {}).named? "joinType" JoinType.ofName =
      .ok (some type) :=
  named?_eq_ok (by simp [get?_written, Node.joinFields]) joinName_ne_empty JoinType.ofName_name

/-- A join is built again from its relation and its condition. -/
theorem exists_join (hR : Node.Congruence (.ofFirst lax) R) {on : Option Node} {v : Json}
    {w : Option Json} (hnormal : normalizeRelation v = .ok (v, false))
    (hlateral : type = .lateral → isType v .select = true) (hrelation : v.isNull = false)
    (part : ∃ m, b.relation v s (type == .lateral) = .ok (m, t) ∧ R n m)
    (condition : w.isSome = type.hasCondition)
    (onPart : ∃ p, b.optional w t = .ok p ∧ Option.Rel R on p) (hnull : ∀ u ∈ w, u.isNull = false) :
    ∃ m, b.join (.object (Node.joinFields type v w)) s = .ok (m, t) ∧ R (.join type n on) m := by
  obtain ⟨m, hm, hnm⟩ := part
  obtain ⟨p, hp, hrel⟩ := onPart
  refine ⟨.join type m p, ?_, hR.join hnm hrel⟩
  let F := Node.joinFields type v w
  have hown : F.Own .join := Node.own_joinFields type v w
  have hobject : Json.object F = .object (F ++ Tag.fields {}) := by
    rw [← Tag.onto_object {} hown.cast hown.label]
    rfl
  have hkeys : (written F .join {}).checkKeys ["joinType", "view", "on"] = .ok () :=
    checkKeys_written (by simp [F, Node.joinFields, Fields.keysIn_optionField])
  have hview : (written F .join {}).get? "view" = some v := by
    simp [get?_written, F, Node.joinFields, hrelation]
  have htype : (written F .join {}).named? "joinType" JoinType.ofName = .ok (some type) :=
    joinType_joinFields type v w
  have hon : (written F .join {}).get? "on" = w := by
    rw [get?_written (by decide) (by decide)]
    simpa [F, Node.joinFields] using filter_notNull hnull
  have hhas : (written F .join {}).has "on" = type.hasCondition := by
    rw [QlObject.has, hon, condition]
  have htag : (written F .join {}).tag = .ok {} := tag_written hown.cast hown.label (by rintro ⟨⟩)
  have hcheck : checkJoin (written F .join {}) type type.hasCondition (isType v .select) = .ok () :=
    checkJoin_eq_ok rfl hlateral
  have hjoin : b.joinNode (written F .join {}) s = .ok (.join type m p, t) := by
    simp only [joinNode, hkeys, QlObject.required, hview, hnormal, htype, hhas, joinType_some,
      hcheck, hm, hon, hp, htag, ok_bind]
    rfl
  have hisJoin : isType (.object (F ++ Tag.fields {})) .join = true :=
    isType_written hown.type .join
  change b.join (.object F) s = _
  rw [hobject]
  simp only [join, normalizeRelation_own hown (by decide) (by decide), ok_bind, hisJoin,
    ofJson_written hown.type]
  exact hjoin

/-! ## Lists of tables and joins -/

/-- Common tables are built again, each in the scope after those before it. -/
theorem exists_ctes (hR : Node.Congruence (.ofFirst lax) R) (ht : s.afterCtes ns = .ok t)
    (hparts : ∀ before n after u, ns = before ++ n :: after → s.afterCtes before = .ok u →
      (∃ m, b.part b.resolving (.select .cte) (write n) u = .ok m ∧ R n m) ∧
        isType (write n) .select = true) :
    ∃ ms, b.ctes obj (ns.map write) s = .ok (ms, t) ∧ List.Forall₂ R ns ms := by
  induction ns generalizing s with
  | nil =>
    cases ht
    exact ⟨[], rfl, .nil⟩
  | cons n ns ih =>
    obtain ⟨u, hu, hrest⟩ := of_bind ht
    obtain ⟨⟨⟨m, hm, hnm⟩, hselect⟩, hparts⟩ := of_split_cons hu hparts
    obtain ⟨ms, hms, htables⟩ := ih hrest hparts
    have hdeclare : declareCte s m = .ok u := by rw [← hu, declareCte, declareCte, hR.alias? hnm]
    refine ⟨m :: ms, ?_, .cons hnm htables⟩
    rw [map_cons, ctes, hselect]
    simp [hm, hdeclare, hms]

/-- Joins are built again, each in the scope after those before it. -/
theorem exists_joins (ht : s.afterJoins ns = .ok t)
    (hparts : ∀ before n after u, ns = before ++ n :: after → s.afterJoins before = .ok u →
      ∀ t, u.afterJoin n = .ok t → ∃ m, b.join (write n) u = .ok (m, t) ∧ R n m) :
    ∃ ms, b.joins (ns.map write) s = .ok (ms, t) ∧ List.Forall₂ R ns ms := by
  induction ns generalizing s with
  | nil =>
    cases ht
    exact ⟨[], rfl, .nil⟩
  | cons n ns ih =>
    obtain ⟨u, hu, hrest⟩ := of_bind ht
    obtain ⟨hn, hparts⟩ := of_split_cons hu hparts
    obtain ⟨m, hm, hnm⟩ := hn u hu
    obtain ⟨ms, hms, hjoins⟩ := ih hrest hparts
    refine ⟨m :: ms, ?_, .cons hnm hjoins⟩
    rw [map_cons, joins]
    simp [hm, hms]

/-- The first relation of a select is built again. -/
theorem exists_source {source : Option Node} (ht : s.afterSource source = .ok t)
    (hparts : ∀ n ∈ source, ∀ t, declare s n = .ok t →
      ∃ m, b.relation (write n) s false = .ok (m, t) ∧ R n m) :
    ∃ p, b.source (source.map write) s = .ok (p, t) ∧ Option.Rel R source p := by
  cases source with
  | none =>
    cases ht
    exact ⟨none, rfl, .none⟩
  | some n =>
    obtain ⟨m, hm, hnm⟩ := hparts n rfl t ht
    exact ⟨some m, by simp [Builder.source, hm], .some hnm⟩

/-! ## Selects -/

private theorem nat64?_ofNat (h : rows < 1 <<< 64) : (Number.ofNat rows).nat64? = some rows := by
  have hword : InWord (rows : Int) := by
    unfold InWord
    omega
  rw [Number.ofNat, Number.ofInt, dif_pos hword, Number.nat64?, if_pos (Int.natCast_nonneg rows),
    Int.toNat_natCast]

private theorem limitOf_number (h : number.nat64? = some rows) :
    limitOf obj (.number number) = .ok (.count rows) := by
  simp only [limitOf, h]

private theorem limitOf_all : limitOf obj (.string "all") = .ok .all := by
  have hall : ("all".toLower == "all") = true := by decide +kernel
  unfold limitOf
  dsimp only
  rw [if_pos hall]

private theorem offsetOf_number (h : number.nat64? = some rows) :
    offsetOf obj (.number number) = .ok rows := by
  simp only [offsetOf, h]

/-- A limit is read back. -/
theorem limit_eq_ok {limit : Option Limit}
    (h : ∀ rows, limit = some (.count rows) → rows < 1 <<< 64) :
    (limit.map Limit.toQl).mapM (limitOf obj) = .ok limit := by
  cases limit with
  | none => rfl
  | some limit =>
    have hlimit : limitOf obj limit.toQl = .ok limit := by
      cases limit with
      | count rows => exact limitOf_number (nat64?_ofNat (h rows rfl))
      | all => exact limitOf_all
    rw [Option.map_some, Option.mapM_some, hlimit]
    rfl

/-- An offset is read back. -/
theorem offset_eq_ok {offset : Option Nat} (h : ∀ rows, offset = some rows → rows < 1 <<< 64) :
    (offset.map Json.nat).mapM (offsetOf obj) = .ok offset := by
  cases offset with
  | none => rfl
  | some rows =>
    have hoffset : offsetOf obj (.nat rows) = .ok rows :=
      offsetOf_number (nat64?_ofNat (h rows rfl))
    rw [Option.map_some, Option.mapM_some, hoffset]
    rfl

/-- An object whose fields are the values of a select's clauses, and no others. -/
structure HoldsClauses (obj : QlObject) (v : Clauses Json) : Prop extends ClauseValues obj v where
  /-- It has no other fields. -/
  keys : obj.checkKeys clauseKeys = .ok ()
  /-- Whether equal rows are returned once. -/
  distinct : obj.get? "distinct" = if v.distinct then some (.bool true) else none
  /-- How many rows are returned at most. -/
  limit : obj.get? "limit" = v.limit.map Limit.toQl
  /-- How many rows are left out first. -/
  offset : obj.get? "offset" = v.offset.map .nat

/-- The values of the clauses of a select without those that are null and so count as no value. -/
def withoutNulls (v : Clauses Json) : Clauses Json :=
  { v with
    source := v.source.filter (!·.isNull)
    filter := v.filter.filter (!·.isNull)
    having := v.having.filter (!·.isNull) }

/-- The object that a select is written as holds its clauses, without those that are null. -/
theorem holdsClauses_withoutNulls (v : Clauses Json) (tag : Tag) :
    HoldsClauses (written (Node.selectFields v) .select tag) (withoutNulls v) := by
  have hget : ∀ {key : String} {o : Option Json}, key ≠ "cast" → key ≠ "as" →
      Fields.get? (Node.selectFields v) key = o →
        (written (Node.selectFields v) .select tag).get? key = o.filter (!·.isNull) := by
    rintro key _ hcast halias rfl
    exact get?_written hcast halias
  have hlist : ∀ items : List Json, (if items.isEmpty then none else some (Json.array items)).filter
    (!·.isNull) =
      if items.isEmpty then none else some (Json.array items) := by
    intro items
    cases items <;> rfl
  have hoption : ∀ {α : Type} {o : Option α} {f : α → Json}, (∀ a, (f a).isNull = false) →
      (o.map f).filter (!·.isNull) = o.map f := by
    intro α o f h
    cases o with
    | none => rfl
    | some a => simp [h a]
  constructor
  case toClauseValues =>
    constructor
    case withs =>
      exact (hget (by decide) (by decide) (by simp [Node.selectFields, withoutNulls])).trans
        (hlist _)
    case source => exact hget (by decide) (by decide) (by simp [Node.selectFields])
    case joins =>
      exact (hget (by decide) (by decide) (by simp [Node.selectFields, withoutNulls])).trans
        (hlist _)
    case columns =>
      exact hget (o := some (.array v.columns)) (by decide) (by decide)
        (by simp [Node.selectFields])
    case filter => exact hget (by decide) (by decide) (by simp [Node.selectFields])
    case groupBy =>
      exact (hget (by decide) (by decide) (by simp [Node.selectFields, withoutNulls])).trans
        (hlist _)
    case having => exact hget (by decide) (by decide) (by simp [Node.selectFields])
    case orderBy =>
      exact (hget (by decide) (by decide) (by simp [Node.selectFields, withoutNulls])).trans
        (hlist _)
  case keys =>
    apply checkKeys_written
    simp [Node.selectFields, clauseKeys, Fields.keysIn_optionField, Fields.keysIn_listField,
      Fields.keysIn_flagField]
  case distinct =>
    rw [hget (by decide) (by decide) rfl]
    cases hv : v.distinct <;> simp [Node.selectFields, withoutNulls, hv]
  case limit =>
    exact (hget (by decide) (by decide) (by simp [Node.selectFields, withoutNulls])).trans
      (hoption fun limit => by cases limit <;> rfl)
  case offset =>
    exact (hget (by decide) (by decide) (by simp [Node.selectFields, withoutNulls])).trans
      (hoption fun _ => rfl)

/-- The object that a select is written as holds its clauses. -/
theorem holdsClauses_written (sourceNull : ∀ u ∈ v.source, u.isNull = false)
    (filterNull : ∀ u ∈ v.filter, u.isNull = false)
    (havingNull : ∀ u ∈ v.having, u.isNull = false) :
    HoldsClauses (written (Node.selectFields v) .select tag) v := by
  have hholds := holdsClauses_withoutNulls v tag
  rwa [withoutNulls, filter_notNull sourceNull, filter_notNull filterNull,
    filter_notNull havingNull] at hholds

/-- The clauses of a select are built again, each in the scope after those before it. -/
theorem exists_clauses {s₁ s₂ s₃ : Scope} (holds : HoldsClauses obj v)
    (withs : ∃ ms, b.ctes obj v.withs (s.childSelect (seesSiblings role)) = .ok (ms, s₁) ∧
      List.Forall₂ R c.withs ms)
    (source : ∃ p, b.source v.source s₁ = .ok (p, s₂) ∧ Option.Rel R c.source p)
    (joins : ∃ ms, b.joins v.joins s₂ = .ok (ms, s₃) ∧ List.Forall₂ R c.joins ms)
    (distinct : v.distinct = c.distinct) (nonempty : c.columns ≠ [])
    (columns : ∃ ms, b.expressions v.columns s₃ = .ok ms ∧ List.Forall₂ R c.columns ms)
    (filter : ∃ p, b.optional v.filter s₃ = .ok p ∧ Option.Rel R c.filter p)
    (groupBy : ∃ ms, b.expressions v.groupBy s₃ = .ok ms ∧ List.Forall₂ R c.groupBy ms)
    (having' : ∃ p, b.optional v.having s₃ = .ok p ∧ Option.Rel R c.having p)
    (orderBy : ∃ ms, b.expressions v.orderBy s₃ = .ok ms ∧ List.Forall₂ R c.orderBy ms)
    (limit : v.limit = c.limit ∧ ∀ rows, c.limit = some (.count rows) → rows < 1 <<< 64)
    (offset : v.offset = c.offset ∧ ∀ rows, c.offset = some rows → rows < 1 <<< 64) :
    ∃ d, b.clauses obj s role = .ok d ∧ c.Related R d := by
  obtain ⟨withValues, hwithValues, hwiths⟩ := array?_eq_ok holds.withs
  obtain ⟨joinValues, hjoinValues, hjoins⟩ := array?_eq_ok holds.joins
  obtain ⟨groupValues, hgroupValues, hgroup⟩ := array?_eq_ok holds.groupBy
  obtain ⟨orderValues, horderValues, horder⟩ := array?_eq_ok holds.orderBy
  obtain ⟨flag, hflag, hdistinct⟩ := bool?_eq_ok holds.distinct
  obtain ⟨tables, htables, withs⟩ := withs
  obtain ⟨first, hfirst, source⟩ := source
  obtain ⟨others, hothers, joins⟩ := joins
  obtain ⟨selected, hselected, columns⟩ := columns
  obtain ⟨condition, hcondition, filter⟩ := filter
  obtain ⟨groups, hgroups, groupBy⟩ := groupBy
  obtain ⟨groupCondition, hgroupCondition, having'⟩ := having'
  obtain ⟨orders, horders, orderBy⟩ := orderBy
  have hnonempty : selected.isEmpty = false := by
    rw [isEmpty_eq_false_iff]
    rintro rfl
    cases hc : c.columns with
    | nil => exact nonempty hc
    | cons => rw [hc] at columns; cases columns
  refine ⟨⟨tables, first, others, c.distinct, selected, condition, groups, groupCondition,
    orders, c.limit,
    c.offset⟩, ?_,
      ⟨withs, source, joins, rfl, columns, filter, groupBy, having', orderBy, rfl, rfl⟩⟩
  simp only [Builder.clauses, holds.keys, hwithValues, hwiths, htables, holds.source, hfirst,
    hjoinValues, hjoins, hothers, hflag, hdistinct, array_eq_ok holds.columns, hselected, hnonempty,
    holds.filter, hcondition, holds.having, hgroupCondition, hgroupValues, hgroup, hgroups,
    horderValues, horder, horders, holds.limit, limit.1, limit_eq_ok limit.2, holds.offset,
    offset.1, offset_eq_ok offset.2, distinct, ok_bind]
  rfl

/-- A select takes again the alias and the cast that its role took. -/
theorem fold_select_eq_ok (hrole : n.role? = some role) (hbare : n.tag = {})
    (takes : role.Takes tag) :
    n.fold tag.label tag.cast = .ok (n.retag tag) ∧ checkAlias role (n.retag tag) = .ok () := by
  have hkind : n.isShort = false ∧ n.canAlias = role.canAlias ∧ n.canCast = (role == .subquery) ∧
      (n.retag tag).alias? = tag.label := by
    cases n with
    | select | compound =>
      cases hrole
      exact ⟨rfl, rfl, rfl, rfl⟩
    | _ => cases hrole
  obtain ⟨hshort, hcanAlias, hcanCast, hlabel⟩ := hkind
  constructor
  · refine Node.fold_eq_ok hshort hbare takes.named ?_ ?_
    · rw [hcanAlias]
      exact takes.canAlias
    · rw [hcanCast]
      exact takes.canCast
  · unfold checkAlias
    rw [hlabel]
    cases role with
    | root | operand | subquery => rfl
    | cte | range =>
      obtain ⟨⟨name, -, hsome⟩, -⟩ := takes
      rw [hsome]

/-- A select is finished with its alias and cast as it was before. -/
theorem exists_finish (hR : Node.Congruence (.ofFirst lax) R) {m : Node}
    (hrole : n.role? = some role) (hbare : n.tag = {}) (takes : role.Takes tag)
    (htag : obj.tag = .ok tag) (hnm : Node.RelatedAt R (.select role) n m) :
    ∃ k, (do let tag ← obj.tag; let k ← m.fold tag.label tag.cast; checkAlias role k; pure k) =
      .ok k ∧
      Node.RelatedAt R (.select role) (n.retag tag) k := by
  obtain ⟨hrel, hn, hm⟩ := hnm
  obtain ⟨hfold, hcheck⟩ := fold_select_eq_ok hrole hbare takes
  obtain ⟨k, hk, hnk⟩ := (hR.fold hrel tag.label tag.cast).exists_ok hfold
  have hcheck : checkAlias role k = .ok () := by
    unfold checkAlias at hcheck ⊢
    rwa [hR.alias? hnk] at hcheck
  refine ⟨k, ?_, hnk, by rw [Node.isShort_of_fold hfold, hn], by rw [Node.isShort_of_fold hk, hm]⟩
  simp [htag, hk, hcheck]

/-- A select with clauses is built again if its clauses are. -/
theorem exists_select (hR : Node.Congruence (.ofFirst lax) R) (takes : role.Takes tag)
    (hclauses : ∃ d, b.clauses (written (Node.selectFields v) .select tag) s role = .ok d ∧
      c.Related R d) :
    ∃ m, b.select (written (Node.selectFields v) .select tag) s role = .ok m ∧
      Node.RelatedAt R (.select role) (.select role c tag) m := by
  obtain ⟨d, hd, hcd⟩ := hclauses
  have hown := Node.own_selectFields v
  have hplain : SetOperator.all.filter
      (fun op => (written (Node.selectFields v) .select tag).has op.name) = [] := by
    simp [SetOperator.all, SetOperator.name, QlObject.has, get?_written, Node.selectFields]
  have htag : (written (Node.selectFields v) .select tag).tag = .ok tag :=
    tag_written hown.cast hown.label takes.named
  obtain ⟨k, hk, hrel⟩ := exists_finish hR (n := .select role c {})
    (m := .select role d {}) rfl rfl takes htag
    ⟨hR.select hcd, rfl, rfl⟩
  refine ⟨k, ?_, hrel⟩
  rw [← hk]
  simp only [Builder.select, hplain, hd, ok_bind, pure_eq_ok]

/-- A set operation is built again if its sides are. -/
theorem exists_compound (hR : Node.Congruence (.ofFirst lax) R) {op : SetOperator} {all : Bool}
    {left right : Node} {v w : Json} (takes : role.Takes tag)
    (hleft : ∃ m, b.part b.resolving (.select .operand) v s = .ok m ∧ R left m)
    (hright : ∃ m, b.part b.resolving (.select .operand) w s = .ok m ∧ R right m)
    (leftSelect : isType v .select = true) (rightSelect : isType w .select = true) :
    ∃ m, b.select (written (Node.compoundFields op all v w) .select tag) s role = .ok m ∧
      Node.RelatedAt R (.select role) (.compound role op all left right tag) m := by
  obtain ⟨m₁, hm₁, hleft⟩ := hleft
  obtain ⟨m₂, hm₂, hright⟩ := hright
  let obj := written (Node.compoundFields op all v w) .select tag
  have hown := Node.own_compoundFields op all v w
  have hone : SetOperator.all.filter (fun op => obj.has op.name) = [op] := by
    cases op <;> cases all <;>
      simp [obj, SetOperator.all, SetOperator.name, QlObject.has, get?_written, Node.compoundFields]
  have hmixed : clauseKeys.any obj.has = false := by
    cases op <;>
      simp [obj, SetOperator.name, clauseKeys, QlObject.has, get?_written, Node.compoundFields]
  have hkeys : obj.checkKeys [op.name, "all"] = .ok () :=
    checkKeys_written (by simp [Node.compoundFields, Fields.keysIn_flagField])
  have hsides : obj.get? op.name = some (.array [v, w]) := by
    cases op <;> simp [obj, SetOperator.name, get?_written, Node.compoundFields]
  obtain ⟨flag, hflag, hall⟩ : ∃ flag, obj.bool? "all" = .ok flag ∧ flag.getD false = all :=
    bool?_eq_ok (by
      cases op <;> cases all <;>
        simp [obj, SetOperator.name, get?_written, Node.compoundFields])
  have hcompound : b.compound obj s role op = .ok (.compound role op all m₁ m₂ {}) := by
    simp only [Builder.compound, hmixed, hkeys, array_eq_ok hsides, hflag, hall, side, leftSelect,
      rightSelect, hm₁, hm₂, ok_bind]
    rfl
  have htag : obj.tag = .ok tag := tag_written hown.cast hown.label takes.named
  obtain ⟨k, hk, hrel⟩ := exists_finish hR (n := .compound role op all left right {})
    (m := .compound role op all m₁ m₂ {}) rfl rfl takes htag ⟨hR.compound hleft hright, rfl, rfl⟩
  refine ⟨k, ?_, hrel⟩
  rw [← hk]
  change b.select obj s role = _
  simp only [Builder.select, hone, hcompound, ok_bind, pure_eq_ok]

end Builder

variable {options : ParseOptions} {r : List String}

/-- What stands at the place of a relation is its own normal form, and a lateral one is a select. -/
theorem Built.normalizeRelation (kept : Bool) (h : Built options r place s n)
    (hplace : place.role? = some (.range lateral)) (hvalue : place ≠ .value) :
    Builder.normalizeRelation (n.relationQl kept) = .ok (n.relationQl kept, false) ∧
      (lateral = true → isType (n.relationQl kept) .select = true) ∧
      (n.relationQl kept).isNull = false := by
  cases h with
  | @select _ _ _ _ _ _ role c tag =>
    obtain ⟨hnormal, hselect, -⟩ := normalizeRelation_select (n := .select role c tag) rfl
    exact ⟨hnormal, fun _ => hselect, Node.isNull_relationQl rfl rfl⟩
  | @compound _ _ _ role op all left right tag =>
    obtain ⟨hnormal, hselect, -⟩ :=
      normalizeRelation_select (n := .compound role op all left right tag) rfl
    exact ⟨hnormal, fun _ => hselect, Node.isNull_relationQl rfl rfl⟩
  | view fits =>
    rw [hplace] at fits
    cases fits
    exact ⟨normalizeRelation_view _ _ _, nofun, Node.isNull_relationQl rfl rfl⟩
  | join => cases hplace
  | _ => exact absurd rfl hvalue

/-- A built select is written as a select. -/
theorem Built.isType_ql (kept : Bool) (h : Built options r place s n)
    (hplace : place = .root ∨ place = .cte ∨ place = .side) :
    isType (n.ql kept) .select = true := by
  have hrole : ∃ role, n.role? = some role := by
    cases h with
    | select | compound => exact ⟨_, rfl⟩
    | view fits => obtain rfl | rfl | rfl := hplace <;> cases fits
    | _ => obtain h | h | h := hplace <;> cases h
  obtain ⟨role, hrole⟩ := hrole
  obtain ⟨-, F, tag, hql, hown⟩ := Node.exists_own_of_role? kept hrole
  rw [hql, isType_written hown.type]
  rfl

/-- Only where short expressions are kept is a node one. -/
theorem Built.keepShorts (h : Built options r place s n) (hn : n.isShort = true) :
    options.keepShorts = true := by
  cases h with
  | short kept => exact kept
  | _ => cases hn

/-! ## The round trip -/

namespace Build

open QlObject (written)

/-- A node is built again at its place from the value that it is written as there. -/
def Rebuilt (R : Node → Node → Prop) (kept : Bool) (options : ParseOptions) (r : List String) :
    Place → Scope → Node → Prop
  | .value, s, n => ∃ m, run options r .expression (n.ql kept) s = .ok m ∧ R n m
  | .root, s, n =>
    ∃ m, run options r (.select .root) (n.ql kept) s = .ok m ∧ Node.RelatedAt R (.select .root) n m
  | .cte, s, n =>
    ∃ m, run options r (.select .cte) (n.ql kept) s = .ok m ∧ Node.RelatedAt R (.select .cte) n m
  | .side, s, n =>
    ∃ m, run options r (.select .operand) (n.ql kept) s = .ok m ∧
      Node.RelatedAt R (.select .operand) n m
  | .source, s, n => ∃ m, (runner options r).relationNode (n.relationQl kept) s false = .ok m ∧
      Node.RelatedAt R (.select (.range false)) n m
  | .joined type, s, n =>
    ∃ m, (runner options r).relationNode (n.relationQl kept) s (type == .lateral) = .ok m ∧
      Node.RelatedAt R (.select (.range (type == .lateral))) n m
  | .join, s, n =>
    ∀ t, s.afterJoin n = .ok t → ∃ m, (runner options r).join (n.ql kept) s = .ok (m, t) ∧ R n m

/-- Trees of which each part is built again if those inside it are: no null counts as no value, and
what is written in its short form is built again from that. -/
structure Rewritable (R : Node → Node → Prop) (kept : Bool) (options : ParseOptions)
    (W : Node → Prop) : Prop where
  congruence : Node.Congruence (.ofFirst fun _ => True) R
  refl : ∀ n, R n n
  keeps : options.keepShorts = true → kept = true
  part : ∀ {n m}, W n → n.isShort = false → m ∈ n.inQl → W m
  nulls : ∀ {n}, W n → ∀ k ∈ n.nullable, k.isBareNull = false
  short : ∀ {r s source inner}, Resolvable options r →
    Built options r .value s (.short source inner) →
    W (.short source inner) →
    ∃ m, run options r .expression ((Node.short source inner).ql kept) s = .ok m ∧
      R (.short source inner) m

/-- The object of a select is built as a select. -/
theorem run_select_written (hr : Resolvable options r) (hown : F.Own .select) (tag : Tag)
    (s : Scope) (role : SelectRole) :
    run options r (.select role) (.object (F ++ tag.fields)) s =
      (runner options r).select (written F .select tag) s role := by
  have hvalue : run options r (.select role) (.object (F ++ tag.fields)) s =
      ofJson (.object (F ++ tag.fields)) >>= fun obj => (runner options r).select obj s role :=
    run_eq_value hr _ _ _
  rw [hvalue, ofJson_written hown.type, ok_bind]

/-- A select is built again at the places of its role if its object is. -/
theorem rebuilt_of_select (hr : Resolvable options r)
    (hrole : n.role? = some role) (fits : place.role? = some role)
    (hql : n.ql kept = tag.onto (.object F))
    (hown : F.Own .select)
    (hselect : ∃ m, (runner options r).select (written F .select tag) s role = .ok m ∧
      Node.RelatedAt R (.select role) n m) :
    Rebuilt R kept options r place s n := by
  rw [tag.onto_object hown.cast hown.label] at hql
  have hrelation : n.relationQl kept = .object (F ++ tag.fields) := by
    rw [(normalizeRelation_select hrole).2.2, hql]
  have hobj : ofJson (.object (F ++ tag.fields)) = .ok (written F .select tag) :=
    ofJson_written hown.type
  have hrun := run_select_written hr hown tag s role
  have hrelationNode : ∀ lateral, role = .range lateral →
      (runner options r).relationNode (.object (F ++ tag.fields)) s lateral =
        (runner options r).select (written F .select tag) s role := by
    rintro lateral rfl
    simp only [Builder.relationNode, hobj, ok_bind, type_written]
    exact hrun
  cases place with
  | value =>
    cases fits
    have hvalue : run options r .expression (.object (F ++ tag.fields)) s =
        ofJson (.object (F ++ tag.fields)) >>= fun obj => (runner options r).object obj s :=
      run_eq_value hr _ _ _
    obtain ⟨m, hm, hnm⟩ := hselect
    refine ⟨m, ?_, hnm.1⟩
    rw [hql, hvalue, hobj, ok_bind]
    exact hm
  | root | cte | side =>
    cases fits
    rw [Rebuilt, hql, hrun]
    exact hselect
  | source | joined type =>
    cases fits
    rw [Rebuilt, hrelation, hrelationNode _ rfl]
    exact hselect
  | join => cases fits

end Build

/-- What was built is built again at its place. -/
theorem Built.rebuilt_of {W : Node → Prop} (hW : Build.Rewritable R kept options W)
    (h : Built options r place s n) :
    Build.Resolvable options r → W n → Build.Rebuilt R kept options r place s n := by
  have hR := hW.congruence
  have hnull : ∀ {r place s n k}, Built options r place s k → W n → k ∈ n.nullable →
      (k.ql kept).isNull = false :=
    fun hk hn hmem => Node.isNull_ql (fun hs => hW.keeps (hk.keepShorts hs)) (hW.nulls hn _ hmem)
  -- What holds of a tree that is written goes down with its parts, so it stays in what each case
  -- proves.
  induction h with
  | constant value read named =>
    intro hr _
    rw [Build.Rebuilt, run_eq_value hr]
    exact value_constant hR read named
  | column hasName hasView found named =>
    intro hr _
    rw [Build.Rebuilt, run_eq_value hr]
    exact value_column hR hasName hasView found named
  | @bound r s name value n tag hasName unreserved binding fresh run inner named ih =>
    intro hr _
    rw [Build.Rebuilt, Node.ql, Node.toQl, run_eq_value hr]
    have hvalue : (runner options r).boundValue name s = .ok (some n) :=
      boundValue_eq_some binding fresh run
    exact value_parameter hR hasName unreserved ⟨_, hvalue, .some (hW.refl n)⟩ named
  | @free r s name tag hasName unreserved binding allowed named =>
    intro hr _
    rw [Build.Rebuilt, Node.ql, Node.toQl, run_eq_value hr]
    have hvalue : (runner options r).boundValue name s = .ok none :=
      boundValue_eq_none binding allowed
    exact value_parameter hR hasName unreserved ⟨_, hvalue, .none⟩ named
  | call known parts arity aggregate named ih =>
    intro hr hn
    rw [Build.Rebuilt, Node.ql, Node.toQl, Node.toQlAll_eq, run_eq_value hr]
    exact value_call hR known (exists_expressions fun m hm => ih m hm hr (hW.part hn rfl hm))
      arity aggregate named
  | geometry parts arity named ih =>
    intro hr hn
    rw [Build.Rebuilt, Node.ql, Node.toQl, Node.toQlAll_eq, run_eq_value hr]
    exact value_geometry hR (exists_expressions fun m hm => ih m hm hr (hW.part hn rfl hm))
      arity named
  | operation parts arity qualified flat named ih =>
    intro hr hn
    rw [Build.Rebuilt, Node.ql, Node.toQl, Node.toQlAll_eq, run_eq_value hr]
    exact value_operation hR (exists_expressions fun m hm => ih m hm hr (hW.part hn rfl hm))
      arity qualified flat named
  | array parts named ih =>
    intro hr hn
    rw [Build.Rebuilt, Node.ql, Node.toQl, Node.toQlAll_eq, run_eq_value hr]
    exact value_array hR (exists_expressions fun m hm => ih m hm hr (hW.part hn rfl hm)) named
  | list nonempty parts ih =>
    intro hr hn
    rw [Build.Rebuilt, Node.ql, Node.toQl, Node.toQlAll_eq, run_eq_value hr]
    exact value_list hR nonempty
      (exists_expressions fun m hm => ih m hm hr (hW.part hn rfl hm))
  | @case r s branches otherwise tag nonempty conditions results other named ihConditions ihResults
      ihOther =>
    intro hr hn
    have hbranch : ∀ b ∈ branches, W b.1 ∧ W b.2 := by
      intro b hb
      constructor
      · exact hW.part hn rfl
          (mem_append_left _ (mem_flatMap.mpr ⟨b, hb, mem_cons_self⟩))
      · exact hW.part hn rfl (mem_append_left _ (mem_flatMap.mpr ⟨b, hb, by simp⟩))
    rw [Build.Rebuilt, Node.ql, Node.toQl, Node.toQlBranches_eq, Node.toQlOption_eq,
      run_eq_value hr]
    refine value_case hR nonempty
      (exists_branches (fun b hb => ihConditions b hb hr (hbranch b hb).1)
        fun b hb => ihResults b hb hr (hbranch b hb).2)
      (exists_optional fun m hm => ihOther m hm hr
        (hW.part hn rfl (mem_append_right _ (Option.mem_toList.mpr hm)))) ?_ named
    intro v hv
    obtain ⟨m, hm, rfl⟩ := Option.map_eq_some_iff.mp hv
    exact hnull (other m hm) hn (Option.mem_toList.mpr hm)
  | sort part ih =>
    intro hr hn
    rw [Build.Rebuilt, Node.ql, Node.toQl, run_eq_value hr]
    exact value_sort hR (ih hr (hW.part hn rfl mem_cons_self)) (hnull part hn mem_cons_self)
  | short kept part unfolds =>
    intro hr hn
    exact hW.short hr (.short kept part unfolds) hn
  | @select r place s s₁ s₂ s₃ role c tag fits takes afterWiths afterSource afterJoins withs
      source joins
      nonempty values limit offset ihWiths ihSource ihJoins ihValues =>
    intro hr hn
    have hmem : ∀ n, n ∈ c.withs ∨ n ∈ c.source ∨ n ∈ c.joins ∨ n ∈ c.values → W n := by
      intro n hmem
      apply hW.part hn rfl
      simp only [Node.inQl, Node.children, Clauses.parts_eq, mem_append, Option.mem_toList]
      tauto
    have hvalue : ∀ n ∈ c.values, ∃ m, (runner options r).expression (n.ql kept) s₃ = .ok m ∧
      R n m :=
      fun n hn => ihValues n hn hr (hmem n (.inr (.inr (.inr hn))))
    have hrelation : ∀ n ∈ c.source, ∀ t, Builder.declare s₁ n = .ok t →
        ∃ m, (runner options r).relation (n.relationQl kept) s₁ false = .ok (m, t) ∧ R n m := by
      intro n hn t ht
      obtain ⟨hnormal, -⟩ := (source n hn).normalizeRelation kept rfl (by rintro ⟨⟩)
      exact exists_relation hR hnormal (ihSource n hn hr (hmem n (.inr (.inl hn)))) ht
    have htable : ∀ before n after u, c.withs = before ++ n :: after →
        (s.childSelect (seesSiblings role)).afterCtes before = .ok u →
        (∃ m, run options r (.select .cte) (n.ql kept) u = .ok m ∧ R n m) ∧
          isType (n.ql kept) .select = true := by
      intro before n after u hsplit hu
      obtain ⟨m, hm, hnm⟩ := ihWiths before n after u hsplit hu hr
        (hmem n (.inl (by simp [hsplit])))
      exact ⟨⟨m, hm, hnm.1⟩, (withs before n after u hsplit hu).isType_ql kept (.inr (.inl rfl))⟩
    have hjoin : ∀ before n after u, c.joins = before ++ n :: after → s₂.afterJoins before = .ok u →
        ∀ t, u.afterJoin n = .ok t → ∃ m,
          (runner options r).join (n.ql kept) u = .ok (m, t) ∧ R n m :=
      fun before n after u hsplit hu =>
        ihJoins before n after u hsplit hu hr (hmem n (.inr (.inr (.inl (by simp [hsplit])))))
    have hholds : Builder.HoldsClauses
        (QlObject.written (Node.selectFields (Node.clausesQl kept c)) .select tag)
            (Node.clausesQl kept c) := by
      refine holdsClauses_written ?_ ?_ ?_
      · intro v hv
        obtain ⟨m, hm, rfl⟩ := Option.map_eq_some_iff.mp hv
        exact ((source m hm).normalizeRelation kept rfl (by rintro ⟨⟩)).2.2
      · intro v hv
        obtain ⟨m, hm, rfl⟩ := Option.map_eq_some_iff.mp hv
        exact hnull (values m (by simp [Clauses.values, hm])) hn (by simp [Node.nullable, hm])
      · intro v hv
        obtain ⟨m, hm, rfl⟩ := Option.map_eq_some_iff.mp hv
        exact hnull (values m (by simp [Clauses.values, hm])) hn (by simp [Node.nullable, hm])
    simp only [Clauses.values, mem_append, Option.mem_toList] at hvalue
    refine rebuilt_of_select hr rfl fits (Node.ql_select role c tag) (Node.own_selectFields _)
      (exists_select hR takes (exists_clauses hholds
        (exists_ctes hR afterWiths htable) (exists_source afterSource hrelation)
        (exists_joins afterJoins hjoin) rfl nonempty (exists_expressions ?_)
        (exists_optional ?_) (exists_expressions ?_) (exists_optional ?_)
        (exists_expressions ?_) ⟨rfl, limit⟩ ⟨rfl, offset⟩))
    all_goals
      intro n hn
      exact hvalue n (by simp_all)
  | @compound r place s role op all left right tag fits takes leftSide rightSide ihLeft ihRight =>
    intro hr hn
    obtain ⟨m₁, hm₁, hleft⟩ := ihLeft hr (hW.part hn rfl (by simp [Node.inQl, Node.children]))
    obtain ⟨m₂, hm₂, hright⟩ := ihRight hr (hW.part hn rfl (by simp [Node.inQl, Node.children]))
    exact rebuilt_of_select hr rfl fits (Node.ql_compound role op all left right tag)
      (Node.own_compoundFields _ _ _ _)
      (exists_compound hR takes ⟨m₁, hm₁, hleft.1⟩ ⟨m₂, hm₂, hright.1⟩
        (leftSide.isType_ql kept (.inr (.inr rfl))) (rightSide.isType_ql kept (.inr (.inr rfl))))
  | @view r place s name label fits hasName named =>
    intro _ _
    cases place with
    | source => exact ⟨_, relationNode_view hasName named, hW.refl _, rfl, rfl⟩
    | joined type =>
      have hlateral : (type == .lateral) = false := by simpa [Place.role?] using fits
      rw [Build.Rebuilt, hlateral]
      exact ⟨_, relationNode_view hasName named, hW.refl _, rfl, rfl⟩
    | _ => cases fits
  | @join r s t type relation on part declared condition onPart ihPart ihOn =>
    intro hr hn t' ht'
    have ht : t' = t := Except.ok.inj (ht'.symm.trans declared)
    subst ht
    obtain ⟨hnormal, hlateral, hrelation⟩ := part.normalizeRelation kept rfl (by rintro ⟨⟩)
    rw [Node.ql_join]
    refine exists_join hR hnormal (fun h => hlateral (by rw [h]; rfl)) hrelation
      (exists_relation hR hnormal (ihPart hr (hW.part hn rfl mem_cons_self)) declared)
      (by rw [Option.isSome_map, condition])
      (exists_optional fun m hm => ihOn m hm hr
        (hW.part hn rfl (mem_cons_of_mem _ (Option.mem_toList.mpr hm)))) ?_
    intro v hv
    obtain ⟨m, hm, rfl⟩ := Option.map_eq_some_iff.mp hv
    exact hnull (onPart m hm) hn (Option.mem_toList.mpr hm)

/-- Where short expressions are expanded, trees are built again unless a null stands where it counts
as no value. -/
theorem Build.rewritable_eq (hshorts : options.keepShorts = false) :
    Rewritable Eq false options Node.NullsKept where
  congruence := Node.congruence_eq _
  refl _ := rfl
  keeps h := by
    rw [hshorts] at h
    cases h
  part h _ hm := h.of_mem hm
  nulls h := h.here
  short _ hbuilt _ := by
    have hkept := hbuilt.keepShorts rfl
    rw [hshorts] at hkept
    cases hkept

/-- What was built is built again at its place, exactly, unless a null stands where it counts as no
value. -/
theorem Built.rebuilt (hshorts : options.keepShorts = false) (h : Built options [] place s n)
    (hnulls : n.NullsKept) :
    Build.Rebuilt Eq false options [] place s n :=
  h.rebuilt_of (rewritable_eq hshorts) (resolvable_nil options) hnulls

namespace Build

/-- A run builds what is built again exactly. -/
theorem run_of_builds {position : Position} {v : Json}
    (h : ∃ m, run options [] position v s = .ok m ∧ Node.RelatedAt Eq position n m) :
    run options [] position v s = .ok n := by
  obtain ⟨m, hm, hnm⟩ := h
  rw [hm, show n = m from hnm.related]

/-- What was built is built again from the query value that it is written as, in the same scope and
with the same choices: its names as they were resolved, its roles, joins, aliases, casts and the
values of its parameters. Only a null that counts as no value where it stands is not. -/
theorem toQl_roundTrip {options : ParseOptions} (hshorts : options.keepShorts = false) :
    (∀ q s n, expression options q s = .ok n → n.NullsKept →
      expression options (n.toQl { keepParamRefs := true }) s = .ok n) ∧
    (∀ q n, QlObject.isType q .select = true → root options q = .ok n → n.NullsKept →
      root options (n.toQl { keepParamRefs := true }) = .ok n) := by
  constructor
  · intro q s n h hnulls
    have hbuilt := run_built .expression .value rfl h
    exact run_of_builds (hbuilt.rebuilt hshorts hnulls)
  · intro q n hselect h hnulls
    rw [root, if_pos hselect] at h
    have hbuilt := run_built (.select .root) .root rfl h
    have hrole : ∃ role, n.role? = some role := by
      cases hbuilt with
      | select | compound => exact ⟨_, rfl⟩
      | view fits => cases fits
    obtain ⟨role, hrole⟩ := hrole
    obtain ⟨-, F, tag, hql, hown⟩ := Node.exists_own_of_role? false hrole
    have htype : QlObject.isType (n.toQl { keepParamRefs := true }) .select = true := by
      change QlObject.isType (n.ql false) .select = true
      rw [hql, QlObject.isType_written hown.type]
      rfl
    rw [root, if_pos htype]
    exact run_of_builds (hbuilt.rebuilt hshorts hnulls)

/-- A parameter bound to null is a condition like any other, and nested conditions stay
flattened. -/
theorem toQl_roundTrip_parameter :
    ∃ n, root { parameters := some [("p", .null)] }
        (.object [("type", .string "select"), ("from", .string "v"),
          ("columns", .array [.object [("type", .string "and"), ("operands", .array
            [.object [("type", .string "and"), ("operands", .array [.bool true, .bool false])],
              .bool true])]]),
          ("where", .object [("type", .string "parameter"), ("value", .string "p")])]) = .ok n ∧
      n.NullsKept ∧
      root { parameters := some [("p", .null)] } (n.toQl { keepParamRefs := true }) = .ok n := by
  let bool (b : Bool) : Node := .constant (.bool b) {}
  let source : Node := .view "v" false none
  let column : Node := .operation .and [bool true, bool false, bool true] none {}
  let filter : Node := .parameter "p" (some (.constant .null {})) {}
  let n : Node :=
    .select .root { source := some source, columns := [column], filter := some filter } {}
  have hcolumn : column.NullsKept := by
    refine .intro (by rintro _ ⟨⟩) ?_
    intro m hm
    have hbool : ∃ b, m = bool b := by
      simp only [Node.inQl, Node.children, column, List.mem_cons, List.not_mem_nil, or_false] at hm
      obtain rfl | rfl | rfl := hm
      · exact ⟨true, rfl⟩
      · exact ⟨false, rfl⟩
      · exact ⟨true, rfl⟩
    obtain ⟨b, rfl⟩ := hbool
    exact .intro (by rintro _ ⟨⟩) (by rintro _ ⟨⟩)
  have hnulls : n.NullsKept := by
    refine .intro ?_ ?_
    · intro k hk
      obtain rfl := List.mem_singleton.mp hk
      rfl
    · intro m hm
      have hm : m ∈ [source, column, filter] := hm
      simp only [List.mem_cons, List.not_mem_nil, or_false] at hm
      obtain rfl | rfl | rfl := hm
      · exact .intro (by rintro _ ⟨⟩) (by rintro _ ⟨⟩)
      · exact hcolumn
      · exact .intro (by rintro _ ⟨⟩) (by rintro _ ⟨⟩)
  have hshorts : ({ parameters := some [("p", .null)] } : ParseOptions).keepShorts = false := rfl
  refine ⟨n, ?_⟩
  refine (fun hbuild : root _ _ = .ok n =>
    ⟨hbuild, hnulls, (toQl_roundTrip hshorts).2 _ n ?_ hbuild hnulls⟩) ?_
  · cbv
  · cbv

end Build

end AnalyticQuery
