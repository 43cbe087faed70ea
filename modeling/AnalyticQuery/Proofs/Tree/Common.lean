import AnalyticQuery.Proofs.Tree.Erasure
import AnalyticQuery.Proofs.Tree.Masking

/-!
# What both engines render alike

The engines share one walk over a tree and differ at single constructs: shapes, comparisons under a
qualifier, some operators, functions and casts, and the order of the last clauses of a select. A
tree without these constructs has the same SQL for both, or fails for both in the same way.
-/

namespace AnalyticQuery

open List

/-! ## Single constructs -/

/-- Whether both engines name a cast type and cast to it alike. -/
def CastType.isShared : CastType → Bool
  | boolean | integer | bigint | real | date | timestamp | time | json => true
  | _ => false

/-- Whether an engine may read values of a cast type from their literals. -/
def CastType.isReadFromText : CastType → Bool
  | date | timestamp => true
  | _ => false

namespace Engine

/-- The functions that an engine renders in its own way. -/
def ownFunctions : List String :=
  ["json_extract", "array_length", "date_part", "string_agg", "geo_intersects", "geo_within",
    "geo_distance",
    "geo_area"]

/-- The operators that an engine renders in its own way. -/
def ownOperators : List Operator :=
  [.matches, .matchesAnyCase, .notMatches, .ilike, .notIlike, .overlaps, .contains, .containedIn]

/-- Every other function is called by its name. -/
theorem function?_eq_none {name : String} (h : name ∉ ownFunctions) (engine : Engine)
    (args : List String) (distinct : Bool) : engine.function? name args distinct = .ok none := by
  unfold function?
  split
  case h_13 => rfl
  all_goals exact absurd (by decide) h

/-- Every other operator is written between, before or around its operands. -/
theorem operator?_eq_none {op : Operator} (h : op ∉ ownOperators) (engine : Engine)
    (operands : List String) :
    engine.operator? op operands = none := by
  unfold operator?
  split
  case h_9 => rfl
  all_goals exact absurd (by decide) h

private theorem call_pg_eq_trino {f : FunctionSpec} (h : f.name ∉ ownFunctions) (args : List String)
    (distinct : Bool) :
    pg.call f args distinct = trino.call f args distinct := by
  simp only [call, function?_eq_none h]

private theorem operation_pg_eq_trino {op : Operator} (h : op ∉ ownOperators)
    (operands : List String) :
    pg.operation op operands = trino.operation op operands := by
  simp only [operation, operator?_eq_none h]

/-- One of the last two clauses alone has no order to differ in. -/
theorem limitOffset_pg_eq_trino {limit : Option Limit} {offset : Option Nat}
    (h : limit = none ∨ offset = none) :
    pg.limitOffset limit offset = trino.limitOffset limit offset := by
  obtain rfl | rfl := h
  · simp [limitOffset]
  · simp [limitOffset]

/-- A cast is written out by both engines, unless the literal that is cast is read in place of
it. -/
theorem cast_pg_eq_trino {type : CastType} {literal : Option Primitive}
    (htype : type.isShared = true)
    (hliteral : type.isReadFromText = true → literal.bind Primitive.string? = none) (sql : String) :
    pg.cast sql type literal = trino.cast sql type literal := by
  cases type with
  | date | timestamp =>
    simp only [cast, hliteral rfl]
    rfl
  | boolean | integer | bigint | real | time | json => rfl
  | double | numeric | text | timestamptz | interval | jsonb | geometry => cases htype

end Engine

/-! ## Trees -/

namespace Node

/-- Whether both engines cast an expression alike: to a type that they share, and no text where one
of them would read it. -/
def sharesCast (n : Node) : Bool :=
  n.effectiveCast?.all fun type =>
    type.isShared && (!type.isReadFromText || (n.literal?.bind Primitive.string?).isNone)

/-- Whether both engines render an expression alike from the SQL of its parts. -/
def isCommon (n : Node) : Bool :=
  n.sharesCast &&
    match n with
    | geometry .. => false
    | operation op _ qualifier _ => qualifier.isNone && !Engine.ownOperators.contains op
    | call f _ _ _ => !Engine.ownFunctions.contains f.name
    | select _ c _ => c.limit.isNone || c.offset.isNone
    | _ => true

variable {n : Node} {options : SqlOptions}

private theorem withCast_pg_eq_trino (options : SqlOptions) (h : n.sharesCast = true)
    (sql : String) :
    Target.withCast ⟨.pg, options⟩ n.effectiveCast? n.literal? sql =
      Target.withCast ⟨.trino, options⟩ n.effectiveCast? n.literal? sql := by
  unfold sharesCast at h
  cases hcast : n.effectiveCast? with
  | none => rfl
  | some type =>
    rw [hcast, Option.all_some, Bool.and_eq_true] at h
    refine Engine.cast_pg_eq_trino h.1 (fun hread => ?_) sql
    simpa [hread] using h.2

/-- Whether two targets render an expression alike from the SQL of its parts. -/
structure SharedBy (n : Node) (t t' : Target) : Prop where
  options : t'.options = t.options
  cast : ∀ sql, t'.withCast n.effectiveCast? n.literal? sql =
    t.withCast n.effectiveCast? n.literal? sql
  own : match n with
    | select _ c _ => t'.engine.limitOffset c.limit c.offset = t.engine.limitOffset c.limit c.offset
    | call f _ distinct _ => ∀ args, t'.engine.call f args distinct = t.engine.call f args distinct
    | geometry type _ _ => ∀ args, t'.engine.geometry type args = t.engine.geometry type args
    | operation op _ qualifier _ =>
      ∀ args, t'.engine.comparison op qualifier args = t.engine.comparison op qualifier args
    | _ => True

variable {t t' : Target} {f : Node → Node}

theorem SharedBy.refl : n.SharedBy t t := ⟨rfl, fun _ => rfl, by cases n <;> simp⟩

private theorem sharedBy_of_isCommon (h : n.isCommon = true) :
    n.SharedBy ⟨.trino, options⟩ ⟨.pg, options⟩ := by
  obtain ⟨hcast, hkind⟩ := Bool.and_eq_true_iff.mp h
  refine ⟨rfl, withCast_pg_eq_trino options hcast, ?_⟩
  cases n with
  | select role c tag =>
    refine Engine.limitOffset_pg_eq_trino ?_
    simpa only [Bool.or_eq_true, Option.isNone_iff_eq_none] using hkind
  | call f args distinct tag =>
    exact fun args => Engine.call_pg_eq_trino (by simpa using hkind) args distinct
  | geometry => cases hkind
  | operation op operands qualifier tag =>
    simp only [Bool.and_eq_true, Option.isNone_iff_eq_none] at hkind
    obtain ⟨rfl, hop⟩ := hkind
    exact Engine.operation_pg_eq_trino (by simpa using hop)
  | _ => trivial

private theorem mapM_map_eq {α : Type} {h : α → α} {g g' : α → Result String} {xs : List α}
    (hg : ∀ x ∈ xs, g' (h x) = g x) : (xs.map h).mapM g' = xs.mapM g := by
  induction xs with
  | nil => rfl
  | cons x xs ih =>
    obtain ⟨hx, hxs⟩ := forall_mem_cons.mp hg
    rw [map_cons, mapM_cons, mapM_cons, hx, ih hxs]

/-- Parts with the same SQL and the same aliases, in an expression that is rendered alike from its
parts, have the same SQL around them. -/
theorem sql_mapParts (hn : n.SharedBy t t')
    (hf : ∀ m ∈ n.children, (f m).sql t' = m.sql t ∧ (f m).alias? = m.alias?) :
    (n.mapParts f).sql t' = n.sql t := by
  have hcast : ∀ cast, n.effectiveCast? = cast → n.literal? = none → ∀ sql,
      t'.withCast cast none sql = t.withCast cast none sql := by
    rintro _ rfl hliteral sql
    simpa only [hliteral] using hn.cast sql
  have hlist : ∀ ns : List Node, (∀ m ∈ ns, m ∈ n.children) →
      sqlAll t' (ns.map f) = sqlAll t ns := by
    intro ns hns
    rw [sqlAll_eq, sqlAll_eq]
    exact mapM_map_eq fun m hm => (hf m (hns m hm)).1
  have hoption : ∀ k : Option Node, (∀ m ∈ k, m ∈ n.children) →
      sqlOption t' (k.map f) = sqlOption t k := by
    intro k hk
    cases k with
    | none => rfl
    | some m => rw [Option.map_some, sqlOption, sqlOption, (hf m (hk m rfl)).1]
  cases n with
  | select role c tag =>
    have hmem := mem_children_select role c tag
    have hwiths : sqlCtes t' (c.withs.map f) = sqlCtes t c.withs := by
      rw [sqlCtes_eq, sqlCtes_eq]
      refine mapM_map_eq fun m hm => ?_
      have hm := hf m (hmem m (by simp [hm]))
      rw [cteSql, cteSql, hm.1, hm.2]
    have hcolumns : sqlAliasedAll t' (c.columns.map f) = sqlAliasedAll t c.columns := by
      rw [sqlAliasedAll_eq, sqlAliasedAll_eq]
      refine mapM_map_eq fun m hm => ?_
      have hm := hf m (hmem m (by simp [hm]))
      rw [sqlAliased, sqlAliased, hm.1, hm.2]
    have hsource : sqlAliasedOption t' (c.source.map f) = sqlAliasedOption t c.source := by
      cases hc : c.source with
      | none => rfl
      | some m =>
        have hm := hf m (hmem m (.inr (.inl hc)))
        rw [Option.map_some, sqlAliasedOption, sqlAliasedOption, hm.1, hm.2]
    have hjoins := hlist c.joins fun m hm => hmem m (by simp [hm])
    have hfilter := hoption c.filter fun m hm => hmem m (by simp [Option.mem_def.mp hm])
    have hgroupBy := hlist c.groupBy fun m hm => hmem m (by simp [hm])
    have hhaving := hoption c.having fun m hm => hmem m (by simp [Option.mem_def.mp hm])
    have horderBy := hlist c.orderBy fun m hm => hmem m (by simp [hm])
    have hlast := hn.own
    obtain ⟨withs, source, joins, distinct, columns, filter, groupBy, having, orderBy, limit,
      offset⟩ := c
    simp only at hsource hwiths hjoins hcolumns hfilter hgroupBy hhaving horderBy hlast
    simp only [mapParts, mapClauses, sql, Clauses.sql, hsource, hwiths, hjoins, hcolumns, hfilter,
      hgroupBy, hhaving, horderBy, hlast, hcast tag.cast rfl rfl]
  | compound role op all left right tag =>
    have hleft := hf left (by simp [children])
    have hright := hf right (by simp [children])
    simp only [mapParts, sql, hleft.1, hright.1, hcast tag.cast rfl rfl]
  | join type relation on =>
    have hrelation := hf relation (by simp [children])
    have hon := hoption on fun m hm => by simp [children, Option.mem_def.mp hm]
    simp only [mapParts, sql, hrelation.1, hrelation.2, hon]
  | view => rfl
  | column c tag => exact hn.cast _
  | constant value tag => exact hn.cast _
  | parameter name value tag =>
    have hvalue := hoption value fun m hm => by simp [children, Option.mem_def.mp hm]
    simp only [mapParts, sql, hn.options, hvalue, hcast tag.cast rfl rfl]
  | call g args distinct tag =>
    have hown : ∀ args, t'.engine.call g args distinct = t.engine.call g args distinct := hn.own
    simp only [mapParts, sql, hn.options, hlist args fun m hm => hm, hown,
      hcast (tag.cast <|> g.defaultCast) rfl rfl]
  | geometry type args tag =>
    have hown : ∀ args, t'.engine.geometry type args = t.engine.geometry type args := hn.own
    simp only [mapParts, sql, hlist args fun m hm => hm, hown,
      hcast (tag.cast <|> type.defaultCast) rfl rfl]
  | operation op operands qualifier tag =>
    have hown : ∀ args, t'.engine.comparison op qualifier args =
        t.engine.comparison op qualifier args := hn.own
    simp only [mapParts, sql, hlist operands fun m hm => hm, hown, hcast tag.cast rfl rfl]
  | case branches otherwise tag =>
    have hbranches : sqlBranches t' (branches.map fun b => (f b.1, f b.2)) =
        sqlBranches t branches := by
      have hpart : ∀ b ∈ branches, ∀ m ∈ [b.1, b.2], m ∈ (case branches otherwise tag).children :=
          fun b hb m hm =>
        mem_append_left _ (mem_flatMap.mpr ⟨b, hb, hm⟩)
      rw [sqlBranches_eq, sqlBranches_eq]
      congr 1
      refine mapM_map_eq fun b hb => ?_
      simp only [branchSql, (hf _ (hpart b hb b.1 (by simp))).1,
        (hf _ (hpart b hb b.2 (by simp))).1]
    have hotherwise := hoption otherwise fun m hm => by simp [children, Option.mem_def.mp hm]
    simp only [mapParts, sql, hbranches, hotherwise, hcast tag.cast rfl rfl]
  | array items tag =>
    simp only [mapParts, sql, Engine.array, hlist items fun m hm => hm, hcast tag.cast rfl rfl]
  | list items => simp only [mapParts, sql, hlist items fun m hm => hm]
  | sort value direction nulls => simp only [mapParts, sql, (hf value (by simp [children])).1]
  | short e inner => simp only [mapParts, sql, (hf inner (by simp [children])).1]

/-- A tree of expressions that both engines render alike has the same SQL for both, or the same
failure. -/
theorem sql_pg_eq_trino (n : Node) (h : ∀ m, n.Encloses m → m.isCommon = true) :
    n.sql ⟨.pg, options⟩ = n.sql ⟨.trino, options⟩ := by
  have hparts : (n.mapParts id).sql ⟨.pg, options⟩ = n.sql ⟨.trino, options⟩ := by
    refine sql_mapParts (sharedBy_of_isCommon (h n .refl)) fun m hm => ⟨?_, rfl⟩
    have := sizeOf_lt_of_mem_children hm
    exact sql_pg_eq_trino m fun k hk => h k (.of_child hm hk)
  rwa [mapParts_id] at hparts
termination_by sizeOf n

end Node

namespace Query

/-- Both engines agree on the common fragment. A query has the same SQL for both, or the same
failure, if nothing in it is a shape, a comparison under a qualifier, or one of the operators and
functions that an engine renders in its own way, if its casts are to types that the engines share
and no text is cast to a date or a timestamp, and if no select has both a limit and an offset. -/
theorem sql_of_common {query : Query} (h : ∀ n ∈ query.root.preorder, n.isCommon = true)
    (options : SqlOptions) :
    query.sql "pg" options = query.sql "trino" options := by
  have hroot : query.root.sql ⟨.pg, options⟩ = query.root.sql ⟨.trino, options⟩ :=
    query.root.sql_pg_eq_trino fun n hn => h n (Node.mem_preorder_iff.mpr hn)
  have hpg : EngineRegistry.standard.get? "pg" = some .pg := by decide +kernel
  have htrino : EngineRegistry.standard.get? "trino" = some .trino := by decide +kernel
  simp only [sql, hpg, htrino, Node.sqlAliased, hroot]

/-- A kept short, a cast that a function has of its own, a number cast to a date and a limit make no
difference. -/
theorem sql_of_common_count :
    ∃ query,
      read (.object [("type", .string "select"), ("from", .string "v"), ("columns", .array
          [.object [("type", .string "short"), ("value", .string "@function(count)")],
            .object [("type", .string "primitive"), ("value", .nat 5), ("cast", .string "date")]]),
          ("limit", .nat 3)]) { keepShorts := true } = .ok query ∧
      (query.root.preorder.all (·.isCommon), (query.sql "pg" {}).toOption) =
        (true, some "SELECT CAST(count(*) AS integer), CAST(5 AS date) FROM \"v\" LIMIT 3") ∧
      query.sql "pg" {} = query.sql "trino" {} := by
  refine Result.exists_ok_of_map (by decide +kernel) fun query _ hquery => ?_
  exact sql_of_common (all_eq_true.mp (congrArg Prod.fst hquery)) {}

end Query

end AnalyticQuery
