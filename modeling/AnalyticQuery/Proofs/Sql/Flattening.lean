import AnalyticQuery.Proofs.Sql.Clauses
import AnalyticQuery.Proofs.Sql.Tables

/-!
# Relations of a select as one chain of joins

After `FROM` stand relations, each with its own joins; the rows of the select are the product of the
rows of each of them. In the query value they are one chain of joins from left to right. Both have
the same rows, unless a relation after the first has a right join: that one keeps rows for which
there are none before it.
-/

namespace AnalyticQuery.Sql

open List QlObject Result

/-- What relations hold and where conditions are true, for SQL and for query values. Lowering
changes neither. -/
structure Reading (x : Extracted) (τ : Type) where
  /-- The name of a relation. -/
  name : Relation → String
  /-- The tuples of a relation. -/
  tuples : Relation → Multiset τ
  /-- Whether a condition is true of a row. -/
  holds : Expr → Row τ → Bool
  nameOf : Json → String
  tuplesOf : Json → Multiset τ
  holdsOf : Json → Row τ → Bool
  relation : ∀ {r v}, Relation.lower x r = .ok (v, false) → nameOf v = name r ∧
    tuplesOf v = tuples r
  condition : ∀ {e v}, Expr.lower x e = .ok v → holdsOf v = holds e

namespace Reading

variable {x : Extracted} {τ : Type}

/-- What query values hold, read of SQL through their values. -/
def ofValues (x : Extracted) (nameOf : Json → String) (tuplesOf : Json → Multiset τ)
    (holdsOf : Json → Row τ → Bool) :
    Reading x τ where
  name r := (r.lower x).toOption.elim "" fun v => nameOf v.1
  tuples r := (r.lower x).toOption.elim 0 fun v => tuplesOf v.1
  holds e := (e.lower x).toOption.elim (fun _ => false) holdsOf
  nameOf := nameOf
  tuplesOf := tuplesOf
  holdsOf := holdsOf
  relation h := by simp [h, Except.toOption]
  condition h := by simp [h, Except.toOption]

/-! ## Rows in SQL -/

/-- The rows of a relation. -/
def table (M : Reading x τ) (r : Relation) : Table τ := .single (M.name r) (M.tuples r)

/-- A join with its relation. -/
def link (M : Reading x τ) (j : Join Expr Relation) : Link τ where
  type := j.kind.type?.getD .cross
  holds := j.on?.elim (fun _ => true) M.holds
  table := M.table j.relation

/-- A relation with its joins. -/
def chain (M : Reading x τ) (r : JoinedRelation Expr Relation) : Chain τ :=
  ⟨M.table r.relation, r.joins.map M.link⟩

/-- The rows of the relations after `FROM`: the product of the rows of each with its joins. -/
def source (M : Reading x τ) : List (JoinedRelation Expr Relation) → Table τ
  | [] => ⟨[], {[]}, by simp⟩
  | first :: rest => (rest.map M.chain).foldl (fun t c => t.product c.table) (M.chain first).table

/-- The rows of the relations after `FROM`, taken as one chain of joins from left to right. -/
def flattened (M : Reading x τ) (source : List (JoinedRelation Expr Relation)) : Table τ :=
  (source.head?.map (·.relation)).elim ⟨[], {[]}, by simp⟩ fun first =>
    Chain.run (M.table first) ((joinsOf source).map M.link)

/-! ## Rows of query values -/

/-- The rows of the value of a relation. -/
def tableOf (M : Reading x τ) (v : Json) : Table τ := .single (M.nameOf v) (M.tuplesOf v)

/-- The value of a join, read as a select reads it: a field with null is absent, and an inner join
without a condition is a cross join. -/
def linkOf (M : Reading x τ) (v : Json) : Link τ :=
  match ofJson v with
  | .ok join =>
    { type := Builder.joinType ((join.named? "joinType" JoinType.ofName).toOption.getD none)
        (join.has "on") false
      holds := (join.get? "on").elim (fun _ => true) M.holdsOf
      table := M.tableOf ((join.get? "view").getD .null) }
  | .error _ => .cross (M.tableOf v)

/-- The values of the joins of a select. -/
def joinValues (select : QlObject) : List Json :=
  ((select.array? "joins").toOption.getD none).getD []

/-- The rows of the relations of a select's value: its joins taken from left to right. -/
def sourceOf (M : Reading x τ) (select : QlObject) : Table τ :=
  match select.get? "from" with
  | none => ⟨[], {[]}, by simp⟩
  | some first => Chain.run (M.tableOf first) ((joinValues select).map M.linkOf)

/-- A join in a tree is what the rows of its value are read from: it has the type that is read, and
its relation and its condition are built from the values that are read. -/
def BuildsJoin (M : Reading x τ) (b : Builder) (v : Json) (n : Node) : Prop :=
  ∃ join view relation on s t, ofJson v = .ok join ∧ join.get? "view" = some view ∧
    b.relation view s false = .ok (relation, t) ∧
    Option.Rel (fun w m => b.expression w t = .ok m) (join.get? "on") on ∧
    n = .join (M.linkOf v).type relation on

/-- The relations of a select in a tree are what the rows of its value are read from, in order. -/
structure Builds (M : Reading x τ) (b : Builder) (select : QlObject) (k : Clauses Node) : Prop where
  source : Option.Rel (fun v n => ∃ s t, b.relation v s false = .ok (n, t))
    (select.get? "from") k.source
  joins : Forall₂ (M.BuildsJoin b) (joinValues select) k.joins

private theorem flattened_cons (M : Reading x τ) (first : JoinedRelation Expr Relation)
    (rest : List (JoinedRelation Expr Relation)) :
    M.flattened (first :: rest) =
      Chain.run (M.chain first).table ((rest.map M.chain).flatMap Chain.appended) := by
  have hrest : (rest.flatMap fun r => ⟨r.relation, .cross, .none, false⟩ :: r.joins).map M.link =
      (rest.map M.chain).flatMap Chain.appended := by
    rw [map_flatMap, flatMap_map]
    rfl
  rw [flattened, head?_cons, Option.map_some, Option.elim_some, joinsOf, map_append,
    Chain.run_append, hrest]
  rfl

private theorem tableOf_eq (M : Reading x τ) {r : Relation} {v : Json}
    (h : r.lower x = .ok (v, false)) :
    M.tableOf v = M.table r := by
  obtain ⟨hname, htuples⟩ := M.relation h
  rw [tableOf, table, hname, htuples]

end Reading

/-! ## Joins that can be lowered -/

/-- A relation that can be lowered and does not depend on those before it. -/
def Relation.Plain (x : Extracted) (r : Relation) : Prop := ∃ v, r.lower x = .ok (v, false)

/-- A cross join, or an inner, left or right join under a condition that is not `NULL`. -/
inductive Join.Plain (x : Extracted) : Join Expr Relation → Prop
  | cross {r constraint global} (relation : r.Plain x) : Plain x ⟨r, .cross, constraint, global⟩
  | on {r kind type e v global} (relation : r.Plain x) (known : JoinKind.type? kind = some type)
      (condition : e.lower x = .ok v) (present : e.isNull = false) :
        Plain x ⟨r, kind, .on e, global⟩

/-- A relation with such joins. -/
structure JoinedRelation.Plain (x : Extracted) (r : JoinedRelation Expr Relation) : Prop where
  relation : r.relation.Plain x
  joins : ∀ j ∈ r.joins, j.Plain x

namespace Reading

variable {x : Extracted} {τ : Type} (M : Reading x τ)

variable {j : Join Expr Relation} {v : Json} {b : Builder} {s t : Scope} {n : Node}

/-- A plain join has the type and the condition of its value, and neither of them is left out. -/
theorem exists_of_lowered (hj : j.Plain x) (h : j.Lowered x v) :
    ∃ type view on, v = joinValue (JoinType.name type) view on ∧ view.isNull = false ∧
      type ≠ .lateral ∧
      on.filter (!·.isNull) = on ∧
        (∀ isSubquery, Builder.joinType (some type) on.isSome isSubquery = type) ∧
      M.link j = ⟨type, on.elim (fun _ => true) M.holdsOf, M.tableOf view⟩ := by
  obtain ⟨type, hview, hon, htype⟩ := h
  next view lateral on =>
  refine ⟨type, view, on, rfl, isNull_relation hview, ?_⟩
  cases hj with
  | cross relation =>
    obtain ⟨w, hw⟩ := relation
    cases hw.symm.trans hview
    obtain htype | ⟨-, rfl⟩ := htype
    · cases htype
    rw [Join.on?, if_pos rfl, lowerExpr?] at hon
    cases hon
    refine ⟨by simp, rfl, fun _ => rfl, ?_⟩
    rw [M.tableOf_eq hview]
    rfl
  | @on r kind _ e w global relation known condition present =>
    obtain ⟨u, hu⟩ := relation
    cases hu.symm.trans hview
    have hcross : kind ≠ .cross := by
      rintro rfl
      cases known
    obtain htype | ⟨hkind, -⟩ := htype
    · have hwritten : Join.on? ⟨r, kind, .on e, global⟩ = some e := if_neg hcross
      obtain ⟨w, hw, rfl⟩ := exists_of_lowerExpr? hon hwritten
      have hnull : w.isNull = false := (Expr.isNull_lower hw).trans present
      refine ⟨?_, by simp [hnull], ?_, ?_⟩
      · rintro rfl
        cases kind <;> cases htype
      · cases type <;> exact fun _ => rfl
      · rw [link, hwritten, M.tableOf_eq hview]
        dsimp only
        rw [show kind.type? = some type from htype, Option.elim_some, Option.elim_some,
          M.condition hw]
        rfl
    · exact absurd hkind hcross

/-- The value of a plain join is read as the join. -/
theorem linkOf_eq (hj : j.Plain x) (h : j.Lowered x v) : M.linkOf v = M.link j := by
  obtain ⟨type, view, on, rfl, hview, -, hpresent, htype, hlink⟩ := M.exists_of_lowered hj h
  obtain ⟨obj, hobj, -, hname, hview, hon⟩ := get?_join type on hview
  have hobj : ofJson (joinValue type.name view on) = .ok obj := hobj
  rw [hpresent] at hon
  simp [linkOf, hobj, hname, hview, hon, has, Except.toOption, htype, hlink]

/-- A plain join is built from the values that its rows are read from. -/
theorem buildsJoin (hj : j.Plain x) (h : j.Lowered x v) (hn : b.join v s = .ok (n, t)) :
    M.BuildsJoin b v n := by
  have hread := M.linkOf_eq hj h
  obtain ⟨type, view, on, rfl, hview, hplain, hpresent, htype, hlink⟩ := M.exists_of_lowered hj h
  obtain ⟨obj, hobj, hjoin, hname, hview, hon⟩ := get?_join type on hview
  obtain ⟨joined, written, isSubquery, relation, r, hjoined, hwritten, rfl, hrelation, hr⟩ :=
    Builder.join_parts hobj hjoin hn
  rw [hview] at hjoined
  rw [hname] at hwritten
  cases hjoined
  cases hwritten
  have hbuilt : Builder.joinType (some type) (obj.has "on") isSubquery = type := by
    rw [has, hon, hpresent, htype]
  rw [hbuilt, beq_false_of_ne hplain] at hrelation
  refine ⟨obj, view, relation, r, s, t, hobj, hview, hrelation, Builder.optional_parts hr, ?_⟩
  rw [hbuilt, hread, hlink]

private theorem exists_lowerJoins {js : List (Join Expr Relation)} (h : ∀ j ∈ js, j.Plain x) :
    ∃ vs, lowerJoins x js = .ok vs := by
  induction js with
  | nil => exact ⟨[], by rw [lowerJoins]⟩
  | cons j js ih =>
    obtain ⟨vs, hvs⟩ := ih fun k hk => h k (mem_cons_of_mem _ hk)
    cases h j mem_cons_self with
    | cross relation =>
      obtain ⟨v, hv⟩ := relation
      exact ⟨_, by rw [lowerJoins, hv, ok_bind, hvs]; rfl⟩
    | @on r kind type e v global relation known condition present =>
      obtain ⟨view, hview⟩ := relation
      cases kind with
      | inner | left | right =>
        exact ⟨_, by rw [lowerJoins, hview, ok_bind, lowerConstraint, condition, hvs]; rfl⟩
      | _ => cases known

private theorem exists_lowerOthers {rest : List (JoinedRelation Expr Relation)}
    (h : ∀ r ∈ rest, r.Plain x) :
    ∃ vs, lowerOthers x rest = .ok vs := by
  induction rest with
  | nil => exact ⟨[], by rw [lowerOthers]⟩
  | cons r rest ih =>
    obtain ⟨vs, hvs⟩ := ih fun k hk => h k (mem_cons_of_mem _ hk)
    obtain ⟨⟨v, hv⟩, hjoins⟩ := h r mem_cons_self
    obtain ⟨js, hjs⟩ := exists_lowerJoins hjoins
    exact ⟨_, by rw [lowerOthers, hv, ok_bind, hjs, hvs]; rfl⟩

private theorem exists_lowerSource {source : List (JoinedRelation Expr Relation)}
    (h : ∀ r ∈ source, r.Plain x) :
    ∃ F, lowerSource x source = .ok F := by
  cases source with
  | nil => exact ⟨[], by rw [lowerSource]⟩
  | cons first rest =>
    obtain ⟨⟨v, hv⟩, hjoins⟩ := h first mem_cons_self
    obtain ⟨js, hjs⟩ := exists_lowerJoins hjoins
    obtain ⟨vs, hvs⟩ := exists_lowerOthers fun r hr => h r (mem_cons_of_mem _ hr)
    exact ⟨_, by rw [lowerSource, hv, ok_bind, hjs, hvs]; rfl⟩

/-- The joins of plain relations are plain. -/
theorem plain_joinsOf {source : List (JoinedRelation Expr Relation)} (h : ∀ r ∈ source, r.Plain x) :
    ∀ j ∈ joinsOf source, j.Plain x := by
  cases source with
  | nil => exact forall_mem_nil _
  | cons first rest =>
    rw [forall_mem_cons] at h
    refine forall_mem_append.mpr ⟨h.1.joins, forall_mem_flatMap.mpr fun r hr => ?_⟩
    exact forall_mem_cons.mpr ⟨.cross (h.2 r hr).relation, (h.2 r hr).joins⟩

/-- The rows of a select with the values of plain relations, and of what it is built. -/
theorem rows_of_lowerSource {source : List (JoinedRelation Expr Relation)} {F : Fields}
    {select : QlObject} (h : ∀ r ∈ source, r.Plain x) (hF : lowerSource x source = .ok F)
    (hselect : ∀ key ∈ ["from", "joins"], select.get? key = get? ⟨F, .select⟩ key) :
    M.sourceOf select = M.flattened source ∧
      ∀ {b : Builder} {s : Scope} {role : SelectRole} {k : Clauses Node},
        b.clauses select s role = .ok k →
        M.Builds b select k := by
  obtain ⟨view, vs, rfl, hview, hvs⟩ := exists_of_lowerSource hF
  have hplain := plain_joinsOf h
  have hlist : select.get? "joins" = if vs.isEmpty then none else some (.array vs) := by
    rw [hselect _ (by simp)]
    cases view <;> cases vs <;> rfl
  have hvalues : joinValues select = vs := by
    obtain ⟨found, hfound, hitems⟩ := array?_eq_ok hlist
    rw [joinValues, hfound]
    exact hitems
  have hjoined := Forall₂.flip (R := flip _) ((forall₂_and_left _ _).mpr ⟨hplain, hvs⟩)
  constructor
  · have hlinks : vs.map M.linkOf = (joinsOf source).map M.link := by
      rw [← forall₂_eq_eq_eq, forall₂_map_left_iff, forall₂_map_right_iff]
      exact hjoined.imp fun v j hj => M.linkOf_eq hj.1 hj.2
    rw [sourceOf, hvalues, hlinks, hselect _ (by simp), flattened]
    generalize source.head?.map (·.relation) = first at hview
    cases hview with
    | none => cases vs <;> rfl
    | @some r w hv =>
      have hfrom : get? ⟨field? "from" (some w) ++ listField? "joins" vs, .select⟩ "from" =
          some w := by
        simp [get?, field?, Option.filter_some, isNull_relation hv]
      rw [hfrom]
      dsimp only
      rw [M.tableOf_eq hv]
      rfl
  · intro b s role k hk
    obtain ⟨s₁, s₂, s₃, hsteps⟩ := Builder.clauses_shape hk
    constructor
    · obtain ⟨hv, ho, -⟩ | ⟨w, n, hv, ho, hn⟩ := Builder.source_shape hsteps.source
      · rw [hv, ho]
        exact .none
      · rw [hv, ho]
        exact .some ⟨_, _, hn⟩
    · obtain ⟨values, hfound, hbuilt⟩ := hsteps.joins
      rw [getD_of_array? hlist hfound] at hbuilt
      rw [hvalues]
      have hmem : ∀ v ∈ vs, ∃ j : Join Expr Relation, j.Plain x ∧ j.Lowered x v := by
        intro v hv
        obtain ⟨j, -, hj⟩ := exists_of_forall₂ hjoined hv
        exact ⟨j, hj⟩
      refine ((forall₂_and_left _ _).mpr ⟨hmem, Builder.joins_parts hbuilt⟩).imp ?_
      rintro v n ⟨⟨j, hj, hv⟩, s, t, hn⟩
      exact M.buildsJoin hj hv hn

end Reading

/-- The relations after `FROM`, each with inner, left, right or cross joins under conditions on its
own relations that are not `NULL`, are lowered to a chain of joins. A select with this chain has the
same rows, whatever the relations hold, if right joins stand in the first relation alone, and the
joins of its tree are those of the chain. -/
theorem lowerSource_rows {x : Extracted} {τ : Type} (M : Reading x τ)
    {source : List (JoinedRelation Expr Relation)}
    (hplain : ∀ r ∈ source, r.Plain x) (hnames : (source.flatMap fun r => (M.chain r).names).Nodup)
    (hconditions : ∀ r ∈ source, ∀ j ∈ r.joins, ∀ e ∈ j.on?,
      Table.DependsOn (M.chain r).names (M.holds e))
    (hright : ∀ r ∈ source.tail, ∀ j ∈ r.joins, j.kind ≠ .right) :
    ∃ F, lowerSource x source = .ok F ∧ ∀ select : QlObject,
      (∀ key ∈ ["from", "joins"], select.get? key = get? ⟨F, .select⟩ key) →
      M.sourceOf select = M.source source ∧
      ∀ {b : Builder} {s : Scope} {role : SelectRole} {k : Clauses Node},
        b.clauses select s role = .ok k →
        M.Builds b select k := by
  obtain ⟨F, hF⟩ := Reading.exists_lowerSource hplain
  refine ⟨F, hF, fun select hselect => ?_⟩
  obtain ⟨hrows, hbuilds⟩ := M.rows_of_lowerSource hplain hF hselect
  refine ⟨hrows.trans ?_, hbuilds⟩
  cases source with
  | nil => rfl
  | cons first rest =>
    rw [Reading.flattened_cons]
    refine Chain.run_flatMap_appended ?_ ?_ ?_
    · intro c hc l hl
      obtain ⟨r, hr, rfl⟩ := mem_map.mp hc
      obtain ⟨j, hj, rfl⟩ := mem_map.mp hl
      have hkind := hright r hr j hj
      rw [Reading.link]
      cases hj' : j.kind <;> simp_all [JoinKind.type?]
    · intro c hc l hl
      obtain ⟨r, hr, rfl⟩ := mem_map.mp hc
      obtain ⟨j, hj, rfl⟩ := mem_map.mp hl
      rw [Reading.link]
      cases hon : j.on? with
      | none => exact fun _ _ _ => rfl
      | some e => exact hconditions r (mem_cons_of_mem _ hr) j hj e hon
    · rw [Chain.table, Chain.names_run, flatMap_map]
      exact hnames

/-- Two relations under a cross join, and two under a left join that finds no tuple for one of
them. -/
theorem lowerSource_rows_left :
    let x : Extracted := ⟨[], [], []⟩
    let table (name : String) : Relation := .table [⟨name, none⟩] none false none []
    let condition : Expr := .binary (.column [⟨"c", none⟩, ⟨"x", none⟩]) "="
      (.column [⟨"d", none⟩, ⟨"x", none⟩])
    let source : List (JoinedRelation Expr Relation) :=
      [⟨table "a", [⟨table "b", .cross, .none, false⟩]⟩,
        ⟨table "c", [⟨table "d", .left, .on condition, false⟩]⟩]
    let M : Reading x Nat := .ofValues x (fun v => v.string?.getD "")
      (fun v => if v.string? = some "d" then {2, 2} else {1, 2}) fun _ row =>
        row.lookup "c" == row.lookup "d"
    (M.source source).rows.card = 12 ∧ ∃ F, lowerSource x source = .ok F ∧
      M.sourceOf ⟨F, .select⟩ = M.source source := by
  intro x table condition source M
  have htable : ∀ name, (table name).Plain x := fun name => ⟨.string name, rfl⟩
  have hcondition : (condition.lower x).toOption.map (fun _ => ()) = some () := by decide +kernel
  obtain ⟨v, hv, -⟩ := Result.exists_ok_of_map hcondition fun _ _ _ => trivial
  have hplain : ∀ r ∈ source, r.Plain x := by
    intro r hr
    simp only [source, mem_cons, not_mem_nil, or_false] at hr
    obtain rfl | rfl := hr
    · exact ⟨htable "a",
        fun j hj => by obtain rfl := mem_singleton.mp hj; exact .cross (htable "b")⟩
    · exact ⟨htable "c",
        fun j hj => by obtain rfl := mem_singleton.mp hj; exact .on (htable "d") rfl hv rfl⟩
  have hconditions : ∀ r ∈ source, ∀ j ∈ r.joins, ∀ e ∈ j.on?,
      Table.DependsOn (M.chain r).names (M.holds e) := by
    intro r hr j hj e he
    simp only [source, mem_cons, not_mem_nil, or_false] at hr
    obtain rfl | rfl := hr
    · obtain rfl := mem_singleton.mp hj
      cases he
    · obtain rfl := mem_singleton.mp hj
      cases he
      rw [← M.condition hv]
      exact Table.dependsOn_lookup (by decide +kernel) (by decide +kernel) fun c d => c == d
  have hright : ∀ r ∈ source.tail, ∀ j ∈ r.joins, j.kind ≠ .right := by
    intro r hr j hj
    obtain rfl := mem_singleton.mp hr
    obtain rfl := mem_singleton.mp hj
    rintro ⟨⟩
  obtain ⟨F, hF, hrows⟩ := lowerSource_rows M hplain (by decide +kernel) hconditions hright
  exact ⟨by decide +kernel, F, hF, (hrows ⟨F, .select⟩ fun _ _ => rfl).1⟩

/-- A right join after other relations keeps a row once, not once for each row of the others. -/
theorem right_join_after_others :
    let x : Extracted := ⟨[], [], []⟩
    let table (name : String) : Relation := .table [⟨name, none⟩] none false none []
    let condition : Expr := .binary (.column [⟨"b", none⟩, ⟨"x", none⟩]) "="
      (.column [⟨"c", none⟩, ⟨"x", none⟩])
    let source : List (JoinedRelation Expr Relation) :=
      [⟨table "a", []⟩, ⟨table "b", [⟨table "c", .right, .on condition, false⟩]⟩]
    let M : Reading x Nat := .ofValues x (fun v => v.string?.getD "")
      (fun v => if v.string? = some "a" then {1, 2} else if v.string? = some "b" then 0 else {3})
          fun _ row =>
        row.lookup "b" == row.lookup "c"
    (∀ r ∈ source, r.Plain x) ∧ (source.flatMap fun r => (M.chain r).names).Nodup ∧
      (∀ r ∈ source, ∀ j ∈ r.joins, ∀ e ∈ j.on?, Table.DependsOn (M.chain r).names (M.holds e)) ∧
      ∃ F, lowerSource x source = .ok F ∧
        (M.sourceOf ⟨F, .select⟩).rows = {[("a", none), ("b", none), ("c", some 3)]} ∧
        (M.source source).rows =
          {[("a", some 1), ("b", none), ("c", some 3)],
              [("a", some 2), ("b", none), ("c", some 3)]} := by
  intro x table condition source M
  have htable : ∀ name, (table name).Plain x := fun name => ⟨.string name, rfl⟩
  have hcondition : (condition.lower x).toOption.map (fun _ => ()) = some () := by decide +kernel
  obtain ⟨v, hv, -⟩ := Result.exists_ok_of_map hcondition fun _ _ _ => trivial
  refine ⟨?_, by decide +kernel, ?_, ?_⟩
  · intro r hr
    simp only [source, mem_cons, not_mem_nil, or_false] at hr
    obtain rfl | rfl := hr
    · exact ⟨htable "a", by rintro _ ⟨⟩⟩
    · exact ⟨htable "b",
        fun j hj => by obtain rfl := mem_singleton.mp hj; exact .on (htable "c") rfl hv rfl⟩
  · intro r hr j hj e he
    simp only [source, mem_cons, not_mem_nil, or_false] at hr
    obtain rfl | rfl := hr
    · cases hj
    · obtain rfl := mem_singleton.mp hj
      cases he
      rw [← M.condition hv]
      exact Table.dependsOn_lookup (by decide +kernel) (by decide +kernel) fun b c => b == c
  · exact Result.exists_ok_of_map (by decide +kernel) fun F _ _ => by decide +kernel

end AnalyticQuery.Sql
