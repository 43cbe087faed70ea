import AnalyticQuery.Proofs.Tree.Common
import AnalyticQuery.Proofs.Tree.Points
import AnalyticQuery.Proofs.Tree.RoundTrip

/-!
# Constants in place of parameters

A tree whose parameters are bound to scalars is written as a query value without references: each
bound parameter is written as its constant, with the alias and the cast of the parameter. What is
read back is the tree with the constants in place of the parameters. It has the SQL of the tree,
except that Trino renders some casts of a text from the text, and does not look for it in a
parameter.
-/

namespace AnalyticQuery

open Build List Node Result

variable {options : ParseOptions} {r : List String} {s : Scope} {t : Target}

namespace Node

/-! ## Settled trees -/

/-- The constant that a parameter is bound to, with the alias and the cast of the parameter. -/
def settle : Node → Node
  | parameter _ (some (constant p _)) tag => constant p tag
  | n => n

/-- A tree with constants in place of the parameters that are bound to them. -/
def settled (n : Node) : Node := n.bottomUp settle

/-- Whether a node, where it is a bound parameter, is bound to a constant that is not null. -/
def BindsScalar (n : Node) : Prop :=
  ∀ name m tag, n = parameter name (some m) tag → ∃ p, m = constant p {} ∧ p ≠ .null

/-- Whether Trino renders what a parameter is bound to from its text: a text under one of four
casts. -/
def castsText : Node → Bool
  | parameter _ (some (constant (.string _) _)) ⟨_, some cast⟩ =>
    cast == .date || cast == .timestamp || cast == .timestamptz || cast == .interval
  | _ => false

variable {n m : Node}

private theorem settled_eq (n : Node) :
    n.settled = (n.mapParts settled).settle := bottomUp_eq settle n

/-- Whether a node is a parameter. -/
def isParameter : Node → Bool
  | parameter .. => true
  | _ => false

/-- What is no parameter is settled in its parts. -/
theorem settled_of_parts (h : n.isParameter = false) : n.settled = n.mapParts settled := by
  rw [settled_eq]
  cases n with
  | parameter => cases h
  | _ => rfl

@[simp] theorem settled_constant (p : Primitive) (tag : Tag) :
    (constant p tag).settled = constant p tag :=
  settled_of_parts rfl

@[simp] theorem settled_free (name : String) (tag : Tag) :
    (parameter name none tag).settled = parameter name none tag :=
  settled_eq _

@[simp] theorem settled_bound (name : String) (p : Primitive) (tag : Tag) :
    (parameter name (some (constant p {})) tag).settled = constant p tag := by
  rw [settled_eq, mapParts, Option.map_some, settled_constant, settle]

/-- A parameter stays a parameter or becomes a constant, with its alias and cast. -/
theorem exists_settled_parameter (name : String) (value : Option Node) (tag : Tag) :
    (∃ value', (parameter name value tag).settled = parameter name value' tag) ∨
      ∃ p, (parameter name value tag).settled = constant p tag := by
  rw [settled_eq, mapParts]
  cases value with
  | none => exact .inl ⟨none, rfl⟩
  | some n =>
    rw [Option.map_some]
    cases n.settled with
    | constant p => exact .inr ⟨p, rfl⟩
    | _ => exact .inl ⟨_, rfl⟩

private theorem tag_settled (n : Node) : n.settled.tag = n.tag := by
  cases n with
  | parameter name value tag =>
    obtain ⟨value', h⟩ | ⟨p, h⟩ := exists_settled_parameter name value tag <;> rw [h] <;> rfl
  | short e inner =>
    rw [settled_of_parts rfl]
    exact tag_settled inner
  | _ =>
    rw [settled_of_parts rfl]
    rfl

private theorem alias?_settled (n : Node) : n.settled.alias? = n.alias? := by
  rw [alias?, alias?, tag_settled]

/-- A settled node declares the same relation. -/
theorem declaration_settled (n : Node) : Builder.declaration n.settled = Builder.declaration n := by
  cases n with
  | parameter name value tag =>
    obtain ⟨value', h⟩ | ⟨p, h⟩ := exists_settled_parameter name value tag <;> rw [h] <;> rfl
  | short e inner =>
    rw [settled_of_parts rfl]
    simp only [mapParts, Builder.declaration, alias?, tag, tag_settled]
  | _ =>
    rw [settled_of_parts rfl]
    rfl

/-- A settled node is taken up by the same logical operators. -/
theorem absorbed?_settled (op : Operator) (n : Node) :
    Builder.absorbed? op n.settled = (Builder.absorbed? op n).map (List.map settled) := by
  cases n with
  | parameter name value tag =>
    obtain ⟨value', h⟩ | ⟨p, h⟩ := exists_settled_parameter name value tag <;> rw [h] <;> rfl
  | operation inner operands qualifier tag =>
    rw [settled_of_parts rfl]
    simp only [mapParts, Builder.absorbed?]
    split <;> rfl
  | _ =>
    rw [settled_of_parts rfl]
    rfl

end Node

/-! ## Settled trees are built -/

namespace Scope

private theorem afterCtes_settled (s : Scope) (ns : List Node) :
    s.afterCtes (ns.map settled) = s.afterCtes ns := by
  have hdeclare : ∀ s n, Builder.declareCte s (settled n) = Builder.declareCte s n := fun s n => by
    rw [Builder.declareCte, Builder.declareCte, n.alias?_settled]
  rw [afterCtes, afterCtes, foldlM_map]
  simp only [hdeclare]

private theorem declare_settled (s : Scope) (n : Node) :
    Builder.declare s n.settled = Builder.declare s n := by
  rw [Builder.declare, Builder.declare, n.declaration_settled]

private theorem afterSource_settled (s : Scope) (n : Option Node) :
    s.afterSource (n.map settled) = s.afterSource n := by
  cases n with
  | none => rfl
  | some n => exact s.declare_settled n

private theorem afterJoin_settled (s : Scope) (n : Node) :
    s.afterJoin n.settled = s.afterJoin n := by
  cases n with
  | parameter name value tag =>
    obtain ⟨value', h⟩ | ⟨p, h⟩ := exists_settled_parameter name value tag <;> rw [h] <;> rfl
  | join type relation on =>
    rw [settled_of_parts rfl]
    exact s.declare_settled relation
  | _ =>
    rw [settled_of_parts rfl]
    rfl

private theorem afterJoins_settled (s : Scope) (ns : List Node) :
    s.afterJoins (ns.map settled) = s.afterJoins ns := by
  rw [afterJoins, afterJoins, foldlM_map]
  simp only [afterJoin_settled]

end Scope

/-- Whether a value is a scalar that is not null. -/
def Json.isScalar : Json → Bool
  | .bool _ | .number _ | .string _ => true
  | _ => false

/-- Choices that bind parameters to scalars that are not null. -/
def ParseOptions.BindsScalars (options : ParseOptions) : Prop :=
  ∀ name v, options.parameter? name = some v → v.isScalar = true

/-- A scalar is built to its constant. -/
theorem Build.eq_constant_of_run {v : Json} {n : Node} (hv : v.isScalar = true)
    (h : run options r .expression v s = .ok n) :
    ∃ p, n = .constant p {} ∧ Primitive.ofJson v = .ok p ∧ p ≠ .null := by
  rw [run_eq_value (resolvable_of_run h)] at h
  cases v with
  | bool b => cases h; exact ⟨.bool b, rfl, rfl, nofun⟩
  | string text => cases h; exact ⟨.string text, rfl, rfl, nofun⟩
  | number n =>
    cases h
    refine ⟨.ofNumber n, rfl, rfl, ?_⟩
    unfold Primitive.ofNumber
    split <;> nofun
  | null | array | object => cases hv

namespace Built

variable {place : Place} {n : Node}

/-- Bound parameters in a tree are bound to constants. -/
theorem bindsScalar (hscalars : options.BindsScalars) (h : Built options r place s n) :
    n.BindsScalar := by
  rintro name m tag rfl
  cases h with
  | bound _ _ binding _ run =>
    obtain ⟨p, hp, -, hnull⟩ := eq_constant_of_run (hscalars _ _ binding) run
    exact ⟨p, hp, hnull⟩

/-- A tree stays well formed with constants in place of its parameters. -/
theorem settled (hscalars : options.BindsScalars) (hshorts : options.keepShorts = false)
    (h : Built options r place s n) : Built options r place s n.settled := by
  have hsplit : ∀ {ns : List Node} {before n after}, ns.map Node.settled = before ++ n :: after →
      ∃ before' n' after', ns = before' ++ n' :: after' ∧ before = before'.map Node.settled ∧
          n = n'.settled := by
    intro ns before n after heq
    obtain ⟨before', rest, rfl, rfl, hrest⟩ := map_eq_append_iff.mp heq
    obtain ⟨n', after', rfl, rfl, -⟩ := map_eq_cons_iff.mp hrest
    exact ⟨before', n', after', rfl, rfl, rfl⟩
  have hall : ∀ {ns : List Node} {P : Node → Prop}, (∀ n ∈ ns, P n.settled) →
      ∀ n ∈ ns.map Node.settled, P n := by
    intro ns P h n hn
    obtain ⟨m, hm, rfl⟩ := mem_map.mp hn
    exact h m hm
  have hoption : ∀ {o : Option Node} {P : Node → Prop}, (∀ n ∈ o, P n.settled) →
      ∀ n ∈ o.map Node.settled, P n := by
    intro o P h n hn
    obtain ⟨m, hm, rfl⟩ := Option.map_eq_some_iff.mp hn
    exact h m hm
  induction h with
  | constant value read named => exact settled_constant _ _ ▸ .constant value read named
  | column hasName hasView found named =>
    rw [settled_of_parts rfl]
    exact .column hasName hasView found named
  | @bound r s name value n tag hasName unreserved binding fresh run inner named ih =>
    obtain ⟨p, rfl, hread, -⟩ := Build.eq_constant_of_run (hscalars _ _ binding) run
    rw [settled_bound]
    exact .constant value hread named
  | free hasName unreserved binding allowed named =>
    rw [settled_free]
    exact .free hasName unreserved binding allowed named
  | call known parts arity aggregate named ih =>
    rw [settled_of_parts rfl]
    exact .call known (hall ih) (by rwa [length_map]) aggregate named
  | geometry parts arity named ih =>
    rw [settled_of_parts rfl]
    exact .geometry (hall ih) (by rwa [length_map]) named
  | operation parts arity qualified flat named ih =>
    rw [settled_of_parts rfl]
    refine .operation (hall ih) (by rwa [length_map]) qualified
      (fun hop => hall fun n hn => ?_) named
    rw [absorbed?_settled, flat hop n hn]
    rfl
  | case nonempty conditions results other named ihConditions ihResults ihOther =>
    rw [settled_of_parts rfl]
    refine .case (by simpa using nonempty) ?_ ?_ (hoption ihOther) named
    · intro b hb
      obtain ⟨d, hd, rfl⟩ := mem_map.mp hb
      exact ihConditions d hd
    · intro b hb
      obtain ⟨d, hd, rfl⟩ := mem_map.mp hb
      exact ihResults d hd
  | array parts named ih =>
    rw [settled_of_parts rfl]
    exact .array (hall ih) named
  | list nonempty parts ih =>
    rw [settled_of_parts rfl]
    exact .list (by simpa using nonempty) (hall ih)
  | sort part ih =>
    rw [settled_of_parts rfl]
    exact .sort ih
  | short kept =>
    rw [hshorts] at kept
    cases kept
  | @select r place s s₁ s₂ s₃ role c tag fits takes afterWiths afterSource afterJoins withs source
      joins nonempty
      values limit offset ihWiths ihSource ihJoins ihValues =>
    rw [settled_of_parts rfl]
    rw [← Scope.afterCtes_settled] at afterWiths
    rw [← Scope.afterSource_settled] at afterSource
    rw [← Scope.afterJoins_settled] at afterJoins
    refine .select fits takes afterWiths afterSource afterJoins ?_ (hoption ihSource) ?_
      (by simpa [Node.mapClauses] using nonempty) ?_ limit offset
    · intro before n after t heq ht
      obtain ⟨before, n, after, hc, rfl, rfl⟩ := hsplit heq
      rw [Scope.afterCtes_settled] at ht
      exact ihWiths before n after t hc ht
    · intro before n after t heq ht
      obtain ⟨before, n, after, hc, rfl, rfl⟩ := hsplit heq
      rw [Scope.afterJoins_settled] at ht
      exact ihJoins before n after t hc ht
    · have hvalues : (Node.mapClauses Node.settled c).values = c.values.map Node.settled := by
        simp [Node.mapClauses, Clauses.values, Option.toList_map]
      rw [hvalues]
      exact hall ihValues
  | compound fits takes leftSide rightSide ihLeft ihRight =>
    rw [settled_of_parts rfl]
    exact .compound fits takes ihLeft ihRight
  | view fits hasName named =>
    rw [settled_of_parts rfl]
    exact .view fits hasName named
  | join part declared condition onPart ihPart ihOn =>
    rw [settled_of_parts rfl]
    exact .join ihPart (by rwa [Scope.declare_settled]) (by rwa [Option.isSome_map]) (hoption ihOn)

end Built

/-! ## What is written of settled trees -/

namespace Node

variable {n : Node} {o o' : QlOptions} {f : Node → Node}

/-- A change of parts that are written alike is written alike. -/
theorem toQl_mapParts (hn : n.isParameter = false) (hshort : n.isShort = false)
    (hf : ∀ m ∈ n.children, (f m).toQl o' = m.toQl o ∧ (f m).bareView? = m.bareView?) :
    (n.mapParts f).toQl o' = n.toQl o := by
  have hlist : ∀ ns : List Node, (∀ m ∈ ns, m ∈ n.children) →
      toQlAll o' (ns.map f) = toQlAll o ns := by
    intro ns hns
    rw [toQlAll_eq_map, toQlAll_eq_map, map_map]
    exact map_congr_left fun m hm => (hf m (hns m hm)).1
  have hoption : ∀ k : Option Node, (∀ m ∈ k, m ∈ n.children) →
      toQlOption o' (k.map f) = toQlOption o k := by
    intro k hk
    cases k with
    | none => rfl
    | some m => exact congrArg some (hf m (hk m rfl)).1
  cases n with
  | parameter => cases hn
  | short => cases hshort
  | select role c tag =>
    have hmem := mem_children_select role c tag
    have hsource : toQlRelation o' (c.source.map f) = toQlRelation o c.source := by
      cases hc : c.source with
      | none => rfl
      | some m =>
        have hm := hf m (hmem m (.inr (.inl hc)))
        rw [Option.map_some, toQlRelation, toQlRelation, hm.1, hm.2]
    have hwiths := hlist c.withs fun m hm => hmem m (by simp [hm])
    have hjoins := hlist c.joins fun m hm => hmem m (by simp [hm])
    have hcolumns := hlist c.columns fun m hm => hmem m (by simp [hm])
    have hfilter := hoption c.filter fun m hm => hmem m (by simp [Option.mem_def.mp hm])
    have hgroupBy := hlist c.groupBy fun m hm => hmem m (by simp [hm])
    have hhaving := hoption c.having fun m hm => hmem m (by simp [Option.mem_def.mp hm])
    have horderBy := hlist c.orderBy fun m hm => hmem m (by simp [hm])
    obtain ⟨withs, source, joins, distinct, columns, filter, groupBy, having, orderBy, limit,
      offset⟩ := c
    simp only at hsource hwiths hjoins hcolumns hfilter hgroupBy hhaving horderBy
    simp only [mapParts, mapClauses, toQl, hsource, hwiths, hjoins, hcolumns, hfilter, hgroupBy,
      hhaving, horderBy]
  | compound role op all left right tag =>
    have hleft := hf left (by simp [children])
    have hright := hf right (by simp [children])
    simp only [mapParts, toQl, hleft.1, hright.1]
  | join type relation on =>
    have hrelation := hf relation (by simp [children])
    have hon := hoption on fun m hm => by simp [children, Option.mem_def.mp hm]
    simp only [mapParts, toQl, hrelation.1, hrelation.2, hon]
  | case branches otherwise tag =>
    have hbranches : toQlBranches o' (branches.map fun b => (f b.1, f b.2)) =
        toQlBranches o branches := by
      rw [toQlBranches_eq_map, toQlBranches_eq_map, map_map]
      refine map_congr_left fun b hb => ?_
      have hpart : ∀ m ∈ [b.1, b.2], m ∈ (case branches otherwise tag).children := fun m hm =>
        mem_append_left _ (mem_flatMap.mpr ⟨b, hb, hm⟩)
      simp only [Function.comp_apply, (hf _ (hpart b.1 (by simp))).1,
        (hf _ (hpart b.2 (by simp))).1]
    have hotherwise := hoption otherwise fun m hm => by simp [children, Option.mem_def.mp hm]
    simp only [mapParts, toQl, hbranches, hotherwise]
  | sort value direction nulls => simp only [mapParts, toQl, (hf value (by simp [children])).1]
  | view | column | constant => simp only [mapParts, toQl]
  | call f args | geometry type args | operation op args | array args | list args =>
    simp only [mapParts, toQl, hlist args fun m hm => hm]

private theorem bareView?_settled (n : Node) : n.settled.bareView? = n.bareView? := by
  cases n with
  | parameter name value tag =>
    obtain ⟨value', h⟩ | ⟨p, h⟩ := exists_settled_parameter name value tag <;> rw [h] <;> rfl
  | _ =>
    rw [settled_of_parts rfl]
    rfl

/-- A settled tree is written with references as the tree is written without them. -/
theorem toQl_settled (n : Node) (h : ∀ m, n.Encloses m → m.BindsScalar) :
    n.settled.toQl { keepParamRefs := true } = n.toQl {} := by
  cases hn : n.isParameter with
  | true =>
    cases n with
    | parameter name value tag =>
      cases value with
      | none =>
        rw [settled_free]
        simp only [toQl]
        rfl
      | some m =>
        obtain ⟨p, rfl, -⟩ := h _ .refl name m tag rfl
        rw [settled_bound]
        simp only [toQl]
        rfl
    | _ => cases hn
  | false =>
    have hparts : ∀ m ∈ n.children, m.settled.toQl { keepParamRefs := true } = m.toQl {} ∧
        m.settled.bareView? = m.bareView? := by
      intro m hm
      have := sizeOf_lt_of_mem_children hm
      exact ⟨m.toQl_settled fun k hk => h k (.of_child hm hk), m.bareView?_settled⟩
    rw [settled_of_parts hn]
    cases hs : n.isShort with
    | false => exact toQl_mapParts hn hs hparts
    | true =>
      cases n with
      | short e inner => exact (hparts inner mem_cons_self).1
      | _ => cases hs
termination_by sizeOf n

/-- No null comes to stand where it would count as no value. -/
theorem NullsKept.settled {n : Node} (h : n.NullsKept)
    (hscalars : ∀ m, n.Encloses m → m.BindsScalar) :
    n.settled.NullsKept := by
  have hbare : ∀ {k : Node}, k.BindsScalar → k.isBareNull = false →
      k.settled.isBareNull = false := by
    intro k hk hnull
    cases k with
    | parameter name value tag =>
      cases value with
      | none => rw [settled_free]; rfl
      | some m =>
        obtain ⟨p, rfl, hp⟩ := hk name m tag rfl
        rw [settled_bound]
        cases p with
        | null => exact absurd rfl hp
        | _ => rfl
    | constant p tag => rwa [settled_constant]
    | _ => rw [settled_of_parts rfl]; rfl
  cases hn : n.isParameter with
  | true =>
    cases n with
    | parameter name value tag =>
      obtain ⟨value', hsettled⟩ | ⟨p, hsettled⟩ := exists_settled_parameter name value tag
      all_goals
        rw [hsettled]
        exact .intro nofun nofun
    | _ => cases hn
  | false =>
    have hinQl : n.inQl = n.children := by
      cases n with
      | parameter => cases hn
      | _ => rfl
    have hnullable : ∀ k ∈ n.nullable, k ∈ n.children := by
      intro k hk
      cases n with
      | select role c tag =>
        simp only [nullable, mem_append] at hk
        simp only [children, Clauses.parts, mem_append]
        tauto
      | join | case | sort => simp_all [nullable, children]
      | _ => cases hk
    have hnullable_map : (n.mapParts Node.settled).nullable = n.nullable.map Node.settled := by
      cases n <;> simp [mapParts, nullable, mapClauses, Option.toList_map]
    have hinQl_map : (n.mapParts Node.settled).inQl = n.children.map Node.settled := by
      rw [← children_mapParts]
      cases n with
      | parameter => cases hn
      | _ => rfl
    rw [settled_of_parts hn]
    refine .intro ?_ ?_
    · rw [hnullable_map]
      intro k hk
      obtain ⟨m, hm, rfl⟩ := mem_map.mp hk
      exact hbare (hscalars m (.of_child (hnullable m hm) .refl)) (h.here m hm)
    · rw [hinQl_map]
      intro k hk
      obtain ⟨m, hm, rfl⟩ := mem_map.mp hk
      have := sizeOf_lt_of_mem_children hm
      exact (h.of_mem (hinQl ▸ hm)).settled fun k hk => hscalars k (.of_child hm hk)
termination_by sizeOf n

/-! ## SQL of settled trees -/

/-- A cast is rendered alike with and without the literal that is cast, except for a text that Trino
looks into. -/
theorem withCast_none {p : Primitive} (name : String) {tag : Tag}
    (h : t.engine = .trino → (parameter name (some (constant p {})) tag).castsText = false)
    (text : String) :
    t.withCast tag.cast none text = t.withCast tag.cast (some p) text := by
  obtain ⟨label, cast⟩ := tag
  cases cast with
  | none => rfl
  | some type =>
    obtain ⟨engine, options⟩ := t
    cases engine with
    | pg => rfl
    | trino =>
      cases p with
      | string value =>
        have hcast := h rfl
        cases type with
        | date | timestamp | timestamptz | interval => cases hcast
        | _ => rfl
      | _ => cases type <;> rfl

/-- A settled tree has the SQL of the tree, unless Trino looks into the text of a parameter. -/
theorem sql_settled (hrefs : t.options.keepParamRefs = false) (n : Node)
    (hscalars : ∀ m, n.Encloses m → m.BindsScalar)
    (h : t.engine = .trino → ∀ m, n.Encloses m → m.castsText = false) :
    n.settled.sql t = n.sql t := by
  have hparts : (n.mapParts settled).sql t = n.sql t := by
    refine sql_mapParts .refl fun m hm => ?_
    have := sizeOf_lt_of_mem_children hm
    exact ⟨sql_settled hrefs m (fun k hk => hscalars k (.of_child hm hk))
      fun htrino k hk => h htrino k (.of_child hm hk), m.alias?_settled⟩
  cases n with
  | parameter name value tag =>
    cases value with
    | none => rw [settled_free]
    | some m =>
      obtain ⟨p, rfl, -⟩ := hscalars _ .refl name m tag rfl
      have hcast := withCast_none name (fun htrino => h htrino _ .refl) p.sql
      rw [settled_bound]
      simp only [sql, hrefs, sqlOption]
      exact hcast.symm
  | _ => rwa [settled_of_parts rfl]
termination_by sizeOf n

end Node

namespace Query

/-- A query whose parameters are bound to scalars is written without references and read back with
the constants in their places. Its SQL stays the same for every engine and every choice that does
not keep references, except where Trino renders the cast of a text from the text: a parameter hides
the text that it is bound to. -/
theorem read_toQl_settled {options : ParseOptions} {value : Json} {query : Query}
    (hql : options.queryType = .ql) (hshorts : options.keepShorts = false)
    (hscalars : options.BindsScalars) (hselect : QlObject.isType value .select = true)
    (hread : read value options = .ok query) (hnulls : query.root.NullsKept) :
    ∃ query', read (query.toQl {}) options = .ok query' ∧ query'.root = query.root.settled ∧
      ∀ engine (choices : SqlOptions), choices.keepParamRefs = false →
        (EngineRegistry.standard.get? engine = some .trino →
          ∀ m ∈ query.root.preorder, m.castsText = false) →
        query'.sql engine choices = query.sql engine choices := by
  have hroot : Build.run options [] (.select .root) value .root = .ok query.root := by
    simp only [read, hql, Build.root, hselect, if_true] at hread
    obtain ⟨n, hn, hread⟩ := of_bind hread
    cases hread
    exact hn
  have hbuilt := Build.run_built (.select .root) .root rfl hroot
  have hbinds : ∀ m, query.root.Encloses m → m.BindsScalar := by
    intro m hm
    obtain ⟨t, ht⟩ := hbuilt.exists_reaches (Build.resolvable_nil options) hm
    obtain ⟨names, place, hm, -⟩ := hbuilt.of_reaches (Build.resolvable_nil options) ht
    exact hm.bindsScalar hscalars
  have hsettled := hbuilt.settled hscalars hshorts
  have hwritten : query.root.settled.ql false = query.toQl {} := query.root.toQl_settled hbinds
  have hrebuilt : Build.run options [] (.select .root) (query.toQl {}) .root =
      .ok query.root.settled := by
    rw [← hwritten]
    exact Build.run_of_builds (hsettled.rebuilt hshorts (hnulls.settled hbinds))
  have htype : QlObject.isType (query.toQl {}) .select = true := by
    rw [← hwritten]
    exact hsettled.isType_ql false (.inl rfl)
  have hkind : ∀ {n}, Built options [] .root .root n → n.settled.type = n.type := by
    intro n hn
    cases hn with
    | select | compound =>
      rw [Node.settled_of_parts rfl]
      rfl
    | view fits => cases fits
  refine ⟨⟨query.root.settled, options⟩, ?_, rfl, fun engine choices hrefs htexts => ?_⟩
  · simp only [read, hql, Build.root, htype, if_true, Build.select, hrebuilt]
    rfl
  · simp only [sql]
    cases hengine : EngineRegistry.standard.get? engine with
    | none => rw [hkind hbuilt]
    | some e =>
      have hsql : query.root.settled.sql ⟨e, choices⟩ = query.root.sql ⟨e, choices⟩ :=
        Node.sql_settled hrefs query.root hbinds fun htrino m hm =>
          htexts (hengine.trans (congrArg some htrino)) m (Node.mem_preorder_iff.mpr hm)
      simp only [Node.sqlAliased, hsql, Node.alias?_settled]

/-- A parameter that is bound to a number is cast alike by Trino. -/
theorem read_toQl_settled_number :
    ∃ query query',
      read (.object [("type", .string "select"), ("from", .string "v"), ("columns", .array
          [.object
            [("type", .string "parameter"), ("value", .string "p"), ("cast", .string "date")]])])
        { parameters := some [("p", .nat 5)] } = .ok query ∧
      read (query.toQl {}) { parameters := some [("p", .nat 5)] } = .ok query' ∧
      query'.sql "trino" {} = query.sql "trino" {} := by
  let column : Node := .parameter "p" (some (.constant (.int 5) {})) { cast := some .date }
  let source : Node := .view "v" false none
  let root : Node := .select .root { source := some source, columns := [column] } {}
  have hread : read (.object [("type", .string "select"), ("from", .string "v"), ("columns", .array
        [.object
          [("type", .string "parameter"), ("value", .string "p"), ("cast", .string "date")]])])
      { parameters := some [("p", .nat 5)] } =
          .ok ⟨root, { parameters := some [("p", .nat 5)] }⟩ := by
    cbv
  have hscalars : ParseOptions.BindsScalars { parameters := some [("p", .nat 5)] } := by
    intro name v hv
    have hmem := Fields.get?_mem hv
    obtain ⟨-, rfl⟩ := Prod.mk.inj (List.mem_singleton.mp hmem)
    rfl
  have hnulls : root.NullsKept := by
    refine .intro (by rintro _ ⟨⟩) fun m hm => ?_
    have hm : m ∈ [source, column] := hm
    simp only [List.mem_cons, List.not_mem_nil, or_false] at hm
    obtain rfl | rfl := hm <;> exact .intro (by rintro _ ⟨⟩) (by rintro _ ⟨⟩)
  have htexts : ∀ m ∈ root.preorder, m.castsText = false := by
    intro m hm
    have hm : m ∈ [root, source, column, .constant (.int 5) {}] := hm
    simp only [List.mem_cons, List.not_mem_nil, or_false] at hm
    obtain rfl | rfl | rfl | rfl := hm <;> rfl
  obtain ⟨query', hquery', -, hsql⟩ := read_toQl_settled rfl rfl hscalars (by cbv) hread hnulls
  exact ⟨_, query', hread, hquery', hsql "trino" {} rfl fun _ => htexts⟩

/-- A parameter that is bound to a text and cast to an interval: Trino renders the constant that is
read back as an interval, and the parameter as a cast that it does not know. -/
theorem parameter_interval_rendered_otherwise :
    ∃ query query',
      read (.object [("type", .string "select"), ("from", .string "v"), ("columns", .array
          [.object [("type", .string "parameter"), ("value", .string "p"),
            ("cast", .string "interval")]])])
        { parameters := some [("p", .string "1 day")] } = .ok query ∧ query.root.NullsKept ∧
      read (query.toQl {}) { parameters := some [("p", .string "1 day")] } = .ok query' ∧
      query.sql "trino" {} = .ok "SELECT CAST('1 day' AS interval day to second) FROM \"v\"" ∧
      query'.sql "trino" {} = .ok "SELECT INTERVAL '1' DAY FROM \"v\"" := by
  refine ⟨⟨.select .root { source := some (.view "v" false none), columns := [.parameter "p"
      (some (.constant (.string "1 day") {})) { cast := some .interval }] } {},
      { parameters := some [("p", .string "1 day")] }⟩,
    ⟨.select .root { source := some (.view "v" false none), columns := [.constant (.string "1 day")
      { cast := some .interval }] } {}, { parameters := some [("p", .string "1 day")] }⟩, ?_,
        ?_, ?_, ?_, ?_⟩
  · cbv
  · refine .intro (by rintro _ ⟨⟩) fun m hm => ?_
    simp only [inQl, children, Clauses.parts, List.nil_append, Option.toList, List.append_nil,
      List.mem_append, List.mem_singleton] at hm
    obtain rfl | rfl := hm <;> exact .intro (by rintro _ ⟨⟩) (by rintro _ ⟨⟩)
  · cbv
  · cbv
  · cbv

end Query

end AnalyticQuery
