import AnalyticQuery.Proofs.Tree.Selecting

/-!
# Well-formed trees

Every node of a tree that was read stands where nodes of its kind belong and has the shape that its
kind asks for: the values bound to parameters and the expansions of kept short expressions included.
-/

namespace AnalyticQuery

open Node

variable {place : Place} {n : Node} {a b : Place × Node}

variable {options : ParseOptions} {r : List String} {s : Scope}

/-- Whether a relation is expected at a place. -/
def Place.isRelation : Place → Bool
  | .source | .joined _ => true
  | _ => false

namespace Node

/-- The nodes directly inside a node, each with its place. -/
def placed : Node → List (Place × Node)
  | .select _ c _ =>
    c.withs.map (.cte, ·) ++ c.source.toList.map (.source, ·) ++ c.joins.map (.join, ·) ++
      c.values.map (.value, ·)
  | .compound _ _ _ left right _ => [(.side, left), (.side, right)]
  | .join type relation on => (.joined type, relation) :: on.toList.map (.value, ·)
  | other => other.children.map (.value, ·)

/-- Every node directly inside a node has a place. -/
theorem map_snd_placed (n : Node) : n.placed.map (·.2) = n.children := by
  cases n with
  | select role c tag => simp [placed, children, Clauses.parts_eq, List.map_map, Function.comp_def]
  | compound | join => simp [placed, children, List.map_map, Function.comp_def]
  | _ => simp [placed, List.map_map, Function.comp_def]

/-- One step down a tree, from a node at its place to a node directly inside it. -/
def Inside (a b : Place × Node) : Prop := b ∈ a.2.placed

/-- Whether a node is a relation: a view or a select in the role of one. -/
def isRelation : Node → Bool
  | .view .. | .select (.range _) .. | .compound (.range _) .. => true
  | _ => false

/-- Whether a node is a join. -/
def isJoin : Node → Bool
  | .join .. => true
  | _ => false

/-- The shape that a kind of node asks for. -/
def Shaped : Node → Prop
  | .select _ c _ => c.columns ≠ []
  | .join type relation on =>
    (on.isSome ↔ type ∈ [.inner, .left, .right]) ∧
      (relation.role? = some (.range true) ↔ type = .lateral)
  | .call f args distinct _ =>
    FunctionRegistry.standard.get? f.name = some f ∧ f.arity.accepts args.length ∧
      (distinct → f.isAggregate)
  | .geometry type args _ => type.arity.accepts args.length
  | .operation op operands qualifier _ =>
    op.arity.accepts operands.length ∧ (qualifier.isSome → op.allowsQualifier)
  | .case branches _ _ => branches ≠ []
  | .list items => items ≠ []
  | _ => True

/-- What holds of a node at a place. Joins, value lists, sort items and kept short expressions have
no place for an alias or a cast of their own, and a view has none for a cast. -/
structure WellFormed (n : Node) (place : Place) : Prop where
  /-- Relations stand where a relation is expected, and nothing else does. -/
  relation : n.isRelation ↔ place.isRelation
  /-- Joins stand in a list of joins, and nothing else does. -/
  join : n.isJoin ↔ place = .join
  /-- Common tables stand in a list of common tables, and nothing else does. -/
  cte : n.role? = some .cte ↔ place = .cte
  /-- Operands stand as the sides of a set operation, and nothing else does. -/
  operand : n.role? = some .operand ↔ place = .side
  /-- The root select stands at the root. -/
  root : n.role? = some .root → place = .root
  /-- A select has an alias and a cast such as its role takes. -/
  takes : ∀ role, n.role? = some role → role.Takes n.tag
  /-- No alias is empty. -/
  named : n.alias? ≠ some ""
  /-- An alias stands on a node that can have one. -/
  canAlias : n.alias?.isSome → n.canAlias
  /-- A cast stands on a node that can have one. -/
  canCast : n.cast?.isSome → n.canCast
  /-- The node has the shape that its kind asks for. -/
  shaped : n.Shaped

/-- A node that is no select, view or join is well-formed as a value, if its alias, cast and shape
are. -/
theorem wellFormed_value (hrelation : n.isRelation = false) (hjoin : n.isJoin = false)
    (hrole : n.role? = none) (named : n.alias? ≠ some "") (canAlias : n.alias?.isSome → n.canAlias)
    (canCast : n.cast?.isSome → n.canCast) (shaped : n.Shaped) :
    n.WellFormed .value where
  relation := by rw [hrelation]; exact ⟨nofun, nofun⟩
  join := by rw [hjoin]; exact ⟨nofun, nofun⟩
  cte := by rw [hrole]; exact ⟨nofun, nofun⟩
  operand := by rw [hrole]; exact ⟨nofun, nofun⟩
  root := by rw [hrole]; exact nofun
  takes := by rw [hrole]; exact nofun
  named := named
  canAlias := canAlias
  canCast := canCast
  shaped := shaped

/-- A value can stand at the root. -/
theorem WellFormed.atRoot (h : n.WellFormed .value) : n.WellFormed .root where
  relation := h.relation
  join := h.join.trans ⟨nofun, nofun⟩
  cte := h.cte.trans ⟨nofun, nofun⟩
  operand := h.operand.trans ⟨nofun, nofun⟩
  root := fun _ => rfl
  takes := h.takes
  named := h.named
  canAlias := h.canAlias
  canCast := h.canCast
  shaped := h.shaped

/-- A select is well-formed at the places of its role. -/
theorem wellFormed_select {role : SelectRole} (hrole : n.role? = some role)
    (fits : place.role? = some role) (takes : role.Takes n.tag) (shaped : n.Shaped) :
    n.WellFormed place := by
  have hkind : n.isRelation = place.isRelation ∧ n.isJoin = false ∧ n.canAlias = role.canAlias ∧
      n.canCast = (role == .subquery) := by
    cases n with
    | select _ | compound _ =>
      cases hrole
      cases place <;> cases fits <;> exact ⟨rfl, rfl, rfl, rfl⟩
    | _ => cases hrole
  obtain ⟨hrelation, hjoin, hcanAlias, hcanCast⟩ := hkind
  have hplace : (role = .cte ↔ place = .cte) ∧ (role = .operand ↔ place = .side) ∧
      (role = .root → place = .root) ∧ place ≠ .join := by
    cases place <;> cases fits <;> simp
  obtain ⟨hcte, hside, hroot, hplace⟩ := hplace
  constructor
  case relation => rw [hrelation]
  case join => simp [hjoin, hplace]
  case cte => simpa [hrole] using hcte
  case operand => simpa [hrole] using hside
  case root => simpa [hrole] using hroot
  case takes =>
    intro role' hrole'
    rw [hrole] at hrole'
    cases hrole'
    exact takes
  case named => exact takes.named
  case canAlias =>
    rw [hcanAlias]
    exact takes.canAlias
  case canCast =>
    rw [hcanCast]
    exact takes.canCast
  case shaped => exact shaped

end Node

/-- At the place of a join's relation stands a lateral select exactly where the join is lateral. -/
theorem Built.lateral_iff {type : JoinType} (h : Built options r (.joined type) s n) :
    n.role? = some (.range true) ↔ type = .lateral := by
  cases h with
  | select fits | compound fits =>
    cases fits
    simp [role?]
  | view fits =>
    have hfalse : (type == .lateral) = false := by
      cases hl : (type == .lateral) with
      | false => rfl
      | true => simp [Place.role?, hl] at fits
    simpa [role?] using hfalse

/-- A built node is well-formed at its place. -/
theorem Built.wellFormed (h : Built options r place s n) : n.WellFormed place := by
  induction h with
  | constant value read named | column _ _ _ named | bound _ _ _ _ _ _ named | free _ _ _ _ named
  | array _ named =>
    exact wellFormed_value rfl rfl rfl named (fun _ => rfl) (fun _ => rfl) trivial
  | call known parts arity aggregate named =>
    exact wellFormed_value rfl rfl rfl named (fun _ => rfl) (fun _ => rfl)
      ⟨known.1, arity, aggregate⟩
  | geometry parts arity named =>
    exact wellFormed_value rfl rfl rfl named (fun _ => rfl) (fun _ => rfl) arity
  | operation parts arity qualified flat named =>
    exact wellFormed_value rfl rfl rfl named (fun _ => rfl) (fun _ => rfl) ⟨arity, qualified⟩
  | case nonempty _ _ _ named =>
    exact wellFormed_value rfl rfl rfl named (fun _ => rfl) (fun _ => rfl) nonempty
  | list nonempty => exact wellFormed_value rfl rfl rfl nofun nofun nofun nonempty
  | sort => exact wellFormed_value rfl rfl rfl nofun nofun nofun trivial
  | short kept part unfolds ih =>
    exact wellFormed_value rfl rfl rfl ih.named ih.canAlias ih.canCast trivial
  | select fits takes _ _ _ _ _ _ nonempty => exact wellFormed_select rfl fits takes nonempty
  | compound fits takes => exact wellFormed_select rfl fits takes trivial
  | @view r place s name label fits hasName named =>
    have hplace : place.isRelation = true ∧ place ≠ .join ∧ place ≠ .cte ∧ place ≠ .side := by
      cases place <;> simp_all [Place.role?, Place.isRelation]
    obtain ⟨hrelation, hjoin, hcte, hside⟩ := hplace
    exact ⟨by simp [hrelation, isRelation], by simp [hjoin, isJoin],
      by simp [hcte, role?], by simp [hside, role?], nofun, nofun, named, fun _ => rfl, nofun,
      trivial⟩
  | @join r s t type relation on part declared condition onPart _ _ =>
    have hcondition : on.isSome ↔ type ∈ [.inner, .left, .right] := by
      rw [condition]
      cases type <;> decide
    exact ⟨⟨nofun, nofun⟩, ⟨fun _ => rfl, fun _ => rfl⟩, ⟨nofun, nofun⟩, ⟨nofun, nofun⟩,
      nofun, nofun,
      nofun, nofun, nofun, hcondition, part.lateral_iff⟩

/-! ## The whole tree -/

/-- A node directly inside a built node is built at its own place. -/
theorem Built.inside (h : Built options r a.1 s a.2) (hb : Node.Inside a b) :
    ∃ r' s', Built options r' b.1 s' b.2 := by
  obtain ⟨place, n⟩ := a
  obtain ⟨place', m⟩ := b
  have hvalue : ∀ {ns : List Node}, (∀ k ∈ ns, ∃ r' s', Built options r' .value s' k) →
      (place', m) ∈ ns.map (Place.value, ·) → ∃ r' s', Built options r' place' s' m := by
    intro ns hns hm
    obtain ⟨k, hk, he⟩ := List.mem_map.mp hm
    cases he
    exact hns m hk
  cases n with
  | compound =>
    cases h with
    | compound fits takes leftSide rightSide =>
      obtain he | hb := List.mem_cons.mp hb
      · cases he
        exact ⟨r, s, leftSide⟩
      · cases List.mem_singleton.mp hb
        exact ⟨r, s, rightSide⟩
  | join =>
    cases h with
    | @join _ _ t type relation on part declared condition onPart =>
      obtain he | hb := List.mem_cons.mp hb
      · cases he
        exact ⟨r, s, part⟩
      · exact hvalue (fun k hk => ⟨r, t, onPart k (Option.mem_toList.mp hk)⟩) hb
  | select =>
    cases h with
    | @select _ _ _ s₁ s₂ s₃ role c tag _ _ afterWiths _ afterJoins withs source joins _ values =>
      simp only [Node.Inside, placed, List.mem_append, List.mem_map] at hb
      obtain ((⟨k, hk, he⟩ | ⟨k, hk, he⟩) | ⟨k, hk, he⟩) | ⟨k, hk, he⟩ := hb <;> cases he
      · obtain ⟨before, after, t, hsplit, ht⟩ := Result.exists_split_of_mem afterWiths hk
        exact ⟨r, t, withs before m after t hsplit ht⟩
      · exact ⟨r, s₁, source m (Option.mem_toList.mp hk)⟩
      · obtain ⟨before, after, t, hsplit, ht⟩ := Result.exists_split_of_mem afterJoins hk
        exact ⟨r, t, joins before m after t hsplit ht⟩
      · exact ⟨r, s₃, values m hk⟩
  | _ =>
    refine hvalue (fun k hk => ?_) hb
    obtain ⟨-, names, hk, -⟩ := h.part rfl (by rintro _ _ _ ⟨⟩) hk
    exact ⟨_, _, hk⟩

open Relation

/-- All nodes of a built tree are well-formed at their places. -/
theorem Built.wellFormed_below (h : Built options r a.1 s a.2) (hb : ReflTransGen Node.Inside a b) :
    b.2.WellFormed b.1 := by
  have hbuilt : ∃ r' s', Built options r' b.1 s' b.2 := by
    induction hb with
    | refl => exact ⟨r, s, h⟩
    | tail _ hstep ih =>
      obtain ⟨r', s', h'⟩ := ih
      exact h'.inside hstep
  obtain ⟨r', s', h'⟩ := hbuilt
  exact h'.wellFormed

/-- Every node of a query that was read is well-formed at its place: values bound to parameters and
expansions of kept short expressions included, whatever the query is written in and whatever the
caller's choices are. -/
theorem Query.wellFormed_of_read {value : Json} {options : ParseOptions} {query : Query}
    {place : Place} {n : Node} (h : read value options = .ok query)
    (hn : ReflTransGen Node.Inside (.root, query.root) (place, n)) : n.WellFormed place := by
  obtain hroot | hvalue := read_built h
  · exact hroot.wellFormed_below hn
  · -- A root that is no root select was built as a value; what is inside it does not see the place.
    obtain he | ⟨b, hb, hn⟩ := hn.cases_head
    · cases he
      exact hvalue.wellFormed.atRoot
    · obtain ⟨r, s, hbuilt⟩ := Built.inside (a := (.value, query.root)) hvalue hb
      exact hbuilt.wellFormed_below hn

/-- The subquery of a join without a condition is read as a lateral relation, beside a bound
parameter. -/
theorem Query.wellFormed_of_read_lateral :
    ∃ query n,
      read (.object [("type", .string "select"), ("from", .string "v"),
        ("joins", .array [.object [("type", .string "join"),
          ("view", .object [("type", .string "select"), ("from", .string "w"),
            ("columns", .array [.object [("type", .string "column"), ("column", .string "x"),
              ("view", .string "v")]]),
            ("as", .string "l")])]]),
        ("columns", .array [.object [("type", .string "parameter"), ("value", .string "p")]])])
        { parameters := some [("p", .bool true)] } = .ok query ∧
      ReflTransGen Node.Inside (.root, query.root) (.joined .lateral, n) ∧
      n.WellFormed (.joined .lateral) := by
  let column : Node := .column ⟨"x", some "v", some "v", some "v"⟩ {}
  let n : Node :=
    .select (.range true) { source := some (.view "w" false none), columns := [column] }
      { label := some "l" }
  let parameter : Node := .parameter "p" (some (.constant (.bool true) {})) {}
  let root : Node :=
    .select .root
      { source := some (.view "v" false none)
        joins := [.join .lateral n none]
        columns := [parameter] } {}
  let join : Place × Node := (.join, .join .lateral n none)
  have hjoin : Node.Inside (.root, root) join := by
    simp [Node.Inside, placed, root, join]
  have hn : Node.Inside join (.joined .lateral, n) := by
    simp [Node.Inside, placed, join]
  have hpath : ReflTransGen Node.Inside (.root, root) (.joined .lateral, n) :=
    .tail (.single hjoin) hn
  refine ⟨⟨root, { parameters := some [("p", .bool true)] }⟩, n, ?_⟩
  refine (fun hread : read _ _ = .ok _ => ⟨hread, hpath, wellFormed_of_read hread hpath⟩) ?_
  cbv

end AnalyticQuery
