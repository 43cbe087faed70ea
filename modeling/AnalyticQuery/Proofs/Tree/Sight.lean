import AnalyticQuery.Proofs.Tree.Selecting

/-!
# Names in sight

What is in sight at each point of a tree, said of the tree alone: the relations of the nearest
select before the point and the common tables declared before it. The names that the builder
resolves are those in sight: every column is found in a relation in sight, and a view is a common
table exactly where one of its name is declared.
-/

namespace AnalyticQuery

open List Node Result Scope

variable {place : Place} {tables : List Node} {options : ParseOptions} {r : List String} {m : Node}

namespace Node

/-- The name under which a relation is seen: its alias, otherwise the name of the view. -/
def refName? : Node → Option String
  | .view name _ label => some (label.getD name)
  | other => other.alias?

/-- The relation of a join. -/
def joined? : Node → Option Node
  | .join _ relation _ => some relation
  | _ => none

/-- What a relation is to the names that refer to it. -/
def target : Node → RefTarget
  | .view name true _ => .cte name
  | .view name false _ => .view name
  | _ => .subquery

end Node

/-- What is in sight at a point of a tree. -/
structure Sight where
  /-- The relations in sight, in order, each under its name. -/
  refs : List (String × Node) := []
  /-- The common tables declared so far by the nearest select and those around it. -/
  ctes : List String := []
  /-- The relations that a select at this point sees from outside. -/
  inherited : List (String × Node) := []
  /-- Whether a select with clauses encloses the point. -/
  inSelect : Bool := false

namespace Sight

/-- What is in sight at the start of a select with clauses. -/
def enter (e : Sight) : Sight := ⟨e.inherited, e.ctes, [], true⟩

/-- What is in sight after common tables. -/
def withCtes (e : Sight) (tables : List Node) : Sight :=
  { e with ctes := e.ctes ++ tables.filterMap alias? }

/-- What is in sight after relations. -/
def withRefs (e : Sight) (relations : List Node) : Sight :=
  { e with refs := e.refs ++ relations.filterMap fun n => n.refName?.map (·, n) }

/-- One step down a tree, from what is in sight at a node to what is in sight directly inside it.
Only the relation of a lateral join sees the relations before it. -/
inductive Step : Sight × Node → Sight × Node → Prop
  | cte {e role c tag before n after} (split : c.withs = before ++ n :: after) :
      Step (e, .select role c tag) (e.enter.withCtes before, n)
  | source {e role c tag n} (mem : n ∈ c.source) :
      Step (e, .select role c tag) (e.enter.withCtes c.withs, n)
  | join {e role c tag before n after} (split : c.joins = before ++ n :: after) :
      Step (e, .select role c tag)
        ((e.enter.withCtes c.withs).withRefs (c.source.toList ++ before.filterMap joined?), n)
  | value {e role c tag n} (mem : n ∈ c.values) :
      Step (e, .select role c tag)
        ((e.enter.withCtes c.withs).withRefs (c.source.toList ++ c.joins.filterMap joined?), n)
  | side {e role op all left right tag n} (mem : n ∈ [left, right]) :
      Step (e, .compound role op all left right tag) ({ e with inherited := [] }, n)
  | relation {e type relation on} :
      Step (e, .join type relation on)
        ({ e with inherited := if type = .lateral then e.refs else [] }, relation)
  | on {e type relation on n} (mem : n ∈ on) :
      Step (e, .join type relation on) (e.withRefs [relation], n)
  | part {e m n} (plain : m.role? = none) (noJoin : m.joined? = none) (mem : n ∈ m.children) :
      Step (e, m) (e, n)

/-- What a node says of the names in sight. -/
structure Sound (e : Sight) (n : Node) : Prop where
  /-- The names in sight are distinct. -/
  nodup : (e.refs.map (·.1)).Nodup
  /-- A column inside a select is found in a relation in sight: in the one that is written, or in
  the only one. It is read from a view exactly where that relation is a view and no common table. -/
  column : ∀ c tag, n = .column c tag → e.inSelect = true → ∃ r relation,
    (r, relation) ∈ e.refs ∧ c.qualifier = some r ∧ (∀ v, c.view = some v → v = r) ∧
      (c.view = none → e.refs = [(r, relation)]) ∧
      ∀ v, c.origin = some v ↔ ∃ label, relation = .view v false label
  /-- A view is a common table exactly where one of its name is declared. -/
  view : ∀ name isCte label, n = .view name isCte label → (isCte = true ↔ name ∈ e.ctes)
  /-- The common tables of a select have distinct names, and none of a relation that it inherits. -/
  ctes : ∀ role c tag, n = .select role c tag →
    (e.inherited.map (some ·.1) ++ c.withs.map alias?).Nodup

/-! ## Scopes show what is in sight -/

/-- A scope that shows exactly what is in sight. -/
structure Shown (e : Sight) (s : Scope) : Prop where
  /-- The relations in sight, in order. -/
  refs : s.refs = e.refs.map fun ref => (ref.1, ref.2.target)
  /-- The common tables in sight. -/
  ctes : ∀ name, name ∈ s.ctes ↔ name ∈ e.ctes
  /-- Whether a select encloses the point. -/
  inSelect : s.inSelect = e.inSelect
  /-- The names in sight are distinct. -/
  nodup : (e.refs.map (·.1)).Nodup

variable {e : Sight} {s t : Scope} {n : Node}

/-- The names in a scope are those in sight. -/
theorem Shown.names (h : e.Shown s) : s.refs.map (·.1) = e.refs.map (·.1) := by
  rw [h.refs, map_map]
  rfl

/-- The relations that a select at a place sees from outside. -/
def inheritedAt (place : Place) (refs : List (String × Node)) : List (String × Node) :=
  if place = .joined .lateral then refs else []

/-- The scope of a nested select shows what is in sight at its start. -/
theorem Shown.enter {role : SelectRole} (h : e.Shown s) (fits : place.role? = some role)
    (hinherited : e.inherited = inheritedAt place e.refs) :
    e.enter.Shown (s.childSelect (Builder.seesSiblings role)) := by
  have hlateral : Builder.seesSiblings role = true ↔ place = .joined .lateral := by
    unfold Builder.seesSiblings
    rw [beq_iff_eq]
    cases place <;> cases fits <;> simp
  by_cases hplace : place = .joined .lateral
  · have hsees := hlateral.mpr hplace
    have hrefs : e.inherited = e.refs := by rw [hinherited, inheritedAt, if_pos hplace]
    refine ⟨?_, h.ctes, rfl, ?_⟩
    · simp only [childSelect, hsees, Sight.enter, hrefs, if_true, h.refs]
    · simpa only [Sight.enter, hrefs] using h.nodup
  · have hsees : Builder.seesSiblings role = false := by
      rw [← Bool.not_eq_true, hlateral]
      exact hplace
    have hrefs : e.inherited = [] := by rw [hinherited, inheritedAt, if_neg hplace]
    refine ⟨?_, h.ctes, rfl, ?_⟩
    · simp [childSelect, hsees, Sight.enter, hrefs]
    · simp [Sight.enter, hrefs]

private theorem declareCte_cases (h : Builder.declareCte s n = .ok t) :
    (n.alias? = none ∧ t = s) ∨
      ∃ name, n.alias? = some name ∧ name ∉ s.localCtes ∧ s.hasRef name = false ∧ t.refs = s.refs ∧
        t.localCtes = s.localCtes ++ [name] ∧ t.inSelect = s.inSelect ∧
        ∀ other, other ∈ t.ctes ↔ other ∈ s.ctes ∨ other = name := by
  unfold Builder.declareCte at h
  split at h
  · next name hname =>
    unfold withCte at h
    split at h
    · cases h
    next hfree =>
    simp only [Bool.or_eq_true, contains_iff_mem, not_or, Bool.not_eq_true] at hfree
    cases h
    refine .inr ⟨name, hname, hfree.1, hfree.2, rfl, rfl, rfl, ?_⟩
    intro other
    dsimp only
    split
    · next hmem =>
      rw [contains_iff_mem] at hmem
      constructor
      · exact .inl
      · rintro (h | rfl)
        · exact h
        · exact hmem
    · simp
  · next hname =>
    cases h
    exact .inl ⟨hname, rfl⟩

/-- Common tables come into sight as they are declared. -/
theorem Shown.withCtes (h : e.Shown s) (ht : s.afterCtes tables = .ok t) :
    (e.withCtes tables).Shown t := by
  induction tables generalizing e s with
  | nil =>
    cases ht
    simpa [Sight.withCtes] using h
  | cons table tables ih =>
    obtain ⟨u, hu, hrest⟩ := of_bind ht
    obtain ⟨hnone, rfl⟩ | ⟨name, hname, -, -, hrefs, -, hin, hctes⟩ := declareCte_cases hu
    · have htables := ih h hrest
      simpa [Sight.withCtes, hnone] using htables
    · have hstep : (e.withCtes [table]).Shown u := by
        refine ⟨by rw [hrefs, h.refs]; rfl, ?_, by rw [hin, h.inSelect]; rfl, h.nodup⟩
        intro other
        simp [Sight.withCtes, hctes, h.ctes, hname]
      have htables := ih hstep hrest
      simpa [Sight.withCtes, hname, filterMap_cons] using htables

/-- A relation comes into sight as it is declared. -/
theorem Shown.withRef (h : e.Shown s) (ht : Builder.declare s n = .ok t) :
    (e.withRefs [n]).Shown t := by
  obtain ⟨⟨name, target⟩, hn, ht⟩ := of_bind ht
  have hname : n.refName? = some name ∧ n.target = target := by
    unfold Builder.declaration at hn
    split at hn
    · next v isCte label =>
      cases hn
      cases isCte <;> exact ⟨rfl, rfl⟩
    · next hview =>
      split at hn
      · next label hlabel =>
        cases hn
        cases n with
        | view => exact absurd rfl (hview _ _ _)
        | _ => exact ⟨hlabel, rfl⟩
      · cases hn
  obtain ⟨hname, rfl⟩ := hname
  dsimp only [Scope.withRef] at ht
  split at ht
  · cases ht
  next hfree =>
  cases ht
  have hnew : name ∉ e.refs.map (·.1) := by
    intro hmem
    apply hfree
    obtain ⟨ref, href, rfl⟩ := mem_map.mp hmem
    simp only [Scope.hasRef, h.refs, any_map, any_eq_true]
    exact ⟨ref, href, beq_self_eq_true _⟩
  refine ⟨?_, h.ctes, h.inSelect, ?_⟩
  · simp [Sight.withRefs, h.refs, hname]
  · simp only [Sight.withRefs, filterMap_cons, hname, Option.map_some, filterMap_nil, map_append,
      map_cons, map_nil]
    rw [← concat_eq_append]
    exact h.nodup.concat hnew

private theorem withRefs_append (e : Sight) (xs ys : List Node) :
    e.withRefs (xs ++ ys) = (e.withRefs xs).withRefs ys := by
  simp [withRefs]

/-- The first relation of a select comes into sight. -/
theorem Shown.withSource {source : Option Node} (h : e.Shown s)
    (ht : s.afterSource source = .ok t) :
    (e.withRefs source.toList).Shown t := by
  cases source with
  | none =>
    cases ht
    simpa [Sight.withRefs] using h
  | some n => exact h.withRef ht

/-- The relations of joins come into sight. -/
theorem Shown.withJoins {joins : List Node} (h : e.Shown s) (ht : s.afterJoins joins = .ok t) :
    (e.withRefs (joins.filterMap joined?)).Shown t := by
  induction joins generalizing e s with
  | nil =>
    cases ht
    simpa [Sight.withRefs] using h
  | cons join joins ih =>
    obtain ⟨u, hu, hrest⟩ := of_bind ht
    unfold afterJoin at hu
    split at hu
    · next type relation on =>
      have hsome : (join type relation on).joined? = some relation := rfl
      rw [filterMap_cons_some hsome, ← singleton_append, withRefs_append]
      exact ih (h.withRef hu) hrest
    · next hjoin =>
      cases hu
      have hnone : join.joined? = none := by
        cases join with
        | join => exact absurd rfl (hjoin _ _ _)
        | _ => rfl
      rw [filterMap_cons_none hnone]
      exact ih h hrest

/-! ## One step down -/

/-- What is in sight directly inside a built node is what the scope shows in which the inner node
was built. -/
theorem Step.shown {e' : Sight} (hn : Built options r place s n) (h : e.Shown s)
    (hinherited : e.inherited = inheritedAt place e.refs) (hstep : Step (e, n) (e', m)) :
    ∃ r' place' s', Built options r' place' s' m ∧ e'.Shown s' ∧
      e'.inherited = inheritedAt place' e'.refs := by
  cases hstep with
  | part plain noJoin mem =>
    obtain ⟨rfl, names, hm, -⟩ := hn.part plain (by rintro _ _ _ rfl; cases noJoin) mem
    exact ⟨r ++ names, .value, s, hm, h, hinherited⟩
  | side mem =>
    cases hn with
    | compound fits takes leftSide rightSide =>
      have hside : Built options r .side s m := by
        obtain rfl | mem := mem_cons.mp mem
        · exact leftSide
        · obtain rfl := mem_singleton.mp mem
          exact rightSide
      exact ⟨r, .side, s, hside, ⟨h.refs, h.ctes, h.inSelect, h.nodup⟩, rfl⟩
  | relation =>
    cases hn with
    | join part =>
      refine ⟨r, _, s, part, ⟨h.refs, h.ctes, h.inSelect, h.nodup⟩, ?_⟩
      simp [inheritedAt]
  | on mem =>
    cases hn with
    | join part declared condition onPart =>
      exact ⟨r, .value, _, onPart m mem, h.withRef declared, hinherited⟩
  | @cte _ _ _ _ before _ after split =>
    cases hn with
    | select fits _ afterWiths _ _ withs =>
      rw [split] at afterWiths
      obtain ⟨t, ht, -⟩ := exists_foldlM_of_append afterWiths
      exact ⟨r, .cte, t, withs before m after t split ht,
        (h.enter fits hinherited).withCtes ht, rfl⟩
  | source mem =>
    cases hn with
    | select fits _ afterWiths _ _ _ source =>
      exact ⟨r, .source, _, source m mem, (h.enter fits hinherited).withCtes afterWiths, rfl⟩
  | @join _ _ _ _ before _ after split =>
    cases hn with
    | select fits _ afterWiths afterSource afterJoins _ _ joins =>
      rw [split] at afterJoins
      obtain ⟨t, ht, -⟩ := exists_foldlM_of_append afterJoins
      refine ⟨r, .join, t, joins before m after t split ht, ?_, rfl⟩
      rw [withRefs_append]
      exact (((h.enter fits hinherited).withCtes afterWiths).withSource afterSource).withJoins ht
  | value mem =>
    cases hn with
    | select fits _ afterWiths afterSource afterJoins _ _ _ _ values =>
      refine ⟨r, .value, _, values m mem, ?_, rfl⟩
      rw [withRefs_append]
      exact (((h.enter fits hinherited).withCtes afterWiths).withSource afterSource).withJoins
        afterJoins

/-! ## What the scope says of a node -/

private theorem resolveColumn_cases {view : Option String} {name : String} {found : ResolvedColumn}
    (h : s.resolveColumn view name = .ok found) (hin : s.inSelect = true) :
    ∃ r target, (r, target) ∈ s.refs ∧ found = ⟨some r, target.view?⟩ ∧
      (∀ v, view = some v → v = r) ∧ (view = none → s.refs = [(r, target)]) := by
  unfold resolveColumn at h
  rw [if_pos hin] at h
  split at h
  · next v =>
    split at h
    · next r target href =>
      cases h
      have hname : r = v := by simpa using find?_some href
      refine ⟨r, target, mem_of_find?_eq_some href, rfl, ?_, nofun⟩
      rintro _ ⟨⟩
      exact hname.symm
    · cases h
  · split at h
    · next r target hrefs =>
      cases h
      exact ⟨r, target, by rw [hrefs]; exact mem_singleton.mpr rfl, rfl, nofun, fun _ => hrefs⟩
    · cases h
    · cases h

private theorem view?_target (n : Node) (v : String) :
    n.target.view? = some v ↔ ∃ label, n = .view v false label := by
  cases n with
  | view name isCte label => cases isCte <;> simp [target, RefTarget.view?]
  | _ => simp [target, RefTarget.view?]

private theorem nodup_of_afterCtes (h : s.afterCtes tables = .ok t)
    (hs : (s.refs.map (·.1) ++ s.localCtes).Nodup) :
    (s.refs.map (·.1) ++ (s.localCtes ++ tables.filterMap alias?)).Nodup := by
  induction tables generalizing s with
  | nil => simpa using hs
  | cons table tables ih =>
    obtain ⟨u, hu, hrest⟩ := of_bind h
    obtain ⟨hnone, rfl⟩ | ⟨name, hname, hlocal, href, hrefs, hlocals, -, -⟩ := declareCte_cases hu
    · rw [filterMap_cons_none hnone]
      exact ih hrest hs
    · have hnew : name ∉ s.refs.map (·.1) ++ s.localCtes := by
        intro hmem
        obtain hmem | hmem := mem_append.mp hmem
        · obtain ⟨ref, hused, rfl⟩ := mem_map.mp hmem
          rw [hasRef, any_eq_false] at href
          exact href ref hused (beq_self_eq_true _)
        · exact hlocal hmem
      have hstep : (u.refs.map (·.1) ++ u.localCtes).Nodup := by
        rw [hrefs, hlocals, ← append_assoc, ← concat_eq_append]
        exact hs.concat hnew
      have htables := ih hrest hstep
      rwa [hrefs, hlocals, append_assoc, singleton_append, ← filterMap_cons_some hname] at htables

private theorem map_alias?_eq (h : ∀ n ∈ tables, ∃ name, n.alias? = some name) :
    tables.map alias? = (tables.filterMap alias?).map some := by
  induction tables with
  | nil => rfl
  | cons table tables ih =>
    obtain ⟨name, hname⟩ := h table mem_cons_self
    rw [filterMap_cons_some hname, map_cons, map_cons, hname,
      ih fun n hn => h n (mem_cons_of_mem _ hn)]

/-- What a built node says of the names in sight, where the scope shows what is in sight. -/
theorem Shown.sound (h : e.Shown s) (hn : Built options r place s n)
    (hinherited : e.inherited = inheritedAt place e.refs) : e.Sound n := by
  constructor
  case nodup => exact h.nodup
  case column =>
    rintro c tag rfl hin
    cases hn with
    | column _ _ found _ =>
      obtain ⟨name, target, hfind, hfound, hview, honly⟩ :=
        resolveColumn_cases found (h.inSelect.trans hin)
      obtain ⟨hqualifier, horigin⟩ := ResolvedColumn.mk.inj hfound
      rw [h.refs] at hfind honly
      obtain ⟨⟨r, relation⟩, href, he⟩ := mem_map.mp hfind
      obtain ⟨rfl, rfl⟩ := Prod.mk.inj he
      refine ⟨r, relation, href, hqualifier, hview, ?_, ?_⟩
      · intro hnone
        obtain ⟨ref, hrefs, -⟩ := map_eq_singleton_iff.mp (honly hnone)
        rw [hrefs, mem_singleton] at href
        rw [hrefs, href]
      · intro v
        rw [horigin]
        exact view?_target relation v
  case view =>
    rintro name isCte label rfl
    cases hn with
    | view => rw [isCte, contains_iff_mem, h.ctes]
  case ctes =>
    rintro role c tag rfl
    cases hn with
    | select fits _ afterWiths _ _ withs =>
      have henter := h.enter fits hinherited
      have hnodup := nodup_of_afterCtes afterWiths (by
        rw [henter.names]
        simpa [childSelect] using henter.nodup)
      rw [henter.names] at hnodup
      have hnames := map_alias?_eq (by
        intro n hn
        obtain ⟨before, after, u, hsplit, hu⟩ := exists_split_of_mem afterWiths hn
        exact (withs before n after u hsplit hu).exists_alias)
      have hsome : (List.map some _).Nodup := hnodup.map fun _ _ => Option.some.inj
      rw [map_append, map_map, childSelect, nil_append] at hsome
      rw [hnames]
      exact hsome

/-- Every node directly inside a node is one step down. -/
theorem exists_step (e : Sight) (h : m ∈ n.children) : ∃ e', Step (e, n) (e', m) := by
  cases n with
  | select role c tag =>
    simp only [children, Clauses.parts_eq, mem_append, Option.mem_toList] at h
    obtain ((h | h) | h) | h := h
    · obtain ⟨before, after, hsplit⟩ := append_of_mem h
      exact ⟨_, .cte hsplit⟩
    · exact ⟨_, .source h⟩
    · obtain ⟨before, after, hsplit⟩ := append_of_mem h
      exact ⟨_, .join hsplit⟩
    · exact ⟨_, .value h⟩
  | compound => exact ⟨_, .side h⟩
  | join type relation on =>
    obtain rfl | h := mem_cons.mp h
    · exact ⟨_, .relation⟩
    · exact ⟨_, .on (Option.mem_toList.mp h)⟩
  | _ => exact ⟨e, .part rfl rfl h⟩

end Sight

open Relation

/-- Whatever was read, the names at every point of the tree are those in sight there: the relations
in sight have distinct names, each column inside a select is found in one of them, and a view is a
common table exactly where one of its name is declared before it. -/
theorem Query.sound_of_read {value : Json} {options : ParseOptions} {query : Query} {e : Sight}
    {n : Node} (h : read value options = .ok query)
    (hn : ReflTransGen Sight.Step ({}, query.root) (e, n)) :
    e.Sound n := by
  have hroot : ∃ place, Built options [] place .root query.root ∧
      Sight.inheritedAt place [] = [] := by
    obtain hroot | hvalue := read_built h
    · exact ⟨.root, hroot, rfl⟩
    · exact ⟨.value, hvalue, rfl⟩
  -- Every point that is reached was built in a scope that shows what is in sight there.
  have hpoint : ∀ p : Sight × Node, ReflTransGen Sight.Step ({}, query.root) p →
      ∃ r place s, Built options r place s p.2 ∧ p.1.Shown s ∧
        p.1.inherited = Sight.inheritedAt place p.1.refs := by
    intro p hp
    induction hp with
    | refl =>
      obtain ⟨place, hroot, hinherited⟩ := hroot
      exact ⟨[], place, .root, hroot, ⟨rfl, by simp [Scope.root], rfl, List.nodup_nil⟩,
        hinherited.symm⟩
    | tail _ hstep ih =>
      obtain ⟨r, place, s, hbuilt, hshown, hinherited⟩ := ih
      exact Sight.Step.shown hbuilt hshown hinherited hstep
  obtain ⟨r, place, s, hbuilt, hshown, hinherited⟩ := hpoint (e, n) hn
  exact hshown.sound hbuilt hinherited

/-- Inside a lateral subquery its own relation is in sight after the one that it is joined to. -/
theorem Query.sound_of_read_lateral :
    ∃ query c,
      read (.object [("type", .string "select"), ("from", .string "v"),
        ("joins", .array [.object [("type", .string "join"),
          ("view", .object [("type", .string "select"), ("from", .string "w"),
            ("columns", .array [.object [("type", .string "column"), ("column", .string "x"),
              ("view", .string "v")]]),
            ("as", .string "l")])]]),
        ("columns", .array [.bool true])]) {} = .ok query ∧
      ReflTransGen Sight.Step ({}, query.root)
        (⟨[("v", .view "v" false none), ("w", .view "w" false none)], [], [], true⟩, .column c {}) ∧
      Sight.Sound ⟨[("v", .view "v" false none), ("w", .view "w" false none)], [], [], true⟩
        (.column c {}) := by
  let c : Column := ⟨"x", some "v", some "v", some "v"⟩
  let inner : Clauses Node := { source := some (.view "w" false none), columns := [.column c {}] }
  let relation : Node := .select (.range true) inner { label := some "l" }
  let outer : Clauses Node :=
    { source := some (.view "v" false none)
      joins := [.join .lateral relation none]
      columns := [.constant (.bool true) {}] }
  have hjoin : outer.joins = [] ++ .join .lateral relation none :: [] := rfl
  have hcolumn : column c {} ∈ inner.values := by simp [Clauses.values, inner]
  have hpath : ReflTransGen Sight.Step ({}, .select .root outer {})
      (⟨[("v", .view "v" false none), ("w", .view "w" false none)], [], [], true⟩, .column c {}) :=
    ((ReflTransGen.single (.join hjoin)).tail .relation).tail (.value hcolumn)
  refine ⟨⟨.select .root outer {}, {}⟩, c, ?_⟩
  refine (fun hread : read _ _ = .ok _ => ⟨hread, hpath, sound_of_read hread hpath⟩) ?_
  cbv

end AnalyticQuery
