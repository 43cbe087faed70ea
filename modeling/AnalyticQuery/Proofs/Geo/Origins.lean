import AnalyticQuery.Proofs.Geo.Stable
import AnalyticQuery.Proofs.Tree.Comments
import AnalyticQuery.Proofs.Tree.Footprint

/-!
# Where equations between places are found

At every point of a tree an equation is replaced if its columns hold places of different types, each
column looked for among the relations that the nearest select reads itself. Where a column is found
in such a relation, and that relation is no common table, it is looked for in the view that it is
read from.
-/

namespace AnalyticQuery

open List Node Relation Sight

variable {name : String} {n m k : Node} {e : Sight} {own : List Node} {catalog : Catalog}
variable {refs : Refs} {p q : Spot}

variable {tag : Tag} {left right : Node}
open Geo (Refs)

/-! ## Relations under their names -/

/-- Relations under the names by which they are seen. -/
def Sight.named (relations : List Node) : List (String × Node) :=
  relations.filterMap fun n => n.refName?.map (·, n)

private theorem Sight.mem_named {relations : List Node} :
    (name, n) ∈ named relations ↔ n ∈ relations ∧ n.refName? = some name := by
  simp only [named, mem_filterMap, Option.map_eq_some_iff, Prod.mk.injEq]
  constructor
  · rintro ⟨m, hm, _, hname, rfl, rfl⟩
    exact ⟨hm, hname⟩
  · rintro ⟨hn, hname⟩
    exact ⟨n, hn, name, hname, rfl, rfl⟩

namespace Node

variable {relation : Node} {view : String}

private theorem viewRef?_eq_some : n.viewRef? = some (name, view) ↔
    n.refName? = some name ∧ ∃ isCte label, n = .view view isCte label := by
  cases n with
  | view v isCte label =>
    simp only [viewRef?, refName?, Option.some.injEq, Prod.mk.injEq]
    constructor
    · rintro ⟨rfl, rfl⟩
      exact ⟨rfl, isCte, label, rfl⟩
    · rintro ⟨rfl, _, _, ⟨⟩⟩
      exact ⟨rfl, rfl⟩
  | _ => simp [viewRef?]

private theorem insertEntry_of_fresh {α : Type} {entries : List (String × α)}
    (h : name ∉ entries.map (·.1)) (value : α) :
    insertEntry entries name value = entries ++ [(name, value)] := by
  induction entries with
  | nil => rfl
  | cons entry entries ih =>
    simp only [map_cons, mem_cons, not_or] at h
    rw [insertEntry, if_neg (by simpa using Ne.symm h.1), ih h.2, cons_append]

private theorem nodup_filterMap_viewRef? (h : ((named own).map (·.1)).Nodup) :
    ((own.filterMap viewRef?).map (·.1)).Nodup := by
  have hsub : ((own.filterMap viewRef?).map (·.1)).Sublist ((named own).map (·.1)) := by
    clear h
    induction own with
    | nil => exact .slnil
    | cons n own ih =>
      cases n with
      | view v isCte label => exact ih.cons_cons _
      | _ =>
        rw [filterMap_cons_none rfl, named, filterMap_cons]
        split
        · exact ih
        · exact ih.cons _
  exact h.sublist hsub

/-- Views with distinct names are all kept. -/
theorem viewRefs_eq (h : ((named own).map (·.1)).Nodup) :
    viewRefs own = own.filterMap viewRef? := by
  have hrun : ∀ (refs before : Refs), ((before ++ refs).map (·.1)).Nodup →
      refs.foldl (fun refs ref => insertEntry refs ref.1 ref.2) before = before ++ refs := by
    intro refs
    induction refs with
    | nil => exact fun before _ => (append_nil before).symm
    | cons ref refs ih =>
      intro before hnodup
      have hfresh : ref.1 ∉ before.map (·.1) := by
        rw [map_append, map_cons] at hnodup
        exact fun hmem => (nodup_append.mp hnodup).2.2 _ hmem _ mem_cons_self rfl
      rw [foldl_cons, insertEntry_of_fresh hfresh, ih _ (by simpa using hnodup)]
      simp
  exact hrun _ [] (nodup_filterMap_viewRef? h)

private theorem lookup_viewRefs (h : ((named own).map (·.1)).Nodup) :
    (viewRefs own).lookup name = some view ↔
      ∃ n, (name, n) ∈ named own ∧ ∃ isCte label, n = .view view isCte label := by
  rw [viewRefs_eq h, lookup_eq_some_iff]
  constructor
  · rintro ⟨before, after, hsplit, -⟩
    obtain ⟨n, hn, hn'⟩ := mem_filterMap.mp (hsplit ▸ mem_append_right before mem_cons_self)
    obtain ⟨hname, hview⟩ := viewRef?_eq_some.mp hn'
    exact ⟨n, mem_named.mpr ⟨hn, hname⟩, hview⟩
  · rintro ⟨n, hmem, hview⟩
    obtain ⟨hn, hname⟩ := mem_named.mp hmem
    obtain ⟨before, after, hsplit⟩ :=
      append_of_mem (mem_filterMap.mpr ⟨n, hn, viewRef?_eq_some.mpr ⟨hname, hview⟩⟩)
    refine ⟨before, after, hsplit, fun ref href => ?_⟩
    have hnodup := nodup_filterMap_viewRef? h
    rw [hsplit, map_append, map_cons] at hnodup
    rw [bne_iff_ne]
    exact ((nodup_append.mp hnodup).2.2 _ (mem_map_of_mem href) _ mem_cons_self).symm

/-- A column is looked for in the relation of its own select under the name that it is found by,
whether that is a view or a common table. -/
theorem viewIn_own {c : Column} (h : ((named own).map (·.1)).Nodup)
    (hmem : (name, relation) ∈ named own) (hview : ∀ v, c.view = some v → v = name)
    (honly : c.view = none → own = [relation]) :
    c.viewIn (viewRefs own) = some view ↔ ∃ isCte label, relation = .view view isCte label := by
  cases hc : c.view with
  | none =>
    rw [viewRefs_eq h, honly hc]
    unfold Column.viewIn
    rw [hc]
    cases relation <;> simp [filterMap_cons, viewRef?]
  | some v =>
    obtain rfl := hview v hc
    unfold Column.viewIn
    rw [hc]
    refine (lookup_viewRefs h).trans ⟨?_, fun hrelation => ⟨relation, hmem, hrelation⟩⟩
    rintro ⟨n, hn, hview⟩
    obtain ⟨-, rfl⟩ := Prod.mk.inj (inj_on_of_nodup_map h hmem hn rfl)
    exact hview

/-- A column whose relation is none of its own select's is not found. -/
theorem viewIn_other {c : Column} (h : ((named own).map (·.1)).Nodup) (hview : c.view = some name)
    (hname : name ∉ (named own).map (·.1)) : c.viewIn (viewRefs own) = none := by
  unfold Column.viewIn
  rw [hview, Option.eq_none_iff_forall_ne_some]
  intro view hlookup
  obtain ⟨n, hn, -⟩ := (lookup_viewRefs h).mp hlookup
  exact hname (mem_map_of_mem hn)

/-- The relations that the nearest select reads itself, inside an expression. -/
def relationsInside (own : List Node) : Node → List Node
  | select _ c _ => c.relations
  | _ => own

private theorem refsInside_viewRefs (own : List Node) (n : Node) :
    n.refsInside (viewRefs own) = viewRefs (n.relationsInside own) := by
  cases n <;> rfl

/-- The type of the places that an expression holds, if it is a column that is not cast and is read
from a view. -/
def originType? (catalog : Catalog) : Node → Option String
  | column c tag => if tag.cast.isNone then c.origin.bind (catalog.geoType? · c.name) else none
  | short _ inner => inner.originType? catalog
  | _ => none

end Node

namespace Geo

/-! ## Points of a tree -/

/-- A point of a tree: what is in sight there, and the relations that the nearest select reads
itself. -/
structure Spot where
  sight : Sight := {}
  own : List Node := []
  node : Node

/-- One step down a tree, where values bound to parameters are left out. -/
inductive Spot.Step : Spot → Spot → Prop
  | intro {e e' own n m} (sight : Sight.Step (e, n) (e', m)) (written : m ∈ n.inQl) :
      Step ⟨e, own, n⟩ ⟨e', n.relationsInside own, m⟩

/-- A point that is reached from the root of a tree. -/
def Spot.In (root : Node) (p : Spot) : Prop := ReflTransGen Spot.Step { node := root } p

/-- Whether a column is found in a relation that the nearest select reads itself and that is no
common table; one that names no view, in the only relation of that select. -/
def Spot.Settles (p : Spot) (c : Column) : Prop :=
  ∀ name relation, (name, relation) ∈ p.sight.refs → c.qualifier = some name →
    (name, relation) ∈ named p.own ∧ (∀ view label, relation ≠ .view view true label) ∧
      (c.view = none → p.own = [relation])

/-- What holds at every point of a tree: the relations in sight are relations of the nearest select,
or relations around it under other names. -/
structure Spot.Stands (options : ParseOptions) (root : Node) (p : Spot) : Prop where
  sight : Sight.Stands options root (p.sight, p.node)
  refs : ∃ outer, (∀ ref ∈ p.sight.refs, ref ∈ outer ∨ ref ∈ named p.own) ∧
    ((outer ++ named p.own).map (·.1)).Nodup
  join : ∀ type relation on, p.node = .join type relation on → relation ∈ p.own

variable {options : ParseOptions} {root : Node}

/-- The relations that a select reads itself have names that differ from each other and from those
around it. -/
theorem nodup_relations {r : List String} {place : Place} {s : Scope} {role : SelectRole}
    {c : Clauses Node} (h : Built options r place s (.select role c tag)) (hshown : e.Shown s)
    (hinherited : e.inherited = inheritedAt place e.refs) :
    ((e.inherited ++ named c.relations).map (·.1)).Nodup := by
  cases h with
  | select fits _ afterWiths afterSource afterJoins =>
    have hrefs :=
      (((hshown.enter fits hinherited).withCtes afterWiths).withSource afterSource).withJoins
      afterJoins
    have hnodup := hrefs.nodup
    rw [withRefs, withRefs, append_assoc, ← filterMap_append] at hnodup
    exact hnodup

private theorem mem_placed_of_part (plain : n.role? = none) (noJoin : n.joined? = none)
    (hm : m ∈ n.children) :
    (.value, m) ∈ n.placed := by
  have hparts : (Place.value, m) ∈ n.children.map (Place.value, ·) := mem_map_of_mem hm
  cases n with
  | select | compound => cases plain
  | join => cases noJoin
  | _ => exact hparts

theorem Spot.Stands.step (h : p.Stands options root) (hstep : Spot.Step p q) :
    q.Stands options root := by
  obtain @⟨e, e', own, n, m, hsight, hwritten⟩ := hstep
  have hstands := h.sight.step hsight
  obtain ⟨r, place, s, hbuilt, hshown, hinherited⟩ := h.sight.built
  obtain ⟨outer, hrefs, hnodup⟩ := h.refs
  -- Joins stand among the joins of a select alone.
  have hjoin : ∀ place', (place', m) ∈ n.placed → place' ≠ .join → ∀ type relation on,
      m ≠ .join type relation on := by
    rintro place' hplaced hplace type relation on rfl
    obtain ⟨r', s', hm⟩ := Built.inside (a := (place, n)) hbuilt hplaced
    exact hplace (hm.wellFormed.join.mp rfl)
  cases hsight with
  | @cte _ role c tag before _ after split =>
    refine ⟨hstands, ⟨e.inherited, fun ref => .inl, nodup_relations hbuilt hshown hinherited⟩, ?_⟩
    exact fun _ _ _ hm => (hjoin .cte (by simp [placed, split]) (by rintro ⟨⟩) _ _ _ hm).elim
  | @source _ role c tag _ mem =>
    refine ⟨hstands, ⟨e.inherited, fun ref => .inl, nodup_relations hbuilt hshown hinherited⟩, ?_⟩
    exact fun _ _ _ hm =>
      (hjoin .source (by simp [placed, Option.mem_def.mp mem]) (by rintro ⟨⟩) _ _ _ hm).elim
  | @join _ role c tag before _ after split =>
    refine ⟨hstands, ⟨e.inherited, fun ref href => ?_, nodup_relations hbuilt hshown hinherited⟩,
      ?_⟩
    · obtain href | href := mem_append.mp href
      · exact .inl href
      · obtain ⟨hmem, hname⟩ := mem_named.mp href
        refine .inr (mem_named.mpr ⟨?_, hname⟩)
        change _ ∈ c.source.toList ++ c.joins.filterMap joined?
        rw [split, filterMap_append, ← append_assoc]
        exact mem_append_left _ hmem
    · rintro type relation on rfl
      exact mem_append_right _ (mem_filterMap.mpr
        ⟨_, split ▸ mem_append_right _ mem_cons_self, rfl⟩)
  | @value _ role c tag _ mem =>
    refine ⟨hstands,
      ⟨e.inherited, fun ref => mem_append.mp, nodup_relations hbuilt hshown hinherited⟩, ?_⟩
    exact fun _ _ _ hm => (hjoin .value (by simp [placed, mem]) (by rintro ⟨⟩) _ _ _ hm).elim
  | @side _ role op all left right tag _ mem =>
    refine ⟨hstands, ⟨outer, hrefs, hnodup⟩, ?_⟩
    exact fun _ _ _ hm => (hjoin .side (by simpa [placed] using mem) (by rintro ⟨⟩) _ _ _ hm).elim
  | @relation _ type _ on =>
    refine ⟨hstands, ⟨outer, hrefs, hnodup⟩, ?_⟩
    exact fun _ _ _ hm => (hjoin (.joined type) (by simp [placed]) (by rintro ⟨⟩) _ _ _ hm).elim
  | @on _ type relation on _ mem =>
    refine ⟨hstands, ⟨outer, fun ref href => ?_, hnodup⟩, ?_⟩
    · obtain href | href := mem_append.mp href
      · exact hrefs ref href
      · obtain ⟨hmem, hname⟩ := mem_named.mp href
        obtain rfl := mem_singleton.mp hmem
        exact .inr (mem_named.mpr ⟨h.join _ _ _ rfl, hname⟩)
    · exact fun _ _ _ hm =>
        (hjoin .value (by simp [placed, Option.mem_def.mp mem]) (by rintro ⟨⟩) _ _ _ hm).elim
  | part plain noJoin mem =>
    have hown : n.relationsInside own = own := by
      cases n with
      | select => cases plain
      | _ => rfl
    rw [hown]
    refine ⟨hstands, ⟨outer, hrefs, hnodup⟩, ?_⟩
    exact fun _ _ _ hm =>
      (hjoin .value (mem_placed_of_part plain noJoin mem) (by rintro ⟨⟩) _ _ _ hm).elim

/-- Every point that is reached stands in the tree. -/
theorem Spot.In.stands {value : Json} {query : Query} (h : p.In query.root)
    (hread : Query.read value options = .ok query) (hroot : query.root.type = .select) :
    p.Stands options query.root := by
  induction h with
  | refl =>
    have hbuilt : ∃ place, Built options [] place .root query.root ∧ inheritedAt place [] = [] := by
      obtain hbuilt | hbuilt := Query.read_built hread
      · exact ⟨.root, hbuilt, rfl⟩
      · exact ⟨.value, hbuilt, rfl⟩
    obtain ⟨place, hbuilt, hinherited⟩ := hbuilt
    refine ⟨⟨⟨[], place, .root, hbuilt, ⟨rfl, by simp [Scope.root], rfl, nodup_nil⟩,
      hinherited.symm⟩, .refl,
      nofun, nofun, .inr hroot⟩, ⟨[], nofun, nodup_nil⟩, ?_⟩
    intro type relation on hjoin
    have hjoin : query.root = .join type relation on := hjoin
    rw [hjoin] at hroot
    cases hroot
  | tail _ hstep ih => exact ih.step hstep

/-! ## Columns -/

/-- How a column at a point is found, and where the search looks for it. -/
structure Spot.Finds (p : Spot) (c : Column) (name : String) (relation : Node) : Prop where
  /-- The column is found in a relation in sight. -/
  mem : (name, relation) ∈ p.sight.refs
  qualifier : c.qualifier = some name
  /-- It is read from the relation if that is a view. -/
  origin : ∀ view, c.origin = some view ↔ ∃ label, relation = .view view false label
  /-- In a relation of its own select it is looked for in the view of the relation's name, also
  where the relation is a common table. -/
  own : (name, relation) ∈ named p.own → (c.view = none → p.own = [relation]) → ∀ view,
    c.viewIn (viewRefs p.own) = some view ↔ ∃ isCte label, relation = .view view isCte label
  /-- In a relation of a select around its own it is not looked for. -/
  other : (name, relation) ∉ named p.own → c.view ≠ none → c.viewIn (viewRefs p.own) = none

/-- A column at a place is found in a relation of its scope. -/
theorem Spot.Stands.column {c : Column} (h : p.Stands options root)
    (hnode : p.node = .column c tag) :
    ∃ name relation, p.Finds c name relation := by
  obtain ⟨r, place, s, hbuilt, hshown, hinherited⟩ := h.sight.built
  have henclosed : p.sight.inSelect = true := h.sight.enclosed (by rw [hnode]; rfl)
  obtain ⟨name, relation, hmem, hqualifier, hview, -, horigin⟩ :=
    (hshown.sound hbuilt hinherited).column c tag hnode henclosed
  obtain ⟨outer, hrefs, hnodup⟩ := h.refs
  rw [map_append] at hnodup
  have hown := (nodup_append.mp hnodup).2.1
  refine ⟨name, relation, hmem, hqualifier, horigin, fun hin honly view => ?_,
    fun hout hwritten => ?_⟩
  · exact viewIn_own hown hin hview honly
  · obtain ⟨v, hv⟩ := Option.ne_none_iff_exists'.mp hwritten
    obtain rfl := hview v hv
    have houter : v ∈ outer.map (·.1) := mem_map_of_mem ((hrefs _ hmem).resolve_right hout)
    refine viewIn_other hown hv fun hname => ?_
    exact (nodup_append.mp hnodup).2.2 _ houter _ hname rfl

/-- Where a column is found in a relation of its own select that is no common table, it is looked
for in the view that it is read from. -/
theorem Spot.Stands.viewIn_eq {c : Column} (h : p.Stands options root)
    (hnode : p.node = .column c tag) (hsettles : p.Settles c) :
    c.viewIn (viewRefs p.own) = c.origin := by
  obtain ⟨name, relation, hfinds⟩ := h.column hnode
  obtain ⟨hrelation, hcte, honly⟩ := hsettles name relation hfinds.mem hfinds.qualifier
  refine Option.ext fun view => ?_
  rw [hfinds.own hrelation honly, hfinds.origin]
  constructor
  · rintro ⟨isCte, label, hview⟩
    cases isCte with
    | false => exact ⟨label, hview⟩
    | true => exact absurd hview (hcte view label)
  · rintro ⟨label, hview⟩
    exact ⟨false, label, hview⟩

private theorem placeType?_bare (catalog : Catalog) (refs : Refs) (n : Node) :
    n.bare.placeType? catalog refs = n.placeType? catalog refs ∧
      n.bare.originType? catalog = n.originType? catalog := by
  cases n with
  | short e inner => exact placeType?_bare catalog refs inner
  | _ => exact ⟨rfl, rfl⟩
termination_by sizeOf n

private theorem isShort_bare (n : Node) : n.bare.isShort = false := by
  cases n with
  | short e inner => exact isShort_bare inner
  | _ => rfl
termination_by sizeOf n

theorem Spot.Stands.bare (n : Node) (h : Spot.Stands options root ⟨e, own, n⟩) :
    Spot.Stands options root ⟨e, own, n.bare⟩ := by
  cases n with
  | short source inner =>
    exact Spot.Stands.bare inner
      (h.step (.intro (.part rfl rfl (mem_singleton.mpr rfl)) (mem_singleton.mpr rfl)))
  | _ => exact h
termination_by sizeOf n

/-- The type of the places that an expression holds is that of the view that its column is read
from. -/
theorem Spot.Stands.placeType?_eq (h : Spot.Stands options root ⟨e, own, n⟩)
    (hsettles : ∀ c tag, n.bare = .column c tag → Spot.Settles ⟨e, own, n⟩ c) :
    n.placeType? catalog (viewRefs own) = n.originType? catalog := by
  obtain ⟨hplace, horigin⟩ := placeType?_bare catalog (viewRefs own) n
  have hbare := Spot.Stands.bare n h
  rw [← hplace, ← horigin]
  cases hn : n.bare with
  | column c tag =>
    rw [hn] at hbare
    rw [placeType?, originType?, hbare.viewIn_eq rfl (hsettles c tag hn)]
  | short =>
    have hshort := isShort_bare n
    rw [hn] at hshort
    cases hshort
  | _ => rfl

end Geo

/-! ## The tree that is read back -/

namespace Node

/-- An equation, or a call such as stands for one. -/
def isEquation : Node → Bool
  | operation .eq _ _ _ | call .. => true
  | _ => false

private theorem encloses_withRole (role : SelectRole) (hk : k.isEquation = true)
    (h : n.Encloses k) :
    (n.withRole role).Encloses k := by
  obtain rfl | ⟨m, hm, hbelow⟩ := h.cases
  · cases k with
    | select | compound => cases hk
    | _ => exact .refl
  · cases n <;> exact .of_child hm hbelow

private theorem isBareNull_of_encloses (hk : k.isEquation = true) (h : n.Encloses k) :
    n.isBareNull = false := by
  cases n with
  | constant p tag =>
    obtain rfl | ⟨m, hm, -⟩ := h.cases
    · cases hk
    · cases hm
  | _ => rfl

/-- An equation inside an expression stays inside it when it is read back. -/
theorem encloses_rereadHere (hk : k.isEquation = true) (hm : m ∈ n.inQl) (h : m.Encloses k) :
    n.rereadHere.Encloses k := by
  have hkept : ∀ {o : Option Node}, m ∈ o.toList → m ∈ (o.filter (!·.isBareNull)).toList := by
    intro o ho
    rw [Option.mem_toList] at ho ⊢
    exact Option.mem_filter_iff.mpr ⟨ho, by rw [isBareNull_of_encloses hk h]; rfl⟩
  cases n with
  | select role c tag =>
    refine .of_child ?_ h
    simp only [rereadHere, inQl, children, Clauses.parts, mem_append] at hm ⊢
    obtain ((((((hm | hm) | hm) | hm) | hm) | hm) | hm) | hm := hm <;> simp [hm, hkept]
  | join type relation on =>
    obtain rfl | hm := mem_cons.mp hm
    · exact .of_child mem_cons_self (encloses_withRole _ hk h)
    · exact .of_child (mem_cons_of_mem _ (hkept hm)) h
  | case branches otherwise tag =>
    refine .of_child ?_ h
    obtain hm | hm := mem_append.mp hm
    · exact mem_append_left _ hm
    · exact mem_append_right _ (hkept hm)
  | short e inner =>
    obtain rfl := mem_singleton.mp hm
    exact h
  | operation op operands qualifier tag =>
    change (operation op (if op.isLogical then Builder.flatten op operands else operands) qualifier
      tag).Encloses k
    split
    · next hop =>
      cases habsorbed : Builder.absorbed? op m with
      | none =>
        have hmem : m ∈ Builder.flatten op operands :=
          mem_flatMap.mpr ⟨m, hm, by rw [habsorbed]; exact mem_singleton.mpr rfl⟩
        exact .of_child hmem h
      | some inner =>
        obtain ⟨qualifier', rfl⟩ := Builder.exists_of_absorbed? habsorbed
        -- An equation is no logical operator, so it is inside the operand that is taken up.
        obtain rfl | ⟨m, hinner, h⟩ := h.cases
        · have hno : (operation op inner qualifier' {}).isEquation = false := by
            cases op <;> first | rfl | cases hop
          rw [hno] at hk
          cases hk
        · have hmem : m ∈ Builder.flatten op operands :=
            mem_flatMap.mpr ⟨_, hm, by rw [habsorbed]; exact hinner⟩
          exact .of_child hmem h
    · exact .of_child hm h
  | parameter => cases hm
  | _ => exact .of_child hm h

/-- What stands for an equation is a call, or an equation. -/
theorem crossed_equation (refs : Refs) (left right : Node) (tag : Tag) :
    (∀ leftType rightType, left.placeType? catalog refs = some leftType →
      right.placeType? catalog refs = some rightType → leftType ≠ rightType → ∀ l r,
      GeometryType.place? leftType = some l → GeometryType.place? rightType = some r →
      (operation .eq [left, right] none tag).crossed catalog refs =
        call geoIntersects [placeShape l left, placeShape r right] false tag) ∧
    ((operation .eq [left, right] none tag).crossing? catalog refs = none →
      (operation .eq [left, right] none tag).crossed catalog refs =
        operation .eq [left.crossed catalog refs, right.crossed catalog refs] none tag) := by
  have hcases := crossed_cases catalog (operation .eq [left, right] none tag) refs
  constructor
  · intro leftType rightType hleft hright hne l r hl hr
    have hcrossing := crossing?_eq_some.mpr ⟨left, right, tag, rfl, hleft, hright, hne⟩
    have hsome : (operation .eq [left, right] none tag).intersection? catalog refs =
        some (call geoIntersects [placeShape l left, placeShape r right] false tag) :=
      Option.bind_eq_some_iff.mpr ⟨_, hcrossing, Option.bind_eq_some_iff.mpr
        ⟨l, hl, Option.bind_eq_some_iff.mpr ⟨r, hr, rfl⟩⟩⟩
    obtain h | ⟨h, -⟩ := hcases
    · exact Option.some.inj (h.symm.trans hsome)
    · cases h.symm.trans hsome
  · intro hnone
    have hnone : (operation .eq [left, right] none tag).intersection? catalog refs = none := by
      rw [intersection?, hnone]
      rfl
    obtain h | ⟨-, h⟩ := hcases
    · cases hnone.symm.trans h
    · exact h

private theorem isEquation_crossed (refs : Refs) (left right : Node) (tag : Tag) :
    ((operation .eq [left, right] none tag).crossed catalog refs).isEquation = true := by
  obtain h | ⟨-, h⟩ := crossed_cases catalog (operation .eq [left, right] none tag) refs
  · obtain ⟨_, _, _, _, _, _, _, _, _, -, -, -, hk⟩ := exists_of_intersection? h
    rw [hk]
    rfl
  · rw [h]
    rfl

end Node

namespace Geo

/-- An expression around an equation is no column. -/
theorem Spot.bare_ne_column (h : ReflTransGen Spot.Step q p)
    (hp : p.node = .operation .eq [left, right] none tag) (c : Column) (tag' : Tag) :
    q.node.bare ≠ .column c tag' := by
  induction h using ReflTransGen.head_induction_on with
  | refl =>
    rw [hp]
    nofun
  | head hstep _ ih =>
    obtain @⟨e, e', own, n, m, -, hm⟩ := hstep
    cases n with
    | short source inner =>
      obtain rfl := mem_singleton.mp hm
      exact ih
    | column => cases hm
    | _ => nofun

/-- One step down from an equation that is replaced there is no equation. -/
theorem Spot.not_reaches_of_intersection? (hk : n.intersection? catalog refs = some k)
    (hm : m ∈ n.inQl) (h : ReflTransGen Spot.Step ⟨e, own, m⟩ p) :
    p.node ≠ .operation .eq [left, right] none tag := by
  intro hp
  obtain ⟨l, r, _, _, _, c, d, _, _, rfl, hl, hr, -⟩ := exists_of_intersection? hk
  obtain rfl | hm := mem_cons.mp hm
  · exact Spot.bare_ne_column h hp _ _ hl
  · obtain rfl := mem_singleton.mp hm
    exact Spot.bare_ne_column h hp _ _ hr

/-- What stands for an equation is inside what stands for any expression around it. -/
theorem Spot.encloses_crossed (h : ReflTransGen Spot.Step q p)
    (hp : p.node = .operation .eq [left, right] none tag) :
    (q.node.crossed catalog (viewRefs q.own)).Encloses
    (p.node.crossed catalog (viewRefs p.own)) := by
  have hequation : (p.node.crossed catalog (viewRefs p.own)).isEquation = true := by
    rw [hp]
    exact isEquation_crossed _ _ _ _
  induction h using ReflTransGen.head_induction_on with
  | refl => exact .refl
  | head hstep hrest ih =>
    obtain @⟨e, e', own, n, m, -, hm⟩ := hstep
    dsimp only at ih ⊢
    rw [← refsInside_viewRefs] at ih
    obtain h | ⟨-, h⟩ := n.crossed_cases catalog (viewRefs own)
    · exact absurd hp (Spot.not_reaches_of_intersection? h hm hrest)
    · rw [h]
      refine encloses_rereadHere hequation ?_ ih
      rw [inQl_mapWritten]
      exact mem_map_of_mem hm

/-- In a tree without equations between places there is none at any point. -/
theorem Spot.calm_of_reaches (h : ReflTransGen Spot.Step q p)
    (hq : q.node.Calm catalog (viewRefs q.own)) :
    p.node.Calm catalog (viewRefs p.own) := by
  induction h with
  | refl => exact hq
  | tail _ hstep ih =>
    obtain @⟨e, e', own, n, m, -, hm⟩ := hstep
    obtain ⟨-, below⟩ := ih
    dsimp only
    rw [← refsInside_viewRefs]
    exact below m hm

/-- Where the search does not fail, the types at every equation are types of places. -/
theorem Spot.placed_of_reaches (h : ReflTransGen Spot.Step q p)
    (hp : p.node = .operation .eq [left, right] none tag)
    (hq : q.node.Placed catalog (viewRefs q.own)) :
    p.node.Placed catalog (viewRefs p.own) := by
  induction h using ReflTransGen.head_induction_on with
  | refl => exact hq
  | head hstep hrest ih =>
    obtain @⟨e, e', own, n, m, -, hm⟩ := hstep
    obtain ⟨hnone | ⟨k, hk⟩, below⟩ := hq
    · refine ih ?_
      dsimp only
      rw [← refsInside_viewRefs]
      exact below hnone m hm
    · exact absurd hp (Spot.not_reaches_of_intersection? hk hm hrest)

end Geo

namespace Query

/-- The search hits exactly the equations between places of different types, as far as a select
knows its relations.

The query stays as it is, or its tree is the one with intersections in place of equations. At every
point of the tree, the values bound to parameters aside, an equation without a qualifier becomes the
intersection of the shapes of its sides if both are columns that are not cast and hold places of
different types, and stays an equation otherwise. A column is looked for among the relations that
the nearest select reads itself. Where it is found in one that is no common table, the type of its
places is that of the view that it is read from. -/
theorem insertIntersections_hits (catalog : Catalog) {value : Json} {options : ParseOptions}
    {query query' : Query} (hread : read value options = .ok query)
    (hroot : query.root.type = .select) (h : Geo.insertIntersections catalog query = .ok query') :
    (query' = query ∨ query'.root = (query.root.crossed catalog []).withRole .root) ∧
    (∀ p : Geo.Spot, p.In query.root → ∀ left right tag,
      p.node = .operation .eq [left, right] none tag →
      (∀ leftType rightType, left.placeType? catalog (viewRefs p.own) = some leftType →
        right.placeType? catalog (viewRefs p.own) = some rightType → leftType ≠ rightType →
        ∃ l r, GeometryType.place? leftType = some l ∧ GeometryType.place? rightType = some r ∧
          p.node.crossed catalog (viewRefs p.own) =
            .call geoIntersects [placeShape l left, placeShape r right] false tag ∧
          query'.root.Encloses (p.node.crossed catalog (viewRefs p.own))) ∧
      (p.node.crossing? catalog (viewRefs p.own) = none → ∃ change : Node → Node,
        (change = id ∨ change = crossed catalog (viewRefs p.own)) ∧
          query'.root.Encloses (.operation .eq [change left, change right] none tag)) ∧
      ((∀ n ∈ [left, right], ∀ c tag, n.bare = .column c tag → p.Settles c) →
        ∀ n ∈ [left, right], n.placeType? catalog (viewRefs p.own) = n.originType? catalog)) ∧
    ∀ p : Geo.Spot, p.In query.root → ∀ c tag, p.node = .column c tag →
      ∃ name relation, p.Finds c name relation := by
  obtain ⟨hplaced, hchanged⟩ := Geo.of_insertIntersections hread h
  refine ⟨hchanged.imp (·.2) (·.2.2), ?_,
    fun p hp c tag hnode => (hp.stands hread hroot).column hnode⟩
  rintro ⟨e, own, n⟩ hp left right tag rfl
  have hstands := hp.stands hread hroot
  refine ⟨?_, ?_, ?_⟩
  · intro leftType rightType hleft hright hne
    have hcrossing := crossing?_eq_some.mpr ⟨left, right, tag, rfl, hleft, hright, hne⟩
    obtain ⟨hcalm, -⟩ | ⟨-, -, hquery'⟩ := hchanged
    · obtain ⟨hnone, -⟩ := Geo.Spot.calm_of_reaches hp hcalm
      cases hnone.symm.trans hcrossing
    · obtain ⟨hnone | ⟨k, hk⟩, -⟩ := Geo.Spot.placed_of_reaches hp rfl hplaced
      · cases hnone.symm.trans hcrossing
      · obtain ⟨types, htypes, hk⟩ := Option.bind_eq_some_iff.mp hk
        cases htypes.symm.trans hcrossing
        obtain ⟨l, hl, hk⟩ := Option.bind_eq_some_iff.mp hk
        obtain ⟨r, hr, -⟩ := Option.bind_eq_some_iff.mp hk
        refine ⟨l, r, hl, hr, (crossed_equation _ left right tag).1 _ _ hleft hright hne l
          r hl hr, ?_⟩
        rw [hquery']
        exact encloses_withRole .root (isEquation_crossed _ _ _ _)
          (Geo.Spot.encloses_crossed hp rfl)
  · intro hnone
    obtain ⟨-, rfl⟩ | ⟨-, -, hquery'⟩ := hchanged
    · exact ⟨id, .inl rfl, hstands.sight.inside⟩
    · refine ⟨_, .inr rfl, ?_⟩
      rw [hquery', ← (crossed_equation _ left right tag).2 hnone]
      exact encloses_withRole .root (isEquation_crossed _ _ _ _) (Geo.Spot.encloses_crossed hp rfl)
  · intro hsettles n hn
    exact (hstands.step (.intro (.part rfl rfl hn) hn)).placeType?_eq fun c tag hc =>
      hsettles n hn c tag hc

/-- An equation in the condition of a join, between columns of two views. -/
theorem insertIntersections_hits_join :
    ∃ query, read (.object [("type", .string "select"), ("columns", .array [.nat 1]),
          ("from", .object
            [("type", .string "view"), ("view", .string "sales"), ("as", .string "s")]),
          ("joins", .array [.object [("type", .string "join"), ("view", .string "regions"),
            ("on", .object
              [("type", .string "operator"), ("value", .string "="), ("operands", .array
              [.object
                [("type", .string "column"), ("view", .string "s"), ("column", .string "fsa")],
                .object [("type", .string "column"), ("view", .string "regions"),
                  ("column", .string "da")]])])]])]) {} =
        .ok query ∧ query.root.type = .select ∧
      ∃ query', Geo.insertIntersections
          ⟨[("sales", { columns := [("fsa", { geoType := some "ca-fsa" })] }),
            ("regions", { columns := [("da", { geoType := some "ca-da" })] })]⟩ query = .ok query' ∧
        query'.root.Encloses (.call geoIntersects
          [.geometry .caFsa [.column ⟨"fsa", some "s", some "s", some "sales"⟩ {}] {},
            .geometry .caDa [.column ⟨"da", some "regions", some "regions", some "regions"⟩ {}] {}]
                false {}) := by
  let left : Node := .column ⟨"fsa", some "s", some "s", some "sales"⟩ {}
  let right : Node := .column ⟨"da", some "regions", some "regions", some "regions"⟩ {}
  let join : Node := .join .inner (.view "regions" false none)
    (some (.operation .eq [left, right] none {}))
  let clauses : Clauses Node :=
    { source := some (.view "sales" false (some "s")), joins := [join],
      columns := [.constant (.int 1) {}] }
  let catalog : Catalog :=
    ⟨[("sales", { columns := [("fsa", { geoType := some "ca-fsa" })] }),
      ("regions", { columns := [("da", { geoType := some "ca-da" })] })]⟩
  have hpoint : Geo.Spot.In (.select .root clauses {})
      ⟨⟨[("s", .view "sales" false (some "s")), ("regions", .view "regions" false none)],
        [], [], true⟩,
        clauses.relations, .operation .eq [left, right] none {}⟩ := by
    have hjoin : clauses.joins = [] ++ join :: [] := rfl
    have hmem : join ∈ (select .root clauses {}).inQl := by
      simp [inQl, children, Clauses.parts, clauses]
    exact (ReflTransGen.single (.intro (.join hjoin) hmem)).tail
      (.intro (.on rfl) (by simp [inQl, children]))
  have hleft : left.placeType? catalog (viewRefs clauses.relations) = some "ca-fsa" := by
    decide +kernel
  have hright : right.placeType? catalog (viewRefs clauses.relations) = some "ca-da" := by
    decide +kernel
  have hfsa : GeometryType.place? "ca-fsa" = some .caFsa := by decide +kernel
  have hda : GeometryType.place? "ca-da" = some .caDa := by decide +kernel
  have hfound : ((Geo.insertIntersections catalog ⟨.select .root clauses {}, {}⟩).toOption.map
      fun _ => ()) = some () := by
    decide +kernel
  obtain ⟨query', hquery', -⟩ := Result.exists_ok_of_map hfound fun _ _ _ => trivial
  refine ⟨⟨.select .root clauses {}, {}⟩,
    (fun hread : read _ _ = .ok _ => ⟨hread, rfl, query', hquery', ?_⟩) (by cbv)⟩
  obtain ⟨-, hpoints, -⟩ := insertIntersections_hits catalog hread rfl hquery'
  obtain ⟨l, r, hl, hr, himage, hin⟩ :=
    (hpoints _ hpoint left right {} rfl).1 "ca-fsa" "ca-da" hleft hright (by decide)
  cases hl.symm.trans hfsa
  cases hr.symm.trans hda
  rw [himage] at hin
  exact hin

/-- A common table with the name of a view is taken for the view: its column is compared as a place
of the view's type, though nothing is read from the view. -/
theorem common_table_taken_for_view :
    ∃ query, read (.object [("type", .string "select"), ("columns", .array [.nat 1]),
          ("with", .array
            [.object [("type", .string "select"), ("from", .string "v"), ("as", .string "sales"),
            ("columns",
              .array [.object [("type", .string "column"), ("column", .string "fsa")]])]]),
          ("from", .string "sales"),
          ("joins", .array [.object [("type", .string "join"), ("view", .string "regions"),
            ("on", .object
              [("type", .string "operator"), ("value", .string "="), ("operands", .array
              [.object
                [("type", .string "column"), ("view", .string "sales"), ("column", .string "fsa")],
                .object [("type", .string "column"), ("view", .string "regions"),
                  ("column", .string "da")]])])]])]) {} =
        .ok query ∧
      (query.viewColumns, (query.sql "pg" {}).toOption) =
        ([("v", ["fsa"]), ("regions", ["da"])],
          some ("WITH \"sales\" AS (SELECT \"v\".\"fsa\" FROM \"v\") SELECT 1 FROM \"sales\" " ++
            "INNER JOIN \"regions\" ON (\"sales\".\"fsa\" = \"regions\".\"da\")")) ∧
      ∃ query', Geo.insertIntersections
          ⟨[("sales", { columns := [("fsa", { geoType := some "ca-fsa" })] }),
            ("regions", { columns := [("da", { geoType := some "ca-da" })] })]⟩ query = .ok query' ∧
        (query'.sql "pg" {}).toOption =
          some ("WITH \"sales\" AS (SELECT \"v\".\"fsa\" FROM \"v\") SELECT 1 FROM \"sales\" " ++
            "INNER JOIN \"regions\" ON ST_Intersects(" ++
            "(SELECT geometry FROM geo_place WHERE type = 'ca-fsa' AND local_id = \"sales\".\"fsa\"), " ++
            "(SELECT geometry FROM geo_place WHERE type = 'ca-da' AND local_id = \"regions\".\"da\"))") := by
  let left : Node := .column ⟨"fsa", some "sales", some "sales", none⟩ {}
  let right : Node := .column ⟨"da", some "regions", some "regions", some "regions"⟩ {}
  let table : Node := .select .cte
    { source := some (.view "v" false none),
      columns := [.column ⟨"fsa", none, some "v", some "v"⟩ {}] }
    { label := some "sales" }
  let query : Query :=
    ⟨.select .root
      { withs := [table]
        source := some (.view "sales" true none)
        joins := [.join .inner (.view "regions" false none)
          (some (.operation .eq [left, right] none {}))]
        columns := [.constant (.int 1) {}] } {}, {}⟩
  have hpg : EngineRegistry.standard.get? "pg" = some .pg := by decide +kernel
  refine ⟨query, (fun hread : read _ _ = .ok query => ⟨hread, ?_, ?_⟩) (by cbv)⟩
  · rw [sql_of_read hread hpg]
    decide +kernel
  · have hsql : ∀ catalog query', Geo.insertIntersections catalog query = .ok query' →
        query'.sql "pg" {} = query'.root.sqlAliased ⟨.pg, {}⟩ := by
      intro catalog query' hquery'
      obtain ⟨-, ⟨-, rfl⟩ | ⟨-, hread', -⟩⟩ := Geo.of_insertIntersections hread hquery'
      · exact sql_of_read hread hpg {}
      · exact sql_of_read hread' hpg {}
    exact (Result.exists_ok_of_map (by decide +kernel) fun _ _ _ => trivial).imp
      fun query' h => ⟨h.1, (congrArg Except.toOption (hsql _ query' h.1)).trans h.2.1⟩

end Query

end AnalyticQuery
