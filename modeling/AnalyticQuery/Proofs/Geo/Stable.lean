import AnalyticQuery.Proofs.Geo.Rewriting
import AnalyticQuery.Proofs.Tree.Points

/-!
# Queries after the search

A query with intersections in place of its equations between places has no such equation left, so a
second search changes nothing. It reads the same columns of the same views and refers to the same
parameters as before, in the same order.
-/

namespace AnalyticQuery

open List Result

open Geo (Refs)

variable {options : ParseOptions} {n m : Node} {value : Json} {query : Query} {catalog : Catalog}

namespace Node

variable {refs : Refs}

/-! ## Trees without equations between places -/

/-- A tree without equations between places of different types, the values bound to parameters
aside. -/
inductive Calm (catalog : Catalog) : Refs → Node → Prop
  | intro {refs : Refs} {n : Node} (here : n.crossing? catalog (n.refsInside refs) = none)
      (below : ∀ m ∈ n.inQl, Calm catalog (n.refsInside refs) m) : Calm catalog refs n

/-- A tree in whose equations between places of different types both types are types of places. -/
inductive Placed (catalog : Catalog) : Refs → Node → Prop
  | intro {refs : Refs} {n : Node}
      (here : n.crossing? catalog (n.refsInside refs) = none ∨
        ∃ k, n.intersection? catalog (n.refsInside refs) = some k)
      (below : n.crossing? catalog (n.refsInside refs) = none →
        ∀ m ∈ n.inQl, Placed catalog (n.refsInside refs) m) : Placed catalog refs n

private theorem spreads_quiet (catalog : Catalog) (refs : Refs) :
    Json.Spreads (Geo.Quiet catalog refs) where
  null := Geo.quiet_null
  bool := Geo.quiet_bool
  number := Geo.quiet_number
  string := Geo.quiet_string
  array := Geo.quiet_array
  view name := .intro rfl fun w hw => by
    simp only [viewQl, Geo.inside, map_cons, map_nil, mem_cons, not_mem_nil, or_false] at hw
    obtain rfl | rfl := hw <;> exact Geo.quiet_string _

private theorem spreads_checked (catalog : Catalog) (refs : Refs) :
    Json.Spreads (Geo.Checked catalog refs) where
  null := .intro rfl fun _ => by rintro _ ⟨⟩
  bool _ := .intro rfl fun _ => by rintro _ ⟨⟩
  number _ := .intro rfl fun _ => by rintro _ ⟨⟩
  string _ := .intro rfl fun _ => by rintro _ ⟨⟩
  array items := by
    constructor
    · rintro ⟨here, below⟩
      cases here
      exact below rfl
    · exact fun h => .intro rfl fun _ => h
  view name := .intro rfl fun _ w hw => by
    simp only [viewQl, Geo.inside, map_cons, map_nil, mem_cons, not_mem_nil, or_false] at hw
    obtain rfl | rfl := hw <;> exact .intro rfl fun _ => by rintro _ ⟨⟩

private theorem mem_children_of_inQl (h : m ∈ n.inQl) : m ∈ n.children := by
  cases n with
  | parameter => cases h
  | _ => exact h

/-- What the search finds at an expression. -/
theorem intersection_ql (hs : n.isShort = false) {outcome : Option Json}
    (h : Geo.intersection catalog refs (n.ql false) = .ok outcome) :
    (n.crossing? catalog refs = none ∧ outcome = none) ∨
      (n.crossing? catalog refs ≠ none ∧ outcome ≠ none ∧
        ∃ k, n.intersection? catalog refs = some k) := by
  cases hcrossing : n.crossing? catalog refs with
  | none =>
    rw [intersection_ql_of_none hs hcrossing] at h
    cases h
    exact .inl ⟨rfl, rfl⟩
  | some types =>
    obtain ⟨left, right, tag, rfl, hleft, hright, hne⟩ := crossing?_eq_some.mp hcrossing
    cases hinter : (operation .eq [left, right] none tag).intersection? catalog refs with
    | none =>
      obtain ⟨e, he⟩ := (intersection_ql_of_some hleft hright hne).2 hinter
      rw [he] at h
      cases h
    | some k =>
      obtain ⟨l, r, -, hvalue⟩ := (intersection_ql_of_some hleft hright hne).1 k hinter
      rw [hvalue] at h
      cases h
      exact .inr ⟨nofun, nofun, k, rfl⟩

/-- A tree has no equation between places exactly if none is found in its value. -/
theorem quiet_ql_iff (n : Node) (hf : ∀ m, n.Encloses m → m.Formed) (refs : Refs) :
    Geo.Quiet catalog refs (n.ql false) ↔ n.Calm catalog refs := by
  have hbelow : ∀ refs, ∀ m ∈ n.inQl, Geo.Quiet catalog refs (m.ql false) ↔
      m.Calm catalog refs := by
    intro refs m hm
    have hm := mem_children_of_inQl hm
    have := sizeOf_lt_of_mem_children hm
    exact quiet_ql_iff m (fun k hk => hf k (.of_child hm hk)) refs
  cases hs : n.isShort with
  | true =>
    cases n with
    | short e inner =>
      have hinner := hbelow refs inner (by simp [inQl, children])
      constructor
      · intro h
        refine .intro rfl fun m hm => ?_
        obtain rfl := mem_singleton.mp hm
        exact hinner.mp h
      · rintro ⟨-, below⟩
        exact hinner.mpr (below inner (mem_singleton.mpr rfl))
    | _ => cases hs
  | false =>
    rw [Geo.quiet_iff, refsInside_ql (hf n .refl) hs, forall_inside_ql (spreads_quiet catalog _) hs]
    constructor
    · rintro ⟨here, below⟩
      obtain ⟨hnone, -⟩ | ⟨-, hsome, -⟩ := intersection_ql hs here
      · exact .intro hnone fun m hm => (hbelow _ m hm).mp (below m hm)
      · exact absurd rfl hsome
    · rintro ⟨here, below⟩
      exact ⟨intersection_ql_of_none hs here, fun m hm => (hbelow _ m hm).mpr (below m hm)⟩
termination_by sizeOf n

/-- Where the search does not fail, both types are types of places. -/
theorem placed_of_checked (n : Node) (hf : ∀ m, n.Encloses m → m.Formed) (refs : Refs)
    (h : Geo.Checked catalog refs (n.ql false)) : n.Placed catalog refs := by
  have hbelow : ∀ refs, ∀ m ∈ n.inQl, Geo.Checked catalog refs (m.ql false) →
      m.Placed catalog refs := by
    intro refs m hm
    have hm := mem_children_of_inQl hm
    have := sizeOf_lt_of_mem_children hm
    exact placed_of_checked m (fun k hk => hf k (.of_child hm hk)) refs
  cases hs : n.isShort with
  | true =>
    cases n with
    | short e inner =>
      refine .intro (.inl rfl) fun _ m hm => ?_
      obtain rfl := mem_singleton.mp hm
      exact hbelow refs m hm h
    | _ => cases hs
  | false =>
    obtain ⟨here, below⟩ := h
    rw [refsInside_ql (hf n .refl) hs] at here below
    obtain ⟨hnone, rfl⟩ | ⟨hcrossing, -, hsome⟩ := intersection_ql hs here
    · have below := (forall_inside_ql (spreads_checked catalog _) hs).mp (below rfl)
      exact .intro (.inl hnone) fun _ m hm => hbelow _ m hm (below m hm)
    · exact .intro (.inr hsome) fun hnone => absurd hnone hcrossing
termination_by sizeOf n

/-! ## What is read back -/

theorem inQl_mapWritten (f : Node → Node) (n : Node) : (n.mapWritten f).inQl = n.inQl.map f := by
  cases n with
  | parameter => rfl
  | _ => rw [mapWritten, inQl, inQl, children_mapParts] <;> rintro _ _ _ ⟨⟩

theorem Calm.withRole (role : SelectRole) (h : n.Calm catalog refs) :
    (n.withRole role).Calm catalog refs := by
  obtain ⟨here, below⟩ := h
  cases n <;> exact .intro here below

/-- What is inside an expression that is read back was inside it or inside one of its operands
before. -/
theorem forall_inQl_rereadHere {P : Node → Prop} (hrole : ∀ m role, P m → P (m.withRole role))
    (hoperands : ∀ op operands qualifier tag, P (operation op operands qualifier tag) →
      ∀ m ∈ operands, P m)
    (hs : n.isShort = false) (h : ∀ m ∈ n.inQl, P m) : ∀ m ∈ n.rereadHere.inQl, P m := by
  have hfilter : ∀ {o : Option Node} {m}, m ∈ (o.filter (!·.isBareNull)).toList → m ∈ o.toList := by
    intro o m hm
    rw [Option.mem_toList] at hm ⊢
    exact (Option.mem_filter_iff.mp hm).1
  cases n with
  | select role c tag =>
    intro m hm
    refine h m ?_
    simp only [rereadHere, inQl, children, Clauses.parts, mem_append] at hm ⊢
    obtain ((((((hm | hm) | hm) | hm) | hm) | hm) | hm) | hm := hm <;> simp [hm, hfilter]
  | join type relation on =>
    intro m hm
    simp only [rereadHere, inQl, children, mem_cons] at hm h
    obtain rfl | hm := hm
    · exact hrole _ _ (h relation (.inl rfl))
    · exact h m (.inr (hfilter hm))
  | case branches otherwise tag =>
    intro m hm
    simp only [rereadHere, inQl, children, mem_append] at hm h
    exact h m (hm.imp_right hfilter)
  | operation op operands qualifier tag =>
    intro m hm
    simp only [rereadHere, splice, inQl, children] at hm h
    split at hm
    · obtain ⟨k, hk, hm⟩ := mem_flatMap.mp hm
      cases habsorbed : Builder.absorbed? op k with
      | none =>
        rw [habsorbed] at hm
        obtain rfl := mem_singleton.mp hm
        exact h m hk
      | some operands =>
        obtain ⟨qualifier, rfl⟩ := Builder.exists_of_absorbed? habsorbed
        rw [habsorbed] at hm
        exact hoperands _ _ _ _ (h _ hk) m hm
    · exact h m hm
  | short => cases hs
  | _ => exact h

/-- What stands for an equation between places: the intersection of the shapes of its columns. -/
theorem exists_of_intersection? {k : Node} (h : n.intersection? catalog refs = some k) :
    ∃ left right tag leftType rightType c d label label', n = operation .eq [left, right] none tag ∧
      left.bare = column c { label } ∧ right.bare = column d { label := label' } ∧
      k = call geoIntersects
          [geometry leftType [column c {}] {}, geometry rightType [column d {}] {}] false tag := by
  obtain ⟨types, hcrossing, h⟩ := Option.bind_eq_some_iff.mp h
  obtain ⟨left, right, tag, rfl, hleft, hright, -⟩ := crossing?_eq_some.mp hcrossing
  obtain ⟨leftType, -, h⟩ := Option.bind_eq_some_iff.mp h
  obtain ⟨rightType, -, h⟩ := Option.bind_eq_some_iff.mp h
  obtain ⟨c, label, hc, -⟩ := exists_column_of_placeType? left hleft
  obtain ⟨d, label', hd, -⟩ := exists_column_of_placeType? right hright
  cases h
  rw [placeShape_eq hc, placeShape_eq hd]
  exact ⟨left, right, tag, leftType, rightType, c, d, label, label', rfl, hc, hd, rfl⟩

theorem crossed_cases (catalog : Catalog) (n : Node) (refs : Refs) :
    n.intersection? catalog (n.refsInside refs) = some (n.crossed catalog refs) ∨
      n.intersection? catalog (n.refsInside refs) = none ∧
        n.crossed catalog refs =
          (n.mapWritten (crossed catalog (n.refsInside refs))).rereadHere := by
  rw [crossed_eq]
  cases n.intersection? catalog (n.refsInside refs) with
  | none => exact .inr ⟨rfl, rfl⟩
  | some k => exact .inl rfl

private theorem placeType?_crossed (n : Node) (refs refs' : Refs) :
    (n.crossed catalog refs).placeType? catalog refs' = n.placeType? catalog refs' := by
  cases n with
  | short e inner =>
    rw [crossed]
    exact placeType?_crossed inner refs refs'
  | operation op operands qualifier tag =>
    obtain h | ⟨-, h⟩ := crossed_cases catalog (operation op operands qualifier tag) refs
    · obtain ⟨_, _, _, _, _, _, _, _, _, -, -, -, hk⟩ := exists_of_intersection? h
      rw [hk]
      rfl
    · rw [h]
      rfl
  | _ =>
    rw [crossed_eq]
    rfl
termination_by sizeOf n

/-! ### No equation is left -/

private theorem viewRef?_crossed (h : n.isRelation = true) (refs : Refs) :
    (n.crossed catalog refs).viewRef? = n.viewRef? := by
  cases n with
  | view | select | compound =>
    rw [crossed_eq]
    rfl
  | _ => cases h

private theorem viewRef?_withRole (role : SelectRole) (n : Node) :
    (n.withRole role).viewRef? = n.viewRef? := by
  cases n <;> rfl

/-- A select that is read back reads the same views under the same names. -/
theorem viewRefs_crossed {role : SelectRole} {c : Clauses Node} {tag : Tag}
    (hf : (select role c tag).Formed) (refs : Refs) :
    viewRefs (mapClauses (crossed catalog refs) c).relations = viewRefs c.relations := by
  obtain ⟨hsource, hjoins⟩ := hf
  have hjoined : ∀ n ∈ c.joins,
      ((n.crossed catalog refs).joined?.bind viewRef?) = n.joined?.bind viewRef? := by
    intro n hn
    obtain ⟨relation, hrelation, his⟩ := hjoins n hn
    cases n with
    | join type relation' on =>
      cases hrelation
      rw [crossed_eq]
      exact (viewRef?_withRole _ _).trans (viewRef?_crossed his refs)
    | _ => cases hrelation
  have hfilter : (mapClauses (crossed catalog refs) c).relations.filterMap viewRef? =
      c.relations.filterMap viewRef? := by
    rw [Clauses.relations, Clauses.relations, filterMap_append, filterMap_append, mapClauses,
      filterMap_map, filterMap_filterMap, filterMap_filterMap]
    congr 1
    · cases hc : c.source with
      | none => rfl
      | some n => simp [filterMap_cons, viewRef?_crossed (hsource n hc)]
    · exact filterMap_congr hjoined
  rw [viewRefs, viewRefs, hfilter]

private theorem refsInside_crossed (hf : n.Formed) (hs : n.isShort = false) (refs : Refs) :
    (n.crossed catalog refs).refsInside refs = n.refsInside refs := by
  cases n with
  | short => cases hs
  | select role c tag =>
    rw [crossed_eq]
    exact viewRefs_crossed hf _
  | operation op operands qualifier tag =>
    obtain h | ⟨-, h⟩ := crossed_cases catalog (operation op operands qualifier tag) refs
    · obtain ⟨_, _, _, _, _, _, _, _, _, -, -, -, hk⟩ := exists_of_intersection? h
      rw [hk]
      rfl
    · rw [h]
      rfl
  | _ =>
    rw [crossed_eq]
    rfl

private theorem crossing?_rereadHere (refs refs' : Refs) (hs : n.isShort = false) :
    (n.mapWritten (crossed catalog refs)).rereadHere.crossing? catalog refs' =
      n.crossing? catalog refs' := by
  cases n with
  | short => cases hs
  | operation op operands qualifier tag =>
    cases op with
    | eq =>
      match operands with
      | [left, right] =>
        cases qualifier with
        | none =>
          change (operation .eq [left.crossed catalog refs, right.crossed catalog refs] none
            tag).crossing?
            catalog refs' = _
          rw [crossing?, crossing?, placeType?_crossed, placeType?_crossed]
        | some => rfl
      | [] => rfl
      | [_] => rfl
      | _ :: _ :: _ :: _ => rfl
    | _ => rfl
  | _ => rfl

/-- No equation between places is left in what is read back. -/
theorem calm_crossed (n : Node) (hf : ∀ m, n.Encloses m → m.Formed) (refs : Refs)
    (h : n.Placed catalog refs) :
    (n.crossed catalog refs).Calm catalog refs := by
  obtain ⟨here, below⟩ := h
  have hbelow : n.crossing? catalog (n.refsInside refs) = none →
      ∀ m ∈ n.inQl, (m.crossed catalog (n.refsInside refs)).Calm catalog (n.refsInside refs) := by
    intro hnone m hm
    have hchild := mem_children_of_inQl hm
    have := sizeOf_lt_of_mem_children hchild
    exact calm_crossed m (fun k hk => hf k (.of_child hchild hk)) _ (below hnone m hm)
  cases hs : n.isShort with
  | true =>
    cases n with
    | short e inner =>
      rw [crossed]
      exact hbelow rfl inner (mem_singleton.mpr rfl)
    | _ => cases hs
  | false =>
    obtain hnone | ⟨k, hk⟩ := here
    · have hinter : n.intersection? catalog (n.refsInside refs) = none := by
        rw [intersection?, hnone]
        rfl
      have hcrossed : n.crossed catalog refs =
          (n.mapWritten (crossed catalog (n.refsInside refs))).rereadHere := by
        rw [crossed_eq, hinter]
        rfl
      refine .intro ?_ ?_
      · rw [refsInside_crossed (hf n .refl) hs, hcrossed, crossing?_rereadHere _ _ hs, hnone]
      · rw [refsInside_crossed (hf n .refl) hs, hcrossed]
        refine forall_inQl_rereadHere (fun m role => Calm.withRole role) ?_ ?_ ?_
        · rintro op operands qualifier tag ⟨-, below⟩
          exact below
        · cases n <;> first | rfl | exact hs
        · rw [inQl_mapWritten]
          intro _ hk
          obtain ⟨m, hm, rfl⟩ := mem_map.mp hk
          exact hbelow hnone m hm
    · have hcrossed : n.crossed catalog refs = k := by
        rw [crossed_eq, hk]
        rfl
      rw [hcrossed]
      obtain ⟨left, right, tag, _, _, _, _, _, _, -, -, -, rfl⟩ := exists_of_intersection? hk
      have hcolumn : ∀ c : Column, (column c {}).Calm catalog refs :=
        fun c => .intro rfl (by rintro _ ⟨⟩)
      have hgeometry : ∀ type c, (geometry type [column c {}] {}).Calm catalog refs := fun type c =>
        .intro rfl fun m hm => by
          obtain rfl := mem_singleton.mp hm
          exact hcolumn c
      refine .intro rfl fun m hm => ?_
      simp only [inQl, children, mem_cons, not_mem_nil, or_false] at hm
      obtain rfl | rfl := hm <;> exact hgeometry _ _
termination_by sizeOf n

/-! ### The same is mentioned -/

private theorem mentions_withRole (role : SelectRole) (n : Node) :
    (n.withRole role).mentions = n.mentions := by
  rw [mentions_eq, mentions_eq n]
  cases n <;> rfl

private theorem mentions_bare (n : Node) : n.bare.mentions = n.mentions := by
  cases n with
  | short e inner =>
    rw [bare, mentions_bare inner, mentions_eq (short e inner)]
    simp [children, mention?]
  | _ => rfl
termination_by sizeOf n

private theorem mentions_mapWritten {f : Node → Node}
    (h : ∀ m ∈ n.inQl, (f m).mentions = m.mentions) :
    (n.mapWritten f).mentions = n.mentions := by
  have hparts : (n.inQl.map f).flatMap mentions = n.inQl.flatMap mentions := by
    rw [flatMap_map]
    exact flatMap_congr h
  cases n with
  | parameter => rfl
  | _ =>
    rw [mapWritten, mentions_eq, children_mapParts, mentions_eq]
    · exact congrArg _ hparts
    · nofun

private theorem mentions_rereadHere (n : Node) : n.rereadHere.mentions = n.mentions := by
  have hfilter : ∀ o : Option Node, (o.filter (!·.isBareNull)).toList.flatMap mentions =
      o.toList.flatMap mentions := by
    intro o
    cases o with
    | none => rfl
    | some m =>
      cases hm : m.isBareNull with
      | false => simp [Option.filter, hm]
      | true =>
        cases m with
        | constant p tag =>
          rw [Option.filter, hm]
          simp [mentions_eq (constant p tag), children, mention?]
        | _ => cases hm
  cases n with
  | select role c tag =>
    rw [rereadHere, mentions_eq, mentions_eq (select role c tag)]
    simp only [children, Clauses.parts, flatMap_append, hfilter]
    rfl
  | join type relation on =>
    rw [rereadHere, mentions_eq, mentions_eq (join type relation on)]
    simp only [children, flatMap_cons, hfilter, mentions_withRole]
    rfl
  | case branches otherwise tag =>
    rw [rereadHere, mentions_eq, mentions_eq (case branches otherwise tag)]
    simp only [children, flatMap_append, hfilter]
    rfl
  | short e inner =>
    rw [rereadHere, mentions_eq (short e inner)]
    simp [children, mention?]
  | operation op operands qualifier tag =>
    change (operation op (if op.isLogical then Builder.flatten op operands else operands) qualifier
      tag).mentions = _
    rw [mentions_eq, mentions_eq (operation op operands qualifier tag)]
    simp only [children, mention?]
    split
    · rw [mentions_flatten]
    · rfl
  | _ => rfl

/-- What is read back mentions the same columns, views and parameters in the same order. -/
theorem mentions_crossed (n : Node) (refs : Refs) :
    (n.crossed catalog refs).mentions = n.mentions := by
  rw [crossed_eq]
  cases h : n.intersection? catalog (n.refsInside refs) with
  | some k =>
    obtain ⟨left, right, tag, _, _, c, d, _, _, rfl, hc, hd, rfl⟩ := exists_of_intersection? h
    have hcolumn : ∀ c tag, (column c tag).mentions =
        (c.origin.map (Mention.column · c.name)).toList := by
      intro c tag
      rw [mentions_eq]
      exact append_nil _
    have hgeometry : ∀ type c, (geometry type [column c {}] {}).mentions =
        (column c {}).mentions := by
      intro type c
      rw [mentions_eq]
      exact append_nil _
    have hequation : (operation .eq [left, right] none tag).mentions =
        left.mentions ++ right.mentions := by
      rw [mentions_eq]
      simp [children, mention?]
    rw [Option.getD_some, hequation, ← mentions_bare left, ← mentions_bare right, hc, hd,
      mentions_eq]
    simp [children, mention?, hgeometry, hcolumn]
  | none =>
    rw [Option.getD_none, mentions_rereadHere, mentions_mapWritten fun m hm => ?_]
    have := sizeOf_lt_of_mem_children (mem_children_of_inQl hm)
    exact mentions_crossed m _
termination_by sizeOf n

end Node

/-! ## Queries -/

private theorem Built.formed_of_encloses {r : List String} {place : Place} {s : Scope}
    (h : Built options r place s n) (hr : Build.Resolvable options r) (hm : n.Encloses m) :
    m.Formed := by
  obtain ⟨t, ht⟩ := h.exists_reaches hr hm
  obtain ⟨names, place', hbuilt, -⟩ := h.of_reaches hr ht
  exact hbuilt.formed

private theorem Query.formed_of_read (h : read value options = .ok query)
    (hm : query.root.Encloses m) : m.Formed := by
  obtain hbuilt | hbuilt := read_built h <;>
    exact hbuilt.formed_of_encloses (Build.resolvable_nil options) hm

/-- The tree of a query was built from a query value with the choices that the query has. -/
theorem Query.exists_root (h : read value options = .ok query) :
    query.options = options ∧ ∃ v, Build.root options v = .ok query.root := by
  unfold read at h
  split at h
  · obtain ⟨n, hn, h⟩ := of_bind h
    cases h
    exact ⟨rfl, _, hn⟩
  · obtain ⟨v, -, h⟩ := of_bind h
    obtain ⟨n, hn, h⟩ := of_bind h
    cases h
    exact ⟨rfl, v, hn⟩
  · cases h

namespace Geo

variable {query' : Query}

private theorem insertIntersections_eq (query : Query) :
    insertIntersections catalog query =
      (check catalog (query.root.ql false).depth [(query.root.ql false, [])] >>= fun _ =>
        if (intersected catalog [] (query.root.ql false)).2 = 0 then .ok query
        else Query.read (crossed catalog [] (query.root.ql false))
          { query.options with queryType := .ql }) := by
  unfold insertIntersections crossed Query.toQl Node.ql
  dsimp only
  obtain ⟨value, count⟩ := intersected catalog [] (query.root.toQl { keepParamRefs := true })
  cases count <;> rfl

/-- A query without equations between places stays as it is. -/
theorem insertIntersections_of_calm (hread : Query.read value options = .ok query)
    (h : query.root.Calm catalog []) : insertIntersections catalog query = .ok query := by
  have hquiet := (Node.quiet_ql_iff query.root (fun _ => Query.formed_of_read hread) []).mpr h
  have hcheck : check catalog (query.root.ql false).depth [(query.root.ql false, [])] = .ok () := by
    refine check_of_quiet (fun p hp => ?_) _
    obtain rfl := mem_singleton.mp hp
    exact hquiet
  rw [insertIntersections_eq, hcheck, ok_bind, intersected_of_quiet hquiet, if_pos rfl]

/-- Where the search does not fail, the query is the one before it, or its tree is the one that is
read back. -/
theorem of_insertIntersections (hread : Query.read value options = .ok query)
    (h : insertIntersections catalog query = .ok query') :
    query.root.Placed catalog [] ∧ (query.root.Calm catalog [] ∧ query' = query ∨
      ¬ query.root.Calm catalog [] ∧
        Query.read (crossed catalog [] (query.root.ql false))
          { query.options with queryType := .ql } = .ok query' ∧
        query'.root = (query.root.crossed catalog []).withRole .root) := by
  have hformed : ∀ m, query.root.Encloses m → m.Formed := fun _ => Query.formed_of_read hread
  have hcalm : Quiet catalog [] (query.root.ql false) ↔ query.root.Calm catalog [] :=
    Node.quiet_ql_iff query.root hformed []
  rw [insertIntersections_eq, bind_eq_ok] at h
  obtain ⟨_, hcheck, h⟩ := h
  have hchecked : Checked catalog [] (query.root.ql false) := by
    refine checked_of_check (fun p hp => ?_) hcheck _ (mem_singleton.mpr rfl)
    obtain rfl := mem_singleton.mp hp
    exact le_rfl
  refine ⟨Node.placed_of_checked query.root hformed [] hchecked, ?_⟩
  split at h
  · next hcount =>
    cases h
    exact .inl ⟨hcalm.mp (quiet_of_checked hchecked hcount), rfl⟩
  · next hcount =>
    refine .inr ⟨fun hn => hcount ?_, h, ?_⟩
    · rw [intersected_of_quiet (hcalm.mpr hn)]
    · obtain ⟨hoptions, v, hv⟩ := Query.exists_root hread
      obtain ⟨n, hn, h⟩ := of_bind h
      cases h
      have hn := (Build.root_queryType query.options .ql _).symm.trans hn
      rw [hoptions] at hn
      exact Build.eq_of_root (W := rewriting catalog options) hv hn

end Geo

namespace Query

/-- Intersections in place of equations between places settle a query and keep what it reads.

No equation between places of different types is left, so a second search changes nothing. The query
reads the same columns of the same views and refers to the same parameters, in the same order. -/
theorem insertIntersections_settles (catalog : Catalog) {value : Json} {options : ParseOptions}
    {query query' : Query} (hread : read value options = .ok query)
    (h : Geo.insertIntersections catalog query = .ok query') :
    query'.root.Calm catalog [] ∧ Geo.insertIntersections catalog query' = .ok query' ∧
      query'.viewColumns = query.viewColumns ∧ query'.parameters = query.parameters := by
  obtain ⟨hplaced, ⟨hcalm, rfl⟩ | ⟨-, hread', hroot⟩⟩ := Geo.of_insertIntersections hread h
  · exact ⟨hcalm, Geo.insertIntersections_of_calm hread hcalm, rfl, rfl⟩
  · have hcalm : query'.root.Calm catalog [] := by
      rw [hroot]
      exact (query.root.calm_crossed (fun _ => formed_of_read hread) [] hplaced).withRole .root
    have hmentions : query'.root.mentions = query.root.mentions := by
      rw [hroot, Node.mentions_withRole, Node.mentions_crossed]
    refine ⟨hcalm, Geo.insertIntersections_of_calm hread' hcalm, ?_, ?_⟩
    · rw [viewColumns_eq, viewColumns_eq, hmentions]
    · rw [parameters_eq, parameters_eq, hmentions]

/-- A join of two views on places of different types, with a parameter beside the equation. -/
theorem insertIntersections_settles_join :
    ∃ query, read (.object [("type", .string "select"), ("columns", .array [.nat 1]),
          ("from", .object
            [("type", .string "view"), ("view", .string "sales"), ("as", .string "s")]),
          ("joins", .array [.object [("type", .string "join"), ("view", .string "regions"),
            ("on", .object
              [("type", .string "operator"), ("value", .string "and"), ("operands", .array
              [.object [("type", .string "operator"), ("value", .string "="), ("operands", .array
                [.object
                  [("type", .string "column"), ("view", .string "s"), ("column", .string "fsa")],
                  .object [("type", .string "column"), ("view", .string "regions"),
                    ("column", .string "da")]])],
                .object [("type", .string "parameter"), ("value", .string "p")]])])]])]) {} =
                  .ok query ∧
      ((Geo.insertIntersections
          ⟨[("sales", { columns := [("fsa", { geoType := some "ca-fsa" })] }),
            ("regions", { columns := [("da", { geoType := some "ca-da" })] })]⟩ query).toOption.map
              (·.root == query.root),
          query.viewColumns, query.parameters) =
        (some false, [("sales", ["fsa"]), ("regions", ["da"])], ["p"]) ∧
      ∃ query', Geo.insertIntersections
          ⟨[("sales", { columns := [("fsa", { geoType := some "ca-fsa" })] }),
            ("regions", { columns := [("da", { geoType := some "ca-da" })] })]⟩ query = .ok query' ∧
        Geo.insertIntersections
          ⟨[("sales", { columns := [("fsa", { geoType := some "ca-fsa" })] }),
            ("regions", { columns := [("da", { geoType := some "ca-da" })] })]⟩ query' =
              .ok query' ∧
        query.viewColumns = query'.viewColumns ∧ query.parameters = query'.parameters := by
  refine Result.exists_ok_of_map (by decide +kernel) fun query hread hquery => ?_
  obtain ⟨query', hquery', -⟩ :=
    Result.exists_ok_of_map (congrArg Prod.fst hquery) fun _ _ _ => trivial
  obtain ⟨-, hagain, hviews, hparameters⟩ := insertIntersections_settles _ hread hquery'
  exact ⟨query', hquery', hagain, hviews.symm, hparameters.symm⟩

end Query

end AnalyticQuery
