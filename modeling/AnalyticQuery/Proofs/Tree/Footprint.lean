import AnalyticQuery.Proofs.Tree.Preorder
import AnalyticQuery.Proofs.Tree.Sight

/-!
# What a query reads

A query lists the views that it reads with the columns it reads of each. The listed views are those
that stand in the tree as relations, and no common table: a column is read from a view that is in
sight, so the origins of columns add none. For each view the columns are those that are read from
it, or all of them where one column stands for all.
-/

namespace AnalyticQuery

open List Relation

namespace Query

variable {n : Node} {names : List String} {other : String} {f : List String → List String}
  {c : Column}
variable {tag : Tag} {e : Sight}

/-! ## Lists of views -/

/-- Whether a column with a name is read from a view. -/
def Reads (nodes : List Node) (view name : String) : Prop :=
  ∃ c tag, .column c tag ∈ nodes ∧ c.origin = some view ∧ c.name = name

/-- Whether a view is a relation, or one that a column is read from. -/
def Mentions (nodes : List Node) (view : String) : Prop :=
  (∃ label, .view view false label ∈ nodes) ∨ ∃ name, Reads nodes view name

/-- The columns that are listed for a view are those that are read from it. One that stands for all
columns leaves no other. -/
structure ListsColumns (nodes : List Node) (view : String) (columns : List String) : Prop where
  nodup : columns.Nodup
  all : Reads nodes view "*" → columns = ["*"]
  each : ¬Reads nodes view "*" → ∀ name, name ∈ columns ↔ Reads nodes view name

/-- Every view that is mentioned is listed once, with its columns. -/
structure Lists (nodes : List Node) (views : List (String × List String)) : Prop where
  nodup : (views.map (·.1)).Nodup
  keys : ∀ view, view ∈ views.map (·.1) ↔ Mentions nodes view
  columns : ∀ view columns, (view, columns) ∈ views → ListsColumns nodes view columns

variable {nodes : List Node} {views : List (String × List String)} {view name : String}
  {columns : List String}

private theorem reads_append :
    Reads (nodes ++ [n]) view name ↔ Reads nodes view name ∨ Reads [n] view name := by
  simp only [Reads, mem_append]
  grind

private theorem mentions_append :
    Mentions (nodes ++ [n]) view ↔ Mentions nodes view ∨ Mentions [n] view := by
  simp only [Mentions, reads_append, mem_append]
  grind

private theorem mem_insertName :
    other ∈ insertName names name ↔ other ∈ names ∨ other = name := by
  unfold insertName
  split
  · next h =>
    rw [contains_iff_mem] at h
    grind
  · simp

private theorem nodup_insertName (h : names.Nodup) : (insertName names name).Nodup := by
  unfold insertName
  split
  · exact h
  · next hmem =>
    rw [contains_iff_mem] at hmem
    rw [← concat_eq_append]
    exact h.concat hmem

private theorem map_fst_touchView (f : List String → List String) :
    (touchView views view f).map (·.1) = insertName (views.map (·.1)) view := by
  induction views with
  | nil => rfl
  | cons v views ih =>
    obtain ⟨name, columns⟩ := v
    by_cases hname : name = view
    · simp [touchView, insertName, hname]
    · have hne : (name == view) = false := by simpa using hname
      have hne' : view ≠ name := Ne.symm hname
      simp only [touchView, hne, Bool.false_eq_true, if_false, map_cons, ih, insertName]
      split <;> simp_all

/-- What is listed after a view was touched was listed before, but for the columns of that view. -/
theorem mem_touchView (hnodup : (views.map (·.1)).Nodup)
    (h : (other, columns) ∈ touchView views view f) :
    (other ≠ view ∧ (other, columns) ∈ views) ∨
      (other = view ∧ ∃ old, columns = f old ∧
        ((view, old) ∈ views ∨ old = [] ∧ view ∉ views.map (·.1))) := by
  induction views with
  | nil =>
    obtain h := mem_singleton.mp h
    cases h
    exact .inr ⟨rfl, [], rfl, .inr ⟨rfl, by simp⟩⟩
  | cons v views ih =>
    obtain ⟨name, old⟩ := v
    obtain ⟨hfresh, hnodup⟩ := nodup_cons.mp hnodup
    by_cases hname : name = view
    · subst hname
      simp only [touchView, beq_self_eq_true, if_true] at h
      obtain heq | hmem := mem_cons.mp h
      · cases heq
        exact .inr ⟨rfl, old, rfl, .inl mem_cons_self⟩
      · refine .inl ⟨?_, mem_cons_of_mem _ hmem⟩
        rintro rfl
        exact hfresh (mem_map.mpr ⟨_, hmem, rfl⟩)
    · have hne : (name == view) = false := by simpa using hname
      simp only [touchView, hne, Bool.false_eq_true, if_false] at h
      obtain h | h := mem_cons.mp h
      · cases h
        exact .inl ⟨hname, mem_cons_self⟩
      · obtain ⟨hother, h⟩ | ⟨rfl, before, hbefore, h⟩ := ih hnodup h
        · exact .inl ⟨hother, mem_cons_of_mem _ h⟩
        · refine .inr ⟨rfl, before, hbefore, ?_⟩
          obtain h | ⟨rfl, h⟩ := h
          · exact .inl (mem_cons_of_mem _ h)
          · exact .inr ⟨rfl, by simpa [Ne.symm hname] using h⟩

/-- One more column of a view is listed. -/
theorem ListsColumns.insert (h : ListsColumns nodes view columns) (hc : c.origin = some view) :
    ListsColumns (nodes ++ [.column c tag]) view (insertColumn columns c.name) := by
  have hreads : ∀ name, Reads (nodes ++ [.column c tag]) view name ↔ Reads nodes view name ∨
      name = c.name := by
    intro name
    rw [reads_append]
    simp only [Reads, mem_singleton, Node.column.injEq]
    grind
  have hall : "*" ∈ columns ↔ Reads nodes view "*" := by
    by_cases hstar : Reads nodes view "*"
    · simp [h.all hstar, hstar]
    · exact h.each hstar "*"
  unfold insertColumn
  split
  · next hstar =>
    rw [contains_iff_mem, hall] at hstar
    rw [h.all hstar]
    exact ⟨by simp, fun _ => rfl, fun hnone => absurd ((hreads "*").mpr (.inl hstar)) hnone⟩
  · next hstar =>
    rw [contains_iff_mem, hall] at hstar
    split
    · next hname =>
      rw [beq_iff_eq] at hname
      exact ⟨by simp, fun _ => rfl, fun hnone => absurd ((hreads "*").mpr (.inr hname.symm)) hnone⟩
    · next hname =>
      rw [beq_iff_eq] at hname
      refine ⟨nodup_insertName h.nodup, fun hread => ?_, fun _ name => ?_⟩
      · obtain hread | hread := (hreads "*").mp hread
        · exact absurd hread hstar
        · exact absurd hread.symm hname
      · rw [mem_insertName, hreads, h.each hstar]

/-- A node that reads no column of a view leaves its columns as they are. -/
theorem ListsColumns.keep (h : ListsColumns nodes view columns)
    (hn : ∀ name, ¬Reads [n] view name) : ListsColumns (nodes ++ [n]) view columns := by
  have hreads : ∀ name, Reads (nodes ++ [n]) view name ↔ Reads nodes view name := by
    intro name
    rw [reads_append]
    exact or_iff_left (hn name)
  exact ⟨h.nodup, fun hstar => h.all ((hreads "*").mp hstar), fun hstar name => by
    rw [hreads, h.each fun h => hstar ((hreads "*").mpr h)]⟩

/-- A view that is not mentioned has no columns. -/
theorem listsColumns_nil (h : ¬Mentions nodes view) : ListsColumns nodes view [] := by
  have hnone : ∀ name, ¬Reads nodes view name := fun name hread => h (.inr ⟨name, hread⟩)
  exact ⟨nodup_nil, fun hstar => absurd hstar (hnone _), fun _ name => by simp [hnone name]⟩

/-- A node that touches a view, with what it does to the columns of the view. -/
theorem Lists.touch (h : Lists nodes views)
    (hn : ∀ other, Mentions [n] other ↔ other = view)
    (hf : ∀ columns, ListsColumns nodes view columns →
      ListsColumns (nodes ++ [n]) view (f columns)) :
    Lists (nodes ++ [n]) (touchView views view f) := by
  refine ⟨?_, fun other => ?_, fun other columns hmem => ?_⟩
  · rw [map_fst_touchView]
    exact nodup_insertName h.nodup
  · rw [map_fst_touchView, mem_insertName, h.keys, mentions_append, hn]
  · obtain ⟨hother, hmem⟩ | ⟨rfl, old, rfl, hold⟩ := mem_touchView h.nodup hmem
    · refine (h.columns other columns hmem).keep fun name hread => ?_
      exact hother ((hn other).mp (.inr ⟨name, hread⟩))
    · obtain hold | ⟨rfl, hfresh⟩ := hold
      · exact hf old (h.columns _ old hold)
      · rw [h.keys] at hfresh
        exact hf [] (listsColumns_nil hfresh)

/-- A node that mentions no view changes nothing. -/
theorem Lists.skip (h : Lists nodes views) (hn : ∀ other, ¬Mentions [n] other) :
    Lists (nodes ++ [n]) views := by
  refine ⟨h.nodup, fun other => ?_, fun other columns hmem => ?_⟩
  · rw [h.keys, mentions_append]
    exact (or_iff_left (hn other)).symm
  · exact (h.columns other columns hmem).keep fun name hread => hn other (.inr ⟨name, hread⟩)

/-- One node more is listed. -/
theorem Lists.visit (h : Lists nodes views) (n : Node) :
    Lists (nodes ++ [n]) (visitViews views n) := by
  cases n with
  | view name isCte label =>
    cases isCte with
    | true => exact h.skip (by simp [Mentions, Reads])
    | false =>
      refine h.touch (by simp [Mentions, Reads]) fun columns hcolumns => hcolumns.keep ?_
      simp [Reads]
  | column c tag =>
    cases horigin : c.origin with
    | none =>
      rw [visitViews, horigin]
      exact h.skip (by simp [Mentions, Reads, horigin])
    | some origin =>
      rw [visitViews, horigin]
      refine h.touch (fun other => ?_) fun columns hcolumns => hcolumns.insert horigin
      simp [Mentions, Reads, horigin, eq_comm]
  | _ => exact h.skip (by simp [Mentions, Reads])

/-- All views that nodes mention are listed after them. -/
theorem lists_foldl (nodes : List Node) : Lists nodes (nodes.foldl visitViews []) := by
  have hrun : ∀ (nodes seen : List Node) (views : List (String × List String)), Lists seen views →
      Lists (seen ++ nodes) (nodes.foldl visitViews views) := by
    intro nodes
    induction nodes with
    | nil =>
      intro seen views h
      rwa [append_nil]
    | cons n nodes ih =>
      intro seen views h
      have hnext := ih (seen ++ [n]) (visitViews views n) (h.visit n)
      rwa [append_assoc, singleton_append] at hnext
  have hempty : Lists [] [] := ⟨nodup_nil, by simp [Mentions, Reads], by simp⟩
  exact hrun nodes [] [] hempty

end Query

/-! ## Relations in sight -/

namespace Sight

/-- A point of a tree with what is in sight there: it was built in a scope that shows it, the
relations in sight are in the tree, and a select encloses the point unless a select stands there. -/
structure Stands (options : ParseOptions) (root : Node) (p : Sight × Node) : Prop where
  built : ∃ r place s, Built options r place s p.2 ∧ p.1.Shown s ∧
    p.1.inherited = inheritedAt place p.1.refs
  inside : root.Encloses p.2
  refs : ∀ ref ∈ p.1.refs, root.Encloses ref.2
  inherited : ∀ ref ∈ p.1.inherited, root.Encloses ref.2
  inSelect : p.1.inSelect = true ∨ p.2.type = .select

variable {options : ParseOptions} {root : Node} {p q : Sight × Node}

/-- What comes into sight is in the tree where the relations are. -/
theorem encloses_withRefs {e : Sight} {relations : List Node}
    (h : ∀ ref ∈ e.refs, root.Encloses ref.2) (hrelations : ∀ n ∈ relations, root.Encloses n) :
    ∀ ref ∈ (e.withRefs relations).refs, root.Encloses ref.2 := by
  intro ref href
  obtain href | href := mem_append.mp href
  · exact h ref href
  · obtain ⟨n, hn, hname⟩ := mem_filterMap.mp href
    obtain ⟨name, -, rfl⟩ := Option.map_eq_some_iff.mp hname
    exact hrelations n hn

private theorem encloses_joined {joins : List Node} (h : ∀ j ∈ joins, root.Encloses j)
    (hn : n ∈ joins.filterMap Node.joined?) : root.Encloses n := by
  obtain ⟨j, hj, hjoined⟩ := mem_filterMap.mp hn
  cases j with
  | join type relation on =>
    cases hjoined
    exact (h _ hj).tail mem_cons_self
  | _ => cases hjoined

private theorem Step.mem_children (h : Step p q) : q.2 ∈ p.2.children := by
  cases h with
  | cte split =>
    simp [Node.children, Clauses.parts, split]
  | source mem => simp [Node.children, Clauses.parts, Option.mem_def.mp mem]
  | join split => simp [Node.children, Clauses.parts, split]
  | value mem =>
    rw [Node.children, Clauses.parts_eq]
    exact mem_append_right _ mem
  | side mem => exact mem
  | relation => exact mem_cons_self
  | on mem => exact mem_cons_of_mem _ (Option.mem_toList.mpr mem)
  | part _ _ mem => exact mem

/-- A node that is no select is in a select where only selects are outside of them. -/
theorem Stands.enclosed (h : Stands options root p) (hp : p.2.role? = none) :
    p.1.inSelect = true := by
  obtain h | h := h.inSelect
  · exact h
  · cases hn : p.2 with
    | select | compound =>
      rw [hn] at hp
      cases hp
    | operation op => rw [hn] at h; cases op <;> cases h
    | _ => rw [hn] at h; cases h

/-- The sides of a set operation are selects. -/
theorem type_of_side {r : List String} {s : Scope} (h : Built options r .side s n) :
    n.type = .select := by
  cases h with
  | select | compound => rfl
  | view fits => cases fits

/-- What a step down leads to stands in the tree. -/
theorem Stands.step (h : Stands options root p) (hstep : Step p q) : Stands options root q := by
  have hbuilt : ∃ r place s, Built options r place s q.2 ∧ q.1.Shown s ∧
      q.1.inherited = inheritedAt place q.1.refs := by
    obtain ⟨r, place, s, hbuilt, hshown, hinherited⟩ := h.built
    exact Step.shown hbuilt hshown hinherited hstep
  have hinside : root.Encloses q.2 := h.inside.tail hstep.mem_children
  have hchild : ∀ n ∈ p.2.children, root.Encloses n := fun n hn => h.inside.tail hn
  cases hstep with
  | cte | source => exact ⟨hbuilt, hinside, h.inherited, by rintro _ ⟨⟩, .inl rfl⟩
  | @join e role c tag before n after split =>
    refine ⟨hbuilt, hinside, encloses_withRefs h.inherited fun m hm => ?_, by rintro _ ⟨⟩, .inl rfl⟩
    obtain hm | hm := mem_append.mp hm
    · exact hchild m (by simp [Node.children, Clauses.parts, Option.mem_toList.mp hm])
    · exact encloses_joined
        (fun j hj => hchild j (by simp [Node.children, Clauses.parts, split, hj])) hm
  | @value e role c tag n mem =>
    refine ⟨hbuilt, hinside, encloses_withRefs h.inherited fun m hm => ?_, by rintro _ ⟨⟩, .inl rfl⟩
    obtain hm | hm := mem_append.mp hm
    · exact hchild m (by simp [Node.children, Clauses.parts, Option.mem_toList.mp hm])
    · exact encloses_joined (fun j hj => hchild j (by simp [Node.children, Clauses.parts, hj])) hm
  | @side e role op all left right tag n mem =>
    refine ⟨hbuilt, hinside, h.refs, by rintro _ ⟨⟩, .inr ?_⟩
    obtain ⟨r, place, s, hcompound, -, -⟩ := h.built
    cases hcompound with
    | compound fits takes leftSide rightSide =>
      simp only [mem_cons, not_mem_nil, or_false] at mem
      obtain rfl | rfl := mem
      · exact type_of_side leftSide
      · exact type_of_side rightSide
  | relation =>
    refine ⟨hbuilt, hinside, h.refs, ?_, .inl (h.enclosed rfl)⟩
    intro ref href
    dsimp only at href
    split at href
    · exact h.refs ref href
    · cases href
  | on mem =>
    refine ⟨hbuilt, hinside, encloses_withRefs h.refs fun m hm => ?_, h.inherited,
      .inl (h.enclosed rfl)⟩
    obtain rfl := mem_singleton.mp hm
    exact hchild m mem_cons_self
  | part plain => exact ⟨hbuilt, hinside, h.refs, h.inherited, .inl (h.enclosed plain)⟩

/-- Every node of a tree with a select at its root stands in it, with something in sight. -/
theorem exists_stands {value : Json} {query : Query} (h : Query.read value options = .ok query)
    (hroot : query.root.type = .select) (hn : query.root.Encloses n) :
    ∃ e, Stands options query.root (e, n) := by
  have hbuilt : ∃ place, Built options [] place .root query.root ∧ inheritedAt place [] = [] := by
    obtain hbuilt | hbuilt := Query.read_built h
    · exact ⟨.root, hbuilt, rfl⟩
    · exact ⟨.value, hbuilt, rfl⟩
  induction hn with
  | refl =>
    obtain ⟨place, hbuilt, hinherited⟩ := hbuilt
    exact ⟨{},
      ⟨[], place, .root, hbuilt, ⟨rfl, by simp [Scope.root], rfl, nodup_nil⟩, hinherited.symm⟩,
      .refl, nofun, nofun, .inr hroot⟩
  | tail _ hchild ih =>
    obtain ⟨e, he⟩ := ih
    obtain ⟨e', hstep⟩ := exists_step e hchild
    exact ⟨e', he.step hstep⟩

/-- The view that a column is read from stands in the tree. -/
theorem Stands.origin {view : String} (h : Stands options root (e, .column c tag))
    (hview : c.origin = some view) :
    ∃ label, root.Encloses (.view view false label) := by
  obtain ⟨r, place, s, hbuilt, hshown, hinherited⟩ := h.built
  have hsound := hshown.sound hbuilt hinherited
  obtain ⟨_, relation, href, -, -, -, horigin⟩ := hsound.column c tag rfl (h.enclosed rfl)
  obtain ⟨label, rfl⟩ := (horigin view).mp hview
  exact ⟨label, h.refs _ href⟩

end Sight

namespace Query

/-- Whether a column with a name is read from a view somewhere in a tree. -/
def ReadsColumn (root : Node) (view name : String) : Prop :=
  ∃ c tag, root.Encloses (.column c tag) ∧ c.origin = some view ∧ c.name = name

/-- A query with a select at its root lists each view that stands in it as a relation, and that is
no common table, once and nothing else; bound values are searched too. The list of a view is that of
all columns if one column of it stands for all, and otherwise has exactly the names of the columns
that are read from the view, each once. -/
theorem viewColumns_of_read {value : Json} {options : ParseOptions} {query : Query}
    (h : read value options = .ok query) (hroot : query.root.type = .select) :
    (query.viewColumns.map (·.1)).Nodup ∧
    (∀ view, view ∈ query.viewColumns.map (·.1) ↔
      ∃ label, query.root.Encloses (.view view false label)) ∧
    ∀ view columns, (view, columns) ∈ query.viewColumns → columns.Nodup ∧
      (ReadsColumn query.root view "*" → columns = ["*"]) ∧
      (¬ReadsColumn query.root view "*" → ∀ name, name ∈ columns ↔
        ReadsColumn query.root view name) := by
  have hlists : Lists query.root.preorder query.viewColumns := lists_foldl _
  have hreads : ∀ view name, Reads query.root.preorder view name ↔
      ReadsColumn query.root view name := by
    intro view name
    simp only [Reads, ReadsColumn, Node.mem_preorder_iff]
  refine ⟨hlists.nodup, fun view => ?_, fun view columns hmem => ?_⟩
  · rw [hlists.keys, Mentions]
    simp only [Node.mem_preorder_iff, hreads]
    refine or_iff_left_of_imp ?_
    rintro ⟨name, c, tag, hc, horigin, -⟩
    obtain ⟨e, he⟩ := Sight.exists_stands h hroot hc
    exact he.origin horigin
  · obtain ⟨hnodup, hall, heach⟩ := hlists.columns view columns hmem
    simp only [hreads] at hall heach
    exact ⟨hnodup, hall, heach⟩

/-- A common table is not listed, the view that it reads is, and so is the view of a column in a
bound value. -/
theorem viewColumns_of_read_cte :
    ∃ query,
      read (.object [("type", .string "select"),
        ("with",
          .array [.object [("type", .string "select"), ("from", .string "v"), ("as", .string "w"),
          ("columns", .array [.object [("type", .string "column"), ("column", .string "a")]])]]),
        ("from", .string "w"),
        ("joins", .array [.object [("type", .string "join"), ("joinType", .string "cross"),
          ("view", .object
            [("type", .string "view"), ("view", .string "u"), ("as", .string "x")])]]),
        ("columns", .array [
          .object [("type", .string "column"), ("column", .string "a"), ("view", .string "w")],
          .object [("type", .string "parameter"), ("value", .string "p")]])])
        { parameters := some [("p", .object [("type", .string "column"), ("column", .string "*"),
          ("view", .string "x")])] } = .ok query ∧
      (query.root.type, query.viewColumns) = (.select, [("v", ["a"]), ("u", ["*"])]) ∧
      ∀ view, view ∈ query.viewColumns.map (·.1) ↔
          ∃ label, query.root.Encloses (.view view false label) := by
  refine Result.exists_ok_of_map (by decide +kernel) fun query hread hquery => ?_
  exact (viewColumns_of_read hread (congrArg Prod.fst hquery)).2.1

end Query

end AnalyticQuery
