import AnalyticQuery.Proofs.Tree.Fuel
import AnalyticQuery.Proofs.Tree.Sight

/-!
# Scopes inside a tree

The scope in which each node inside a tree stands, said of the tree alone: a select opens a scope of
its own, and its common tables and relations come into it one after the other. Every node of a built
tree stands in such a scope, and was built there.
-/

namespace AnalyticQuery

open Relation

namespace Scope

/-- One step down a tree, from the scope of a node to that of a node directly inside it. -/
inductive Step : Scope × Node → Scope × Node → Prop
  | cte {s t role c tag before n after} (split : c.withs = before ++ n :: after)
      (tables : (s.childSelect (Builder.seesSiblings role)).afterCtes before = .ok t) :
      Step (s, .select role c tag) (t, n)
  | source {s t role c tag n} (mem : n ∈ c.source)
      (tables : (s.childSelect (Builder.seesSiblings role)).afterCtes c.withs = .ok t) :
      Step (s, .select role c tag) (t, n)
  | join {s t₁ t₂ t role c tag before n after} (split : c.joins = before ++ n :: after)
      (tables : (s.childSelect (Builder.seesSiblings role)).afterCtes c.withs = .ok t₁)
      (first : t₁.afterSource c.source = .ok t₂) (others : t₂.afterJoins before = .ok t) :
      Step (s, .select role c tag) (t, n)
  | value {s t₁ t₂ t role c tag n} (mem : n ∈ c.values)
      (tables : (s.childSelect (Builder.seesSiblings role)).afterCtes c.withs = .ok t₁)
      (first : t₁.afterSource c.source = .ok t₂) (others : t₂.afterJoins c.joins = .ok t) :
      Step (s, .select role c tag) (t, n)
  | side {s role op all left right tag n} (mem : n ∈ [left, right]) :
      Step (s, .compound role op all left right tag) (s, n)
  | relation {s type relation on} : Step (s, .join type relation on) (s, relation)
  | on {s t type relation on n} (mem : n ∈ on) (declared : Builder.declare s relation = .ok t) :
      Step (s, .join type relation on) (t, n)
  | part {s m n} (plain : m.role? = none) (noJoin : m.joined? = none) (mem : n ∈ m.children) :
      Step (s, m) (s, n)

/-- Whether a node stands in a scope inside a tree that stands in another one. -/
def Reaches : Scope × Node → Scope × Node → Prop := ReflTransGen Step

end Scope

namespace Built

variable {options : ParseOptions} {r : List String} {place : Place} {s t : Scope} {n m : Node}

/-- What stands directly inside a built node was built in its scope, while at least the same
parameters were being resolved. -/
theorem step (h : Built options r place s n) (hr : Build.Resolvable options r)
    (hstep : Scope.Step (s, n) (t, m)) :
    ∃ names place', Built options (r ++ names) place' t m ∧
      Build.Resolvable options (r ++ names) := by
  have hpart : ∀ {place' t}, Built options r place' t m →
      ∃ names place', Built options (r ++ names) place' t m ∧
        Build.Resolvable options (r ++ names) :=
    fun {place' t} hm => ⟨[], place', by rw [List.append_nil]; exact ⟨hm, hr⟩⟩
  cases hstep with
  | part plain noJoin mem =>
    obtain ⟨-, names, hm, hrun⟩ := h.part plain (by rintro _ _ _ rfl; cases noJoin) mem
    refine ⟨names, .value, hm, ?_⟩
    by_cases hnames : names = []
    · rwa [hnames, List.append_nil]
    · obtain ⟨v, hv⟩ := hrun hnames
      exact Build.resolvable_of_run hv
  | side mem =>
    cases h with
    | compound fits takes leftSide rightSide =>
      obtain rfl | mem := List.mem_cons.mp mem
      · exact hpart leftSide
      · obtain rfl := List.mem_singleton.mp mem
        exact hpart rightSide
  | relation =>
    cases h with
    | join part => exact hpart part
  | on mem declared' =>
    cases h with
    | join part declared condition onPart =>
      cases declared.symm.trans declared'
      exact hpart (onPart m mem)
  | cte split tables =>
    cases h with
    | select _ _ _ _ _ withs => exact hpart (withs _ m _ t split tables)
  | source mem tables =>
    cases h with
    | select _ _ afterWiths _ _ _ source =>
      cases afterWiths.symm.trans tables
      exact hpart (source m mem)
  | join split tables first others =>
    cases h with
    | select _ _ afterWiths afterSource _ _ _ joins =>
      cases afterWiths.symm.trans tables
      cases afterSource.symm.trans first
      exact hpart (joins _ m _ t split others)
  | value mem tables first others =>
    cases h with
    | select _ _ afterWiths afterSource afterJoins _ _ _ _ values =>
      cases afterWiths.symm.trans tables
      cases afterSource.symm.trans first
      cases afterJoins.symm.trans others
      exact hpart (values m mem)

/-- What stands inside a built tree was built in its scope, while at least the same parameters were
being resolved. -/
theorem of_reaches (h : Built options r place s n) (hr : Build.Resolvable options r)
    (hpoint : Scope.Reaches (s, n) (t, m)) :
    ∃ names place', Built options (r ++ names) place' t m ∧
      Build.Resolvable options (r ++ names) := by
  generalize hp : (t, m) = p at hpoint
  induction hpoint generalizing t m with
  | refl =>
    cases hp
    exact ⟨[], place, by rw [List.append_nil]; exact ⟨h, hr⟩⟩
  | @tail q _ _ hstep ih =>
    subst hp
    obtain ⟨names, place', hq, hnames⟩ := ih (Prod.mk.eta : (q.1, q.2) = q)
    obtain ⟨more, place'', hm⟩ := hq.step hnames hstep
    exact ⟨names ++ more, place'', by rwa [← List.append_assoc]⟩

/-- What is directly inside a built node stands in a scope. -/
theorem exists_step (h : Built options r place s n) (hm : m ∈ n.children) :
    ∃ t, Scope.Step (s, n) (t, m) := by
  cases h with
  | select fits _ afterWiths afterSource afterJoins =>
    simp only [Node.children, Clauses.parts_eq, List.mem_append, Option.mem_toList] at hm
    obtain ((hm | hm) | hm) | hm := hm
    · obtain ⟨before, after, u, hsplit, hu⟩ := Result.exists_split_of_mem afterWiths hm
      exact ⟨u, .cte hsplit hu⟩
    · exact ⟨_, .source hm afterWiths⟩
    · obtain ⟨before, after, u, hsplit, hu⟩ := Result.exists_split_of_mem afterJoins hm
      exact ⟨u, .join hsplit afterWiths afterSource hu⟩
    · exact ⟨_, .value hm afterWiths afterSource afterJoins⟩
  | compound => exact ⟨s, .side hm⟩
  | join part declared =>
    obtain rfl | hm := List.mem_cons.mp hm
    · exact ⟨s, .relation⟩
    · exact ⟨_, .on (Option.mem_toList.mp hm) declared⟩
  | _ => exact ⟨s, .part rfl rfl hm⟩

/-- Every node of a built tree stands in a scope. -/
theorem exists_reaches (h : Built options r place s n) (hr : Build.Resolvable options r)
    (hm : n.Encloses m) :
    ∃ t, Scope.Reaches (s, n) (t, m) := by
  induction hm with
  | refl => exact ⟨s, .refl⟩
  | tail _ hk ih =>
    obtain ⟨t, ht⟩ := ih
    obtain ⟨names, place', hbuilt, -⟩ := h.of_reaches hr ht
    obtain ⟨u, hu⟩ := hbuilt.exists_step hk
    exact ⟨u, ht.tail hu⟩

end Built

end AnalyticQuery
