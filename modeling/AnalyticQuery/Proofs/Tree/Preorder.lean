import AnalyticQuery.Proofs.Tree.Parts

/-!
# All nodes of a tree

The list of all nodes of a tree is made of the lists of its parts, so a node is in the list exactly
if it is in the tree.
-/

namespace AnalyticQuery.Node

open List Relation

theorem mem_children_select (role : SelectRole) (c : Clauses Node) (tag : Tag) (m : Node)
    (h : m ∈ c.withs ∨ m ∈ c.source ∨ m ∈ c.joins ∨ m ∈ c.columns ∨ m ∈ c.filter ∨ m ∈ c.groupBy ∨
      m ∈ c.having ∨ m ∈ c.orderBy) : m ∈ (select role c tag).children := by
  simp only [children, Clauses.parts, mem_append, Option.mem_toList]
  tauto

private theorem preorderAll_eq (ns : List Node) : preorderAll ns = ns.flatMap preorder := by
  induction ns with
  | nil => rw [preorderAll]; rfl
  | cons n ns ih => rw [preorderAll, ih, flatMap_cons]

private theorem preorderOption_eq (n : Option Node) :
    preorderOption n = n.toList.flatMap preorder := by
  cases n with
  | none => rw [preorderOption]; rfl
  | some n => rw [preorderOption]; simp

private theorem preorderBranches_eq (branches : List (Node × Node)) :
    preorderBranches branches = (branches.flatMap fun (c, r) => [c, r]).flatMap preorder := by
  induction branches with
  | nil => rw [preorderBranches]; rfl
  | cons b branches ih =>
    obtain ⟨c, r⟩ := b
    rw [preorderBranches, ih]
    simp

/-- A tree is its root before the trees of its parts. -/
theorem preorder_eq (n : Node) : n.preorder = n :: n.children.flatMap preorder := by
  cases n with
  | select role c tag =>
    rw [preorder]
    simp [children, Clauses.parts, preorderAll_eq, preorderOption_eq]
  | _ =>
    rw [preorder]
    simp [children, preorderAll_eq, preorderOption_eq, preorderBranches_eq]

private theorem sizeOf_lt_of_mem_branches {branches : List (Node × Node)} {m : Node}
    (h : m ∈ branches.flatMap fun (c, r) => [c, r]) : sizeOf m < sizeOf branches := by
  obtain ⟨⟨c, r⟩, hb, hm⟩ := mem_flatMap.mp h
  have hlt := sizeOf_lt_of_mem hb
  simp only [mem_cons, not_mem_nil, or_false] at hm
  simp only [Prod.mk.sizeOf_spec] at hlt
  obtain rfl | rfl := hm <;> omega

private theorem sizeOf_lt_of_mem_toList {n : Option Node} {m : Node} (h : m ∈ n.toList) :
    sizeOf m < sizeOf n := by
  obtain rfl := Option.mem_toList.mp h
  simp

/-- The parts of a node are smaller. -/
theorem sizeOf_lt_of_mem_children {n m : Node} (h : m ∈ n.children) : sizeOf m < sizeOf n := by
  have hlist : ∀ {ns : List Node} {k : Nat}, m ∈ ns → sizeOf ns ≤ k → sizeOf m < k := fun hm hk =>
    (sizeOf_lt_of_mem hm).trans_le hk
  have hoption : ∀ {n : Option Node} {k : Nat}, m ∈ n.toList → sizeOf n ≤ k → sizeOf m < k :=
      fun hm hk =>
    (sizeOf_lt_of_mem_toList hm).trans_le hk
  cases n with
  | select role c tag =>
    obtain ⟨withs, source, joins, distinct, columns, filter, groupBy, having, orderBy, limit,
      offset⟩ := c
    simp only [children, Clauses.parts, mem_append] at h
    simp only [select.sizeOf_spec, Clauses.mk.sizeOf_spec]
    obtain ((((((h | h) | h) | h) | h) | h) | h) | h := h
    · exact hlist h (by omega)
    · exact hoption h (by omega)
    · exact hlist h (by omega)
    · exact hlist h (by omega)
    · exact hoption h (by omega)
    · exact hlist h (by omega)
    · exact hoption h (by omega)
    · exact hlist h (by omega)
  | compound role op all left right tag =>
    simp only [children, mem_cons, not_mem_nil, or_false] at h
    obtain rfl | rfl := h <;> simp only [compound.sizeOf_spec] <;> omega
  | join type relation on =>
    simp only [join.sizeOf_spec]
    obtain rfl | h := mem_cons.mp h
    · omega
    · exact hoption h (by omega)
  | view | column | constant => cases h
  | parameter name value tag => exact hoption h (by simp only [parameter.sizeOf_spec]; omega)
  | call | geometry | operation | array | list =>
    refine hlist h ?_
    simp only [children, call.sizeOf_spec, geometry.sizeOf_spec, operation.sizeOf_spec,
      array.sizeOf_spec, list.sizeOf_spec]
    omega
  | case branches otherwise tag =>
    simp only [case.sizeOf_spec]
    obtain h | h := mem_append.mp h
    · have := sizeOf_lt_of_mem_branches h
      omega
    · exact hoption h (by omega)
  | sort value direction nulls =>
    obtain rfl := mem_singleton.mp h
    simp only [sort.sizeOf_spec]
    omega
  | short source inner =>
    obtain rfl := mem_singleton.mp h
    simp only [short.sizeOf_spec]
    omega

/-- A node is in the list of all nodes of a tree exactly if it is in the tree. -/
theorem mem_preorder_iff {n k : Node} : k ∈ n.preorder ↔ n.Encloses k := by
  constructor
  · intro h
    rw [preorder_eq] at h
    obtain rfl | h := mem_cons.mp h
    · exact .refl
    · obtain ⟨m, hm, hk⟩ := mem_flatMap.mp h
      have := sizeOf_lt_of_mem_children hm
      exact .of_child hm (mem_preorder_iff.mp hk)
  · intro h
    induction h using ReflTransGen.head_induction_on with
    | refl =>
      rw [preorder_eq]
      exact mem_cons_self
    | head hm _ ih =>
      rw [preorder_eq]
      exact mem_cons_of_mem _ (mem_flatMap.mpr ⟨_, hm, ih⟩)
termination_by sizeOf n

end AnalyticQuery.Node
