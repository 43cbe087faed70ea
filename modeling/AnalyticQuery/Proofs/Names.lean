import AnalyticQuery.Tree.Node
import Mathlib

/-!
# Names are read back

Everything that a query names, kinds of expressions, casts, shapes, operators, functions and the
words of joins and sorts, is read back from the name it is written under.
-/

namespace AnalyticQuery

/-- A kind of expression is found under its name. -/
theorem ExpressionType.ofName?_name (type : ExpressionType) : ofName? type.name = some type := by
  cases type <;> cbv

/-- A kind of expression is read back from its name. -/
theorem ExpressionType.ofName_name (type : ExpressionType) : ofName type.name = .ok type := by
  rw [ofName, ofName?_name]

/-- A cast type is read back from its name. -/
theorem CastType.ofName_name (type : CastType) : ofName type.name = .ok type := by
  cases type <;> cbv

/-- A geometry type is read back from its name. -/
theorem GeometryType.ofName_name (type : GeometryType) : ofName type.name = .ok type := by
  cases type <;> cbv

/-- An operator is read back from its name. -/
theorem Operator.ofName_name (op : Operator) : ofName op.name = .ok op := by
  cases op <;> cbv

/-- A qualifier is read back from its name. -/
theorem Qualifier.ofName_name (qualifier : Qualifier) : ofName qualifier.name = .ok qualifier := by
  cases qualifier <;> cbv

/-- A join type is read back from its name. -/
theorem JoinType.ofName_name (type : JoinType) : ofName type.name = .ok type := by
  cases type <;> cbv

/-- A direction is read back from its name. -/
theorem SortDirection.ofName_name (direction : SortDirection) :
    ofName direction.name = .ok direction := by
  cases direction <;> cbv

/-- An order of nulls is read back from its name. -/
theorem NullsOrder.ofName_name (order : NullsOrder) : ofName order.name = .ok order := by
  cases order <;> cbv

namespace FunctionRegistry

/-- The entries after some registrations were there before, or they hold one of the functions under
its name. -/
private theorem entry_of_foldl {specs : List FunctionSpec} {registry : FunctionRegistry}
    {entry : String × FunctionSpec} (h : entry ∈ (specs.foldl register registry).entries) :
    entry ∈ registry.entries ∨ entry.1 = entry.2.name.toLower ∧ entry.2 ∈ specs := by
  induction specs generalizing registry with
  | nil => exact .inl h
  | cons spec specs ih =>
    obtain hmem | ⟨hkey, hmem⟩ := ih h
    · obtain rfl | hmem := List.mem_cons.mp hmem
      · exact .inr ⟨rfl, List.mem_cons_self⟩
      · exact .inl (List.mem_of_mem_filter hmem)
    · exact .inr ⟨hkey, List.mem_cons_of_mem spec hmem⟩

/-- A function that a name finds is one of those that queries can call, and the name is its own in
any case. -/
theorem mem_specs_of_get? {name : String} {f : FunctionSpec} (h : standard.get? name = some f) :
    f ∈ specs ∧ name.toLower = f.name.toLower := by
  obtain ⟨before, after, hentries, -⟩ := List.lookup_eq_some_iff.mp h
  have hentry : (name.toLower, f) ∈ standard.entries := by simp [hentries]
  obtain hmem | ⟨hkey, hmem⟩ := entry_of_foldl hentry
  · cases hmem
  · exact ⟨hmem, hkey⟩

/-- A function that a name finds is found under its own name, which is not empty. -/
theorem get?_name_of_lookup {name : String} {f : FunctionSpec} (h : standard.lookup name = .ok f) :
    standard.get? f.name = some f ∧ f.name ≠ "" := by
  have hnames : ∀ spec ∈ specs, spec.name ≠ "" := by decide
  unfold lookup at h
  split at h
  · next spec hfound =>
    cases h
    obtain ⟨hmem, hname⟩ := mem_specs_of_get? hfound
    rw [get?, hname] at hfound
    exact ⟨hfound, hnames f hmem⟩
  · cases h

end FunctionRegistry

end AnalyticQuery
