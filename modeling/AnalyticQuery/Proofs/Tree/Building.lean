import AnalyticQuery.Proofs.Names
import AnalyticQuery.Proofs.Ql.Object
import AnalyticQuery.Proofs.Tree.Fold
import AnalyticQuery.Proofs.Tree.Shapes

/-!
# The builder follows the formation rules

Every tree that the builder returns is built by the formation rules. Each rule of the builder is
taken alone, over parts that follow the rules already; the recursion is closed at the end.
-/

namespace AnalyticQuery

open Result

/-- The places at which a value is built that is built at a position. -/
def Position.Admits : Position → Place → Prop
  | .expression, place => place = .value
  | .select role, place => place.role? = some role

/-- Whether a node follows the formation rules under the choices of a builder. -/
abbrev Builder.Forms (b : Builder) : Place → Scope → Node → Prop := Built b.options b.resolving

/-- A builder whose parts and expansions follow the formation rules, and that builds the values
bound to parameters as a run of its own. -/
structure Builder.Sound (b : Builder) : Prop where
  /-- The parts of the current value. -/
  part : ∀ (position : Position) (place : Place) {v s n}, position.Admits place →
    b.part b.resolving position v s = .ok n → b.Forms place s n
  /-- The values that texts stand for. -/
  expansion : ∀ (position : Position) (place : Place) {v s n}, position.Admits place →
    b.expansion b.resolving position v s = .ok n → b.Forms place s n
  /-- The expansions go on with further ones, some number of them inside each other. -/
  expands : ∀ {v s n}, b.expansion b.resolving .expression v s = .ok n →
    Build.Expands b.options b.resolving v s n
  /-- The values bound to parameters are built by a run. -/
  binding : ∀ {name v s}, b.binding (b.resolving ++ [name]) .expression v s =
    Build.run b.options (b.resolving ++ [name]) .expression v s
  /-- The runs for the values bound to parameters. -/
  run : ∀ {name v s n}, Build.run b.options (b.resolving ++ [name]) .expression v s = .ok n →
    Built b.options (b.resolving ++ [name]) .value s n

namespace Builder

variable {b : Builder} {obj : QlObject} {s t : Scope} {n : Node}
variable {options : ParseOptions} {r : List String} {op : Operator} {operands : List Node}

/-- The builder for what a text stands for follows the rules, too. -/
theorem Sound.outside (hb : b.Sound) : b.outside.Sound :=
  ⟨hb.expansion, hb.expansion, hb.expands, hb.binding, hb.run⟩

/-! ## Expressions -/

/-- An expression inside the current value is built as a value. -/
theorem expression_built (hb : b.Sound) {v : Json} (h : b.expression v s = .ok n) :
    b.Forms .value s n :=
  hb.part .expression .value rfl h

theorem expressions_built (hb : b.Sound) {vs : List Json} {ns : List Node}
    (h : b.expressions vs s = .ok ns) : ∀ n ∈ ns, b.Forms .value s n := by
  intro n hn
  obtain ⟨v, -, hv⟩ := exists_of_mapM_eq_ok h n hn
  exact expression_built hb hv

theorem optional_built (hb : b.Sound) {v : Option Json} {o : Option Node}
    (h : b.optional v s = .ok o) : ∀ n ∈ o, b.Forms .value s n := by
  obtain ⟨-, rfl⟩ | ⟨_, n, -, rfl, hn⟩ := optional_shape h
  · simp
  · rintro _ ⟨⟩
    exact expression_built hb hn

/-- A column that is found in scope. -/
theorem column_built (h : column obj s = .ok n) :
    Built options r .value s n := by
  obtain ⟨name, view, found, hname, hview, hfound, rfl⟩ := column_shape h
  exact .column (QlObject.ne_empty_of_string hname)
    (QlObject.ne_empty_of_string? hview) hfound nofun

/-- A parameter has the value that is built of what is bound to it, and none where none has to
be. -/
theorem boundValue_cases {name : String} {value : Option Node}
    (h : b.boundValue name s = .ok value) :
    (∃ v n, b.options.parameter? name = some v ∧ value = some n ∧ name ∉ b.resolving ∧
        b.binding (b.resolving ++ [name]) .expression v s = .ok n) ∨
      (b.options.parameter? name = none ∧ value = none ∧
        b.options.paramsMustHaveValues = false) := by
  unfold boundValue at h
  split at h
  · next v hv =>
    obtain ⟨resolving, hresolving, h⟩ := of_bind h
    obtain ⟨n, hn, h⟩ := of_bind h
    cases h
    unfold resolve at hresolving
    split at hresolving
    · cases hresolving
    next hfresh =>
    cases hresolving
    exact .inl ⟨v, n, hv, rfl, by simpa using hfresh, hn⟩
  · next hv =>
    split at h
    · cases h
    next hallowed =>
    cases h
    exact .inr ⟨hv, rfl, by simpa using hallowed⟩

/-- A parameter, with the value bound to it or without one. -/
theorem parameter_built (hb : b.Sound) (h : b.parameter obj s = .ok n) :
    b.Forms .value s n := by
  obtain ⟨name, value, hname, hunreserved, hvalue, rfl⟩ := parameter_shape h
  have hname := QlObject.ne_empty_of_string hname
  obtain ⟨v, k, hv, rfl, hfresh, hrun⟩ | ⟨hv, rfl, hallowed⟩ := boundValue_cases hvalue
  · rw [hb.binding] at hrun
    exact .bound hname hunreserved hv hfresh hrun (hb.run hrun) nofun
  · exact .free hname hunreserved hv hallowed nofun

/-- A call of a function of the registry, with as many arguments as it takes. -/
theorem call_built (hb : b.Sound) (h : b.call obj s = .ok n) :
    b.Forms .value s n := by
  obtain ⟨name, f, values, args, flag, -, hf, -, hargs, harity, -, haggregate, rfl⟩ := call_shape h
  exact .call (FunctionRegistry.get?_name_of_lookup hf) (expressions_built hb hargs)
    ((Arity.check_ok_iff _ _ _).mp harity) haggregate nofun

theorem geometry_built (hb : b.Sound) (h : b.geometry obj s = .ok n) :
    b.Forms .value s n := by
  obtain ⟨_, type, _, args, -, -, -, hargs, harity, rfl⟩ := geometry_shape h
  exact .geometry (expressions_built hb hargs) ((Arity.check_ok_iff _ _ _).mp harity) nofun

/-- What is absorbed are the operands of the same operator. -/
theorem exists_of_absorbed? (h : absorbed? op n = some operands) :
    ∃ qualifier, n = .operation op operands qualifier {} := by
  unfold absorbed? at h
  split at h
  · next inner operands' qualifier tag =>
    split at h
    · next hsame =>
      cases h
      rw [Bool.and_eq_true] at hsame
      obtain ⟨hop, htag⟩ := hsame
      exact ⟨qualifier, by rw [eq_of_beq hop, eq_of_beq htag]⟩
    · cases h
  · cases h

/-- Flattening keeps built operands built and leaves none to absorb: the operands of an absorbed
operand were flattened when it was built. -/
theorem flatten_built (hop : op.isLogical = true)
    (hoperands : ∀ n ∈ operands, Built options r .value s n) :
    ∀ n ∈ flatten op operands, Built options r .value s n ∧ absorbed? op n = none := by
  intro n hn
  obtain ⟨operand, hoperand, hn⟩ := List.mem_flatMap.mp hn
  have hbuilt := hoperands operand hoperand
  cases habsorbed : absorbed? op operand with
  | none =>
    rw [habsorbed, Option.getD_none, List.mem_singleton] at hn
    subst hn
    exact ⟨hbuilt, habsorbed⟩
  | some inner =>
    rw [habsorbed, Option.getD_some] at hn
    obtain ⟨qualifier, rfl⟩ := exists_of_absorbed? habsorbed
    cases hbuilt with
    | operation parts _ _ flat _ => exact ⟨parts n hn, flat hop n hn⟩

/-- An operation whose operands are flat where the operator is logical. -/
theorem operation_built {qualifier : Option Qualifier}
    (hoperands : ∀ n ∈ operands, Built options r .value s n)
    (h : operation op operands qualifier = .ok n) : Built options r .value s n := by
  have hflat : ∀ n ∈ (if op.isLogical then flatten op operands else operands),
      Built options r .value s n ∧ (op.isLogical = true → absorbed? op n = none) := by
    intro n hn
    split at hn
    · next hop =>
      obtain ⟨hbuilt, hnone⟩ := flatten_built hop hoperands n hn
      exact ⟨hbuilt, fun _ => hnone⟩
    · next hop => exact ⟨hoperands n hn, fun h => absurd h hop⟩
  obtain ⟨rfl, harity, hqualified⟩ := operation_shape h
  exact .operation (fun n hn => (hflat n hn).1) ((Arity.check_ok_iff _ _ _).mp harity) hqualified
    (fun hop n hn => (hflat n hn).2 hop) nofun

theorem operator_built (hb : b.Sound) (h : b.operator obj s = .ok n) :
    b.Forms .value s n := by
  obtain ⟨op, _, operands, qualifier, -, -, hoperands, -, h⟩ := operator_shape h
  exact operation_built (expressions_built hb hoperands) h

private theorem branch_built (hb : b.Sound) {v : Json} {p : Node × Node}
    (h : b.branch s v = .ok p) :
    b.Forms .value s p.1 ∧ b.Forms .value s p.2 := by
  obtain ⟨_, _, -, hcondition, hresult⟩ := branch_shape h
  exact ⟨expression_built hb hcondition, expression_built hb hresult⟩

/-- A choice with a branch at least. -/
theorem case_built (hb : b.Sound) (h : b.case obj s = .ok n) :
    b.Forms .value s n := by
  obtain ⟨_, branches, otherwise, -, hbranches, hnonempty, hotherwise, rfl⟩ := case_shape h
  have hparts : ∀ p ∈ branches, b.Forms .value s p.1 ∧
      b.Forms .value s p.2 := by
    intro p hp
    obtain ⟨v, -, hv⟩ := exists_of_mapM_eq_ok hbranches p hp
    exact branch_built hb hv
  exact .case hnonempty (fun p hp => (hparts p hp).1) (fun p hp => (hparts p hp).2)
    (optional_built hb hotherwise) nofun

theorem array_built (hb : b.Sound) (h : b.array obj s = .ok n) :
    b.Forms .value s n := by
  obtain ⟨_, items, -, hitems, rfl⟩ := array_shape h
  exact .array (expressions_built hb hitems) nofun

theorem list_built (hb : b.Sound) (h : b.list obj s = .ok n) :
    b.Forms .value s n := by
  obtain ⟨_, items, -, hitems, hnonempty, rfl⟩ := list_shape h
  exact .list hnonempty (expressions_built hb hitems)

theorem sort_built (hb : b.Sound) (h : b.sort obj s = .ok n) :
    b.Forms .value s n := by
  obtain ⟨_, value, direction, nulls, -, hvalue, -, -, rfl⟩ := sort_shape h
  exact .sort (expression_built hb hvalue)

theorem constant_built (h : constant obj = .ok n) :
    Built options r .value s n := by
  obtain ⟨p, hp, rfl⟩ := constant_shape h
  exact .constant _ hp nofun

/-- A cast goes into the tag of the value that is cast. -/
theorem cast_built (hb : b.Sound) (h : b.cast obj s = .ok n) :
    b.Forms .value s n := by
  obtain ⟨-, -, h⟩ := of_bind h
  obtain ⟨tag, -, h⟩ := of_bind h
  dsimp only at h
  split at h
  · cases h
  obtain ⟨v, -, h⟩ := of_bind h
  obtain ⟨m, hm, h⟩ := of_bind h
  exact (expression_built hb hm).fold h

/-- A short expression is what it expands to, with the text kept or not. -/
theorem short_built (hb : b.Sound) (h : b.short obj s = .ok n) :
    b.Forms .value s n := by
  obtain ⟨-, -, h⟩ := of_bind h
  obtain ⟨text, -, h⟩ := of_bind h
  obtain ⟨e, he, h⟩ := of_bind h
  obtain ⟨m, hm, h⟩ := of_bind h
  obtain ⟨tag, -, h⟩ := of_bind h
  obtain ⟨v, hv, hm⟩ := of_bind hm
  obtain ⟨inner, hinner, hm⟩ := of_bind hm
  have hexpands := hb.expands hinner
  have hinner := expression_built hb.outside hinner
  refine Built.fold ?_ h
  split at hm
  · next hkept =>
    cases hm
    exact .short hkept hinner ⟨text, e, v, inner, he, hv, hexpands, .refl⟩
  · cases hm
    exact hinner

/-- A text of SQL is the value that it is read as. -/
theorem sql_built (hb : b.Sound) (h : b.sql obj s = .ok n) :
    b.Forms .value s n := by
  obtain ⟨-, -, h⟩ := of_bind h
  obtain ⟨text, -, h⟩ := of_bind h
  obtain ⟨v, -, h⟩ := of_bind h
  obtain ⟨tag, -, h⟩ := of_bind h
  obtain ⟨m, hm, h⟩ := of_bind h
  have hm := expression_built hb.outside hm
  exact Built.fold hm h

end Builder

end AnalyticQuery
