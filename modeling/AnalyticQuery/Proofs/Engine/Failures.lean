import AnalyticQuery.Proofs.Result
import AnalyticQuery.Tree.Sql
import Mathlib

/-!
# Constructs that an engine cannot render

A construct with as many parts as it takes is rendered, but for three: a value of the context that
is not given, and for Trino a field that it cannot extract and a text that is no interval.
-/

namespace AnalyticQuery

open Result

variable {type : GeometryType} {op : Operator} {operands : List String}

/-! ## Casts -/

/-- An interval that was read has terms: weeks and days were added up when it was read. -/
theorem Interval.exists_terms {text : String} {i : Interval} (h : ofText text = .ok i) :
    ∃ terms, i.terms = .ok terms := by
  obtain ⟨a, -, h⟩ := of_bind h
  obtain ⟨b, -, h⟩ := of_bind h
  dsimp only at h
  split at h
  · cases h
  obtain ⟨_, hdays, h⟩ := of_bind h
  cases h
  cases ht : i.totalDays with
  | error e =>
    rw [ht] at hdays
    cases hdays
  | ok days =>
    rw [terms, ht]
    exact ⟨_, rfl⟩

/-- The reasons not to render a value with a cast: for Trino a text under the cast to an interval
that is none. -/
def Engine.BadInterval (engine : Engine) (type : Option CastType) (text : Option String)
    (e : Error) : Prop :=
  engine = .trino ∧ type = some .interval ∧ ∃ s, text = some s ∧ Interval.ofText s = .error e

private theorem Engine.trinoInterval_failsBy (text : String) :
    FailsBy (do trinoInterval (← Interval.ofText text)) fun e => Interval.ofText text =
      .error e := by
  cases h : Interval.ofText text with
  | error e => exact rfl
  | ok i =>
    obtain ⟨terms, hterms⟩ := Interval.exists_terms h
    rw [ok_bind, trinoInterval, hterms, ok_bind]
    split <;> exact fun e he => nomatch he

/-- A cast is rendered but for a text that is no interval. -/
theorem Target.withCast_failsBy (t : Target) (type : Option CastType) (literal : Option Primitive)
    (sql : String) :
    FailsBy (t.withCast type literal sql)
      (t.engine.BadInterval type (literal.bind Primitive.string?)) := by
  obtain ⟨engine, options⟩ := t
  cases type with
  | none => exact fun e he => nomatch he.2.1
  | some type =>
    cases engine with
    | pg => exact fun e he => nomatch he.1
    | trino =>
      dsimp only [Target.withCast, Engine.cast]
      split
      case h_4 text htext =>
        refine (Engine.trinoInterval_failsBy text).congr fun e => ?_
        simp [Engine.BadInterval, htext]
      case h_6 hother =>
        rintro e ⟨-, htype, s, htext, -⟩
        cases htype
        exact hother s rfl htext
      all_goals exact fun e he => nomatch he.2.1

/-- Without a text a cast is rendered. -/
theorem Target.withCast_ok (t : Target) (type : Option CastType) (sql : String) :
    FailsBy (t.withCast type none sql) fun _ => False :=
  (t.withCast_failsBy type none sql).congr fun e => by simp [Engine.BadInterval]

/-! ## Shapes and operators -/

private theorem GeometryType.length_of_accepts {n : Nat} (h : type.arity.accepts n = true) :
    n = if type = .point then 2 else 1 := by
  cases type <;> simpa [arity, Arity.accepts] using h

/-- A shape with as many arguments as it takes is rendered. -/
theorem Engine.geometry_failsBy (engine : Engine) {args : List String}
    (h : type.arity.accepts args.length = true) :
    FailsBy (engine.geometry type args) fun _ => False := by
  have hlength := GeometryType.length_of_accepts h
  cases type with
  | point =>
    obtain ⟨lon, lat, rfl⟩ := List.length_eq_two.mp hlength
    cases engine <;> exact failsBy_ok _
  | _ =>
    obtain ⟨id, rfl⟩ := List.length_eq_one_iff.mp hlength
    cases engine <;> exact failsBy_ok _

/-- An operator with as many operands as it takes is rendered. -/
theorem Engine.operation_failsBy (engine : Engine) (h : op.arity.accepts operands.length = true) :
    FailsBy (engine.operation op operands) fun _ => False := by
  unfold operation
  split
  · exact failsBy_ok _
  · cases op with
    | and | or => exact failsBy_ok _
    | sub =>
      have hlength : operands.length = 1 ∨ operands.length = 2 := by
        simp [Operator.arity, Arity.between, Arity.accepts] at h
        omega
      obtain hlength | hlength := hlength
      · obtain ⟨a, rfl⟩ := List.length_eq_one_iff.mp hlength
        exact failsBy_ok _
      · obtain ⟨a, b, rfl⟩ := List.length_eq_two.mp hlength
        exact failsBy_ok _
    | between | notBetween =>
      obtain ⟨a, b, c, rfl⟩ := List.length_eq_three.mp
        (by simpa [Operator.arity, Arity.accepts] using h)
      exact failsBy_ok _
    | not | «exists» | notExists =>
      obtain ⟨a, rfl⟩ := List.length_eq_one_iff.mp
        (by simpa [Operator.arity, Arity.accepts] using h)
      exact failsBy_ok _
    | _ =>
      obtain ⟨a, b, rfl⟩ := List.length_eq_two.mp (by simpa [Operator.arity, Arity.accepts] using h)
      exact failsBy_ok _

/-- An operator under a qualifier that it allows is rendered too. -/
theorem Engine.comparison_failsBy (engine : Engine) {qualifier : Option Qualifier}
    (h : op.arity.accepts operands.length = true)
    (hqualifier : qualifier.isSome → op.allowsQualifier = true) :
    FailsBy (engine.comparison op qualifier operands) fun _ => False := by
  cases qualifier with
  | none => exact engine.operation_failsBy h
  | some qualifier =>
    have harity : op.arity = .exact 2 := by
      have hallows := hqualifier rfl
      cases op <;> simp_all [Operator.allowsQualifier, Operator.arity]
    rw [harity] at h
    obtain ⟨a, b, rfl⟩ := List.length_eq_two.mp (by simpa [Arity.accepts] using h)
    exact failsBy_ok _

/-! ## Calls -/

/-- Whether SQL is a literal that names a field which Trino extracts. -/
def Engine.NamesField (sql : String) : Prop :=
  ∃ text, unquoteLiteral? sql = some text ∧ text.toLower ∈ trinoFields

/-- The failure of a field that Trino does not extract. -/
def Engine.badField (sql : String) : Error :=
  .invalidExpression s!"date_part: trino cannot extract {sql}"

private theorem Engine.trinoDatePart_failsBy (field value : String) :
    FailsBy (trinoDatePart field value) fun e => ¬NamesField field ∧ e = badField field := by
  unfold trinoDatePart
  split
  · next name hname =>
    obtain ⟨text, htext, rfl⟩ := Option.map_eq_some_iff.mp hname
    split
    · next hfield =>
      rintro e ⟨hnames, -⟩
      exact hnames ⟨text, htext, List.contains_iff_mem.mp hfield⟩
    · next hfield =>
      refine ⟨?_, rfl⟩
      rintro ⟨text', htext', hmem⟩
      rw [htext] at htext'
      cases htext'
      exact hfield (List.contains_iff_mem.mpr hmem)
  · next hnone =>
    refine ⟨?_, rfl⟩
    rintro ⟨text, htext, -⟩
    rw [htext] at hnone
    cases hnone

/-- The reasons not to render a call: for Trino the extraction of a field that it does not know. -/
def Engine.BadField (engine : Engine) (name : String) (args : List String) (e : Error) : Prop :=
  engine = .trino ∧ name = "date_part" ∧ ∃ field value, args = [field, value] ∧ ¬NamesField field ∧
    e = badField field

private theorem Engine.function?_failsBy (engine : Engine) (name : String) (args : List String)
    (distinct : Bool) :
    FailsBy (engine.function? name args distinct) (engine.BadField name args) := by
  unfold function?
  split
  case h_7 field value =>
    refine ((trinoDatePart_failsBy field value).bind_ok fun sql _ => failsBy_ok _).congr fun e => ?_
    simp [BadField]
  case h_13 hother _ _ _ _ _ =>
    rintro e ⟨rfl, rfl, field, value, rfl, -⟩
    exact hother _ _ rfl rfl rfl
  all_goals exact fun e he => by simp [BadField] at he

/-- A call is rendered, but for a field that Trino does not extract. -/
theorem Engine.call_failsBy (engine : Engine) (f : FunctionSpec) (args : List String)
    (distinct : Bool) :
    FailsBy (engine.call f args distinct) (engine.BadField f.name args) := by
  refine (engine.function?_failsBy f.name args distinct).bind_ok fun sql _ => ?_
  split
  · exact failsBy_ok _
  · split <;> exact failsBy_ok _

/-- Whether a name is that of a value of the context that is not given. -/
def SqlOptions.Lacks (options : SqlOptions) (name : String) : Prop :=
  (name = "whitelabel_id" ∧ options.whitelabelId = none) ∨
    (name = "customer_id" ∧ options.customerId = none)

/-- A value of the context is rendered if it is given. -/
theorem contextValue_failsBy (options : SqlOptions) {name : String}
    (h : name = "whitelabel_id" ∨ name = "customer_id") :
    FailsBy (contextValue options name) fun e => options.Lacks name ∧ e = .missingContext name := by
  obtain ⟨whitelabel, customer, keep⟩ := options
  obtain rfl | rfl := h
  · cases whitelabel <;> simp [contextValue, FailsBy, SqlOptions.Lacks]
  · cases customer <;> simp [contextValue, FailsBy, SqlOptions.Lacks]

end AnalyticQuery
