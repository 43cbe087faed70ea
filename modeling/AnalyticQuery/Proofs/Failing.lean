import AnalyticQuery.Proofs.Result
import AnalyticQuery.Tree.Build
import Mathlib

/-!
# Failures apart from parameters

Reading names, fields and texts never fails for the value of a parameter, and never for a bound on
the recursion of the builder: such failures come from the builder alone.
-/

namespace AnalyticQuery

namespace Result

variable {ε α β : Type} {fine : ε → Prop} {x y : Except ε α}

/-- Whether a step fails only in ways that are fine. -/
def FailsOnly (fine : ε → Prop) (x : Except ε α) : Prop := ∀ e, x = .error e → fine e

@[simp] theorem failsOnly_ok (a : α) : FailsOnly fine (.ok a : Except ε α) := nofun

@[simp] theorem failsOnly_pure (a : α) : FailsOnly fine (pure a : Except ε α) := nofun

@[simp] theorem failsOnly_error {e : ε} : FailsOnly fine (.error e : Except ε α) ↔ fine e :=
  ⟨fun h => h e rfl, by rintro h _ ⟨⟩; exact h⟩

/-- Two steps fail as the first does, or as the second does after it. -/
@[simp] theorem failsOnly_bind {f : α → Except ε β} :
    FailsOnly fine (x >>= f) ↔ FailsOnly fine x ∧ ∀ a, x = .ok a → FailsOnly fine (f a) := by
  cases x with
  | error e => simp
  | ok a => simp

@[simp] theorem failsOnly_map {f : α → β} : FailsOnly fine (f <$> x) ↔ FailsOnly fine x := by
  cases x with
  | error e => exact failsOnly_error.trans failsOnly_error.symm
  | ok a => exact iff_of_true nofun nofun

@[simp] theorem failsOnly_mapConst {b : β} :
    FailsOnly fine (Functor.mapConst b x) ↔ FailsOnly fine x :=
  failsOnly_map

@[simp] theorem failsOnly_ite {p : Prop} [Decidable p] :
    FailsOnly fine (if p then x else y) ↔ (p → FailsOnly fine x) ∧ (¬p → FailsOnly fine y) := by
  split <;> simp [*]

/-- A sequence fails only as its steps do. -/
theorem FailsOnly.bind {f : α → Except ε β} (hx : FailsOnly fine x)
    (hf : ∀ a, x = .ok a → FailsOnly fine (f a)) : FailsOnly fine (x >>= f) :=
  failsOnly_bind.mpr ⟨hx, hf⟩

/-- A fold fails only as its steps do. -/
theorem FailsOnly.foldlM {f : β → α → Except ε β} {xs : List α} {b : β}
    (h : ∀ b a, FailsOnly fine (f b a)) :
    FailsOnly fine (xs.foldlM f b) := by
  induction xs generalizing b with
  | nil => exact nofun
  | cons a xs ih =>
    rw [List.foldlM_cons]
    exact (h b a).bind fun _ _ => ih

theorem FailsOnly.imp {fine' : ε → Prop} (h : FailsOnly fine x) (himp : ∀ e, fine e → fine' e) :
    FailsOnly fine' x :=
  fun e he => himp e (h e he)

/-- The failures that are excused where two outcomes are compared, and those that are fine in both
of them. -/
structure Leeway (ε : Type) extends Excuses ε where
  fine : ε → Prop

/-- Every failure is fine. -/
def Leeway.ofExcuses (lax : Excuses ε) : Leeway ε := ⟨lax, fun _ => True⟩

/-- Whether two outcomes agree, up to the failures that are excused, where both fail only in ways
that are fine. -/
inductive Meets (lax : Leeway ε) (R : α → β → Prop) : Except ε α → Except ε β → Prop
  | ok {a b} (h : R a b) : Meets lax R (.ok a) (.ok b)
  | error {e} (h : lax.fine e) : Meets lax R (.error e) (.error e)
  | excused {e} (y) (h : lax.first e) : Meets lax R (.error e) y
  | excusedSecond {e} (x) (h : lax.second e) : Meets lax R x (.error e)

section Meets

variable {γ δ : Type} {lax : Leeway ε} {Q : α → β → Prop} {R : γ → δ → Prop} {z : Except ε β}

theorem Agree.meets (h : Agree lax.toExcuses Q x z) (hx : FailsOnly lax.fine x) :
    Meets lax Q x z := by
  cases h with
  | ok hab => exact .ok hab
  | error e => exact .error (hx e rfl)
  | excused y he => exact .excused _ he
  | excusedSecond x he => exact .excusedSecond _ he

theorem Meets.agree (h : Meets lax Q x z) : Agree lax.toExcuses Q x z := by
  cases h with
  | ok hab => exact .ok hab
  | error => exact .error _
  | excused y he => exact .excused _ he
  | excusedSecond x he => exact .excusedSecond _ he

/-- Where no failure is excused, outcomes that meet fail only in ways that are fine. -/
theorem Meets.failsOnly (h : Meets ⟨.none, fine⟩ Q x z) : FailsOnly fine x := by
  cases h with
  | ok => exact nofun
  | error he => exact failsOnly_error.mpr he
  | excused y he => exact he.elim
  | excusedSecond x he => exact he.elim

/-- Steps that meet, with steps after them that meet. -/
theorem Meets.bind {f : α → Except ε γ} {g : β → Except ε δ} (h : Meets lax Q x z)
    (hf : ∀ a b, x = .ok a → z = .ok b → Q a b → Meets lax R (f a) (g b)) :
    Meets lax R (x >>= f) (z >>= g) := by
  cases h with
  | ok hab => exact hf _ _ rfl rfl hab
  | error he => exact .error he
  | excused y he => exact .excused _ he
  | excusedSecond x he => exact .excusedSecond _ he

/-- One and the same step, with steps after it that meet. -/
theorem Meets.same {f : α → Except ε γ} {g : α → Except ε δ} (hx : FailsOnly lax.fine x)
    (hf : ∀ a, x = .ok a → Meets lax R (f a) (g a)) : Meets lax R (x >>= f) (x >>= g) :=
  ((Agree.refl x).meets hx).bind fun a _ ha _ hab => hab ▸ hf a ha

theorem Meets.imp {R' : α → β → Prop} (h : Meets lax Q x z)
    (hR : ∀ a b, x = .ok a → z = .ok b → Q a b → R' a b) :
    Meets lax R' x z := by
  cases h with
  | ok hab => exact .ok (hR _ _ rfl rfl hab)
  | error he => exact .error he
  | excused y he => exact .excused _ he
  | excusedSecond x he => exact .excusedSecond _ he

/-- Steps over a list that meet on each item. -/
theorem Meets.mapM {xs : List α} {f : α → Except ε γ} {g : α → Except ε δ}
    (h : ∀ a ∈ xs, Meets lax R (f a) (g a)) :
    Meets lax (List.Forall₂ R) (xs.mapM f) (xs.mapM g) := by
  induction xs with
  | nil => exact .ok .nil
  | cons a xs ih =>
    obtain ⟨ha, hxs⟩ := List.forall_mem_cons.mp h
    rw [List.mapM_cons, List.mapM_cons]
    exact ha.bind fun c d _ _ hcd => (ih hxs).bind fun cs ds _ _ hcsds => .ok (.cons hcd hcsds)

end Meets

end Result

open Result

/-- Whether a failure concerns neither the value of a parameter nor a bound on the recursion of the
builder. -/
def Error.Plain : Error → Prop
  | .invalidParameter _ | .exhausted => False
  | _ => True

/-- Whether a step never fails for the value of a parameter or for a bound. -/
abbrev Result.Plain {α : Type} (x : Result α) : Prop := FailsOnly Error.Plain x

/-! ## Names and fields -/

@[simp] theorem CastType.plain_ofName (name : String) : Plain (CastType.ofName name) := by
  unfold CastType.ofName
  split <;> simp [Error.Plain]

@[simp] theorem ExpressionType.plain_ofName (name : String) :
    Plain (ExpressionType.ofName name) := by
  unfold ExpressionType.ofName
  split <;> simp [Error.Plain]

@[simp] theorem GeometryType.plain_ofName (name : String) : Plain (GeometryType.ofName name) := by
  unfold GeometryType.ofName
  split <;> simp [Error.Plain]

@[simp] theorem Operator.plain_ofName (name : String) : Plain (Operator.ofName name) := by
  unfold Operator.ofName
  dsimp only
  split <;> simp [Error.Plain]

@[simp] theorem Qualifier.plain_ofName (name : String) : Plain (Qualifier.ofName name) := by
  unfold Qualifier.ofName
  split <;> simp [Error.Plain]

@[simp] theorem JoinType.plain_ofName (name : String) : Plain (JoinType.ofName name) := by
  unfold JoinType.ofName
  split <;> simp [Error.Plain]

@[simp] theorem SortDirection.plain_ofName (name : String) : Plain (SortDirection.ofName name) := by
  unfold SortDirection.ofName
  split <;> simp [Error.Plain]

@[simp] theorem NullsOrder.plain_ofName (name : String) : Plain (NullsOrder.ofName name) := by
  unfold NullsOrder.ofName
  split <;> simp [Error.Plain]

@[simp] theorem FunctionRegistry.plain_lookup (registry : FunctionRegistry) (name : String) :
    Plain (registry.lookup name) := by
  unfold FunctionRegistry.lookup
  split <;> simp [Error.Plain]

@[simp] theorem Arity.plain_check (arity : Arity) (name : String) (got : Nat) :
    Plain (arity.check name got) := by
  unfold Arity.check
  split <;> simp [Error.Plain]

@[simp] theorem Primitive.plain_ofJson (v : Json) : Plain (Primitive.ofJson v) := by
  unfold Primitive.ofJson
  split <;> simp [Error.Plain]

namespace QlObject

variable (obj : QlObject) (key : String)

@[simp] theorem plain_fault (detail : String) : (obj.fault detail).Plain := trivial

@[simp] theorem plain_missing : (obj.missing key).Plain := trivial

@[simp] theorem plain_ofJson (v : Json) : Plain (ofJson v) := by
  unfold ofJson
  split
  · split
    · exact failsOnly_map.mpr (by simp)
    · simp [Error.Plain]
  · simp [Error.Plain]

@[simp] theorem plain_required : Plain (obj.required key) := by
  unfold required
  split <;> simp

@[simp] theorem plain_string? : Plain (obj.string? key) := by
  unfold string?
  split <;> simp

@[simp] theorem plain_string : Plain (obj.string key) := by
  unfold string
  refine FailsOnly.bind (by simp) fun s _ => ?_
  split <;> simp

@[simp] theorem plain_named? {α : Type} {read : String → Result α} (h : ∀ name, Plain (read name)) :
    Plain (obj.named? key read) := by
  unfold named?
  refine FailsOnly.bind (by simp) fun s _ => ?_
  split <;> simp [h]

@[simp] theorem plain_array? : Plain (obj.array? key) := by
  unfold array?
  split <;> simp

@[simp] theorem plain_array : Plain (obj.array key) := by
  unfold array
  refine FailsOnly.bind (by simp) fun s _ => ?_
  split <;> simp

@[simp] theorem plain_bool? : Plain (obj.bool? key) := by
  unfold bool?
  split <;> simp

@[simp] theorem plain_checkKeys (allowed : List String) : Plain (obj.checkKeys allowed) := by
  unfold checkKeys
  split <;> simp

@[simp] theorem plain_tag : Plain obj.tag := by simp [tag]

end QlObject

/-! ## Short expressions -/

@[simp] theorem Interval.plain_add (i : Interval) (n : Int) (word : String) :
    Plain (i.add n word) := by
  unfold Interval.add
  split <;> simp [Error.Plain]

@[simp] theorem Interval.plain_totalDays (i : Interval) : Plain i.totalDays := by
  simp [Interval.totalDays, Error.Plain]

@[simp] theorem Interval.plain_ofText (s : String) : Plain (Interval.ofText s) := by
  have hterm : ∀ i term,
      Plain (addTerm (.invalidExpression s!"invalid interval '{s}'") i term) := by
    intro i term
    unfold addTerm
    split <;> simp [Error.Plain]
  have hclock : ∀ i clock,
      Plain (addClock (.invalidExpression s!"invalid interval '{s}'") i clock) := by
    intro i clock
    unfold addClock
    split <;> simp [Error.Plain]
  unfold Interval.ofText
  refine FailsOnly.bind (.foldlM hterm) fun _ _ => FailsOnly.bind (.foldlM hclock) fun i _ => ?_
  simp [discard, Error.Plain]

@[simp] theorem Temporal.plain_dateLiteral (year month day : Int) :
    Plain (dateLiteral year month day) := by
  unfold dateLiteral
  split <;> simp [Error.Plain]

@[simp] theorem Temporal.plain_dateTimeLiteral (year month day hour minute second : Int) :
    Plain (dateTimeLiteral year month day hour minute second) := by
  unfold dateTimeLiteral
  refine FailsOnly.bind (by simp) fun s _ => ?_
  split <;> simp [Error.Plain]

@[simp] theorem Temporal.plain_timestampText (text : String) : Plain (timestampText text) := by
  unfold timestampText
  split <;> simp [Error.Plain]

@[simp] theorem Temporal.plain_lowerLiteral (text : String) (cast : CastType) :
    Plain (lowerLiteral text cast) := by
  unfold lowerLiteral
  repeat' split
  all_goals simp [Error.Plain]

namespace FormArgs

variable (args : FormArgs) (key : String)

@[simp] theorem plain_fault (detail : String) : (args.fault detail).Plain := trivial

@[simp] theorem plain_missing : (args.missing key).Plain := trivial

@[simp] theorem plain_required : Plain (args.required key) := by
  unfold required
  split <;> simp

@[simp] theorem plain_string? : Plain (args.string? key) := by
  unfold string?
  split <;> simp

@[simp] theorem plain_string : Plain (args.string key) := by
  unfold string
  refine FailsOnly.bind (by simp) fun s _ => ?_
  split <;> simp

@[simp] theorem plain_int? : Plain (args.int? key) := by
  unfold int?
  repeat' split
  all_goals simp

@[simp] theorem plain_int : Plain (args.int key) := by
  unfold int
  refine FailsOnly.bind (by simp) fun s _ => ?_
  split <;> simp

@[simp] theorem plain_intOrZero : Plain (args.intOrZero key) := by simp [intOrZero]

@[simp] theorem plain_bool? : Plain (args.bool? key) := by
  unfold bool?
  split <;> simp

@[simp] theorem plain_ql : Plain (args.ql key) := by simp [ql]

@[simp] theorem plain_place (type : GeometryType) : Plain (args.place type) := by simp [place]

@[simp] theorem plain_constant : Plain args.constant := by
  unfold constant
  dsimp only
  split <;> simp

@[simp] theorem plain_interval : Plain args.interval := by simp [interval, discard]

@[simp] theorem plain_withDelta (base : Json) (cast : CastType) :
    Plain (args.withDelta base cast) := by
  unfold withDelta
  split
  · simp
  · dsimp only
    split <;> simp

@[simp] theorem plain_expand : Plain args.expand := by
  unfold expand
  split <;> simp

private theorem plain_bind (form : Form) (e : Short) : Plain (bind form e) := by
  unfold bind
  dsimp only
  refine failsOnly_ite.mpr ⟨fun _ => by simp [Error.Plain], fun _ => .foldlM fun args entry => ?_⟩
  simp [bindNamed, Error.Plain]

end FormArgs

namespace Short

@[simp] theorem plain_expand (e : Short) : Plain e.expand := by
  unfold expand
  split
  · simp [Error.Plain]
  · exact FailsOnly.bind (FormArgs.plain_bind _ _) (by simp)

@[simp] theorem plain_ofFront (cs : List Char) : Plain (ofFront cs) := by
  unfold ofFront
  split <;> simp [Stop.toError, Error.Plain]

@[simp] theorem plain_ofText (text : String) : Plain (ofText text) := by
  unfold ofText
  dsimp only
  split <;> simp [Stop.toError, Error.Plain]

end Short

/-! ## SQL text -/

namespace Sql

variable (x : Extracted)

@[simp] theorem Extracted.plain_unsupported {α : Type} (detail fragment : String) :
    Plain (x.unsupported detail fragment : Result α) := by
  simp [Extracted.unsupported, Error.Plain]

@[simp] theorem plain_numberValue (text : String) : Plain (numberValue text) := by
  unfold numberValue
  repeat' split
  all_goals simp [Error.Plain]

@[simp] theorem Literal.plain_lower (l : Literal) : Plain (l.lower x) := by
  unfold Literal.lower
  repeat' split
  all_goals simp

@[simp] theorem plain_operatorName (op : String) :
    Plain (operatorName x op) := by simp [operatorName]

@[simp] theorem plain_intervalValue (text : String) (unit : Option String) :
    Plain (intervalValue text unit) := by
  unfold intervalValue
  refine FailsOnly.bind (by simp) fun _ _ => ?_
  split <;> simp [Error.Plain]

@[simp] theorem plain_typedValue (type text : String) : Plain (typedValue type text) := by
  unfold typedValue
  refine FailsOnly.bind (by simp) fun _ _ => FailsOnly.bind (by simp) fun _ _ => ?_
  split <;> simp

@[simp] theorem CallClauses.plain_check (clauses : CallClauses) (name call : String) :
    Plain (clauses.check x name call) := by
  simp [CallClauses.check]

@[simp] theorem TableAlias.plain_lower (label : TableAlias) :
    Plain (label.lower x) := by simp [TableAlias.lower]

@[simp] theorem plain_lowerAlias? (label : Option TableAlias) : Plain (lowerAlias? x label) := by
  cases label <;> simp [lowerAlias?]

@[simp] theorem plain_tableValue (name : List Ident) (function : Bool) (label : Option TableAlias) :
    Plain (tableValue x name function label) := by
  unfold tableValue
  split
  · simp
  · split
    · refine FailsOnly.bind (by simp) fun _ _ => ?_
      repeat' split
      all_goals simp
    · simp

@[simp] theorem plain_countValue? (clause : String) (e : Option Expr) :
    Plain (countValue? x clause e) := by
  cases e with
  | none => simp [countValue?]
  | some e =>
    simp only [countValue?, failsOnly_map]
    unfold countValue
    repeat' split
    all_goals simp [Error.Plain]

@[simp] theorem SelectClauses.plain_check (s : SelectClauses Expr Relation) (text : String) :
    Plain (s.check x text) := by
  simp [SelectClauses.check]

@[simp] theorem QueryClauses.plain_check (q : QueryClauses Expr Body Query) (text : String) :
    Plain (q.check x text) := by
  simp [QueryClauses.check]

@[simp] theorem Distinctness.plain_lower (d : Distinctness) : Plain (d.lower x) := by
  cases d <;> simp [Distinctness.lower]

@[simp] theorem SetQuantifier.plain_keepsAll (op : SetOperator) (q : SetQuantifier) :
    Plain (q.keepsAll x op) := by
  cases q <;> simp [SetQuantifier.keepsAll]

mutual

private theorem Expr.plain_lower : ∀ e : Expr, Plain (e.lower x)
  | .column name => by
    unfold Expr.lower
    split <;> simp
  | .literal value => by simp [Expr.lower]
  | .nested e => by simp [Expr.lower, e.plain_lower]
  | .binary left op right => by
    unfold Expr.lower
    split <;> simp [left.plain_lower, right.plain_lower]
  | .unary op e => by
    have he := e.plain_lower
    unfold Expr.lower
    split <;> simp [he]
  | .is e negated value => by simp [Expr.lower, e.plain_lower]
  | .between e negated low high => by
    simp [Expr.lower, e.plain_lower, low.plain_lower, high.plain_lower]
  | .inList e negated items => by simp [Expr.lower, e.plain_lower, plain_lowerExprs items]
  | .inQuery e negated query => by simp [Expr.lower, e.plain_lower, query.plain_lower]
  | .exists negated query => by simp [Expr.lower, query.plain_lower]
  | .subquery query => by simp [Expr.lower, query.plain_lower]
  | .like e negated anyCase anyOf pattern escape => by
    simp [Expr.lower, e.plain_lower, pattern.plain_lower]
  | .quantified left op word right => by simp [Expr.lower, left.plain_lower, right.plain_lower]
  | .case operand branches otherwise => by
    simp [Expr.lower, plain_lowerExpr? operand, fun o => plain_lowerBranches o branches,
      plain_lowerExpr? otherwise]
  | .cast form e type format => by
    have he := e.plain_lower
    unfold Expr.lower
    split
    · simp
    · split <;> simp [he]
  | .typed type text => by simp [Expr.lower]
  | .interval value unit precision => by
    unfold Expr.lower
    split <;> simp
  | .call name args clauses => by
    unfold Expr.lower
    split
    · simp [plain_lowerCall _ _ args]
    · simp
  | .extract field e => by simp [Expr.lower, e.plain_lower]
  | .substring e start length commas => by
    simp [Expr.lower, e.plain_lower, plain_lowerExpr? start, plain_lowerExpr? length]
  | .rounding up e unit => by simp [Expr.lower, e.plain_lower]
  | .array named items => by simp [Expr.lower, plain_lowerExprs items]
  | .row items => by simp [Expr.lower, plain_lowerExprs items]
  | .foreign text => by simp [Expr.lower]

private theorem plain_lowerExprs : ∀ es : List Expr, Plain (lowerExprs x es)
  | [] => by simp [lowerExprs]
  | e :: es => by simp [lowerExprs, e.plain_lower, plain_lowerExprs es]

private theorem plain_lowerExpr? : ∀ e : Option Expr, Plain (lowerExpr? x e)
  | none => by simp [lowerExpr?]
  | some e => by simp [lowerExpr?, e.plain_lower]

private theorem plain_lowerBranches (operand : Option Json) :
    ∀ branches : List (Expr × Expr), Plain (lowerBranches x operand branches)
  | [] => by simp [lowerBranches]
  | (condition, result) :: rest => by
    simp [lowerBranches, condition.plain_lower, result.plain_lower,
      plain_lowerBranches operand rest]

private theorem plain_lowerCall (name text : String) :
    ∀ args : CallArguments Expr Query, Plain (lowerCall x name text args)
  | .absent => by simp [lowerCall]
  | .query query => by simp [lowerCall]
  | .list multiplicity args clauses => by simp [lowerCall, plain_lowerArguments name _ args]

private theorem plain_lowerArguments (name : String) (single : Bool) :
    ∀ args : List (CallArgument Expr), Plain (lowerArguments x name single args)
  | [] => by simp [lowerArguments]
  | .expr e :: rest => by
    simp [lowerArguments, e.plain_lower, plain_lowerArguments name single rest]
  | .wildcard :: rest => by simp [lowerArguments, plain_lowerArguments name single rest]
  | .foreign text :: rest => by simp [lowerArguments]

private theorem Query.plain_lower : ∀ q : Query, Plain (q.lower x)
  | .mk ⟨recursive, ctes, body, orderBy, limit, offset, offsetRows, fetch, locks, forClause⟩ => by
    simp [Query.lower, body.plain_lower, plain_lowerCtes ctes, plain_lowerSorts orderBy]

private theorem plain_lowerCtes : ∀ ctes : List (Cte Query), Plain (lowerCtes x ctes)
  | [] => by simp [lowerCtes]
  | ⟨label, query, modifier, source⟩ :: rest => by
    simp [lowerCtes, query.plain_lower, plain_lowerCtes rest]

private theorem plain_lowerSorts : ∀ keys : List (SortKey Expr), Plain (lowerSorts x keys)
  | [] => by simp [lowerSorts]
  | ⟨value, ascending, nullsFirst⟩ :: rest => by
    simp [lowerSorts, value.plain_lower, plain_lowerSorts rest]

private theorem Body.plain_lower : ∀ b : Body, Plain (b.lower x)
  | .select s => by simp [Body.lower, plain_lowerSelect s]
  | .nested query => by simp [Body.lower, query.plain_lower]
  | .compound op quantifier left right => by simp [Body.lower, left.plain_lower, right.plain_lower]
  | .values text => by simp [Body.lower]
  | .foreign text => by simp [Body.lower]

private theorem plain_lowerSelect : ∀ s : SelectClauses Expr Relation, Plain (lowerSelect x s)
  | ⟨distinctness, _, items, _, source, _, filter, groupBy, _, having, _, _, _⟩ => by
    simp [lowerSelect, plain_lowerSource source, plain_lowerItems items, plain_lowerExpr? filter,
      plain_lowerGroupBy groupBy, plain_lowerExpr? having]

private theorem plain_lowerItems : ∀ items : List (Item Expr), Plain (lowerItems x items)
  | [] => by simp [lowerItems]
  | item :: rest => by simp [lowerItems, plain_lowerItem item, plain_lowerItems rest]

private theorem plain_lowerItem : ∀ item : Item Expr, Plain (lowerItem x item)
  | .expr e => by simp [lowerItem, e.plain_lower]
  | .aliased e label => by simp [lowerItem, e.plain_lower]
  | .wildcard => by simp [lowerItem]
  | .wildcardOf name => by
    unfold lowerItem
    split <;> simp

private theorem plain_lowerGroupBy : ∀ g : GroupBy Expr, Plain (lowerGroupBy x g)
  | .all => by simp [lowerGroupBy]
  | .keys keys => by simp [lowerGroupBy, plain_lowerExprs keys]

private theorem plain_lowerSource :
    ∀ source : List (JoinedRelation Expr Relation), Plain (lowerSource x source)
  | [] => by simp [lowerSource]
  | ⟨relation, joins⟩ :: rest => by
    simp [lowerSource, relation.plain_lower, plain_lowerJoins joins, plain_lowerOthers rest]

private theorem plain_lowerOthers :
    ∀ others : List (JoinedRelation Expr Relation), Plain (lowerOthers x others)
  | [] => by simp [lowerOthers]
  | ⟨relation, joins⟩ :: rest => by
    simp [lowerOthers, relation.plain_lower, plain_lowerJoins joins, plain_lowerOthers rest]

private theorem plain_lowerJoins : ∀ joins : List (Join Expr Relation), Plain (lowerJoins x joins)
  | [] => by simp [lowerJoins]
  | ⟨relation, kind, constraint, _⟩ :: rest => by
    cases kind <;> simp [lowerJoins, relation.plain_lower, plain_lowerConstraint constraint,
      plain_lowerJoins rest]

private theorem plain_lowerConstraint : ∀ c : JoinConstraint Expr, Plain (lowerConstraint x c)
  | .on e => by simp [lowerConstraint, e.plain_lower]
  | .none => by simp [lowerConstraint]
  | .using names => by simp [lowerConstraint]
  | .natural => by simp [lowerConstraint]

private theorem Relation.plain_lower : ∀ r : Relation, Plain (r.lower x)
  | .table name args ordinality label hints => by simp [Relation.lower]
  | .derived lateral query label => by simp [Relation.lower, query.plain_lower]
  | .joined inner label => by simp [Relation.lower]
  | .foreign text => by simp [Relation.lower]

end

private theorem plain_scan (fuel : Nat) (state : ScanState) (cs : List Char) :
    Plain (scan fuel state cs) := by
  induction fuel generalizing state cs with
  | zero => simp [scan]
  | succ fuel ih =>
    cases cs with
    | nil => simp [scan]
    | cons c cs =>
      unfold scan
      dsimp only
      split
      · exact ih _ _
      · split
        · exact ih _ _
        · exact ih _ _
        · exact ih _ _
        · refine failsOnly_ite.mpr ⟨fun _ => by simp [Error.Plain], fun _ => ?_⟩
          refine failsOnly_ite.mpr ⟨fun _ => ?_, fun _ => ih _ _⟩
          split
          · next e he =>
            have hplain := Short.plain_ofFront (c :: cs) e he
            exact failsOnly_error.mpr (by cases e <;> exact hplain)
          · exact ih _ _

@[simp] theorem Extracted.plain_parse {α : Type} (p : Parse α) : Plain (x.parse p) := by
  unfold Extracted.parse
  split <;> simp [Extracted.invalid, Error.Plain]

@[simp] theorem plain_toQl (sql : String) : Plain (toQl sql) := by
  unfold toQl
  refine FailsOnly.bind (plain_scan _ _ _) fun x _ => failsOnly_ite.mpr ⟨fun _ => ?_, fun _ => ?_⟩
  · refine FailsOnly.bind (by simp) fun found _ => ?_
    split
    · exact Query.plain_lower x _
    all_goals simp [Error.Plain]
  · refine FailsOnly.bind (by simp) fun found _ => ?_
    obtain ⟨e, rest⟩ := found
    cases rest with
    | nil => exact e.plain_lower x
    | cons => simp [Error.Plain]

end Sql

/-! ## Scopes and nodes -/

@[simp] theorem Scope.plain_withRef (s : Scope) (name : String) (target : RefTarget) :
    Plain (s.withRef name target) := by
  simp [withRef, Error.Plain]

@[simp] theorem Scope.plain_withCte (s : Scope) (name : String) : Plain (s.withCte name) := by
  simp [withCte, Error.Plain]

@[simp] theorem Scope.plain_resolveColumn (s : Scope) (view : Option String) (column : String) :
    Plain (s.resolveColumn view column) := by
  unfold resolveColumn
  repeat' split
  all_goals simp [Error.Plain]

@[simp] theorem Node.plain_fold (n : Node) (label : Option String) (cast : Option CastType) :
    Plain (n.fold label cast) := by
  have hcast : ∀ n : Node, ∀ type, Plain (n.foldCast type) := by
    intro n type
    unfold foldCast
    repeat' split
    all_goals simp [Error.Plain]
  have halias : ∀ n : Node, ∀ name, Plain (n.foldAlias name) := by
    intro n name
    unfold foldAlias
    repeat' split
    all_goals simp [Error.Plain]
  have hplain : ∀ n : Node, Plain (n.foldPlain label cast) := by
    intro n
    unfold foldPlain
    cases label <;> cases cast <;> simp [hcast, halias]
  induction n using Node.fold.induct with
  | case1 source inner ih => simp [fold, ih]
  | case2 n hn => cases n <;> first | exact hplain _ | cases hn _ _ rfl

/-! ## Rules of the builder -/

namespace Builder

@[simp] theorem plain_operation (op : Operator) (operands : List Node)
    (qualifier : Option Qualifier) :
    Plain (operation op operands qualifier) := by
  simp [operation, Error.Plain]

@[simp] theorem plain_operatorOf (obj : QlObject) : Plain (operatorOf obj) := by
  unfold operatorOf
  split <;> simp

@[simp] theorem plain_normalizeRelation (v : Json) : Plain (normalizeRelation v) := by
  unfold normalizeRelation
  split
  · refine FailsOnly.bind (by simp) fun obj _ => ?_
    dsimp only
    split <;> simp
  · simp

@[simp] theorem plain_declaration (n : Node) : Plain (declaration n) := by
  unfold declaration
  repeat' split
  all_goals simp [Error.Plain]

@[simp] theorem plain_checkJoin (obj : QlObject) (type : JoinType) (hasOn isSubquery : Bool) :
    Plain (checkJoin obj type hasOn isSubquery) := by
  cases type <;> simp [checkJoin]

@[simp] theorem plain_limitOf (obj : QlObject) (v : Json) : Plain (limitOf obj v) := by
  unfold limitOf
  dsimp only
  repeat' split
  all_goals simp

@[simp] theorem plain_offsetOf (obj : QlObject) (v : Json) : Plain (offsetOf obj v) := by
  unfold offsetOf
  dsimp only
  repeat' split
  all_goals simp

theorem plain_mapM {α : Type} {f : Json → Result α} (h : ∀ v, Plain (f v)) (o : Option Json) :
    Plain (o.mapM f) := by
  cases o with
  | none => exact failsOnly_pure _
  | some v => exact failsOnly_map.mpr (h v)

@[simp] theorem plain_checkAlias (role : SelectRole) (n : Node) : Plain (checkAlias role n) := by
  unfold checkAlias
  split <;> simp [Error.Plain]

end Builder

end AnalyticQuery
