import AnalyticQuery.Proofs.Failing
import AnalyticQuery.Proofs.Ql.Object
import AnalyticQuery.Proofs.Tree.Fold
import Mathlib

/-!
# Two builders side by side

Two builders whose parts, expansions and bound values agree build values that agree. What agreement
means for trees is a parameter: a relation that each rule of the builder keeps. The values for which
the parts have to agree are a parameter, too, so that the argument can follow a measure of values.
So is the relation between the scopes: they may differ in the order of their common tables, and in
more where failures are excused.
-/

namespace AnalyticQuery

open Result

variable {role : SelectRole} {R : Node → Node → Prop} {low : Nat} {S : Scope → Scope → Prop}
variable {s t : Scope} {P X : Json → Prop} {obj : QlObject}

variable {n m : Node}

/-! ## Scopes -/

/-- Scopes that no rule tells apart. -/
structure Scope.Alike (s t : Scope) : Prop where
  refs : s.refs = t.refs
  localCtes : s.localCtes = t.localCtes
  inSelect : s.inSelect = t.inSelect
  ctes : ∀ name, name ∈ s.ctes ↔ name ∈ t.ctes

/-- A relation between scopes for what is built at a position: a select sees what it hands to its
clauses. -/
def Scope.At (S : Scope → Scope → Prop) : Position → Scope → Scope → Prop
  | .expression, s, t => S s t
  | .select role, s, t =>
    S (s.childSelect (Builder.seesSiblings role)) (t.childSelect (Builder.seesSiblings role))

/-- Scopes that are alike for what is built at a position. -/
abbrev Scope.AlikeAt (position : Position) (s t : Scope) : Prop := At Alike position s t

/-- A relation between scopes that the rules of the builder keep, up to the failures that are
excused: names mean the same in both, and the same names can be declared. -/
structure Scope.Matching (lax : Excuses Error) (S : Scope → Scope → Prop) : Prop where
  isCte : ∀ {s t}, S s t → ∀ name, s.isCte name = t.isCte name
  resolveColumn : ∀ {s t}, S s t → ∀ view column,
    Agree lax Eq (s.resolveColumn view column) (t.resolveColumn view column)
  childSelect : ∀ {s t}, S s t → ∀ lateral, S (s.childSelect lateral) (t.childSelect lateral)
  withRef : ∀ {s t}, S s t → ∀ name target,
    Agree lax S (s.withRef name target) (t.withRef name target)
  withCte : ∀ {s t}, S s t → ∀ name, Agree lax S (s.withCte name) (t.withCte name)

namespace Scope.Matching

variable {lax : Excuses Error}

/-- Scopes in the relation are so for what is built at a position. -/
theorem atPosition (h : Matching lax S) (hs : S s t) (position : Position) : At S position s t := by
  cases position with
  | expression => exact hs
  | select role => exact h.childSelect hs _

/-- The sides of a set operation see common tables only. -/
theorem side (h : Matching lax S) (hs : At S (.select role) s t) : At S (.select .operand) s t :=
  h.childSelect hs false

end Scope.Matching

namespace Scope.Alike

variable {lax : Excuses Error}

theorem refl (s : Scope) : s.Alike s := ⟨rfl, rfl, rfl, fun _ => Iff.rfl⟩

theorem hasRef (h : s.Alike t) (name : String) : s.hasRef name = t.hasRef name := by
  rw [Scope.hasRef, Scope.hasRef, h.refs]

theorem isCte (h : s.Alike t) (name : String) : s.isCte name = t.isCte name := by
  simp only [Scope.isCte, List.contains_eq_mem, h.ctes]

theorem resolveColumn (h : s.Alike t) (view : Option String) (column : String) :
    s.resolveColumn view column = t.resolveColumn view column := by
  simp only [Scope.resolveColumn, h.refs, h.inSelect, h.isCte]

theorem childSelect (h : s.Alike t) (lateral : Bool) :
    (s.childSelect lateral).Alike (t.childSelect lateral) where
  refs := by simp only [Scope.childSelect, h.refs]
  localCtes := rfl
  inSelect := rfl
  ctes := h.ctes

theorem alikeAt (h : s.Alike t) (position : Position) : s.AlikeAt position t := by
  cases position with
  | expression => exact h
  | select role => exact h.childSelect _

theorem withRef (h : s.Alike t) (name : String) (target : RefTarget) :
    Agree lax Alike (s.withRef name target) (t.withRef name target) := by
  unfold Scope.withRef
  rw [h.hasRef]
  split
  · exact .error _
  · exact .ok ⟨by rw [h.refs], h.localCtes, h.inSelect, h.ctes⟩

theorem withCte (h : s.Alike t) (name : String) :
    Agree lax Alike (s.withCte name) (t.withCte name) := by
  unfold Scope.withCte
  rw [h.hasRef, h.localCtes]
  split
  · exact .error _
  · refine .ok ⟨h.refs, rfl, h.inSelect, fun name' => ?_⟩
    have hmem : ∀ u : Scope, name' ∈ (if u.ctes.contains name then u.ctes else u.ctes ++ [name]) ↔
        name' ∈ u.ctes ∨ name' = name := by
      intro u
      split
      · next hname =>
        rw [List.contains_iff_mem] at hname
        exact ⟨.inl, fun h => h.elim id fun he => he ▸ hname⟩
      · simp
    rw [hmem, hmem, h.ctes]

end Scope.Alike

/-- The rules of the builder do not tell scopes apart that are alike. -/
theorem Scope.matching_alike (lax : Excuses Error) : Matching lax Alike where
  isCte h := h.isCte
  resolveColumn h view column := by
    rw [h.resolveColumn]
    exact .refl _
  childSelect h := h.childSelect
  withRef h := h.withRef
  withCte h := h.withCte

/-! ## Values -/

/-- The values that an object is built from: its fields, and the values that its text stands for. -/
structure QlObject.Yields (P X : Json → Prop) (obj : QlObject) : Prop where
  field : ∀ {key v}, obj.get? key = some v → P v
  short : ∀ {text e v}, obj.type = .short → obj.string "value" = .ok text →
    Short.ofText text = .ok e →
    e.expand = .ok v → X v
  sql : ∀ {text v}, obj.type = .sql → obj.string "value" = .ok text → Sql.toQl text = .ok v → X v

/-- Values whose parts are values of the same kind and stand for values of another kind. -/
structure Json.Closed (P X : Json → Prop) : Prop where
  items : ∀ {vs}, P (.array vs) → ∀ v ∈ vs, P v
  object : ∀ {v obj}, P v → QlObject.ofJson v = .ok obj → obj.Yields P X

namespace QlObject.Yields

variable {key : String}

theorem required (h : obj.Yields P X) {v : Json} (hv : obj.required key = .ok v) : P v :=
  h.field (get?_of_required hv)

theorem array? (h : obj.Yields P X) (hitems : ∀ {vs}, P (.array vs) → ∀ v ∈ vs, P v)
    {vs : Option (List Json)} (hvs : obj.array? key = .ok vs) : ∀ v ∈ vs.getD [], P v := by
  unfold QlObject.array? at hvs
  split at hvs
  · cases hvs
    simp
  · next hfield =>
    cases hvs
    exact hitems (h.field hfield)
  · cases hvs

theorem array (h : obj.Yields P X) (hitems : ∀ {vs}, P (.array vs) → ∀ v ∈ vs, P v) {vs : List Json}
    (hvs : obj.array key = .ok vs) : ∀ v ∈ vs, P v := by
  obtain ⟨found, hfound, hvs⟩ := of_bind hvs
  have hfound := h.array? hitems hfound
  split at hvs
  · cases hvs
    exact hfound
  · cases hvs

end QlObject.Yields

/-! ## Trees -/

/-- Clauses whose expressions are in a relation, one by one. -/
structure Clauses.Related (R : Node → Node → Prop) (c d : Clauses Node) : Prop where
  withs : List.Forall₂ R c.withs d.withs
  source : Option.Rel R c.source d.source
  joins : List.Forall₂ R c.joins d.joins
  distinct : c.distinct = d.distinct
  columns : List.Forall₂ R c.columns d.columns
  filter : Option.Rel R c.filter d.filter
  groupBy : List.Forall₂ R c.groupBy d.groupBy
  having : Option.Rel R c.having d.having
  orderBy : List.Forall₂ R c.orderBy d.orderBy
  limit : c.limit = d.limit
  offset : c.offset = d.offset

/-- A relation between trees at a position: a select is no kept short expression. -/
def Node.RelatedAt (R : Node → Node → Prop) : Position → Node → Node → Prop
  | .expression => R
  | .select _ => fun n m => R n m ∧ n.isShort = false ∧ m.isShort = false

theorem Node.RelatedAt.related :
    ∀ {position : Position}, RelatedAt R position n m → R n m
  | .expression, h => h
  | .select _, h => h.1

/-- A relation between trees that the rules of the builder keep. -/
structure Node.Congruence (lax : Excuses Error) (R : Node → Node → Prop) : Prop where
  constant : ∀ p, R (.constant p {}) (.constant p {})
  column : ∀ c, R (.column c {}) (.column c {})
  view : ∀ name isCte, R (.view name isCte none) (.view name isCte none)
  parameter : ∀ {name v w}, Option.Rel R v w → R (.parameter name v {}) (.parameter name w {})
  call : ∀ {f ns ms distinct}, List.Forall₂ R ns ms →
    R (.call f ns distinct {}) (.call f ms distinct {})
  geometry : ∀ {type ns ms}, List.Forall₂ R ns ms → R (.geometry type ns {}) (.geometry type ms {})
  array : ∀ {ns ms}, List.Forall₂ R ns ms → R (.array ns {}) (.array ms {})
  list : ∀ {ns ms}, List.Forall₂ R ns ms → R (.list ns) (.list ms)
  operation : ∀ {op ns ms qualifier}, List.Forall₂ R ns ms →
    Agree lax R (Builder.operation op ns qualifier) (Builder.operation op ms qualifier)
  case : ∀ {bs ds o p}, List.Forall₂ (fun b d => R b.1 d.1 ∧ R b.2 d.2) bs ds → Option.Rel R o p →
    R (.case bs o {}) (.case ds p {})
  sort : ∀ {n m direction nulls}, R n m → R (.sort n direction nulls) (.sort m direction nulls)
  select : ∀ {role c d}, c.Related R d → R (.select role c {}) (.select role d {})
  compound : ∀ {role op all n m k l}, R n m → R k l →
    R (.compound role op all n k {}) (.compound role op all m l {})
  join : ∀ {type n m o p}, R n m → Option.Rel R o p → R (.join type n o) (.join type m p)
  fold : ∀ {n m}, R n m → ∀ label cast, Agree lax R (n.fold label cast) (m.fold label cast)
  alias? : ∀ {n m}, R n m → n.alias? = m.alias?
  declaration : ∀ {n m}, R n m → n.isShort = false → m.isShort = false →
    Builder.declaration n = Builder.declaration m

private theorem eq_of_rel {α : Type} {o p : Option α} (h : Option.Rel Eq o p) : o = p := by
  cases h with
  | some h => rw [h]
  | none => rfl

private theorem eq_of_forall₂ {α : Type} {xs ys : List α} (h : List.Forall₂ Eq xs ys) :
    xs = ys := by
  rwa [List.forall₂_eq_eq_eq] at h

/-- Equality is kept by the rules. -/
theorem Node.congruence_eq (lax : Excuses Error) : Congruence lax Eq where
  constant _ := rfl
  column _ := rfl
  view _ _ := rfl
  parameter h := by rw [eq_of_rel h]
  call h := by rw [eq_of_forall₂ h]
  geometry h := by rw [eq_of_forall₂ h]
  array h := by rw [eq_of_forall₂ h]
  list h := by rw [eq_of_forall₂ h]
  operation h := by
    rw [eq_of_forall₂ h]
    exact .refl _
  case hbs ho := by rw [eq_of_rel ho, eq_of_forall₂ (hbs.imp fun _ _ h => Prod.ext h.1 h.2)]
  sort h := by rw [h]
  select {role c d} h := by
    obtain ⟨withs, source, joins, distinct, columns, filter, groupBy, having, orderBy, limit,
      offset⟩ := c
    cases d
    rw [Node.select.injEq, Clauses.mk.injEq]
    exact ⟨rfl, ⟨eq_of_forall₂ h.withs, eq_of_rel h.source, eq_of_forall₂ h.joins, h.distinct,
      eq_of_forall₂ h.columns, eq_of_rel h.filter, eq_of_forall₂ h.groupBy, eq_of_rel h.having,
      eq_of_forall₂ h.orderBy, h.limit, h.offset⟩, rfl⟩
  compound h k := by rw [h, k]
  join h k := by rw [h, eq_of_rel k]
  fold h label cast := by
    rw [h]
    exact .refl _
  alias? h := by rw [h]
  declaration h _ _ := by rw [h]

/-- A fold keeps whether a node is a kept short expression. -/
theorem Node.isShort_of_fold {label : Option String} {cast : Option CastType}
    (h : n.fold label cast = .ok m) : m.isShort = n.isShort := by
  cases hs : n.isShort with
  | false =>
    obtain ⟨rfl, -, -⟩ := Node.fold_cases hs h
    cases n <;> first | rfl | exact hs
  | true =>
    cases n with
    | short source inner =>
      obtain ⟨k, -, h⟩ := of_bind h
      cases h
      rfl
    | _ => cases hs

/-! ## Expressions -/

/-- Choices that differ at most in whether short expressions are kept, where trees in a relation
stay so. -/
structure ParseOptions.Parallel (R : Node → Node → Prop) (o p : ParseOptions) : Prop where
  parameters : p.parameters = o.parameters
  mustHave : p.paramsMustHaveValues = o.paramsMustHaveValues
  kept : ∀ {n m} e, R n m → R (if o.keepShorts then .short e n else n)
    (if p.keepShorts then .short e m else m)

theorem ParseOptions.Parallel.parameter? {o p : ParseOptions} (h : o.Parallel R p) (name : String) :
    p.parameter? name = o.parameter? name := by
  rw [ParseOptions.parameter?, ParseOptions.parameter?, h.parameters]

/-- Two builders that agree: on the values inside the current one and on those that texts stand for.
The first fails only in ways that are fine, among them those that have nothing to do with the values
of parameters. -/
structure Builder.Parallel (lax : Leeway Error) (S : Scope → Scope → Prop) (R : Node → Node → Prop)
    (P X : Json → Prop) (b d : Builder) : Prop where
  plain : ∀ {e : Error}, e.Plain → lax.fine e
  reserved : ∀ name : String, lax.fine
    (.invalidParameter s!"'{name}': names starting with '__' are reserved")
  scopes : Scope.Matching lax.toExcuses S
  congruence : Node.Congruence lax.toExcuses R
  closed : Json.Closed P X
  closedExpanded : Json.Closed X X
  tagged : ∀ {v} label cast, X v → X (v.tagged label cast)
  options : b.options.Parallel R d.options
  part : ∀ position {v s t}, P v → Scope.At S position s t →
    Meets lax (Node.RelatedAt R position) (b.part b.resolving position v s)
      (d.part d.resolving position v t)
  expansion : ∀ position {v s t}, X v → Scope.At S position s t →
    Meets lax (Node.RelatedAt R position) (b.expansion b.resolving position v s)
      (d.expansion d.resolving position v t)

namespace Builder

variable {lax : Leeway Error}
  {b d : Builder}
variable {v : Json} {vs : List Json}

/-- The builders for what texts stand for agree, too. -/
theorem Parallel.outside (h : Parallel lax S R P X b d) :
    Parallel lax S R X X b.outside d.outside where
  plain := h.plain
  reserved := h.reserved
  scopes := h.scopes
  congruence := h.congruence
  closed := h.closedExpanded
  closedExpanded := h.closedExpanded
  tagged := h.tagged
  options := h.options
  part := h.expansion
  expansion := h.expansion

theorem Parallel.same {α β γ : Type} {Q : β → γ → Prop} {x : Result α} {f : α → Result β}
    {g : α → Result γ} (h : Parallel lax S R P X b d) (hx : Plain x)
    (hf : ∀ a, x = .ok a → Meets lax Q (f a) (g a)) :
    Meets lax Q (x >>= f) (x >>= g) :=
  .same (hx.imp fun _ => h.plain) hf

theorem Parallel.error {α β : Type} {Q : α → β → Prop} {e : Error} (h : Parallel lax S R P X b d)
    (he : e.Plain) :
    Meets lax Q (.error e) (.error e) :=
  .error (h.plain he)

/-- Outcomes that agree where the first has nothing to do with the values of parameters. -/
theorem Parallel.meets {α β : Type} {Q : α → β → Prop} {x : Result α} {y : Result β}
    (h : Parallel lax S R P X b d) (hx : Plain x) (hxy : Agree lax.toExcuses Q x y) :
    Meets lax Q x y :=
  hxy.meets (hx.imp fun _ => h.plain)

/-- Folded nodes stay related. -/
theorem Parallel.fold (h : Parallel lax S R P X b d) (hnm : R n m) (label : Option String)
    (cast : Option CastType) :
    Meets lax R (n.fold label cast) (m.fold label cast) :=
  h.meets (by simp) (h.congruence.fold hnm label cast)

/-- Builders that resolve the same parameters and agree on the values bound to others agree on all
of them. -/
theorem boundValue_agree {lax : Excuses Error} (ho : b.options.Parallel R d.options)
    (hresolving : d.resolving = b.resolving)
    (hbinding : ∀ {name v s t}, b.options.parameter? name = some v → name ∉ b.resolving → S s t →
      Agree lax R (b.binding (b.resolving ++ [name]) .expression v s)
        (d.binding (b.resolving ++ [name]) .expression v t))
    (name : String) (hs : S s t) :
    Agree lax (Option.Rel R) (b.boundValue name s) (d.boundValue name t) := by
  unfold boundValue
  rw [ho.parameter?, ho.mustHave]
  cases hv : b.options.parameter? name with
  | none =>
    dsimp only
    split
    · exact .error _
    · exact .ok .none
  | some v =>
    have hresolve : d.resolve name = b.resolve name := by
      rw [resolve, resolve, hresolving]
    dsimp only
    rw [hresolve]
    refine .same fun r hr => ?_
    unfold resolve at hr
    split at hr
    · cases hr
    next hfresh =>
    cases hr
    exact (hbinding hv (by simpa using hfresh) hs).bind fun n m _ _ hnm => .ok (.some hnm)

/-- A relation as it is normalized: as it is written, or as what its text stands for. -/
theorem normalizeRelation_cases (hclosed : Json.Closed P X)
    (htagged : ∀ {v} label cast, X v → X (v.tagged label cast)) {v w : Json} {expanded : Bool}
    (hv : P v) (hw : normalizeRelation v = .ok (w, expanded)) :
    (expanded = false ∧ P w) ∨ (expanded = true ∧ X w) := by
  unfold normalizeRelation at hw
  split at hw
  · obtain ⟨obj, hobj, hw⟩ := of_bind hw
    have hyields := hclosed.object hv hobj
    dsimp only at hw
    split at hw
    · next htype =>
      obtain ⟨_, -, hw⟩ := of_bind hw
      obtain ⟨text, htext, hw⟩ := of_bind hw
      obtain ⟨e, he, hw⟩ := of_bind hw
      obtain ⟨u, hu, hw⟩ := of_bind hw
      obtain ⟨_, hsome, hw⟩ := of_bind hw
      cases hsome
      obtain ⟨label, -, hw⟩ := of_bind hw
      obtain ⟨cast, -, hw⟩ := of_bind hw
      cases hw
      exact .inr ⟨rfl, htagged _ _ (hyields.short htype htext he hu)⟩
    · next htype =>
      obtain ⟨_, -, hw⟩ := of_bind hw
      obtain ⟨text, htext, hw⟩ := of_bind hw
      obtain ⟨u, hu, hw⟩ := of_bind hw
      obtain ⟨_, hsome, hw⟩ := of_bind hw
      cases hsome
      obtain ⟨label, -, hw⟩ := of_bind hw
      obtain ⟨cast, -, hw⟩ := of_bind hw
      cases hw
      exact .inr ⟨rfl, htagged _ _ (hyields.sql htype htext hu)⟩
    · cases hw
      exact .inl ⟨rfl, hv⟩
  · cases hw
    exact .inl ⟨rfl, hv⟩

variable (h : Parallel lax S R P X b d)

include h

private theorem expression_agree (hv : P v) (hs : S s t) :
    Meets lax R (b.expression v s) (d.expression v t) :=
  h.part .expression hv hs

private theorem expressions_agree (hvs : ∀ v ∈ vs, P v) (hs : S s t) :
    Meets lax (List.Forall₂ R) (b.expressions vs s) (d.expressions vs t) :=
  .mapM fun v hv => expression_agree h (hvs v hv) hs

private theorem optional_agree {v : Option Json} (hv : ∀ w ∈ v, P w) (hs : S s t) :
    Meets lax (Option.Rel R) (b.optional v s) (d.optional v t) := by
  cases v with
  | none => exact .ok .none
  | some v => exact (expression_agree h (hv v rfl) hs).bind fun n m _ _ hnm => .ok (.some hnm)

private theorem column_agree (hs : S s t) :
    Meets lax R (column obj s) (column obj t) := by
  unfold column
  refine h.same (by simp) fun _ _ => h.same (by simp) fun name _ =>
    h.same (by simp) fun view _ => ?_
  refine (h.meets (by simp) (h.scopes.resolveColumn hs view name)).bind
    fun found found' _ _ hfound => ?_
  rw [hfound]
  exact .ok (h.congruence.column _)

private theorem parameter_agree (hbound : ∀ name, obj.string "value" = .ok name →
      Meets lax (Option.Rel R) (b.boundValue name s) (d.boundValue name t)) :
    Meets lax R (b.parameter obj s) (d.parameter obj t) := by
  unfold parameter
  refine h.same (by simp) fun _ _ => h.same (by simp) fun name hname => ?_
  dsimp only
  split
  · exact .error (h.reserved name)
  · exact (hbound name hname).bind fun n m _ _ hnm => .ok (h.congruence.parameter hnm)

private theorem call_agree (hobj : obj.Yields P X) (hs : S s t) :
    Meets lax R (b.call obj s) (d.call obj t) := by
  unfold call
  refine h.same (by simp) fun _ _ => h.same (by simp) fun name _ => h.same (by simp) fun f _ =>
    h.same (by simp) fun vs hvs => ?_
  refine (expressions_agree h (hobj.array? h.closed.items hvs) hs).bind fun ns ms _ _ hnm => ?_
  rw [hnm.length_eq]
  refine h.same (by simp) fun _ _ => h.same (by simp) fun distinct _ => ?_
  dsimp only
  split
  · exact h.error trivial
  · exact .ok (h.congruence.call hnm)

private theorem geometry_agree (hobj : obj.Yields P X) (hs : S s t) :
    Meets lax R (b.geometry obj s) (d.geometry obj t) := by
  unfold geometry
  refine h.same (by simp) fun _ _ => h.same (by simp) fun name _ => h.same (by simp) fun type _ =>
    h.same (by simp) fun vs hvs => ?_
  refine (expressions_agree h (hobj.array h.closed.items hvs) hs).bind fun ns ms _ _ hnm => ?_
  rw [hnm.length_eq]
  exact h.same (by simp) fun _ _ => .ok (h.congruence.geometry hnm)

private theorem operator_agree (hobj : obj.Yields P X) (hs : S s t) :
    Meets lax R (b.operator obj s) (d.operator obj t) := by
  unfold operator
  refine h.same (by simp) fun op _ => h.same (by simp) fun vs hvs => ?_
  refine (expressions_agree h (hobj.array h.closed.items hvs) hs).bind fun ns ms _ _ hnm => ?_
  exact h.same (by simp) fun qualifier _ => h.meets (by simp) (h.congruence.operation hnm)

private theorem branch_agree (hv : P v) (hs : S s t) :
    Meets lax (fun p q => R p.1 q.1 ∧ R p.2 q.2) (b.branch s v) (d.branch t v) := by
  unfold branch
  split
  · have hparts := h.closed.items hv
    refine (expression_agree h (hparts _ (by simp)) hs).bind fun n m _ _ hnm => ?_
    exact (expression_agree h (hparts _ (by simp)) hs).bind fun k l _ _ hkl => .ok ⟨hnm, hkl⟩
  · exact h.error trivial

private theorem case_agree (hobj : obj.Yields P X) (hs : S s t) :
    Meets lax R (b.case obj s) (d.case obj t) := by
  unfold case
  refine h.same (by simp) fun _ _ => h.same (by simp) fun vs hvs => ?_
  dsimp only
  split
  · exact h.error trivial
  have hbranches := Meets.mapM fun v hv => branch_agree h (hobj.array h.closed.items hvs v hv) hs
  refine hbranches.bind fun bs ds _ _ hbs => ?_
  exact (optional_agree h (fun v hv => hobj.field hv) hs).bind fun o p _ _ hop =>
    .ok (h.congruence.case hbs hop)

private theorem array_agree (hobj : obj.Yields P X) (hs : S s t) :
    Meets lax R (b.array obj s) (d.array obj t) := by
  unfold array
  refine h.same (by simp) fun _ _ => h.same (by simp) fun vs hvs => ?_
  exact (expressions_agree h (hobj.array h.closed.items hvs) hs).bind fun ns ms _ _ hnm =>
    .ok (h.congruence.array hnm)

private theorem list_agree (hobj : obj.Yields P X) (hs : S s t) :
    Meets lax R (b.list obj s) (d.list obj t) := by
  unfold list
  refine h.same (by simp) fun _ _ => h.same (by simp) fun vs hvs => ?_
  refine (expressions_agree h (hobj.array h.closed.items hvs) hs).bind fun ns ms _ _ hnm => ?_
  have hempty : ns.isEmpty = ms.isEmpty := by cases hnm <;> rfl
  rw [hempty]
  dsimp only
  split
  · exact h.error trivial
  · exact .ok (h.congruence.list hnm)

private theorem sort_agree (hobj : obj.Yields P X) (hs : S s t) :
    Meets lax R (b.sort obj s) (d.sort obj t) := by
  unfold sort
  refine h.same (by simp) fun _ _ => h.same (by simp) fun v hv => ?_
  refine (expression_agree h (hobj.required hv) hs).bind fun n m _ _ hnm => ?_
  exact h.same (by simp) fun direction _ => h.same (by simp) fun nulls _ =>
    .ok (h.congruence.sort hnm)

private theorem constant_agree : Meets lax R (constant obj) (constant obj) := by
  unfold constant
  exact h.same (by simp) fun _ _ => h.same (by simp) fun p _ => .ok (h.congruence.constant p)

private theorem cast_agree (hobj : obj.Yields P X) (hs : S s t) :
    Meets lax R (b.cast obj s) (d.cast obj t) := by
  unfold cast
  refine h.same (by simp) fun _ _ => h.same (by simp) fun tag _ => ?_
  dsimp only
  split
  · exact h.error trivial
  refine h.same (by simp) fun v hv => ?_
  exact (expression_agree h (hobj.required hv) hs).bind fun n m _ _ hnm => h.fold hnm _ _

private theorem short_agree (hobj : obj.Yields P X) (htype : obj.type = .short) (hs : S s t) :
    Meets lax R (b.short obj s) (d.short obj t) := by
  unfold short expandShort
  refine h.same (by simp) fun _ _ => h.same (by simp) fun text htext =>
    h.same (by simp) fun e he => ?_
  refine Meets.bind (h.same (by simp) fun v hv => ?_) fun n m _ _ hnm =>
    h.same (by simp) fun tag _ => h.fold hnm _ _
  exact (expression_agree h.outside (hobj.short htype htext he hv) hs).bind fun n m _ _ hnm =>
    .ok (h.options.kept e hnm)

private theorem sql_agree (hobj : obj.Yields P X) (htype : obj.type = .sql) (hs : S s t) :
    Meets lax R (b.sql obj s) (d.sql obj t) := by
  unfold sql
  refine h.same (by simp) fun _ _ => h.same (by simp) fun text htext => h.same (by simp) fun v hv =>
    h.same (by simp) fun tag _ => ?_
  exact (expression_agree h.outside (hobj.sql htype htext hv) hs).bind fun n m _ _ hnm =>
    h.fold hnm _ _

/-! ## Relations -/

/-- A fold of nodes that are no kept short expressions. -/
theorem foldAt_agree (hnm : Node.RelatedAt R (.select role) n m) (label : Option String)
    (cast : Option CastType) :
    Meets lax (Node.RelatedAt R (.select role)) (n.fold label cast) (m.fold label cast) := by
  obtain ⟨hnm, hn, hm⟩ := hnm
  refine (h.fold hnm label cast).imp fun k l hk hl hkl => ⟨hkl, ?_, ?_⟩
  · rw [Node.isShort_of_fold hk, hn]
  · rw [Node.isShort_of_fold hl, hm]

private theorem viewOfName_agree (name : String) (role : SelectRole) (hs : S s t) :
    Meets lax (Node.RelatedAt R (.select role)) (viewOfName name s) (viewOfName name t) := by
  unfold viewOfName
  rw [h.scopes.isCte hs]
  split
  · exact h.error trivial
  · exact .ok ⟨h.congruence.view _ _, rfl, rfl⟩

private theorem relationNode_agree (hv : P v) (lateral : Bool) (hs : S s t) :
    Meets lax (Node.RelatedAt R (.select (.range lateral))) (b.relationNode v s lateral)
      (d.relationNode v t lateral) := by
  unfold relationNode
  split
  · exact viewOfName_agree h _ _ hs
  · refine h.same (by simp) fun obj _ => ?_
    split
    · unfold view
      refine h.same (by simp) fun _ _ => h.same (by simp) fun name _ => ?_
      refine (viewOfName_agree h name (.range lateral) hs).bind fun n m _ _ hnm => ?_
      exact h.same (by simp) fun tag _ => foldAt_agree h hnm _ _
    · exact h.part (.select (.range lateral)) hv (h.scopes.atPosition hs _)
    · exact h.error trivial
  · exact h.error trivial

/-- Trees in a relation with scopes in another one. -/
def RelatedIn {α : Type} (S : Scope → Scope → Prop) (Q : α → α → Prop) (p q : α × Scope) : Prop :=
  Q p.1 q.1 ∧ S p.2 q.2

private theorem declare_agree (hnm : Node.RelatedAt R (.select role) n m) (hs : S s t) :
    Meets lax S (declare s n) (declare t m) := by
  unfold declare
  rw [h.congruence.declaration hnm.1 hnm.2.1 hnm.2.2]
  exact h.same (by simp) fun p _ => h.meets (by simp) (h.scopes.withRef hs _ _)

private theorem relation_agree (hv : P v) (lateral : Bool) (hs : S s t) :
    Meets lax (RelatedIn S R) (b.relation v s lateral) (d.relation v t lateral) := by
  unfold relation
  refine h.same (by simp) fun p hp => ?_
  obtain ⟨w, expanded⟩ := p
  have hnode : Meets lax (Node.RelatedAt R (.select (.range lateral)))
      ((b.forParts expanded).relationNode w s lateral)
          ((d.forParts expanded).relationNode w t lateral) := by
    obtain ⟨rfl, hw⟩ | ⟨rfl, hw⟩ := normalizeRelation_cases h.closed h.tagged hv hp
    · exact relationNode_agree h hw lateral hs
    · exact relationNode_agree h.outside hw lateral hs
  refine hnode.bind fun n m _ _ hnm => ?_
  exact (declare_agree h hnm hs).bind fun u v _ _ huv => .ok ⟨hnm.1, huv⟩

private theorem joinNode_agree (hobj : obj.Yields P X) (hs : S s t) :
    Meets lax (RelatedIn S R) (b.joinNode obj s) (d.joinNode obj t) := by
  unfold joinNode
  refine h.same (by simp) fun _ _ => h.same (by simp) fun joined hjoined =>
    h.same (by simp) fun p _ => h.same (by simp) fun written _ => h.same (by simp) fun _ _ => ?_
  refine (relation_agree h (hobj.required hjoined) _ hs).bind fun n m _ _ hnm => ?_
  refine (optional_agree h (fun v hv => hobj.field hv) hnm.2).bind fun o q _ _ hoq => ?_
  refine h.same (by simp) fun tag _ => ?_
  exact (h.fold (h.congruence.join hnm.1 hoq) _ _).bind fun k l _ _ hkl => .ok ⟨hkl, hnm.2⟩

private theorem join_agree (hv : P v) (hs : S s t) :
    Meets lax (RelatedIn S R) (b.join v s) (d.join v t) := by
  unfold join
  refine h.same (by simp) fun p hp => ?_
  obtain ⟨w, expanded⟩ := p
  dsimp only
  split
  · exact h.error trivial
  refine h.same (by simp) fun obj hobj => ?_
  obtain ⟨rfl, hw⟩ | ⟨rfl, hw⟩ := normalizeRelation_cases h.closed h.tagged hv hp
  · exact joinNode_agree h (h.closed.object hw hobj) hs
  · exact joinNode_agree h.outside (h.closedExpanded.object hw hobj) hs

/-! ## Selects -/

private theorem declareCte_agree (hnm : R n m) (hs : S s t) :
    Meets lax S (declareCte s n) (declareCte t m) := by
  unfold declareCte
  rw [h.congruence.alias? hnm]
  split
  · exact h.meets (by simp) (h.scopes.withCte hs _)
  · exact .ok hs

private theorem ctes_agree (hvs : ∀ v ∈ vs, P v) (hs : S s t) :
    Meets lax (RelatedIn S (List.Forall₂ R)) (b.ctes obj vs s) (d.ctes obj vs t) := by
  induction vs generalizing s t with
  | nil => exact .ok ⟨.nil, hs⟩
  | cons v vs ih =>
    obtain ⟨hv, hvs⟩ := List.forall_mem_cons.mp hvs
    unfold ctes
    split
    · exact h.error trivial
    refine (h.part (.select .cte) hv (h.scopes.atPosition hs _)).bind fun n m _ _ hnm => ?_
    refine (declareCte_agree h hnm.1 hs).bind fun u w _ _ huw => ?_
    exact (ih hvs huw).bind fun p q _ _ hpq => .ok ⟨.cons hnm.1 hpq.1, hpq.2⟩

private theorem joins_agree (hvs : ∀ v ∈ vs, P v) (hs : S s t) :
    Meets lax (RelatedIn S (List.Forall₂ R)) (b.joins vs s) (d.joins vs t) := by
  induction vs generalizing s t with
  | nil => exact .ok ⟨.nil, hs⟩
  | cons v vs ih =>
    obtain ⟨hv, hvs⟩ := List.forall_mem_cons.mp hvs
    unfold joins
    refine (join_agree h hv hs).bind fun n m _ _ hnm => ?_
    exact (ih hvs hnm.2).bind fun p q _ _ hpq => .ok ⟨.cons hnm.1 hpq.1, hpq.2⟩

private theorem source_agree {v : Option Json} (hv : ∀ w ∈ v, P w) (hs : S s t) :
    Meets lax (RelatedIn S (Option.Rel R)) (b.source v s) (d.source v t) := by
  cases v with
  | none => exact .ok ⟨.none, hs⟩
  | some v =>
    exact (relation_agree h (hv v rfl) false hs).bind fun n m _ _ hnm => .ok ⟨.some hnm.1, hnm.2⟩

private theorem clauses_agree (hobj : obj.Yields P X) (hs : Scope.At S (.select role) s t) :
    Meets lax (Clauses.Related R) (b.clauses obj s role) (d.clauses obj t role) := by
  have hfield : ∀ key, ∀ v ∈ obj.get? key, P v := fun key v hv => hobj.field hv
  unfold clauses
  refine h.same (by simp) fun _ _ => h.same (by simp) fun withValues hwithValues => ?_
  refine (ctes_agree h (hobj.array? h.closed.items hwithValues) hs).bind
    fun withs withs' _ _ hwiths => ?_
  refine (source_agree h (hfield _) hwiths.2).bind fun source source' _ _ hsource => ?_
  refine h.same (by simp) fun joinValues hjoinValues => ?_
  refine (joins_agree h (hobj.array? h.closed.items hjoinValues) hsource.2).bind
    fun joins joins' _ _ hjoins => ?_
  refine h.same (by simp) fun distinct _ => h.same (by simp) fun columnValues hcolumnValues => ?_
  refine (expressions_agree h (hobj.array h.closed.items hcolumnValues) hjoins.2).bind
    fun ns ms _ _ hcolumns => ?_
  have hempty : ns.isEmpty = ms.isEmpty := by cases hcolumns <;> rfl
  rw [hempty]
  dsimp only
  split
  · exact h.error trivial
  refine (optional_agree h (hfield _) hjoins.2).bind fun filter filter' _ _ hfilter => ?_
  refine (optional_agree h (hfield _) hjoins.2).bind fun having' having'' _ _ hhaving => ?_
  refine h.same (by simp) fun groupValues hgroupValues => ?_
  refine (expressions_agree h (hobj.array? h.closed.items hgroupValues) hjoins.2).bind
    fun gs gs' _ _ hgroupBy => ?_
  refine h.same (by simp) fun orderValues horderValues => ?_
  refine (expressions_agree h (hobj.array? h.closed.items horderValues) hjoins.2).bind
    fun os os' _ _ horderBy => ?_
  refine h.same (plain_mapM (plain_limitOf obj) _) fun limit _ => ?_
  refine h.same (plain_mapM (plain_offsetOf obj) _) fun offset _ => .ok ?_
  exact ⟨hwiths.1, hsource.1, hjoins.1, rfl, hcolumns, hfilter, hgroupBy, hhaving,
    horderBy, rfl, rfl⟩

private theorem side_agree (hv : P v) (op : SetOperator) (hs : Scope.At S (.select role) s t) :
    Meets lax R (b.side obj s op v) (d.side obj t op v) := by
  unfold side
  split
  · exact (h.part (.select .operand) hv (h.scopes.side hs)).imp fun n m _ _ hnm => hnm.1
  · exact h.error trivial

private theorem compound_agree (hobj : obj.Yields P X) (op : SetOperator)
    (hs : Scope.At S (.select role) s t) :
    Meets lax (Node.RelatedAt R (.select role)) (b.compound obj s role op)
      (d.compound obj t role op) := by
  unfold compound
  split
  · exact h.error trivial
  refine h.same (by simp) fun _ _ => h.same (by simp) fun vs hvs => ?_
  have hvs := hobj.array h.closed.items hvs
  split
  · refine h.same (by simp) fun all _ => ?_
    refine (side_agree h (hvs _ (by simp)) op hs).bind fun n m _ _ hnm => ?_
    refine (side_agree h (hvs _ (by simp)) op hs).bind fun k l _ _ hkl => ?_
    exact .ok ⟨h.congruence.compound hnm hkl, rfl, rfl⟩
  · exact h.error trivial

private theorem select_agree (hobj : obj.Yields P X) (hs : Scope.At S (.select role) s t) :
    Meets lax (Node.RelatedAt R (.select role)) (b.select obj s role) (d.select obj t role) := by
  have hfinish : ∀ {n m : Node}, Node.RelatedAt R (.select role) n m →
      Meets lax (Node.RelatedAt R (.select role))
        (do let tag ← obj.tag; let k ← n.fold tag.label tag.cast; checkAlias role k; pure k)
        (do let tag ← obj.tag; let k ← m.fold tag.label tag.cast; checkAlias role k; pure k) := by
    intro n m hnm
    refine h.same (by simp) fun tag _ => (foldAt_agree h hnm _ _).bind fun k l _ _ hkl => ?_
    have hcheck : checkAlias role k = checkAlias role l := by
      unfold checkAlias
      rw [h.congruence.alias? hkl.1]
    rw [hcheck]
    exact h.same (by simp) fun _ _ => .ok hkl
  unfold select
  split
  · refine (clauses_agree h hobj hs).bind fun c e _ _ hce => ?_
    exact hfinish ⟨h.congruence.select hce, rfl, rfl⟩
  · exact (compound_agree h hobj _ hs).bind fun n m _ _ hnm => hfinish hnm
  · exact h.error trivial

/-! ## Values -/

private theorem object_agree (hobj : obj.Yields P X) (hs : S s t)
    (hbound : ∀ name, obj.type = .parameter → obj.string "value" = .ok name →
      Meets lax (Option.Rel R) (b.boundValue name s) (d.boundValue name t)) :
    Meets lax R (b.object obj s) (d.object obj t) := by
  have hfold : ∀ {x y : Result Node}, Meets lax R x y →
      Meets lax R (do let n ← x; let tag ← obj.tag; n.fold tag.label tag.cast)
        (do let n ← y; let tag ← obj.tag; n.fold tag.label tag.cast) := fun hxy =>
    hxy.bind fun n m _ _ hnm => h.same (by simp) fun tag _ => h.fold hnm _ _
  unfold object
  split
  · exact (select_agree h hobj (h.scopes.atPosition hs (.select .subquery))).imp
      fun n m _ _ hnm => hnm.1
  · next htype => exact short_agree h hobj htype hs
  · next htype => exact sql_agree h hobj htype hs
  · exact cast_agree h hobj hs
  · exact h.error trivial
  · exact h.error trivial
  · exact hfold (column_agree h hs)
  · next htype => exact hfold (parameter_agree h fun name hname => hbound name htype hname)
  · exact hfold (call_agree h hobj hs)
  · exact hfold (geometry_agree h hobj hs)
  · exact hfold (operator_agree h hobj hs)
  · exact hfold (operator_agree h hobj hs)
  · exact hfold (operator_agree h hobj hs)
  · exact hfold (case_agree h hobj hs)
  · exact hfold (array_agree h hobj hs)
  · exact hfold (list_agree h hobj hs)
  · exact hfold (sort_agree h hobj hs)
  · exact hfold (constant_agree h)

/-- A value whose items and fields are such that the parts agree on them is built alike by builders
that agree. -/
theorem value_agree {position : Position}
    (hitems : ∀ {vs}, v = .array vs → ∀ w ∈ vs, P w)
    (hobject : ∀ {obj}, QlObject.ofJson v = .ok obj → obj.Yields P X)
    (hbound : ∀ {obj} name {s t}, QlObject.ofJson v = .ok obj → obj.type = .parameter →
      obj.string "value" = .ok name → S s t →
        Meets lax (Option.Rel R) (b.boundValue name s) (d.boundValue name t))
    (hs : Scope.At S position s t) :
    Meets lax (Node.RelatedAt R position) (b.value position v s) (d.value position v t) := by
  unfold value
  split
  · exact h.same (by simp) fun obj hobj => select_agree h (hobject hobj) hs
  · exact (expressions_agree h (hitems rfl) hs).bind fun ns ms _ _ hnm =>
      .ok (h.congruence.array hnm)
  · exact h.same (by simp) fun obj hobj =>
      object_agree h (hobject hobj) hs fun name htype hname => hbound name hobj htype hname hs
  · exact h.same (by simp) fun p _ => .ok (h.congruence.constant p)

end Builder

/-! ## The recursion -/

namespace Build

variable {lax : Excuses Error} {o p : ParseOptions} {r : List String}
  {expansion expansion' binding binding' : BuildFn}

/-- Whether two ways to build values agree on every value. -/
def AgreeOn (lax : Excuses Error) (S : Scope → Scope → Prop) (R : Node → Node → Prop)
    (f g : BuildFn)
    (r : List String) : Prop :=
  ∀ position v s t, Scope.At S position s t →
    Agree lax (Node.RelatedAt R position) (f r position v s) (g r position v t)

/-- Whether two ways to build the values bound to parameters agree on each parameter that can be
resolved. -/
def AgreeOnBound (lax : Excuses Error) (S : Scope → Scope → Prop) (R : Node → Node → Prop)
    (o : ParseOptions)
    (f g : BuildFn) (r : List String) : Prop :=
  ∀ {name v s t}, o.parameter? name = some v → name ∉ r → S s t →
    Agree lax R (f (r ++ [name]) .expression v s) (g (r ++ [name]) .expression v t)

/-- A bound on the recursion may be raised where its failure is excused. -/
def Raised (lax : Excuses Error) (low high : Nat) : Prop :=
  low = high ∨ low ≤ high ∧ lax.first .exhausted

theorem Raised.refl (bound : Nat) : Raised lax bound bound := .inl rfl

private theorem Raised.exhausted {Q : Node → Node → Prop} {x : Result Node} (h : Raised lax 0 low)
    (hx : low = 0 → x = .error .exhausted) : Agree lax Q (.error .exhausted) x := by
  obtain rfl | ⟨-, hlax⟩ := h
  · rw [hx rfl]
    exact .error _
  · exact .excused _ hlax

private theorem Raised.pred {high : Nat} (h : Raised lax (low + 1) high) :
    ∃ high', high = high' + 1 ∧ Raised lax low high' := by
  obtain rfl | ⟨hle, hlax⟩ := h
  · exact ⟨low, rfl, .refl low⟩
  · exact ⟨high - 1, by omega, .inr ⟨by omega, hlax⟩⟩

private theorem within_agree (hS : Scope.Matching lax S) (hR : Node.Congruence lax R)
    (ho : o.Parallel R p) (hexpansion : AgreeOn lax S R expansion expansion' r)
    (hbinding : AgreeOnBound lax S R o binding binding' r) {depth depth' : Nat}
    (hdepth : Raised lax depth depth') :
    AgreeOn lax S R (within o expansion binding depth) (within p expansion' binding' depth') r := by
  induction depth generalizing depth' with
  | zero =>
    intro position v s t _
    refine hdepth.exhausted ?_
    rintro rfl
    rfl
  | succ depth ih =>
    intro position v s t hs
    obtain ⟨depth', rfl, hlow⟩ := hdepth.pred
    have hall : Json.Closed (fun _ => True) fun _ => True :=
      ⟨fun _ _ _ => trivial, fun _ _ =>
        ⟨fun _ => trivial, fun _ _ _ _ => trivial, fun _ _ _ => trivial⟩⟩
    have hb : Builder.Parallel (.ofExcuses lax) S R (fun _ => True) (fun _ => True)
        ⟨o, r, within o expansion binding depth, expansion, binding⟩
        ⟨p, r, within p expansion' binding' depth', expansion', binding'⟩ :=
      { plain := fun _ => trivial, reserved := fun _ => trivial
        scopes := hS, congruence := hR, closed := hall, closedExpanded := hall, tagged :=
          fun _ _ _ => trivial
        options := ho, part := fun position v s t _ hs =>
          (ih hlow position v s t hs).meets fun _ _ => trivial
        expansion := fun position v s t _ hs =>
          (hexpansion position v s t hs).meets fun _ _ => trivial }
    refine (Builder.value_agree hb (fun _ _ _ => trivial) (fun hobj => hall.object trivial hobj)
      (fun name s t _ _ _ hs => Agree.meets ?_ fun _ _ => trivial) hs).agree
    refine Builder.boundValue_agree ?_ ?_ ?_ name hs
    exacts [ho, rfl, hbinding]

theorem levels_agree (hS : Scope.Matching lax S) (hR : Node.Congruence lax R) (ho : o.Parallel R p)
    (hbinding : AgreeOnBound lax S R o binding binding' r) {level level' : Nat}
    (hlevel : Raised lax level level') :
    AgreeOn lax S R (levels o binding level) (levels p binding' level') r := by
  induction level generalizing level' with
  | zero =>
    intro position v s t _
    refine hlevel.exhausted ?_
    rintro rfl
    rfl
  | succ level ih =>
    intro position v s t hs
    obtain ⟨level', rfl, hlow⟩ := hlevel.pred
    exact within_agree hS hR ho (ih hlow) hbinding (.refl _) position v s t hs

private theorem chains_agree (hS : Scope.Matching lax S) (hR : Node.Congruence lax R)
    (ho : o.Parallel R p) (count : Nat) :
    ∀ r, AgreeOn lax S R (chains o count) (chains p count) r := by
  induction count with
  | zero => exact fun r position v s t _ => .error _
  | succ count ih =>
    intro r position v s t hs
    have hbinding : AgreeOnBound lax S R o (chains o count) (chains p count) r :=
      fun _ _ hs => ih _ .expression _ _ _ hs
    exact levels_agree hS hR ho hbinding (.refl _) position v s t hs

/-- Values are built alike with choices under which trees in a relation stay so, in scopes that
match. -/
theorem run_agree (hS : Scope.Matching lax S) (hR : Node.Congruence lax R) (ho : o.Parallel R p)
    (r : List String) :
    AgreeOn lax S R (run o) (run p) r := by
  intro position v s t hs
  have hleft : chainsLeft p r = chainsLeft o r := by rw [chainsLeft, chainsLeft, ho.parameters]
  rw [run, run, hleft]
  exact chains_agree hS hR ho _ r position v s t hs

end Build

end AnalyticQuery
