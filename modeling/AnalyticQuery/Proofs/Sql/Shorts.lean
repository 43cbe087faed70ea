import AnalyticQuery.Proofs.Sql.Extraction
import AnalyticQuery.Proofs.Sql.Leaves

/-!
# Short expressions of SQL text in values

A value that is read from SQL text has the short expressions and columns of the construct that its
text is parsed to, each at its own place. A short expression comes from a placeholder that is an
operand, or from a relation whose name in double quotes is that of a placeholder. Which of them a
short expression of the text becomes is decided by the words before it alone: after `from` and
`join` its placeholder is quoted, which is a column where no relation stands.
-/

namespace AnalyticQuery.Sql

open Json List Result

variable {vs : List Json} {es : List Expr} {js : List (Join Expr Relation)}

/-! ## Constructs inside constructs -/

/-- A construct that has a value of its own. -/
inductive Construct where
  | expr (e : Expr)
  | item (i : Item Expr)
  | query (q : Query)
  | body (b : Body)
  | relation (r : Relation)

namespace Construct

/-- The value of a construct. -/
def lower (x : Extracted) : Construct → Result Json
  | expr e => e.lower x
  | item i => lowerItem x i
  | query q => q.lower x
  | body b => b.lower x
  | relation r => Prod.fst <$> r.lower x

/-- Constructs in a list, counted from a number on. -/
def itemsFrom : Nat → List Construct → List (Path × Construct)
  | _, [] => []
  | start, c :: cs => ([.item start], c) :: itemsFrom (start + 1) cs

/-- The operands of an operation. -/
def operands (cs : List Construct) : List (Path × Construct) :=
  below [.key "operands"] (itemsFrom 0 cs)

/-- An expression at a place, if there is one. -/
def optional (path : Path) (e : Option Expr) : List (Path × Construct) :=
  e.toList.map ((path, expr ·))

/-- The branches of a case, counted from a number on. An operand of the case is compared with each
condition. -/
def branchesFrom (operand : Option Expr) : Nat → List (Expr × Expr) → List (Path × Construct)
  | _, [] => []
  | start, (condition, result) :: rest =>
    let test := match operand with
      | some o => below [.item start, .item 0] (operands [expr o, expr condition])
      | none => [([.item start, .item 0], expr condition)]
    test ++ ([.item start, .item 1], expr result) :: branchesFrom operand (start + 1) rest

/-- The relations and conditions of joins, counted from a number on. -/
def joinsFrom : Nat → List (Join Expr Relation) → List (Path × Construct)
  | _, [] => []
  | start, j :: js =>
    ([.item start, .key "view"], relation j.relation)
      :: optional [.item start, .key "on"] j.on? ++ joinsFrom (start + 1) js

/-- The constructs inside an expression. -/
def ofExpr : Expr → List (Path × Construct)
  | .nested e | .cast _ e _ _ | .interval e _ _ => [([], expr e)]
  | .unary op e => if op = "+" then [([], expr e)] else operands [expr e]
  | .binary left _ right | .quantified left _ _ right => operands [expr left, expr right]
  | .is e _ _ => operands [expr e]
  | .between e _ low high => operands [expr e, expr low, expr high]
  | .inList e _ items =>
    below [.key "operands"] (([.item 0], expr e) :: below [.item 1] (itemsFrom 0 (items.map expr)))
  | .inQuery e _ q => operands [expr e, query q]
  | .exists _ q => operands [query q]
  | .subquery q => [([], query q)]
  | .like e _ _ _ pattern _ => operands [expr e, expr pattern]
  | .case operand branches otherwise =>
    below [.key "cases"] (branchesFrom operand 0 branches) ++ optional
      [.key "defaultCase"] otherwise
  | .call _ args _ => below [.key "args"] (itemsFrom 0 (args.exprs.map expr))
  | .extract _ e => [([.key "args", .item 1], expr e)]
  | .substring e start length _ =>
    below [.key "args"]
      (([.item 0], expr e) :: optional [.item 1] start ++ optional [.item 2] length)
  | .rounding _ e _ => [([.key "args", .item 0], expr e)]
  | .array _ items | .row items => itemsFrom 0 (items.map expr)
  | .column _ | .literal _ | .typed _ _ | .foreign _ => []

/-- The constructs inside a select. -/
def ofSelect (s : SelectClauses Expr Relation) : List (Path × Construct) :=
  (s.source.head?.map (·.relation)).toList.map (([.key "from"], relation ·))
    ++ below [.key "joins"] (joinsFrom 0 (joinsOf s.source))
    ++ below [.key "columns"] (itemsFrom 0 (s.items.map item))
    ++ optional [.key "where"] s.filter
    ++ below [.key "groupBy"] (itemsFrom 0 (s.groupBy.exprs.map expr))
    ++ optional [.key "having"] s.having

/-- The constructs inside a construct, each with its place. The hints of a table have none: they are
left out of values. -/
def parts : Construct → List (Path × Construct)
  | expr e => ofExpr e
  | item (.expr e) | item (.aliased e _) => [([], expr e)]
  | item _ => []
  | query (.mk c) =>
    ([], body c.body) :: below [.key "with"] (itemsFrom 0 (c.ctes.map (query ·.query)))
      ++ below [.key "orderBy"] (itemsFrom 0 (c.orderBy.map (expr ·.value)))
  | body (.select s) => ofSelect s
  | body (.nested q) => [([], query q)]
  | body (.compound op _ left right) => below [.key op.name] (itemsFrom 0 [body left, body right])
  | body _ => []
  | relation (.derived _ q _) => [([], query q)]
  | relation _ => []

/-- The leaf that a construct is: a column, or the short expression behind a placeholder. -/
def leaf? (x : Extracted) : Construct → Option Leaf
  | expr (.column [column]) => some (.column column.text none)
  | expr (.column [view, column]) => some (.column column.text (some view.text))
  | expr (.literal (.placeholder text)) => (x.short? text).map (.short ·.text)
  | item .wildcard => some (.column "*" none)
  | item (.wildcardOf [view]) => some (.column "*" (some view.text))
  | relation (.table [ident] _ _ _ _) =>
    if ident.quote = some '"' then (x.short? ident.text).map (.short ·.text) else none
  | _ => none

/-- A construct stands at a place in another one: it is that one, or stands in one inside it. -/
inductive Holds : Construct → Path → Construct → Prop
  | here {c} : Holds c [] c
  | inside {c d e path path'} : (path, d) ∈ c.parts → Holds d path' e → Holds c (path ++ path') e

/-- A leaf stands at a place in a construct. -/
def Shows (x : Extracted) (c : Construct) (path : Path) (leaf : Leaf) : Prop :=
  ∃ d, c.Holds path d ∧ d.leaf? x = some leaf

/-- Whether a construct is a placeholder as an operand, or in double quotes as a relation. -/
def IsPlaceholder (name : String) : Construct → Prop
  | expr (.literal (.placeholder text)) => text = name
  | relation (.table [ident] _ _ _ _) => ident.quote = some '"' ∧ ident.text = name
  | _ => False

/-- A placeholder in such a place is the short expression behind it. -/
theorem leaf?_of_isPlaceholder {x : Extracted} {c : Construct} {name : String}
    (h : c.IsPlaceholder name) :
    c.leaf? x = (x.short? name).map (.short ·.text) := by
  unfold IsPlaceholder at h
  split at h
  · rw [leaf?, h]
  · rw [leaf?, if_pos h.1, h.2]
  · exact h.elim

/-! ## Leaves of the values of constructs -/

/-- The leaves of the values of some constructs, each below its place. A construct that stands for
no leaf need not have a value. -/
inductive Gathers (x : Extracted) : List (Path × Construct) → List (Path × Leaf) → Prop
  | nil : Gathers x [] []
  | cons {path c v cs leaves} : c.lower x = .ok v → Gathers x cs leaves →
      Gathers x ((path, c) :: cs) (below path v.leaves ++ leaves)
  | mute {path c cs leaves} : c.leaf? x = none → c.parts = [] → Gathers x cs leaves →
      Gathers x ((path, c) :: cs) leaves

variable {x : Extracted} {cs ds : List (Path × Construct)} {ls ms : List (Path × Leaf)} {v : Json}

theorem Gathers.append (h : Gathers x cs ls) (h' : Gathers x ds ms) :
    Gathers x (cs ++ ds) (ls ++ ms) := by
  induction h with
  | nil => exact h'
  | cons hv _ ih =>
    rw [append_assoc]
    exact .cons hv ih
  | mute hleaf hparts _ ih => exact .mute hleaf hparts ih

private theorem Gathers.moved (path : Path) (h : Gathers x cs ls) :
    Gathers x (AnalyticQuery.below path cs) (AnalyticQuery.below path ls) := by
  induction h with
  | nil => exact .nil
  | cons hv _ ih =>
    rw [below_append, below_below]
    exact .cons hv ih
  | mute hleaf hparts _ ih => exact .mute hleaf hparts ih

theorem Gathers.single {c : Construct} (path : Path) (h : c.lower x = .ok v) :
    Gathers x [(path, c)] (AnalyticQuery.below path v.leaves) := by
  rw [← append_nil (AnalyticQuery.below path v.leaves)]
  exact .cons h .nil

/-- The leaves of items are those of their values. -/
theorem Gathers.items {cs : List Construct} (start : Nat)
    (h : List.Forall₂ (fun c v => c.lower x = .ok v) cs vs) :
    Gathers x (itemsFrom start cs) (leavesItems start vs) := by
  induction h generalizing start with
  | nil =>
    rw [leavesItems_nil]
    exact .nil
  | cons hv _ ih =>
    rw [leavesItems_cons]
    exact .cons hv (ih (start + 1))

theorem Gathers.exprs (start : Nat) (h : lowerExprs x es = .ok vs) :
    Gathers x (itemsFrom start (es.map expr)) (leavesItems start vs) :=
  .items start (forall₂_map_left_iff.mpr (forall₂_of_lowerExprs h))

theorem Gathers.operands {cs : List Construct}
    (h : List.Forall₂ (fun c v => c.lower x = .ok v) cs vs) :
    Gathers x (operands cs) (AnalyticQuery.below [.key "operands"] (leavesItems 0 vs)) :=
  (Gathers.items 0 h).moved _

theorem Gathers.optional {o : Option Expr} {v : Option Json} (path : Path)
    (h : lowerExpr? x o = .ok v) :
    Gathers x (optional path o) (AnalyticQuery.below path ((v.map leaves).getD [])) := by
  cases o with
  | none =>
    rw [lowerExpr?] at h
    cases h
    exact .nil
  | some e =>
    obtain ⟨v, hv, rfl⟩ := exists_of_lowerExpr? h rfl
    exact .single path hv

/-- The leaves of branches are those of their values. -/
theorem Gathers.branches {operand : Option Expr} {o : Option Json} {branches : List (Expr × Expr)}
    {cases : List Json} (start : Nat) (ho : lowerExpr? x operand = .ok o)
    (h : lowerBranches x o branches = .ok cases) :
    Gathers x (branchesFrom operand start branches) (leavesItems start cases) := by
  induction branches generalizing start cases with
  | nil =>
    rw [lowerBranches] at h
    cases h
    rw [leavesItems_nil]
    exact .nil
  | cons branch branches ih =>
    obtain ⟨condition, result⟩ := branch
    rw [lowerBranches] at h
    obtain ⟨c, hc, h⟩ := of_bind h
    obtain ⟨r, hr, h⟩ := of_bind h
    obtain ⟨others, hothers, h⟩ := of_bind h
    cases h
    have hrest :
      Gathers x (([.item start, .item 1], expr result) :: branchesFrom operand (start + 1) branches)
        (AnalyticQuery.below [.item start, .item 1] r.leaves ++ leavesItems (start + 1) others) :=
      .cons hr (ih (start + 1) hothers)
    cases operand with
    | none =>
      rw [lowerExpr?] at ho
      cases ho
      have htest : Gathers x [([.item start, .item 0], expr condition)]
          (AnalyticQuery.below [.item start, .item 0] c.leaves) := .single _ hc
      simpa [branchesFrom, leaves] using htest.append hrest
    | some e =>
      obtain ⟨w, hw, rfl⟩ := exists_of_lowerExpr? ho rfl
      have hboth : List.Forall₂ (fun c v => c.lower x = .ok v) [expr e, expr condition] [w, c] :=
        .cons hw (.cons hc .nil)
      have htest := (Gathers.operands hboth).moved [.item start, .item 0]
      rw [← leaves_operation _ "="] at htest
      simpa [branchesFrom, leaves] using htest.append hrest

/-- The leaves of joins are those of their values. -/
theorem Gathers.joins (start : Nat) (h : List.Forall₂ (fun j v => j.Lowered x v) js vs) :
    Gathers x (joinsFrom start js) (leavesItems start vs) := by
  induction h generalizing start with
  | nil =>
    rw [leavesItems_nil]
    exact .nil
  | @cons j v js vs hj _ ih =>
    obtain @⟨view, lateral, on, type, hview, hon, -⟩ := hj
    have hrelation : (relation j.relation).lower x = .ok view := by
      rw [lower, hview]
      rfl
    have hfirst := (Gathers.single [.item start, .key "view"] hrelation).append
      (Gathers.optional [.item start, .key "on"] hon)
    simpa [joinsFrom, leaves_joinValue] using hfirst.append (ih (start + 1))

/-- The leaves of arguments are those of their values. -/
theorem Gathers.arguments {name : String} {single : Bool} {args : List (CallArgument Expr)}
    {multiplicity : Option Multiplicity} {clauses : List String} (start : Nat)
    (h : lowerArguments x name single args = .ok vs) :
    Gathers x (itemsFrom start ((CallArguments.list multiplicity args clauses).exprs.map expr))
      (leavesItems start vs) := by
  refine .exprs start ?_
  induction args generalizing vs with
  | nil => rwa [lowerArguments] at h
  | cons arg args ih =>
    cases arg with
    | expr e =>
      rw [lowerArguments] at h
      obtain ⟨v, hv, h⟩ := of_bind h
      obtain ⟨rest, hrest, h⟩ := of_bind h
      cases h
      have hall := ih hrest
      simp only [CallArguments.exprs, filterMap_cons] at hall ⊢
      rw [lowerExprs, hv, ok_bind, hall]
      rfl
    | wildcard =>
      rw [lowerArguments] at h
      split at h
      · exact ih h
      · cases h
    | «foreign» text =>
      rw [lowerArguments] at h
      cases h

/-! ## Values of expressions -/

/-- A construct and a value that has the leaf that the construct is and the leaves of what is inside
it. -/
def Collects (x : Extracted) (c : Construct) (v : Json) : Prop :=
  ∃ ls, Gathers x c.parts ls ∧ v.leaves = (c.leaf? x).toList.map (([], ·)) ++ ls

private theorem leaves_typedLiteral (h : TypedLiteral v) : v.leaves = [] := by
  cases h with
  | text text cast => simp [leaves, Temporal.castLiteral, Json.string?]
  | geometry text => simp [leaves, Json.string?]

private theorem leaves_literal {l : Literal} (h : l.lower x = .ok v) :
    v.leaves = ((expr (.literal l)).leaf? x).toList.map (([], ·)) := by
  cases Literal.lowered h with
  | number n => exact leaves_number n
  | placeholder found => simp [leaf?, found]
  | _ => simp [leaf?]

theorem Collects.same {c d : Construct} (hparts : c.parts = [([], d)]) (hleaf : c.leaf? x = none)
    (h : d.lower x = .ok v) : Collects x c v := by
  refine ⟨v.leaves, ?_, by rw [hleaf]; rfl⟩
  rw [hparts, ← below_root v.leaves]
  exact .single [] h

theorem Collects.operands {c : Construct} {cs : List Construct}
    (hparts : c.parts = Construct.operands cs) (hleaf : c.leaf? x = none)
    (hv : v.leaves = AnalyticQuery.below [.key "operands"] (leavesItems 0 vs))
    (h : List.Forall₂ (fun c v => c.lower x = .ok v) cs vs) : Collects x c v := by
  refine ⟨v.leaves, ?_, by rw [hleaf]; rfl⟩
  rw [hparts, hv]
  exact .operands h

/-- The leaves of the value of an expression are the one that it is and those of what is inside
it. -/
theorem collects_expr {e : Expr} (h : e.Lowered x v) : Collects x (expr e) v := by
  cases h with
  | column | qualified => exact ⟨[], .nil, by simp [leaf?]⟩
  | literal hl => exact ⟨[], .nil, by rw [leaves_literal hl, append_nil]⟩
  | nested ha | plus ha => exact .same rfl rfl ha
  | subquery hq => exact .same rfl rfl (show (query _).lower x = .ok v from hq)
  | junction hname ha hb =>
    exact .operands rfl rfl (leaves_junction _ hname) (.cons ha (.cons hb .nil))
  | binary name ha hb | like name ha hb =>
    exact .operands rfl rfl (leaves_operation _ _) (.cons ha (.cons hb .nil))
  | negative hv =>
    obtain ⟨n, rfl⟩ := exists_of_numberValue hv
    exact ⟨[], .mute rfl rfl .nil, leaves_number n⟩
  | castText hv =>
    exact ⟨[], .mute rfl rfl .nil, leaves_typedLiteral (typedLiteral_of_typedValue hv)⟩
  | interval hv =>
    exact ⟨[], .mute rfl rfl .nil, leaves_typedLiteral (typedLiteral_of_intervalValue hv)⟩
  | typed hv => exact ⟨[], .nil, leaves_typedLiteral (typedLiteral_of_typedValue hv)⟩
  | unary name hop ha => exact .operands (if_neg hop) rfl (leaves_operation _ _) (.cons ha .nil)
  | @is e a negated value name ha =>
    have hleaves : ∀ w : Json, w.leaves = [] → (operation name [a, w]).leaves =
        AnalyticQuery.below [.key "operands"] (leavesItems 0 [a]) := by
      intro w hw
      simp [hw]
    refine .operands rfl rfl (hleaves _ ?_) (.cons ha .nil)
    cases value <;> simp
  | between name ha hb hc =>
    exact .operands rfl rfl (leaves_operation _ _) (.cons ha (.cons hb (.cons hc .nil)))
  | inList name hvalues ha =>
    refine ⟨_, .moved _ (.cons ha ((Gathers.exprs 0 hvalues).moved _)), ?_⟩
    simp [leaf?]
  | @inQuery e a q v negated name ha hq =>
    have hq : (query q).lower x = .ok v := hq
    exact .operands rfl rfl (leaves_operation _ _) (.cons ha (.cons hq .nil))
  | @«exists» q v negated name hq =>
    have hq : (query q).lower x = .ok v := hq
    exact .operands rfl rfl (leaves_operation _ _) (.cons hq .nil)
  | @quantified left right a b op word name qualifier ha hb =>
    refine .operands rfl rfl ?_ (.cons ha (.cons hb .nil))
    simp [leaves, Json.string?]
  | @case operand branches otherwise o cases d ho hcases hd =>
    refine ⟨_, ((Gathers.branches 0 ho hcases).moved _).append (.optional _ hd), ?_⟩
    cases d <;> simp [leaf?, leaves, field?, Json.string?]
  | @cast form e a type format name ha =>
    obtain ⟨ls, hls, hleaves⟩ : Collects x (expr (.cast form e type format)) a := .same rfl rfl ha
    exact ⟨ls, hls, by rw [leaves_tagged, hleaves]⟩
  | call name hvalues =>
    cases hvalues with
    | absent => exact ⟨[], .nil, by simp [leaf?]⟩
    | list hvalues => exact ⟨_, (Gathers.arguments 0 hvalues).moved _, by simp [leaf?]⟩
  | extract field name ha => exact ⟨_, .single _ ha, by simp [leaf?]⟩
  | rounding name ha => exact ⟨_, .single _ ha, by simp [leaf?]⟩
  | @substring e start length a b c commas ha hb hc =>
    refine ⟨_, .moved _ (.cons ha ((Gathers.optional _ hb).append (.optional _ hc))), ?_⟩
    cases b <;> cases c <;> simp [leaf?, Json.nat]
  | array hvalues => exact ⟨_, .exprs 0 hvalues, by simp [leaf?]⟩
  | row hvalues => exact ⟨_, .exprs 0 hvalues, by simp [leaf?]⟩

/-! ## Values of other constructs -/

private theorem collects_item {i : Item Expr} (h : lowerItem x i = .ok v) :
    Collects x (item i) v := by
  cases Item.lowered h with
  | @expr e _ hv => exact .same rfl rfl (show (expr e).lower x = .ok v from hv)
  | @aliased e label w hw =>
    obtain ⟨ls, hls, hleaves⟩ : Collects x (item (.aliased e label)) w :=
      .same rfl rfl (show (expr e).lower x = .ok w from hw)
    exact ⟨ls, hls, by rw [leaves_tagged, hleaves]⟩
  | wildcard | wildcardOf => exact ⟨[], .nil, by simp [leaf?]⟩

private theorem collects_relation {r : Relation} (h : (relation r).lower x = .ok v) :
    Collects x (relation r) v := by
  rw [lower, map_eq_pure_bind] at h
  obtain ⟨⟨w, lateral⟩, hw, h⟩ := of_bind h
  cases h
  have hnone : ∀ {ident args ordinality label hints},
    (ident.quote = some '"' → x.short? ident.text = none) →
      leaf? x (relation (.table [ident] args ordinality label hints)) = none := by
    intro ident args ordinality label hints hident
    by_cases hquote : ident.quote = some '"' <;> simp [leaf?, hquote, hident]
  cases Relation.lowered hw with
  | short name hquote hs => exact ⟨[], .nil, by simp [leaf?, hquote, hs]⟩
  | view hident => exact ⟨[], .nil, by simp [hnone hident]⟩
  | labelledView name hident =>
    refine ⟨[], .nil, ?_⟩
    simp [hnone hident, leaves, Json.string?]
  | @derived lateral q label u name hu =>
    obtain ⟨ls, hls, hleaves⟩ : Collects x (relation (.derived lateral q label)) u :=
      .same rfl rfl (show (query q).lower x = .ok u from hu)
    exact ⟨ls, hls, by rw [leaves_tagged, hleaves]⟩

theorem forall₂_of_lowerItems {items : List (Item Expr)} (h : lowerItems x items = .ok vs) :
    List.Forall₂ (fun c v => c.lower x = .ok v) (items.map item) vs := by
  rw [lowerItems_eq, mapM_eq_ok_iff] at h
  exact forall₂_map_left_iff.mpr h

theorem Gathers.source {r : Option Relation} {v : Option Json} (path : Path)
    (h : Option.Rel (fun r v => Relation.lower x r = .ok (v, false)) r v) :
    Gathers x (r.toList.map ((path, relation ·)))
      (AnalyticQuery.below path ((v.map leaves).getD [])) := by
  cases h with
  | none => exact .nil
  | some hv =>
    refine .single path ?_
    rw [lower, hv]
    rfl

private theorem collects_body {b : Body} (h : b.lower x = .ok v) : Collects x (body b) v := by
  cases Body.lowered h with
  | select hF =>
    obtain ⟨k, rfl, hsource, hjoins, hcolumns, hfilter, hgroups, hhaving⟩ :=
      exists_of_lowerSelect hF
    refine ⟨_, (((((Gathers.source _ hsource).append ((Gathers.joins 0 hjoins).moved _)).append
      ((Gathers.items 0 (forall₂_of_lowerItems hcolumns)).moved _)).append
        (.optional _ hfilter)).append
      ((Gathers.exprs 0 hgroups).moved _)).append (.optional _ hhaving), ?_⟩
    rw [leaves_bodyFields]
    rfl
  | @nested q _ hq => exact .same rfl rfl (show (query q).lower x = .ok v from hq)
  | @compound op quantifier left right a b all ha hb =>
    have hboth : List.Forall₂ (fun c v => c.lower x = .ok v) [body left, body right] [a, b] :=
      .cons ha (.cons hb .nil)
    refine ⟨_, (Gathers.items 0 hboth).moved _, ?_⟩
    cases op <;> cases all <;>
      simp [leaf?, leaves, Json.string?, SetOperator.name]

theorem Gathers.ctes {ctes : List (Cte Query)} (start : Nat) (h : lowerCtes x ctes = .ok vs) :
    Gathers x (itemsFrom start (ctes.map (query ·.query))) (leavesItems start vs) := by
  replace h := tagged_of_lowerCtes h
  induction h generalizing start with
  | nil =>
    rw [leavesItems_nil]
    exact .nil
  | @cons c _ _ _ hv _ ih =>
    obtain ⟨u, hu, rfl⟩ := hv
    have hu : (query c.query).lower x = .ok u := hu
    rw [leavesItems_cons, leaves_tagged]
    exact .cons hu (ih (start + 1))

theorem Gathers.sorts {keys : List (SortKey Expr)} (start : Nat) (h : lowerSorts x keys = .ok vs) :
    Gathers x (itemsFrom start (keys.map (expr ·.value))) (leavesItems start vs) := by
  replace h := sortValue_of_lowerSorts h
  induction h generalizing start with
  | nil =>
    rw [leavesItems_nil]
    exact .nil
  | @cons key _ _ _ hv _ ih =>
    obtain ⟨u, hu, rfl⟩ := hv
    have hu : (expr key.value).lower x = .ok u := hu
    rw [leavesItems_cons, leaves_sortValue]
    exact .cons hu (ih (start + 1))

private theorem leaves_countValue? {clause : String} {e : Option Expr} {v : Option Json}
    (h : countValue? x clause e = .ok v) : (v.map leaves).getD [] = [] := by
  obtain rfl | ⟨n, rfl⟩ := exists_of_countValue? h
  · rfl
  · exact leaves_number _

private theorem collects_query {q : Query} (h : q.lower x = .ok v) : Collects x (query q) v := by
  obtain ⟨c⟩ := q
  obtain ⟨w, withs, orders, limit, offset, hw, hwiths, horders, hlimit, hoffset, -, rfl⟩ :=
    exists_of_lower h
  have hbody : (body c.body).lower x = .ok w := hw
  refine ⟨_, ((Gathers.single [] hbody).append ((Gathers.ctes 0 hwiths).moved _)).append
    ((Gathers.sorts 0 horders).moved _), ?_⟩
  rw [leaves_extended (Body.isSelect_lower c.body hw)]
  simp [leaf?, underKey, leavesFrom_getD, leaves_countValue? hlimit, leaves_countValue? hoffset]

/-- The leaves of the value of a construct are the one that it is and those of what is inside it. -/
theorem collects {c : Construct} (h : c.lower x = .ok v) : Collects x c v := by
  cases c with
  | expr e => exact collects_expr (Expr.lowered h)
  | item i => exact collects_item h
  | query q => exact collects_query h
  | body b => exact collects_body h
  | relation r => exact collects_relation h

/-! ## Leaves and places -/

/-- A leaf that is gathered stands in one of the constructs. -/
theorem Gathers.exists_of_mem {path : Path} {leaf : Leaf} (h : Gathers x cs ls)
    (hmem : (path, leaf) ∈ ls) :
    ∃ start c v rest, (start, c) ∈ cs ∧ c.lower x = .ok v ∧ (rest, leaf) ∈ v.leaves ∧
      path = start ++ rest := by
  induction h with
  | nil => cases hmem
  | @cons start c v cs ls hv _ ih =>
    obtain hmem | hmem := mem_append.mp hmem
    · obtain ⟨⟨rest, _⟩, hleaf, heq⟩ := mem_map.mp hmem
      cases heq
      exact ⟨start, c, v, rest, mem_cons_self, hv, hleaf, rfl⟩
    · obtain ⟨start, c, v, rest, hc, hrest⟩ := ih hmem
      exact ⟨start, c, v, rest, mem_cons_of_mem _ hc, hrest⟩
  | mute _ _ _ ih =>
    obtain ⟨start, c, v, rest, hc, hrest⟩ := ih hmem
    exact ⟨start, c, v, rest, mem_cons_of_mem _ hc, hrest⟩

/-- A leaf that stands in one of the constructs is gathered. -/
theorem Gathers.mem {start rest : Path} {c : Construct} {leaf : Leaf} (h : Gathers x cs ls)
    (hc : (start, c) ∈ cs) (hshows : c.Shows x rest leaf)
    (hleaf : ∀ {v}, c.lower x = .ok v → (rest, leaf) ∈ v.leaves) : (start ++ rest, leaf) ∈ ls := by
  induction h with
  | nil => cases hc
  | cons hv _ ih =>
    obtain heq | hc := mem_cons.mp hc
    · cases heq
      exact mem_append_left _ (mem_map_of_mem (hleaf hv))
    · exact mem_append_right _ (ih hc)
  | mute hnone hparts _ ih =>
    obtain heq | hc := mem_cons.mp hc
    · cases heq
      -- No leaf stands in a construct that is none and has nothing inside.
      obtain ⟨d, hholds, hleaf⟩ := hshows
      cases hholds with
      | here => rw [hnone] at hleaf; cases hleaf
      | inside h => rw [hparts] at h; cases h
    · exact ih hc

private theorem mem_leaves {c : Construct} {path : Path} {leaf : Leaf} (h : c.Shows x path leaf)
    (hv : c.lower x = .ok v) : (path, leaf) ∈ v.leaves := by
  obtain ⟨d, hholds, hleaf⟩ := h
  induction hholds generalizing v with
  | here =>
    obtain ⟨ls, -, hleaves⟩ := collects hv
    rw [hleaves, hleaf]
    exact mem_append_left _ mem_cons_self
  | inside hpart hholds ih =>
    obtain ⟨ls, hgathers, hleaves⟩ := collects hv
    rw [hleaves]
    exact mem_append_right _ (hgathers.mem hpart ⟨_, hholds, hleaf⟩ fun hv => ih hv hleaf)

/-! ## Sizes -/

/-- Whether constructs are smaller than a number. -/
def Smaller (n : Nat) (cs : List (Path × Construct)) : Prop := ∀ c ∈ cs, sizeOf c.2 < n

section

variable {n : Nat}

@[simp] theorem smaller_nil : Smaller n [] := by
  simp [Smaller]

@[simp] theorem smaller_cons (c : Path × Construct) :
    Smaller n (c :: cs) ↔ sizeOf c.2 < n ∧ Smaller n cs := by
  simp [Smaller]

@[simp] theorem smaller_append : Smaller n (cs ++ ds) ↔ Smaller n cs ∧ Smaller n ds := by
  simp only [Smaller, mem_append]
  grind

@[simp] theorem smaller_below (path : Path) :
    Smaller n (AnalyticQuery.below path cs) ↔ Smaller n cs := by
  simp only [Smaller, AnalyticQuery.below, forall_mem_map]

@[simp] theorem smaller_itemsFrom (start : Nat) (cs : List Construct) :
    Smaller n (itemsFrom start cs) ↔ ∀ c ∈ cs, sizeOf c < n := by
  induction cs generalizing start with
  | nil => simp [itemsFrom]
  | cons c cs ih => simp [itemsFrom, ih]

@[simp] theorem smaller_optional (path : Path) (o : Option Expr) :
    Smaller n (optional path o) ↔ ∀ e ∈ o, sizeOf (expr e) < n := by
  simp [Smaller, optional]

private theorem smaller_branchesFrom {operand : Option Expr} {branches : List (Expr × Expr)}
    (start : Nat) (hoperand : ∀ e ∈ operand, sizeOf (expr e) < n)
    (h : ∀ b ∈ branches, sizeOf (expr b.1) < n ∧ sizeOf (expr b.2) < n) :
    Smaller n (branchesFrom operand start branches) := by
  induction branches generalizing start with
  | nil => simp [branchesFrom]
  | cons b branches ih =>
    obtain ⟨hfirst, hrest⟩ := forall_mem_cons.mp h
    have hlater := ih (start + 1) hrest
    cases operand with
    | none => simpa [branchesFrom, hlater] using hfirst
    | some o =>
      have ho := hoperand o rfl
      simp only [branchesFrom, operands, smaller_append, smaller_below, smaller_itemsFrom,
        smaller_cons, forall_mem_cons]
      exact ⟨⟨ho, hfirst.1, by simp⟩, hfirst.2, hlater⟩

private theorem smaller_joinsFrom (start : Nat)
    (h : ∀ j ∈ js, sizeOf (relation j.relation) < n ∧ ∀ e ∈ j.on?, sizeOf (expr e) < n) :
    Smaller n (joinsFrom start js) := by
  induction js generalizing start with
  | nil => simp [joinsFrom]
  | cons j js ih =>
    obtain ⟨⟨hrelation, hon⟩, hrest⟩ := forall_mem_cons.mp h
    simp only [joinsFrom, smaller_cons, smaller_append, smaller_optional, cons_append]
    exact ⟨hrelation, hon, ih (start + 1) hrest⟩

end

private theorem sizeOf_lt_of_mem_map {n : Nat} (h : sizeOf es < n) :
    ∀ c ∈ es.map expr, sizeOf c < n := by
  simp only [forall_mem_map, expr.sizeOf_spec]
  intro e he
  have hlt := sizeOf_lt_of_mem he
  omega

private theorem sizeOf_lt_of_mem_option {o : Option Expr} {n : Nat} (h : sizeOf o < n) :
    ∀ e ∈ o, sizeOf (expr e) < n := by
  rintro e rfl
  simp only [Option.some.sizeOf_spec] at h
  simp only [expr.sizeOf_spec]
  omega

private theorem sizeOf_branch_lt {branches : List (Expr × Expr)} {n : Nat}
    (h : sizeOf branches < n) :
    ∀ b ∈ branches, sizeOf (expr b.1) < n ∧ sizeOf (expr b.2) < n := by
  rintro ⟨condition, result⟩ hb
  have hlt := sizeOf_lt_of_mem hb
  simp only [Prod.mk.sizeOf_spec] at hlt
  simp only [expr.sizeOf_spec]
  omega

private theorem sizeOf_exprs_lt (args : CallArguments Expr Query) :
    ∀ e ∈ args.exprs, sizeOf e < sizeOf args := by
  intro e he
  cases args with
  | absent | query => cases he
  | list multiplicity args clauses =>
    obtain ⟨arg, harg, hsome⟩ := mem_filterMap.mp he
    have hlt := sizeOf_lt_of_mem harg
    cases arg with
    | expr e' =>
      cases hsome
      simp only [CallArgument.expr.sizeOf_spec] at hlt
      simp only [CallArguments.list.sizeOf_spec]
      omega
    | wildcard | «foreign» => cases hsome

private theorem smaller_ofExpr (e : Expr) : Smaller (sizeOf (expr e)) (ofExpr e) := by
  cases e with
  | column | literal | typed | «foreign» => simp [ofExpr]
  | nested | extract => simp [ofExpr]
  | cast | interval | rounding =>
    simp only [ofExpr, smaller_cons, smaller_nil, and_true, expr.sizeOf_spec, Expr.cast.sizeOf_spec,
      Expr.interval.sizeOf_spec, Expr.rounding.sizeOf_spec]
    omega
  | unary op e =>
    simp only [ofExpr]
    split <;> simp [operands]
  | «exists» | subquery => simp [ofExpr, operands]
  | binary | quantified | is | between | inQuery | like =>
    simp [ofExpr, operands]
    omega
  | inList e negated items =>
    simp only [ofExpr, smaller_below, smaller_cons, smaller_itemsFrom]
    exact ⟨by simp; omega, sizeOf_lt_of_mem_map (by simp; omega)⟩
  | case operand branches otherwise =>
    simp only [ofExpr, smaller_append, smaller_below, smaller_optional]
    exact ⟨smaller_branchesFrom 0 (sizeOf_lt_of_mem_option (by simp; omega))
      (sizeOf_branch_lt (by simp; omega)),
      sizeOf_lt_of_mem_option (by simp; omega)⟩
  | call name args clauses =>
    simp only [ofExpr, smaller_below, smaller_itemsFrom, forall_mem_map]
    intro e he
    have := sizeOf_exprs_lt args e he
    simp
    omega
  | substring e start length commas =>
    simp only [ofExpr, smaller_below, smaller_append, smaller_cons, smaller_optional]
    exact ⟨⟨by simp; omega, sizeOf_lt_of_mem_option (by simp; omega)⟩,
      sizeOf_lt_of_mem_option (by simp; omega)⟩
  | array | row =>
    simp only [ofExpr, smaller_itemsFrom]
    exact sizeOf_lt_of_mem_map (by simp; omega)

private theorem mem_joinsOf {source : List (JoinedRelation Expr Relation)} {j : Join Expr Relation}
    (h : j ∈ joinsOf source) :
    ∃ r ∈ source, j ∈ r.joins ∨ (j.relation = r.relation ∧ j.on? = none) := by
  cases source with
  | nil => cases h
  | cons first rest =>
    obtain h | h := mem_append.mp h
    · exact ⟨first, mem_cons_self, .inl h⟩
    · obtain ⟨r, hr, h⟩ := mem_flatMap.mp h
      obtain rfl | h := mem_cons.mp h
      · exact ⟨r, mem_cons_of_mem _ hr, .inr ⟨rfl, rfl⟩⟩
      · exact ⟨r, mem_cons_of_mem _ hr, .inl h⟩

private theorem sizeOf_on?_le (j : Join Expr Relation) :
    ∀ e ∈ j.on?, sizeOf (expr e) ≤ sizeOf j := by
  intro e he
  obtain ⟨relation, kind, constraint, global⟩ := j
  unfold Join.on? at he
  split at he
  · cases he
  · cases constraint with
    | on e' =>
      cases he
      simp
      omega
    | «using» | natural | none => cases he

private theorem sizeOf_joins_lt (source : List (JoinedRelation Expr Relation)) :
    ∀ j ∈ joinsOf source,
    sizeOf (relation j.relation) < sizeOf source ∧
      ∀ e ∈ j.on?, sizeOf (expr e) < sizeOf source := by
  intro j hj
  obtain ⟨⟨first, joins⟩, hr, h⟩ := mem_joinsOf hj
  have hsource := sizeOf_lt_of_mem hr
  simp only [JoinedRelation.mk.sizeOf_spec] at hsource
  obtain h | ⟨hrelation, hon⟩ := h
  · have hlt : sizeOf j < sizeOf joins := sizeOf_lt_of_mem h
    have hinside : sizeOf (relation j.relation) ≤ sizeOf j := by
      obtain ⟨r, kind, constraint, global⟩ := j
      simp
      omega
    refine ⟨by omega, fun e he => ?_⟩
    have := sizeOf_on?_le j e he
    omega
  · dsimp only at hrelation
    rw [hrelation, hon]
    refine ⟨?_, by simp⟩
    simp only [relation.sizeOf_spec]
    omega

private theorem smaller_ofSelect (s : SelectClauses Expr Relation) :
    Smaller (sizeOf (body (.select s))) (ofSelect s) := by
  obtain ⟨distinctness, top, items, into, source, views, filter, groupBy, placement, having,
    windows, qualify,
    windowsFirst⟩ := s
  simp only [ofSelect, smaller_append, smaller_below, smaller_itemsFrom, smaller_optional,
    forall_mem_map]
  refine ⟨⟨⟨⟨⟨?source, ?joins⟩, ?items⟩, ?filter⟩, ?groupBy⟩, ?having⟩
  case source =>
    cases source with
    | nil => simp
    | cons first rest =>
      obtain ⟨r, joins⟩ := first
      simp
      omega
  case joins =>
    refine smaller_joinsFrom 0 fun j hj => ?_
    obtain ⟨hrelation, hon⟩ := sizeOf_joins_lt source j hj
    have hsource : sizeOf source ≤ sizeOf (body (.select
        ⟨distinctness, top, items, into, source, views, filter, groupBy, placement, having,
          windows, qualify,
          windowsFirst⟩)) := by
      simp
      omega
    exact ⟨hrelation.trans_le hsource, fun e he => (hon e he).trans_le hsource⟩
  case items =>
    intro i hi
    have := sizeOf_lt_of_mem hi
    simp
    omega
  case groupBy =>
    cases groupBy with
    | all => simp [GroupBy.exprs]
    | keys keys =>
      intro e he
      have := sizeOf_lt_of_mem he
      simp [GroupBy.exprs] at this ⊢
      omega
  case filter | having => exact sizeOf_lt_of_mem_option (by simp; omega)

/-- What is inside a construct is smaller. -/
theorem smaller_parts (c : Construct) : Smaller (sizeOf c) c.parts := by
  cases c with
  | expr e => exact smaller_ofExpr e
  | item i =>
    cases i with
    | expr => simp [parts]
    | aliased =>
      simp [parts]
      omega
    | wildcard | wildcardOf => simp [parts]
  | query q =>
    obtain ⟨⟨recursive, ctes, b, orderBy, limit, offset, rows, fetch, locks, forClause⟩⟩ := q
    simp only [parts, smaller_append, smaller_cons, smaller_below, smaller_itemsFrom,
      forall_mem_map]
    refine ⟨⟨by simp; omega, ?_⟩, ?_⟩
    · rintro ⟨label, q, modifier, source⟩ hcte
      have := sizeOf_lt_of_mem hcte
      simp at this ⊢
      omega
    · rintro ⟨value, ascending, nullsFirst⟩ hkey
      have := sizeOf_lt_of_mem hkey
      simp at this ⊢
      omega
  | body b =>
    cases b with
    | select s => exact smaller_ofSelect s
    | nested q => simp [parts]
    | compound op quantifier left right =>
      simp [parts]
      omega
    | values | «foreign» => simp [parts]
  | relation r =>
    cases r with
    | derived =>
      simp [parts]
      omega
    | table | joined | «foreign» => simp [parts]

/-- The leaves of the value of a construct are those that stand in it, each at its place. -/
theorem mem_leaves_iff {c : Construct} {path : Path} {leaf : Leaf} (hv : c.lower x = .ok v) :
    (path, leaf) ∈ v.leaves ↔ c.Shows x path leaf := by
  refine ⟨fun h => ?_, fun h => mem_leaves h hv⟩
  induction hn : sizeOf c using Nat.strong_induction_on generalizing c v path with
  | _ n ih =>
    obtain ⟨ls, hgathers, hleaves⟩ := collects hv
    rw [hleaves] at h
    obtain h | h := mem_append.mp h
    · obtain ⟨leaf', hleaf, heq⟩ := mem_map.mp h
      cases heq
      exact ⟨c, .here, Option.mem_toList.mp hleaf⟩
    · obtain ⟨start, d, w, rest, hd, hw, hmem, rfl⟩ := hgathers.exists_of_mem h
      obtain ⟨e, hholds, hleaf⟩ := ih _ (hn ▸ smaller_parts c _ hd) hw hmem rfl
      exact ⟨e, .inside hd hholds, hleaf⟩

end Construct

/-! ## Values of texts -/

/-- The construct that SQL text is parsed to: the only statement of a query, or an expression with
nothing after it. -/
inductive Extracted.Parses (x : Extracted) : Construct → Prop
  | query {q rest} : x.isQuery = true → x.parse Parse.statements = .ok ([.query q], rest) →
      Parses x (.query q)
  | expression {e} : x.isQuery = false → x.parse Parse.expression = .ok (e, []) → Parses x (.expr e)

theorem exists_parses {sql : String} {v : Json} (h : toQl sql = .ok v) :
    ∃ x c, extract sql = .ok x ∧ x.Parses c ∧ c.lower x = .ok v := by
  obtain ⟨x, hx, h⟩ := of_bind h
  split at h
  · next hquery =>
    obtain ⟨⟨statements, rest⟩, hparse, h⟩ := of_bind h
    dsimp only at h
    split at h
    · next q => exact ⟨x, .query q, hx, .query hquery hparse, h⟩
    all_goals cases h
  · next hquery =>
    obtain ⟨⟨e, rest⟩, hparse, h⟩ := of_bind h
    dsimp only at h
    split at h
    · exact ⟨x, .expr e, hx, .expression (by simpa using hquery) hparse, h⟩
    · cases h

/-- A text that becomes a value falls into segments, and its short expressions are written as
placeholders that lead back to them. The value then has exactly the short expressions and columns of
the construct that the written text is parsed to, each at the place of its operand or relation: a
short expression whose placeholder stands as an operand, or in double quotes as a relation, is in
the value. In double quotes anywhere else the placeholder stays the name of a column. -/
theorem exists_shows {sql : String} {v : Json} (h : toQl sql = .ok v) :
    ∃ (segments : List Segment) (x : Extracted) (c : Construct), extract sql = .ok x ∧
      Segmented sql.toList segments ∧ x.text = writtenFrom [] 0 segments ∧
      x.shorts = segments.filterMap Segment.short? ∧
      (∀ k, k + 1 < 1 <<< 64 → x.short? (placeholderName (k + 1)) = x.shorts[k]?) ∧ x.Parses c ∧
      c.lower x = .ok v ∧ (∀ path leaf, (path, leaf) ∈ v.leaves ↔ c.Shows x path leaf) ∧
      ∀ k s path d, k + 1 < 1 <<< 64 → x.shorts[k]? = some s → c.Holds path d →
        d.IsPlaceholder (placeholderName (k + 1)) → (path, .short s.text) ∈ v.leaves := by
  obtain ⟨x, c, hx, hparses, hv⟩ := exists_parses h
  obtain ⟨segments, hsegments, htext, hshorts⟩ := exists_segmented hx
  refine ⟨segments, x, c, hx, hsegments, htext, hshorts, fun k hk => short?_placeholderName x hk,
    hparses, hv,
    fun path leaf => Construct.mem_leaves_iff hv, fun k s path d hk hs hd hplaceholder => ?_⟩
  refine Construct.mem_leaves ⟨d, hd, ?_⟩ hv
  rw [Construct.leaf?_of_isPlaceholder hplaceholder, short?_placeholderName x hk, hs]
  rfl

/-- The operand of a case stands in each of its conditions, and a relation is a short expression
too. -/
theorem exists_shows_case :
    ∃ v, toQl "SELECT CASE @column(a) WHEN 1 THEN b WHEN 2 THEN c END FROM @view(v)" = .ok v ∧
      v.leaves =
        [([.key "from"], .short "@view(v)"),
          ([.key "columns", .item 0, .key "cases", .item 0, .item 0, .key "operands", .item 0],
            .short "@column(a)"),
          ([.key "columns", .item 0, .key "cases", .item 0, .item 1], .column "b" none),
          ([.key "columns", .item 0, .key "cases", .item 1, .item 0, .key "operands", .item 0],
            .short "@column(a)"),
          ([.key "columns", .item 0, .key "cases", .item 1, .item 1], .column "c" none)] ∧
      ∃ (x : Extracted) (c : Construct), x.Parses c ∧
        ∀ path leaf, (path, leaf) ∈ v.leaves ↔ c.Shows x path leaf := by
  refine Result.exists_ok_of_map (by decide +kernel) fun v hv _ => ?_
  obtain ⟨segments, x, c, -, -, -, -, -, hparses, -, hshows, -⟩ := exists_shows hv
  exact ⟨x, c, hparses, hshows⟩

/-- After `from` the placeholder of an operand is quoted, and so it becomes a column; and a relation
that is written with the name of a placeholder becomes a short expression. -/
theorem leaves_misplaced :
    (extract "extract(year from @column(d))").toOption.map (·.shorts.map Short.text) =
      some ["@column(d)"] ∧
    (toQl "extract(year from @column(d))").toOption.map leaves =
      some [([.key "args", .item 1], .column "$1" none)] ∧
    (toQl "SELECT @column(a) FROM \"$1\"").toOption.map leaves =
      some [([.key "from"], .short "@column(a)"),
        ([.key "columns", .item 0], .short "@column(a)")] := by
  decide +kernel

end AnalyticQuery.Sql
