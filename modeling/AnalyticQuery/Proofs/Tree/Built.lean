import AnalyticQuery.Tree.Build

/-!
# Formation rules of built trees

The trees that can be built, said without the values they are built from: one rule for each kind of
node, in the scope where the node stands and at its place in the tree. The rules speak of names that
are in sight through the same scopes that the builder threads, so a fact about every built tree is
one induction over the rules.
-/

namespace AnalyticQuery

variable {options : ParseOptions} {r : List String} {s : Scope} {n : Node}

/-- Where an expression stands in a tree. -/
inductive Place where
  /-- At the top of the tree. -/
  | root
  /-- Where a value is expected. -/
  | value
  /-- In a list of common tables. -/
  | cte
  /-- As a side of a set operation. -/
  | side
  /-- As the first relation of a select. -/
  | source
  /-- As the relation of a join. -/
  | joined (type : JoinType)
  /-- In a list of joins. -/
  | join
  deriving DecidableEq, Repr

/-- The role of a select at a place. -/
def Place.role? : Place → Option SelectRole
  | .root => some .root
  | .value => some .subquery
  | .cte => some .cte
  | .side => some .operand
  | .source => some (.range false)
  | .joined type => some (.range (type == .lateral))
  | .join => none

/-- The role of a select. -/
def Node.role? : Node → Option SelectRole
  | .select role .. | .compound role .. => some role
  | _ => none

/-- Whether a join of a type has a condition. -/
def JoinType.hasCondition : JoinType → Bool
  | .inner | .left | .right => true
  | .cross | .lateral => false

/-- The aliases and casts that a select in a role can have: a common table and a relation are named
and are not cast, a root and a side of a set operation have neither. -/
def SelectRole.Takes : SelectRole → Tag → Prop
  | .cte, tag | .range _, tag => (∃ name, name ≠ "" ∧ tag.label = some name) ∧ tag.cast = none
  | .root, tag | .operand, tag => tag = {}
  | .subquery, tag => tag.label ≠ some ""

namespace SelectRole.Takes

variable {role : SelectRole} {tag : Tag}

/-- No alias of a select is empty. -/
theorem named (h : role.Takes tag) : tag.label ≠ some "" := by
  cases role with
  | root | operand =>
    cases h
    exact nofun
  | cte | range =>
    obtain ⟨⟨name, hname, hlabel⟩, -⟩ := h
    rw [hlabel]
    simpa using hname
  | subquery => exact h

/-- A select with an alias is in a role that can have one. -/
theorem canAlias (h : role.Takes tag) (hlabel : tag.label.isSome) : role.canAlias = true := by
  cases role with
  | root | operand =>
    cases h
    cases hlabel
  | cte | range | subquery => rfl

/-- A select with a cast is a value. -/
theorem canCast (h : role.Takes tag) (hcast : tag.cast.isSome) : (role == .subquery) = true := by
  cases role with
  | root | operand =>
    cases h
    cases hcast
  | cte | range =>
    rw [h.2] at hcast
    cases hcast
  | subquery => rfl

end SelectRole.Takes

/-- The expressions of a select that see all its relations. -/
def Clauses.values {α : Type} (c : Clauses α) : List α :=
  c.columns ++ c.filter.toList ++ c.groupBy ++ c.having.toList ++ c.orderBy

/-- The expressions of a select are its common tables, its relations and those that see all of
them. -/
theorem Clauses.parts_eq {α : Type} (c : Clauses α) :
    c.parts = c.withs ++ c.source.toList ++ c.joins ++ c.values := by
  simp only [parts, values, List.append_assoc]

namespace Scope

/-- The scope after a list of common tables. -/
def afterCtes (scope : Scope) (nodes : List Node) : Result Scope :=
  nodes.foldlM Builder.declareCte scope

/-- The scope after the first relation of a select, where it is there. -/
def afterSource (scope : Scope) : Option Node → Result Scope
  | some node => Builder.declare scope node
  | none => .ok scope

/-- The scope after a join. -/
def afterJoin (scope : Scope) : Node → Result Scope
  | .join _ relation _ => Builder.declare scope relation
  | _ => .ok scope

/-- The scope after a list of joins. -/
def afterJoins (scope : Scope) (nodes : List Node) : Result Scope :=
  nodes.foldlM afterJoin scope

end Scope

/-- The nodes that a node becomes under aliases and casts, one after the other. -/
inductive Node.Folds (n : Node) : Node → Prop
  | refl : Folds n n
  | step {m k label cast} : Folds n m → m.fold label cast = .ok k → Folds n k

/-- A value that a text stands for and its node, built with some number of expansions inside each
other. -/
def Build.Expands (options : ParseOptions) (r : List String) (v : Json) (s : Scope) (n : Node) :
    Prop :=
  ∃ binding level, (∀ name w t, binding (r ++ [name]) .expression w t =
      Build.run options (r ++ [name]) .expression w t) ∧
    Build.levels options binding level r .expression v s = .ok n

/-- A short expression and a node that come from a short expression that was read and from what it
stands for, by the same aliases and casts. -/
def Build.Unfolds (options : ParseOptions) (r : List String) (s : Scope) (source : Short)
    (inner : Node) :
    Prop :=
  ∃ text first v n, Short.ofText text = .ok first ∧ first.expand = .ok v ∧ Expands options r v s n ∧
    (Node.short first n).Folds (.short source inner)

/-- The trees that are built with some choices while some parameters are being resolved. -/
inductive Built (options : ParseOptions) : List String → Place → Scope → Node → Prop
  | constant {r s p tag} (value : Json)
      (read : Primitive.ofJson value = .ok p) (named : tag.label ≠ some "") :
      Built options r .value s (.constant p tag)
  | column {r s c tag} (hasName : c.name ≠ "")
      (hasView : c.view ≠ some "")
      (found : s.resolveColumn c.view c.name = .ok ⟨c.qualifier, c.origin⟩)
      (named : tag.label ≠ some "") :
      Built options r .value s (.column c tag)
  | bound {r s name value n tag}
      (hasName : name ≠ "") (unreserved : name.startsWith "__" = false)
      (binding : options.parameter? name = some value) (fresh : name ∉ r)
      (run : Build.run options (r ++ [name]) .expression value s = .ok n)
      (inner : Built options (r ++ [name]) .value s n) (named : tag.label ≠ some "") :
      Built options r .value s (.parameter name (some n) tag)
  | free {r s name tag} (hasName : name ≠ "")
      (unreserved : name.startsWith "__" = false) (binding : options.parameter? name = none)
      (allowed : options.paramsMustHaveValues = false) (named : tag.label ≠ some "") :
      Built options r .value s (.parameter name none tag)
  | call {r s f args distinct tag}
      (known : FunctionRegistry.standard.get? f.name = some f ∧ f.name ≠ "")
      (parts : ∀ n ∈ args, Built options r .value s n) (arity : f.arity.accepts args.length = true)
      (aggregate : distinct = true → f.isAggregate = true) (named : tag.label ≠ some "") :
      Built options r .value s (.call f args distinct tag)
  | geometry {r s type args tag}
      (parts : ∀ n ∈ args, Built options r .value s n)
      (arity : type.arity.accepts args.length = true)
      (named : tag.label ≠ some "") :
      Built options r .value s (.geometry type args tag)
  | operation {r s op operands qualifier tag}
      (parts : ∀ n ∈ operands, Built options r .value s n)
      (arity : op.arity.accepts operands.length = true)
      (qualified : qualifier.isSome → op.allowsQualifier = true)
      (flat : op.isLogical = true → ∀ n ∈ operands, Builder.absorbed? op n = none)
      (named : tag.label ≠ some "") :
      Built options r .value s (.operation op operands qualifier tag)
  | case {r s branches otherwise tag} (nonempty : branches ≠ [])
      (conditions : ∀ b ∈ branches, Built options r .value s b.1)
      (results : ∀ b ∈ branches, Built options r .value s b.2)
      (other : ∀ n ∈ otherwise, Built options r .value s n) (named : tag.label ≠ some "") :
      Built options r .value s (.case branches otherwise tag)
  | array {r s items tag}
      (parts : ∀ n ∈ items, Built options r .value s n) (named : tag.label ≠ some "") :
      Built options r .value s (.array items tag)
  | list {r s items} (nonempty : items ≠ [])
      (parts : ∀ n ∈ items, Built options r .value s n) :
      Built options r .value s (.list items)
  | sort {r s value direction nulls} (part : Built options r .value s value) :
      Built options r .value s (.sort value direction nulls)
  | short {r s source inner}
      (kept : options.keepShorts = true) (part : Built options r .value s inner)
      (unfolds : Build.Unfolds options r s source inner) :
      Built options r .value s (.short source inner)
  | select {r place s s₁ s₂ s₃ role c tag} (fits : place.role? = some role) (takes : role.Takes tag)
      (afterWiths : (s.childSelect (Builder.seesSiblings role)).afterCtes c.withs = .ok s₁)
      (afterSource : s₁.afterSource c.source = .ok s₂)
      (afterJoins : s₂.afterJoins c.joins = .ok s₃)
      (withs : ∀ before n after t, c.withs = before ++ n :: after →
        (s.childSelect (Builder.seesSiblings role)).afterCtes before = .ok t →
        Built options r .cte t n)
      (source : ∀ n ∈ c.source, Built options r .source s₁ n)
      (joins : ∀ before n after t, c.joins = before ++ n :: after → s₂.afterJoins before = .ok t →
        Built options r .join t n)
      (nonempty : c.columns ≠ []) (values : ∀ n ∈ c.values, Built options r .value s₃ n)
      (limit : ∀ rows, c.limit = some (.count rows) → rows < 1 <<< 64)
      (offset : ∀ rows, c.offset = some rows → rows < 1 <<< 64) :
      Built options r place s (.select role c tag)
  | compound {r place s role op all left right tag} (fits : place.role? = some role)
      (takes : role.Takes tag) (leftSide : Built options r .side s left)
      (rightSide : Built options r .side s right) :
      Built options r place s (.compound role op all left right tag)
  | view {r place s name label}
      (fits : place.role? = some (.range false)) (hasName : name ≠ "") (named : label ≠ some "") :
      Built options r place s (.view name (s.isCte name) label)
  | join {r s t type relation on}
      (part : Built options r (.joined type) s relation)
      (declared : Builder.declare s relation = .ok t)
      (condition : on.isSome = type.hasCondition) (onPart : ∀ n ∈ on, Built options r .value t n) :
      Built options r .join s (.join type relation on)

/-- What is directly inside a node that is neither a query nor a join is a value in the same scope.
One that is bound to a parameter is built while the parameter is being resolved. -/
theorem Built.part {place : Place} {m : Node} (h : Built options r place s n)
    (plain : n.role? = none) (noJoin : ∀ type relation on, n ≠ .join type relation on)
    (hm : m ∈ n.children) :
    place = .value ∧ ∃ names, Built options (r ++ names) .value s m ∧
      (names ≠ [] → ∃ v, Build.run options (r ++ names) .expression v s = .ok m) := by
  have hsame : Built options r .value s m → ∃ names, Built options (r ++ names) .value s m ∧
      (names ≠ [] → ∃ v, Build.run options (r ++ names) .expression v s = .ok m) :=
    fun hm => ⟨[], by rwa [List.append_nil], absurd rfl⟩
  cases h with
  | constant | column | free | view => cases hm
  | @bound _ _ name value _ _ _ _ _ _ run inner _ =>
    obtain rfl := List.mem_singleton.mp hm
    exact ⟨rfl, [name], inner, fun _ => ⟨value, run⟩⟩
  | call _ parts | geometry parts | operation parts | array parts | list _ parts =>
    exact ⟨rfl, hsame (parts m hm)⟩
  | case _ conditions results other _ =>
    refine ⟨rfl, hsame ?_⟩
    obtain hm | hm := List.mem_append.mp hm
    · obtain ⟨branch, hbranch, hm⟩ := List.mem_flatMap.mp hm
      obtain rfl | hm := List.mem_cons.mp hm
      · exact conditions branch hbranch
      · obtain rfl := List.mem_singleton.mp hm
        exact results branch hbranch
    · exact other m (Option.mem_toList.mp hm)
  | sort part | short _ part =>
    obtain rfl := List.mem_singleton.mp hm
    exact ⟨rfl, hsame part⟩
  | select | compound => cases plain
  | join => exact absurd rfl (noJoin _ _ _)

/-- A common table has a name. -/
theorem Built.exists_alias (h : Built options r .cte s n) : ∃ name, n.alias? = some name := by
  cases h with
  | select fits takes | compound fits takes =>
    cases fits
    obtain ⟨⟨name, -, hname⟩, -⟩ := takes
    exact ⟨name, hname⟩
  | view fits => cases fits

end AnalyticQuery
