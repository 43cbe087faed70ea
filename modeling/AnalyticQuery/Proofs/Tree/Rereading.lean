import AnalyticQuery.Proofs.Tree.Erasure
import AnalyticQuery.Proofs.Tree.Reading
import AnalyticQuery.Proofs.Tree.Sight
import AnalyticQuery.Proofs.Tree.WellFormed

/-!
# Trees read back from changed values

A tree is written as a query value, some expressions in the value are changed, and the value is read
in place of the first one. The tree that is read then, if any is, is the first one with the same
changes: short expressions stand expanded, operands of logical operators are taken up, a null that
counts as no value where it stands is left out, and an inner join that loses its condition by that
is a cross join, lateral where a subquery is joined.
-/

namespace AnalyticQuery

open Builder List Result

variable {r : List String} {s t : Scope} {o : Option Node} {ns ms : List Node}

variable {lateral lateral' : Bool} {name : String} {s' t' u : Scope} {tag : Tag}

/-! ## Wider scopes -/

/-- A scope with the relations of another one and maybe some before them, under other names. -/
structure Scope.Wider (s t : Scope) : Prop where
  refs : ∃ outer, t.refs = outer ++ s.refs ∧ ∀ ref ∈ outer, s.hasRef ref.1 = false
  ctes : s.ctes = t.ctes
  localCtes : s.localCtes = t.localCtes
  inSelect : s.inSelect = t.inSelect

namespace Scope.Wider

theorem refl (s : Scope) : s.Wider s := ⟨⟨[], rfl, nofun⟩, rfl, rfl, rfl⟩

theorem isCte (h : s.Wider t) (name : String) : s.isCte name = t.isCte name := by
  rw [Scope.isCte, Scope.isCte, h.ctes]

/-- A select that may see its siblings sees a wider scope. -/
theorem childSelect (h : s.Wider t) (hle : lateral = true → lateral' = true) :
    (s.childSelect lateral).Wider (t.childSelect lateral') := by
  refine ⟨?_, h.ctes, rfl, rfl⟩
  cases lateral with
  | true =>
    rw [hle rfl]
    exact h.refs
  | false => exact ⟨_, (append_nil _).symm, fun _ _ => rfl⟩

/-- A column that is found in both scopes is the same. -/
theorem resolveColumn (h : s.Wider t) {view : Option String} {column : String}
    {found found' : ResolvedColumn} (hs : s.resolveColumn view column = .ok found)
    (ht : t.resolveColumn view column = .ok found') :
    found = found' := by
  obtain ⟨outer, hrefs, hnew⟩ := h.refs
  unfold Scope.resolveColumn at hs ht
  rw [← h.inSelect] at ht
  split at hs
  · next hselect =>
    rw [if_pos hselect] at ht
    cases view with
    | some view =>
      dsimp only at hs ht
      -- a name of the narrow scope is hidden by none of the relations before it
      cases hfind : s.refs.find? (·.1 == view) with
      | none =>
        rw [hfind] at hs
        cases hs
      | some ref =>
        have hname : ref.1 = view := by simpa using find?_some hfind
        have houter : outer.find? (·.1 == view) = none := by
          rw [find?_eq_none]
          intro other hother heq
          have hno := hnew other hother
          rw [beq_iff_eq.mp heq, ← hname] at hno
          have hyes : s.hasRef ref.1 = true :=
            any_eq_true.mpr ⟨ref, mem_of_find?_eq_some hfind, beq_self_eq_true _⟩
          rw [hno] at hyes
          cases hyes
        rw [hrefs, find?_append, houter, Option.none_or, hfind] at ht
        rw [hfind] at hs
        exact Except.ok.inj (hs.symm.trans ht)
    | none =>
      dsimp only at hs ht
      split at hs
      · next name target hone =>
        cases hs
        rw [hrefs, hone] at ht
        cases outer with
        | nil => exact Except.ok.inj ht
        | cons ref outer =>
          cases outer <;> cases ht
      · cases hs
      · cases hs
  · next hselect =>
    rw [if_neg hselect] at ht
    have hcte : ∀ name, t.isCte name = s.isCte name := fun name => (h.isCte name).symm
    simp only [hcte] at ht
    exact Except.ok.inj (hs.symm.trans ht)

/-- A relation that is declared in both scopes leaves one wider than the other. -/
theorem withRef (h : s.Wider t) {target : RefTarget} (hs : s.withRef name target = .ok s')
    (ht : t.withRef name target = .ok t') : s'.Wider t' := by
  obtain ⟨outer, hrefs, hnew⟩ := h.refs
  unfold Scope.withRef at hs ht
  split at hs
  · cases hs
  split at ht
  · cases ht
  next hname =>
  cases hs
  cases ht
  refine ⟨⟨outer, by rw [hrefs, append_assoc], fun ref href => ?_⟩, h.ctes, h.localCtes, h.inSelect⟩
  have hne : ref.1 ≠ name := by
    rintro rfl
    refine hname (any_eq_true.mpr ⟨ref, ?_, beq_self_eq_true _⟩)
    rw [hrefs]
    exact mem_append_left _ href
  have hno := hnew ref href
  rw [hasRef] at hno ⊢
  simpa [hno] using hne.symm

/-- A common table that is declared in both scopes leaves one wider than the other. -/
theorem withCte (h : s.Wider t) (hs : s.withCte name = .ok s') (ht : t.withCte name = .ok t') :
    s'.Wider t' := by
  unfold Scope.withCte at hs ht
  split at hs
  · cases hs
  split at ht
  · cases ht
  cases hs
  cases ht
  exact ⟨h.refs, by rw [h.ctes], by rw [h.localCtes], h.inSelect⟩

end Scope.Wider

/-- Names mean the same in a wider scope, where they mean something in both. -/
theorem Scope.matching_wider : Matching .all Wider where
  isCte h := h.isCte
  resolveColumn h _ _ := .all_of fun _ _ hs ht => h.resolveColumn hs ht
  childSelect h _ := h.childSelect id
  withRef h _ _ := .all_of fun _ _ hs ht => h.withRef hs ht
  withCte h _ := .all_of fun _ _ hs ht => h.withCte hs ht

/-- A value that is built in a scope and in a wider one is built to the same. -/
theorem Build.run_wider {options : ParseOptions} {v : Json} {n m : Node} (h : s.Wider t)
    (hn : run options r .expression v s = .ok n) (hm : run options r .expression v t = .ok m) :
    n = m :=
  (run_agree Scope.matching_wider (Node.congruence_eq _) options.parallel_eq r .expression v s t
    h).related hn hm

/-- How a query is written has no effect on how its value is read. -/
theorem Build.root_queryType (options : ParseOptions) (type : QueryType) (v : Json) :
    root { options with queryType := type } v = root options v := by
  have hparallel : ({ options with queryType := type } : ParseOptions).Parallel Eq options :=
    ⟨rfl, rfl, fun _ h => by rw [h]⟩
  have hrun : ∀ position : Position, run { options with queryType := type } [] position v .root =
      run options [] position v .root :=
    fun position => run_eq_of_alikeAt hparallel ((Scope.Alike.refl _).alikeAt position) v
  unfold root
  split
  · exact hrun _
  · exact hrun _

/-! ## Values and trees with changed parts -/

namespace Node

/-- The value of an expression, given how the expressions inside it are written. A short expression
is written as what it stands for, a parameter as a reference. -/
def qlWith (g : Node → Json) : Node → Json
  | select _ c tag => tag.onto (.object (selectFields (clausesWith g c)))
  | compound _ op all left right tag =>
    tag.onto (.object (compoundFields op all (g left) (g right)))
  | join type relation on => .object (joinFields type (relationWith g relation) (on.map g))
  | view name _ label => Tag.onto { label } (viewQl name)
  | column c tag => tag.onto c.toQl
  | parameter name _ tag => tag.onto (.object (parameterFields name))
  | call f args distinct tag => tag.onto (.object (callFields f (args.map g) distinct))
  | geometry type args tag => tag.onto (.object (geometryFields type (args.map g)))
  | operation op operands qualifier tag =>
    tag.onto (.object (operationFields op (operands.map g) qualifier))
  | case branches otherwise tag =>
    tag.onto (.object (caseFields (branches.map fun b => .array [g b.1, g b.2]) (otherwise.map g)))
  | array items tag => tag.onto (.array (items.map g))
  | list items => .object (listFields (items.map g))
  | sort value direction nulls => .object (sortFields (g value) direction nulls)
  | constant value tag => tag.onto value.toJson
  | short _ inner => g inner

theorem ql_eq (n : Node) : n.ql false = n.qlWith (ql false) := by
  cases n with
  | select role c tag => exact ql_select role c tag
  | join type relation on => exact ql_join type relation on
  | compound | view | column | parameter | sort | constant | short => rfl
  | call | geometry | operation | array | list =>
    rw [ql, toQl, toQlAll_eq]
    rfl
  | case branches otherwise tag =>
    rw [ql, toQl, toQlBranches_eq, toQlOption_eq]
    rfl

private theorem isNull_constant (p : Primitive) (tag : Tag) :
    (tag.onto p.toJson).isNull = (constant p tag).isBareNull := by
  cases p with
  | null =>
    by_cases htag : tag = {}
    · subst htag
      rfl
    · rw [isNull_onto _ _ (.inr htag)]
      simp [isBareNull, htag]
  | _ => exact isNull_onto _ _ (.inl rfl)

private theorem isType_onto {F : Fields} {type : ExpressionType} (tag : Tag) (hown : F.Own type)
    (other : ExpressionType) : QlObject.isType (tag.onto (.object F)) other = (type == other) := by
  rw [tag.onto_object hown.cast hown.label]
  exact QlObject.isType_written hown.type other

/-- The fields of an expression without its alias and its cast, given how the expressions inside it
are written. -/
def ownFields (g : Node → Json) : Node → Fields
  | select _ c _ => selectFields (clausesWith g c)
  | compound _ op all left right _ => compoundFields op all (g left) (g right)
  | join type relation on => joinFields type (relationWith g relation) (on.map g)
  | view name .. => viewFields name
  | column c _ => columnFields c
  | parameter name .. => parameterFields name
  | call f args distinct _ => callFields f (args.map g) distinct
  | geometry type args _ => geometryFields type (args.map g)
  | operation op operands qualifier _ => operationFields op (operands.map g) qualifier
  | case branches otherwise _ =>
    caseFields (branches.map fun b => .array [g b.1, g b.2]) (otherwise.map g)
  | array items _ => arrayFields (items.map g)
  | list items => listFields (items.map g)
  | sort value direction nulls => sortFields (g value) direction nulls
  | constant value _ => value.toJson.taggable
  | short .. => []

theorem own_ownFields (g : Node → Json) {n : Node} (hs : n.isShort = false) :
    (n.ownFields g).Own n.type := by
  cases n with
  | select => exact own_selectFields _
  | compound => exact own_compoundFields ..
  | join => exact own_joinFields ..
  | view => exact own_viewFields _
  | column => exact own_columnFields _
  | parameter => exact own_parameterFields _
  | call => exact own_callFields ..
  | geometry => exact own_geometryFields ..
  | operation op operands qualifier =>
    have hown := own_operationFields op (operands.map g) qualifier
    cases op <;> exact hown
  | case => exact own_caseFields ..
  | array => exact own_arrayFields _
  | list => exact own_listFields _
  | sort => exact own_sortFields ..
  | constant value => cases value <;> exact ⟨rfl, rfl, rfl⟩
  | short => cases hs

/-- An expression is written as an object of its fields, with its alias and its cast, or as a bare
array or scalar. -/
theorem qlWith_cases {n : Node} (hs : n.isShort = false) :
    (∀ g, n.qlWith g = n.tag.onto (.object (n.ownFields g))) ∨ (∃ items, n = array items {}) ∨
      ∃ value, n = constant value {} := by
  cases n with
  | array items tag =>
    by_cases htag : tag = {}
    · exact .inr (.inl ⟨items, by rw [htag]⟩)
    · exact .inl fun g => Tag.onto_taggable _ htag
  | constant value tag =>
    by_cases htag : tag = {}
    · exact .inr (.inr ⟨value, by rw [htag]⟩)
    · exact .inl fun g => Tag.onto_taggable _ htag
  | short => cases hs
  | _ => exact .inl fun g => rfl

/-- Selects and set operations alone are written as selects. -/
theorem isType_qlWith (g : Node → Json) {n : Node} (hs : n.isShort = false) :
    QlObject.isType (n.qlWith g) .select = n.isQuery := by
  obtain h | ⟨items, rfl⟩ | ⟨value, rfl⟩ := qlWith_cases hs
  · rw [h, isType_onto n.tag (own_ownFields g hs)]
    cases n with
    | operation op => cases op <;> rfl
    | _ => rfl
  · rfl
  · cases value <;> rfl

/-- An expression with those changed that are written with it. -/
def mapWritten (f : Node → Node) : Node → Node
  | parameter name value tag => parameter name value tag
  | n => n.mapParts f

/-- A select or a set operation in another role. -/
def withRole (role : SelectRole) : Node → Node
  | select _ c tag => select role c tag
  | compound _ op all left right tag => compound role op all left right tag
  | n => n

/-- Whether the relations and the joins of a select are such. -/
def Formed : Node → Prop
  | select _ c _ => (∀ n ∈ c.source, n.isRelation = true) ∧
    ∀ n ∈ c.joins, ∃ relation, n.joined? = some relation ∧ relation.isRelation = true
  | _ => True

/-- What an expression is read back as, once those inside it are. -/
def rereadHere : Node → Node
  | select role c tag =>
    select role { c with
      filter := c.filter.filter (!·.isBareNull)
      having := c.having.filter (!·.isBareNull) } tag
  | join type relation on =>
    let on := on.filter (!·.isBareNull)
    let type := Builder.joinType (some type) on.isSome relation.isQuery
    join type (relation.withRole (.range (type == .lateral))) on
  | case branches otherwise tag => case branches (otherwise.filter (!·.isBareNull)) tag
  | short _ inner => inner
  | n => n.splice

end Node

/-! ## Changes of values and of trees -/

theorem Built.formed {options : ParseOptions} {place : Place} {n : Node}
    (h : Built options r place s n) : n.Formed := by
  cases h with
  | select _ _ _ _ afterJoins _ source joins =>
    refine ⟨fun n hn => (source n hn).wellFormed.relation.mpr rfl, fun n hn => ?_⟩
    obtain ⟨before, after, t, hsplit, ht⟩ := exists_split_of_mem afterJoins hn
    cases joins before n after t hsplit ht with
    | join part => exact ⟨_, rfl, part.wellFormed.relation.mpr rfl⟩
    | select fits | compound fits | view fits => cases fits
  | _ => trivial

/-- A common table and a side of a set operation are selects in the role of their place. -/
theorem Built.role?_eq {options : ParseOptions} {place : Place} {role : SelectRole} {n : Node}
    (h : Built options r place s n) (hplace : place.role? = some role)
    (hrange : role ≠ .range false) (hvalue : place ≠ .value) : n.role? = some role := by
  cases h with
  | select fits | compound fits => exact fits.symm.trans hplace
  | view fits => exact absurd (Option.some.inj (hplace.symm.trans fits)) hrange
  | join => cases hplace
  | _ => exact absurd rfl hvalue

/-- An operation that is written as something else, which is read back as a given node. -/
structure Rewritten (options : ParseOptions) (n : Node) (value : Json) (node : Node) : Prop where
  isOperation : n.isOperation = true
  isNull : value.isNull = false
  isSelect : QlObject.isType value .select = false
  isBareNull : node.isBareNull = false
  role? : node.role? = none
  reads : ∀ {r s t m}, Build.Resolvable options r → Built options r .value s n → s.Wider t →
    Build.run options r .expression value t = .ok m → m = node

/-- How expressions are written with some changes, and the trees that are read back from what is
written. What is known at an expression is handed to those inside it. -/
structure Rewriting (options : ParseOptions) (σ : Type) where
  value : σ → Node → Json
  node : σ → Node → Node
  inside : σ → Node → σ
  /-- An expression is written from what those inside it are written as, or it is an operation that
  is changed. -/
  step : ∀ x n, n.Formed → (value x n = n.qlWith (value (inside x n)) ∧
      node x n = (n.mapWritten (node (inside x n))).rereadHere) ∨
        Rewritten options n (value x n) (node x n)

namespace Rewriting

variable {options : ParseOptions} {σ : Type} {W : Rewriting options σ} {n m : Node}
variable {place : Place} {role : SelectRole} {x : σ}

/-- Only operations are changed themselves. -/
theorem go (W : Rewriting options σ) (hf : n.Formed) (hn : n.isOperation = false) (x : σ) :
    W.value x n = n.qlWith (W.value (W.inside x n)) ∧
      W.node x n = (n.mapWritten (W.node (W.inside x n))).rereadHere := by
  obtain h | h := W.step x n hf
  · exact h
  · have hop := h.isOperation
    rw [hn] at hop
    cases hop

/-- A value is null exactly where a null without alias and cast is read back from it. -/
theorem isNull_value (W : Rewriting options σ) (hn : Built options r place s n) (x : σ) :
    (W.value x n).isNull = (W.node x n).isBareNull := by
  have hf := hn.formed
  induction hn generalizing x with
  | short kept part unfolds ih =>
    obtain ⟨hvalue, hnode⟩ := W.go hf rfl x
    rw [hvalue, hnode]
    exact ih _ part.formed
  | operation =>
    obtain ⟨hvalue, hnode⟩ | h := W.step x _ hf
    · rw [hvalue, hnode]
      exact Node.isNull_onto _ _ (.inl rfl)
    · rw [h.isNull, h.isBareNull]
  | constant =>
    obtain ⟨hvalue, hnode⟩ := W.go hf rfl x
    rw [hvalue, hnode]
    exact Node.isNull_constant _ _
  | list | sort | join =>
    obtain ⟨hvalue, hnode⟩ := W.go hf rfl x
    rw [hvalue, hnode]
    rfl
  | _ =>
    obtain ⟨hvalue, hnode⟩ := W.go hf rfl x
    rw [hvalue, hnode]
    exact Node.isNull_onto _ _ (.inl rfl)

/-! ### Lists of expressions -/

section Lists

variable {b : Builder} {write : Node → Json} {change : Node → Node}

theorem eq_map_of_expressions (h : b.expressions (ns.map write) t = .ok ms)
    (hparts : ∀ n ∈ ns, ∀ m, b.expression (write n) t = .ok m → m = change n) :
    ms = ns.map change := by
  rw [Builder.expressions, mapM_eq_ok_iff, forall₂_map_left_iff] at h
  induction h with
  | nil => rfl
  | @cons n m ns ms hm _ ih =>
    rw [map_cons, hparts n mem_cons_self m hm, ih fun k hk => hparts k (mem_cons_of_mem _ hk)]

private theorem eq_map_of_optional {p : Option Node}
    (h : b.optional ((o.map write).filter (!·.isNull)) t = .ok p)
    (hnull : ∀ n ∈ o, (write n).isNull = (change n).isBareNull)
    (hparts : ∀ n ∈ o, ∀ m, b.expression (write n) t = .ok m → m = change n) :
    p = (o.map change).filter (!·.isBareNull) := by
  cases o with
  | none =>
    cases h
    rfl
  | some n =>
    rw [Option.map_some, Option.filter_some, hnull n rfl] at h
    rw [Option.map_some, Option.filter_some]
    split at h
    · next hbare =>
      obtain ⟨hw, -⟩ | ⟨w, m, hw, rfl, hm⟩ := optional_shape h <;> cases hw
      rw [if_pos hbare, hparts n rfl m hm]
    · next hbare =>
      cases h
      rw [if_neg hbare]

private theorem eq_map_of_branches {bs ds : List (Node × Node)}
    (h : (bs.map fun p => Json.array [write p.1, write p.2]).mapM (b.branch t) = .ok ds)
    (conditions : ∀ p ∈ bs, ∀ m, b.expression (write p.1) t = .ok m → m = change p.1)
    (results : ∀ p ∈ bs, ∀ m, b.expression (write p.2) t = .ok m → m = change p.2) :
    ds = bs.map fun p => (change p.1, change p.2) := by
  rw [mapM_eq_ok_iff, forall₂_map_left_iff] at h
  induction h with
  | nil => rfl
  | @cons p d bs ds hd _ ih =>
    obtain ⟨condition, result, hpair, hcondition, hresult⟩ := branch_shape hd
    cases hpair
    have hp : d = (change p.1, change p.2) :=
      Prod.ext (conditions p mem_cons_self _ hcondition) (results p mem_cons_self _ hresult)
    rw [map_cons, hp, ih (fun q hq => conditions q (mem_cons_of_mem _ hq))
      fun q hq => results q (mem_cons_of_mem _ hq)]

end Lists

/-! ### What is read back at each place -/

/-- The value of an expression is read back as the changed expression, in a wider scope. -/
def ReadsValue (W : Rewriting options σ) (r : List String) (s : Scope) (n : Node) : Prop :=
  ∀ x t m, s.Wider t → Build.run options r .expression (W.value x n) t = .ok m → m = W.node x n

/-- The value of a select is read back as the changed select, in a wider scope and in a role that
sees as much. -/
def ReadsSelect (W : Rewriting options σ) (r : List String) (s : Scope) (n : Node) : Prop :=
  ∀ role, n.role? = some role → ∀ x role' t m, s.Wider t →
    (seesSiblings role = true → seesSiblings role' = true) →
    Build.run options r (.select role') (W.value x n) t = .ok m → m = (W.node x n).withRole role'

/-- The value of a join is read back as the changed join, in a wider scope and with a wider scope
after it. -/
def ReadsJoin (W : Rewriting options σ) (r : List String) (s : Scope) (n : Node) : Prop :=
  ∀ x t m u, s.Wider t → (Build.runner options r).join (W.value x n) t = .ok (m, u) →
    m = W.node x n ∧ ∀ s', s.afterJoin n = .ok s' → s'.Wider u

/-- Selects and set operations alone are written as selects, and are read back in their role. -/
theorem isType_value (W : Rewriting options σ) (hf : n.Formed) (hs : n.isShort = false) (x : σ) :
    QlObject.isType (W.value x n) .select = n.isQuery ∧ (W.node x n).role? = n.role? := by
  obtain ⟨hvalue, hnode⟩ | h := W.step x n hf
  · rw [hvalue, hnode, Node.isType_qlWith _ hs]
    refine ⟨rfl, ?_⟩
    cases n with
    | short => cases hs
    | _ => rfl
  · rw [h.isSelect, h.role?]
    have hop := h.isOperation
    cases n with
    | operation => exact ⟨rfl, rfl⟩
    | _ => cases hop

/-- A select keeps its role, its alias and its cast. -/
theorem node_of_role? (W : Rewriting options σ) (hf : n.Formed) (h : n.role? = some role) (x : σ) :
    (W.node x n).role? = some role ∧ (W.node x n).tag = n.tag := by
  cases n with
  | select | compound =>
    rw [(W.isType_value hf rfl x).2, (W.go hf rfl x).2]
    exact ⟨h, rfl⟩
  | _ => cases h

private theorem withRole_of_role? (h : n.role? = some role) : n.withRole role = n := by
  cases n with
  | select | compound =>
    cases h
    rfl
  | _ => cases h

/-- Common tables are read back one after the other. -/
theorem eq_map_of_ctes {obj : QlObject} {v : Scope} (hst : s.Wider t)
    (hs : s.afterCtes ns = .ok u)
    (hparts : ∀ before n after s', ns = before ++ n :: after → s.afterCtes before = .ok s' →
      Built options r .cte s' n ∧ W.ReadsSelect r s' n)
    (h : (Build.runner options r).ctes obj (ns.map (W.value x)) t = .ok (ms, v)) :
    ms = ns.map (W.node x) ∧ u.Wider v := by
  induction ns generalizing s t ms with
  | nil =>
    cases hs
    cases h
    exact ⟨rfl, hst⟩
  | cons n ns ih =>
    obtain ⟨s', hs', hs⟩ := of_bind hs
    obtain ⟨⟨hbuilt, hn⟩, hparts⟩ := of_split_cons hs' hparts
    have hrole := hbuilt.role?_eq rfl nofun nofun
    rw [map_cons, Builder.ctes] at h
    split at h
    · cases h
    obtain ⟨m, hm, h⟩ := of_bind h
    obtain ⟨t', ht', h⟩ := of_bind h
    obtain ⟨⟨rest, w⟩, hrest, h⟩ := of_bind h
    cases h
    obtain ⟨hrole', htag⟩ := W.node_of_role? hbuilt.formed hrole x
    have hnode : m = W.node x n := by
      rw [hn _ hrole x .cte t m hst id hm, withRole_of_role? hrole']
    have hwider : s'.Wider t' := by
      rw [Builder.declareCte, hnode, Node.alias?, htag, ← Node.alias?] at ht'
      rw [Builder.declareCte] at hs'
      cases hlabel : n.alias? with
      | none =>
        rw [hlabel] at hs' ht'
        cases hs'
        cases ht'
        exact hst
      | some name =>
        rw [hlabel] at hs' ht'
        exact hst.withCte hs' ht'
    obtain ⟨hnodes, hafter⟩ := ih hwider hs hparts hrest
    exact ⟨by rw [hnode, hnodes, map_cons], hafter⟩

/-- Joins are read back one after the other. -/
theorem eq_map_of_joins {v : Scope} (hst : s.Wider t) (hs : s.afterJoins ns = .ok u)
    (hparts : ∀ before n after s', ns = before ++ n :: after → s.afterJoins before = .ok s' →
      W.ReadsJoin r s' n)
    (h : (Build.runner options r).joins (ns.map (W.value x)) t = .ok (ms, v)) :
    ms = ns.map (W.node x) ∧ u.Wider v := by
  induction ns generalizing s t ms with
  | nil =>
    cases hs
    cases h
    exact ⟨rfl, hst⟩
  | cons n ns ih =>
    obtain ⟨s', hs', hs⟩ := of_bind hs
    obtain ⟨hn, hparts⟩ := of_split_cons hs' hparts
    rw [map_cons, Builder.joins] at h
    obtain ⟨⟨m, t'⟩, hm, h⟩ := of_bind h
    obtain ⟨⟨rest, w⟩, hrest, h⟩ := of_bind h
    cases h
    obtain ⟨hnode, hwider⟩ := hn x t m t' hst hm
    obtain ⟨hnodes, hafter⟩ := ih (hwider s' hs') hs hparts hrest
    exact ⟨by rw [hnode, hnodes, map_cons], hafter⟩

/-! ### Relations and selects -/

/-- The value of a select is an object, with the kind of a select. -/
theorem exists_own_value (W : Rewriting options σ) (hf : n.Formed) (h : n.role? = some role)
    (x : σ) :
    ∃ F, W.value x n = .object (F ++ n.tag.fields) ∧ Fields.Own F .select := by
  cases n with
  | select role' c tag =>
    have hown := Node.own_selectFields
      (Node.clausesWith (W.value (W.inside x (.select role' c tag))) c)
    exact ⟨_,
      by rw [(W.go hf rfl x).1, Node.qlWith, tag.onto_object hown.cast hown.label]; rfl, hown⟩
  | compound role' op all left right tag =>
    let y := W.inside x (.compound role' op all left right tag)
    have hown := Node.own_compoundFields op all (W.value y left) (W.value y right)
    exact ⟨_,
      by rw [(W.go hf rfl x).1, Node.qlWith, tag.onto_object hown.cast hown.label]; rfl, hown⟩
  | _ => cases h

/-- A view is written as it is, whether or not it is a common table. -/
theorem relationWith_view (W : Rewriting options σ) (name : String) (isCte isCte' : Bool)
    (label : Option String) (x : σ) :
    (Node.view name isCte label).relationWith (W.value x) =
    (Node.view name isCte' label).relationQl false := by
  rw [Node.relationWith, (W.go (n := .view name isCte label) trivial rfl x).1]
  cases label <;> rfl

/-- What stands at the place of a relation is its own normal form. -/
theorem normalizeRelation (W : Rewriting options σ) (hn : Built options r place s n)
    (hplace : place.role? = some (.range lateral)) (hvalue : place ≠ .value) (x : σ) :
    Builder.normalizeRelation (n.relationWith (W.value x)) =
      .ok (n.relationWith (W.value x), false) ∧
      QlObject.isType (n.relationWith (W.value x)) .select = n.isQuery ∧
      (n.relationWith (W.value x)).isNull = false := by
  have hquery : ∀ {role : SelectRole}, n.role? = some role → n.isQuery = true → n.bareView? = none →
      Builder.normalizeRelation (n.relationWith (W.value x)) =
        .ok (n.relationWith (W.value x), false) ∧
        QlObject.isType (n.relationWith (W.value x)) .select = n.isQuery ∧
        (n.relationWith (W.value x)).isNull = false := by
    intro role hrole hquery hbare
    obtain ⟨F, hF, hown⟩ := W.exists_own_value hn.formed hrole x
    rw [Node.relationWith, hbare, hquery]
    dsimp only
    rw [hF]
    exact ⟨normalizeRelation_own hown (by decide) (by decide),
      QlObject.isType_written hown.type .select, rfl⟩
  cases hn with
  | select => exact hquery rfl rfl rfl
  | compound => exact hquery rfl rfl rfl
  | @view _ _ _ name label fits =>
    rw [W.relationWith_view name (s.isCte name) (s.isCte name)]
    exact ⟨normalizeRelation_view .., isType_view .., Node.isNull_relationQl rfl rfl⟩
  | join => cases hplace
  | _ => exact absurd rfl hvalue

/-- A changed relation is declared like the relation itself, in any role. -/
theorem declaration_node (W : Rewriting options σ) (hn : Built options r place s n)
    (hplace : place.role? = some (.range lateral)) (hvalue : place ≠ .value) (x : σ)
    (role : SelectRole) :
    Builder.declaration ((W.node x n).withRole role) = Builder.declaration n ∧
      (W.node x n).isQuery = n.isQuery := by
  have hf := hn.formed
  cases hn with
  | select | compound | view =>
    rw [(W.go hf rfl x).2]
    exact ⟨rfl, rfl⟩
  | join => cases hplace
  | _ => exact absurd rfl hvalue

/-- A changed relation is in the role of its place. -/
theorem withRole_node (W : Rewriting options σ) (hn : Built options r place s n)
    (hplace : place.role? = some role) (hvalue : place ≠ .value) (x : σ) :
    (W.node x n).withRole role = W.node x n := by
  have hf := hn.formed
  cases hn with
  | select fits | compound fits =>
    rw [fits] at hplace
    cases hplace
    exact withRole_of_role? (W.node_of_role? hf rfl x).1
  | view =>
    rw [(W.go hf rfl x).2]
    rfl
  | join => cases hplace
  | _ => exact absurd rfl hvalue

/-- A relation is read back in a role that sees as much as its own, and declared. A view sees
nothing. -/
theorem eq_of_relation (hn : Built options r place s n)
    (hplace : place.role? = some (.range lateral)) (hvalue : place ≠ .value)
    (hread : W.ReadsSelect r s n) (hle : lateral = true → lateral' = true)
    (hview : n.isQuery = false → lateral' = false) (hst : s.Wider t)
    (h : (Build.runner options r).relation (n.relationWith (W.value x)) t lateral' = .ok (m, u)) :
    m = (W.node x n).withRole (.range lateral') ∧ ∀ s', Builder.declare s n = .ok s' →
      s'.Wider u := by
  obtain ⟨hnormal, hselect, -⟩ := W.normalizeRelation hn hplace hvalue x
  obtain ⟨hm, hu⟩ := exists_of_relation hnormal h
  have hnode : m = (W.node x n).withRole (.range lateral') := by
    have hquery : ∀ {role : SelectRole}, n.role? = some role → role = .range lateral →
        m = (W.node x n).withRole (.range lateral') := by
      rintro _ hrole rfl
      obtain ⟨F, hF, hown⟩ := W.exists_own_value hn.formed hrole x
      have hbare : n.bareView? = none := by
        cases n with
        | view => cases hrole
        | _ => rfl
      have hsees : ∀ lateral, seesSiblings (.range lateral) = lateral := by
        intro lateral
        cases lateral <;> rfl
      rw [Node.relationWith, hbare] at hm
      dsimp only at hm
      refine hread _ hrole x _ t m hst (by rwa [hsees, hsees]) ?_
      rw [hF] at hm ⊢
      simp only [Builder.relationNode, QlObject.ofJson_written hown.type, ok_bind,
        QlObject.type_written] at hm
      exact hm
    cases hn with
    | select fits => exact hquery rfl (Option.some.inj (fits.symm.trans hplace))
    | compound fits => exact hquery rfl (Option.some.inj (fits.symm.trans hplace))
    | @view _ _ _ name label fits hasName named =>
      rw [W.relationWith_view name (s.isCte name) (t.isCte name), hview rfl,
        relationNode_view hasName named] at hm
      cases hm
      rw [(W.go (n := .view name (s.isCte name) label) trivial rfl x).2, hst.isCte]
      rfl
    | join => cases hplace
    | _ => exact absurd rfl hvalue
  refine ⟨hnode, fun s' hs' => ?_⟩
  obtain ⟨hdeclaration, -⟩ := W.declaration_node hn hplace hvalue x (.range lateral')
  rw [Builder.declare, hnode, hdeclaration] at hu
  obtain ⟨⟨name, target⟩, hname, hu⟩ := of_bind hu
  rw [Builder.declare, hname, ok_bind] at hs'
  exact hst.withRef hs' hu

/-- The first relation of a select is read back. -/
theorem eq_map_of_source {source : Option Node} {v : Scope} (hst : s.Wider t)
    (hs : s.afterSource source = .ok u)
    (hparts : ∀ n ∈ source, Built options r .source s n ∧ W.ReadsSelect r s n)
    (h : (Build.runner options r).source
      ((source.map (Node.relationWith (W.value x))).filter (!·.isNull)) t =
      .ok (o, v)) : o = source.map (W.node x) ∧ u.Wider v := by
  cases source with
  | none =>
    cases hs
    cases h
    exact ⟨rfl, hst⟩
  | some n =>
    obtain ⟨hn, hread⟩ := hparts n rfl
    obtain ⟨-, -, hnull⟩ := W.normalizeRelation hn rfl nofun x
    rw [Option.map_some, Option.filter_some, hnull] at h
    obtain ⟨hw, -⟩ | ⟨w, m, hw, rfl, hm⟩ := source_shape h <;> cases hw
    obtain ⟨rfl, hwider⟩ := eq_of_relation hn rfl nofun hread nofun (fun _ => rfl) hst hm
    refine ⟨?_, hwider u hs⟩
    rw [Option.map_some, W.withRole_node hn rfl nofun]

/-- A join is read back from its relation and its condition. -/
theorem readsJoin_join {type : JoinType} {relation : Node} {on : Option Node}
    (part : Built options r (.joined type) s relation)
    (declared : Builder.declare s relation = .ok s') (hrelation : W.ReadsSelect r s relation)
    (onPart : ∀ n ∈ on, Built options r .value s' n) (hon : ∀ n ∈ on, W.ReadsValue r s' n) :
    W.ReadsJoin r s (.join type relation on) := by
  intro x t m u hst h
  obtain ⟨hvalue, hnode⟩ := W.go (n := .join type relation on) trivial rfl x
  set y := W.inside x (.join type relation on)
  obtain ⟨hnormal, hselect, -⟩ := W.normalizeRelation part rfl nofun y
  rw [hvalue, Node.qlWith] at h
  obtain ⟨type', first, condition, htype, hlateral, hfirst, hcondition, rfl⟩ :=
    exists_of_join hnormal h
  have hsome : ((on.map (W.value y)).filter (!·.isNull)).isSome =
      ((on.map (W.node y)).filter (!·.isBareNull)).isSome := by
    cases on with
    | none => rfl
    | some n =>
      rw [Option.map_some, Option.map_some, Option.filter_some, Option.filter_some,
        W.isNull_value (onPart n rfl)]
      split <;> rfl
  obtain ⟨-, hquery⟩ := W.declaration_node part rfl nofun y .root
  rw [hsome, hselect, ← hquery] at htype
  rw [hselect] at hlateral
  have hle : (type == .lateral) = true → (type' == .lateral) = true := by
    intro h
    rw [htype, beq_iff_eq.mp h]
    rfl
  have hview : relation.isQuery = false → (type' == .lateral) = false := by
    intro h
    refine beq_eq_false_iff_ne.mpr fun hl => ?_
    rw [hlateral hl] at h
    cases h
  obtain ⟨rfl, hwider⟩ := eq_of_relation part rfl nofun hrelation hle hview hst hfirst
  have hon := eq_map_of_optional hcondition (fun n hn => W.isNull_value (onPart n hn) y)
    fun n hn m hm => hon n hn y u m (hwider s' declared) hm
  refine ⟨?_, hwider⟩
  rw [hnode, hon, htype]
  rfl

/-- A select is read back from its clauses. -/
theorem readsSelect_select (hr : Build.Resolvable options r) {c : Clauses Node}
    {s₁ s₂ s₃ : Scope} (hf : (Node.select role c tag).Formed) (takes : role.Takes tag)
    (afterWiths : (s.childSelect (seesSiblings role)).afterCtes c.withs = .ok s₁)
    (afterSource : s₁.afterSource c.source = .ok s₂) (afterJoins : s₂.afterJoins c.joins = .ok s₃)
    (withs : ∀ before n after t, c.withs = before ++ n :: after →
      (s.childSelect (seesSiblings role)).afterCtes before = .ok t →
      Built options r .cte t n ∧ W.ReadsSelect r t n)
    (source : ∀ n ∈ c.source, Built options r .source s₁ n ∧ W.ReadsSelect r s₁ n)
    (joins : ∀ before n after t, c.joins = before ++ n :: after → s₂.afterJoins before = .ok t →
      W.ReadsJoin r t n)
    (values : ∀ n ∈ c.values, Built options r .value s₃ n ∧ W.ReadsValue r s₃ n)
    (limit : ∀ rows, c.limit = some (.count rows) → rows < 1 <<< 64)
    (offset : ∀ rows, c.offset = some rows → rows < 1 <<< 64) :
    W.ReadsSelect r s (.select role c tag) := by
  rintro _ ⟨⟩ x role' t m hst hsees h
  obtain ⟨hvalue, hnode⟩ := W.go hf rfl x
  set y := W.inside x (.select role c tag)
  have hown := Node.own_selectFields (Node.clausesWith (W.value y) c)
  rw [hvalue, Node.qlWith, tag.onto_object hown.cast hown.label,
    Build.run_select_written hr hown] at h
  obtain ⟨d, t₁, t₂, t₃, rfl, hdistinct, hlimit, hoffset, hreads⟩ :=
    exists_of_select takes.named limit offset h
  obtain ⟨hwiths, hwider₁⟩ := eq_map_of_ctes (hst.childSelect hsees) afterWiths withs hreads.withs
  obtain ⟨hsource, hwider₂⟩ := eq_map_of_source hwider₁ afterSource source hreads.source
  obtain ⟨hjoins, hwider₃⟩ := eq_map_of_joins hwider₂ afterJoins joins hreads.joins
  have hpart : ∀ n ∈ c.values, ∀ m, (Build.runner options r).expression (W.value y n) t₃ = .ok m →
    m = W.node y n :=
    fun n hn m hm => (values n hn).2 y t₃ m hwider₃ hm
  have hfilterValue : ∀ n ∈ c.filter, n ∈ c.values :=
    fun n hn => by simp [Clauses.values, Option.mem_def.mp hn]
  have hhavingValue : ∀ n ∈ c.having, n ∈ c.values :=
    fun n hn => by simp [Clauses.values, Option.mem_def.mp hn]
  have hcolumns := eq_map_of_expressions hreads.columns fun n hn =>
    hpart n (by simp [Clauses.values, hn])
  have hfilter := eq_map_of_optional hreads.filter
    (fun n hn => W.isNull_value (values n (hfilterValue n hn)).1 y) fun n hn =>
      hpart n (hfilterValue n hn)
  have hgroupBy := eq_map_of_expressions hreads.groupBy fun n hn =>
    hpart n (by simp [Clauses.values, hn])
  have hhaving := eq_map_of_optional hreads.having
    (fun n hn => W.isNull_value (values n (hhavingValue n hn)).1 y) fun n hn =>
      hpart n (hhavingValue n hn)
  have horderBy := eq_map_of_expressions hreads.orderBy fun n hn =>
    hpart n (by simp [Clauses.values, hn])
  obtain ⟨dwiths, dsource, djoins, ddistinct, dcolumns, dfilter, dgroupBy, dhaving, dorderBy,
    dlimit, doffset⟩ := d
  cases hwiths
  cases hsource
  cases hjoins
  cases hdistinct
  cases hcolumns
  cases hfilter
  cases hgroupBy
  cases hhaving
  cases horderBy
  cases hlimit
  cases hoffset
  rw [hnode]
  rfl

/-- A set operation is read back from its sides. -/
theorem readsSelect_compound (hr : Build.Resolvable options r) {op : SetOperator} {all : Bool}
    {left right : Node} (takes : role.Takes tag) (leftSide : Built options r .side s left)
    (rightSide : Built options r .side s right) (hleft : W.ReadsSelect r s left)
    (hright : W.ReadsSelect r s right) :
    W.ReadsSelect r s (.compound role op all left right tag) := by
  rintro _ ⟨⟩ x role' t m hst - h
  obtain ⟨hvalue, hnode⟩ := W.go (n := .compound role op all left right tag) trivial rfl x
  set y := W.inside x (.compound role op all left right tag)
  have hown := Node.own_compoundFields op all (W.value y left) (W.value y right)
  rw [hvalue, Node.qlWith, tag.onto_object hown.cast hown.label,
    Build.run_select_written hr hown] at h
  obtain ⟨k, l, hk, hl, rfl⟩ := exists_of_compound takes.named h
  have hside : ∀ {n k : Node}, Built options r .side s n → W.ReadsSelect r s n →
      Build.run options r (.select .operand) (W.value y n) t = .ok k → k = W.node y n := by
    intro n k hbuilt hn hk
    have hrole := hbuilt.role?_eq rfl (by rintro ⟨⟩) (by rintro ⟨⟩)
    rw [hn _ hrole y .operand t k hst id hk,
      withRole_of_role? (W.node_of_role? hbuilt.formed hrole y).1]
  rw [hnode, hside leftSide hleft hk, hside rightSide hright hl]
  rfl

/-- A select where a value is expected is a subquery. -/
theorem readsValue_of_role? (hr : Build.Resolvable options r) (hf : n.Formed)
    (hrole : n.role? = some .subquery) (h : W.ReadsSelect r s n) : W.ReadsValue r s n := by
  intro x t m hst hm
  obtain ⟨F, hF, hown⟩ := W.exists_own_value hf hrole x
  have hvalue : Build.run options r .expression (.object (F ++ n.tag.fields)) t =
      QlObject.ofJson (.object (F ++ n.tag.fields)) >>= fun obj =>
        (Build.runner options r).object obj t :=
    Build.run_eq_value hr _ _ _
  have hrun : Build.run options r (.select .subquery) (W.value x n) t = .ok m := by
    rw [hF, Build.run_select_written hr hown]
    rw [hF, hvalue, QlObject.ofJson_written hown.type, ok_bind] at hm
    exact hm
  rw [h _ hrole x .subquery t m hst id hrun, withRole_of_role? (W.node_of_role? hf hrole x).1]

/-! ### The whole tree -/

/-- What is read back at a place of a tree. -/
structure Reads (W : Rewriting options σ) (r : List String) (place : Place) (s : Scope) (n : Node) :
    Prop where
  value : place = .value → W.ReadsValue r s n
  select : W.ReadsSelect r s n
  join : place = .join → W.ReadsJoin r s n

private theorem Reads.of_value (hn : n.role? = none) (h : W.ReadsValue r s n) :
    W.Reads r .value s n where
  value _ := h
  select role hrole := by
    rw [hn] at hrole
    cases hrole
  join := nofun

/-- An expression that is no operation is read back if what is written for it is, once those inside
it are written. -/
theorem Reads.of_go (hr : Build.Resolvable options r) (hf : n.Formed) (hn : n.role? = none)
    (hop : n.isOperation = false)
    (h : ∀ y t m, s.Wider t → (Build.runner options r).value .expression
      (n.qlWith (W.value y)) t = .ok m →
      m = (n.mapWritten (W.node y)).rereadHere) : W.Reads r .value s n := by
  refine .of_value hn fun x t m hst hm => ?_
  obtain ⟨hvalue, hnode⟩ := W.go hf hop x
  rw [hvalue, Build.run_eq_value hr] at hm
  rw [hnode]
  exact h _ t m hst hm

private theorem Reads.of_select (hr : Build.Resolvable options r) (hf : n.Formed)
    (fits : place.role? = some role) (hn : n.role? = some role) (h : W.ReadsSelect r s n) :
    W.Reads r place s n where
  value hplace := by
    subst hplace
    cases fits
    exact readsValue_of_role? hr hf hn h
  select := h
  join hplace := by
    subst hplace
    cases fits

end Rewriting

/-- What was built is read back with the changes, in wider scopes. -/
theorem Built.reads {options : ParseOptions} {σ : Type} (W : Rewriting options σ) {place : Place}
    {n : Node} (h : Built options r place s n) (hr : Build.Resolvable options r) :
    W.Reads r place s n := by
  induction h with
  | constant value read named =>
    refine .of_go hr trivial rfl rfl fun y t m hst hm => ?_
    exact eq_of_value_constant read named hm
  | column hasName hasView found named =>
    refine .of_go hr trivial rfl rfl fun y t m hst hm => ?_
    obtain ⟨found', hfound', rfl⟩ := exists_of_value_column hasName hasView named hm
    obtain rfl := hst.resolveColumn found hfound'
    rfl
  | bound hasName unreserved binding fresh run inner named ih =>
    refine .of_go hr trivial rfl rfl fun y t m hst hm => ?_
    obtain ⟨w, hw, rfl⟩ := exists_of_value_parameter hasName named hm
    obtain ⟨k, hk, rfl⟩ := exists_of_boundValue binding fresh hw
    rw [Build.run_wider hst run hk]
    rfl
  | @free r s name tag hasName unreserved binding allowed named =>
    refine .of_go hr trivial rfl rfl fun y t m hst hm => ?_
    obtain ⟨w, hw, rfl⟩ := exists_of_value_parameter hasName named hm
    have hnone : (Build.runner options r).boundValue name t = .ok none :=
      boundValue_eq_none binding allowed
    rw [hnone] at hw
    cases hw
    rfl
  | call known parts arity aggregate named ih =>
    refine .of_go hr trivial rfl rfl fun y t m hst hm => ?_
    obtain ⟨ms, hms, rfl⟩ := exists_of_value_call known named hm
    rw [Rewriting.eq_map_of_expressions hms fun n hn m hm => (ih n hn hr).value rfl _ t m hst hm]
    rfl
  | geometry parts arity named ih =>
    refine .of_go hr trivial rfl rfl fun y t m hst hm => ?_
    obtain ⟨ms, hms, rfl⟩ := exists_of_value_geometry named hm
    rw [Rewriting.eq_map_of_expressions hms fun n hn m hm => (ih n hn hr).value rfl _ t m hst hm]
    rfl
  | @operation r s op operands qualifier tag parts arity qualified flat named ih =>
    refine .of_value rfl fun x t m hst hm => ?_
    obtain ⟨hvalue, hnode⟩ | h := W.step x (.operation op operands qualifier tag) trivial
    · rw [hvalue, Build.run_eq_value hr] at hm
      obtain ⟨ms, hms, rfl⟩ := exists_of_value_operation qualified named hm
      rw [hnode,
        Rewriting.eq_map_of_expressions hms fun n hn m hm => (ih n hn hr).value rfl _ t m hst hm]
      rfl
    · exact h.reads hr (.operation parts arity qualified flat named) hst hm
  | case nonempty conditions results other named ihConditions ihResults ihOther =>
    refine .of_go hr trivial rfl rfl fun y t m hst hm => ?_
    obtain ⟨ds, o, hds, ho, rfl⟩ := exists_of_value_case named hm
    rw [Rewriting.eq_map_of_branches hds
        (fun p hp m hm => (ihConditions p hp hr).value rfl _ t m hst hm)
        fun p hp m hm => (ihResults p hp hr).value rfl _ t m hst hm,
      Rewriting.eq_map_of_optional ho (fun n hn => W.isNull_value (other n hn) _)
        fun n hn m hm => (ihOther n hn hr).value rfl _ t m hst hm]
    rfl
  | array parts named ih =>
    refine .of_go hr trivial rfl rfl fun y t m hst hm => ?_
    obtain ⟨ms, hms, rfl⟩ := exists_of_value_array named hm
    rw [Rewriting.eq_map_of_expressions hms fun n hn m hm => (ih n hn hr).value rfl _ t m hst hm]
    rfl
  | list nonempty parts ih =>
    refine .of_go hr trivial rfl rfl fun y t m hst hm => ?_
    obtain ⟨ms, hms, rfl⟩ := exists_of_value_list hm
    rw [Rewriting.eq_map_of_expressions hms fun n hn m hm => (ih n hn hr).value rfl _ t m hst hm]
    rfl
  | sort part ih =>
    refine .of_go hr trivial rfl rfl fun y t m hst hm => ?_
    obtain ⟨k, hk, rfl⟩ := exists_of_value_sort hm
    rw [(ih hr).value rfl _ t k hst hk]
    rfl
  | @short r s source inner kept part unfolds ih =>
    refine .of_value rfl fun x t m hst hm => ?_
    obtain ⟨hvalue, hnode⟩ := W.go (n := .short source inner) trivial rfl x
    rw [hvalue] at hm
    rw [hnode]
    exact (ih hr).value rfl _ t m hst hm
  | @select r place s s₁ s₂ s₃ role c tag fits takes afterWiths afterSource afterJoins withs
      source joins
      nonempty values limit offset ihWiths ihSource ihJoins ihValues =>
    have hf : (Node.select role c tag).Formed :=
      (Built.select fits takes afterWiths afterSource afterJoins withs source joins nonempty values
        limit offset).formed
    exact .of_select hr hf fits rfl
      (Rewriting.readsSelect_select hr hf takes afterWiths afterSource afterJoins
      (fun before n after t hsplit ht =>
        ⟨withs before n after t hsplit ht, (ihWiths before n after t hsplit ht hr).select⟩)
      (fun n hn => ⟨source n hn, (ihSource n hn hr).select⟩)
      (fun before n after t hsplit ht => (ihJoins before n after t hsplit ht hr).join rfl)
      (fun n hn => ⟨values n hn, (ihValues n hn hr).value rfl⟩) limit offset)
  | @compound r place s role op all left right tag fits takes leftSide rightSide ihLeft ihRight =>
    exact .of_select (n := .compound role op all left right tag) hr trivial fits rfl
      (Rewriting.readsSelect_compound hr takes leftSide rightSide (ihLeft hr).select
        (ihRight hr).select)
  | view fits =>
    refine ⟨?_, nofun, ?_⟩
    · rintro rfl
      cases fits
    · rintro rfl
      cases fits
  | join part declared condition onPart ihPart ihOn =>
    exact ⟨nofun, nofun, fun _ => Rewriting.readsJoin_join part declared (ihPart hr).select onPart
      fun n hn => (ihOn n hn hr).value rfl⟩

namespace Build

variable {options : ParseOptions} {σ : Type} {W : Rewriting options σ} {x : σ} {v : Json}
  {n m : Node}

private theorem eq_of_root_select {place : Place} {role : SelectRole}
    (hn : Built options [] place .root n) (hrole : n.role? = some role)
    (hsees : seesSiblings role = false) (hm : root options (W.value x n) = .ok m) :
    m = (W.node x n).withRole .root := by
  have hquery : n.isShort = false ∧ n.isQuery = true := by
    cases n with
    | select | compound => exact ⟨rfl, rfl⟩
    | _ => cases hrole
  rw [root, (W.isType_value hn.formed hquery.1 x).1, if_pos hquery.2] at hm
  refine (hn.reads W (resolvable_nil options)).select role hrole x .root .root m (.refl _) ?_ hm
  rw [hsees]
  rintro ⟨⟩

private theorem eq_of_root_value {x : σ} {n : Node} (hn : Built options [] .value .root n)
    (hm : root options (W.value x n) = .ok m) : m = (W.node x n).withRole .root := by
  cases hs : n.isShort with
  | true =>
    -- what a short expression stands for is at the root in its place
    cases hn with
    | @short _ _ e inner _ part =>
      obtain ⟨hvalue, hnode⟩ := W.go (n := .short e inner) trivial rfl x
      rw [hvalue] at hm
      rw [hnode]
      exact eq_of_root_value part hm
    | _ => cases hs
  | false =>
    cases hrole : n.role? with
    | some role =>
      have hsubquery : role = .subquery := by
        cases hn with
        | select fits | compound fits => exact Option.some.inj (hrole.symm.trans fits.symm)
        | _ => cases hrole
      exact eq_of_root_select hn hrole (by rw [hsubquery]; rfl) hm
    | none =>
      obtain ⟨hselect, hnode⟩ := W.isType_value hn.formed hs x
      have hquery : n.isQuery = false := by
        cases n with
        | select | compound => cases hrole
        | _ => rfl
      rw [root, hselect, hquery] at hm
      rw [(hn.reads W (resolvable_nil options)).value rfl x .root m (.refl _) hm]
      rw [hrole] at hnode
      cases hk : W.node x n with
      | select | compound =>
        rw [hk] at hnode
        cases hnode
      | _ => rfl
termination_by sizeOf n

/-- The root of a tree is read back with the changes, as a root where it is a select. -/
theorem eq_of_root (hn : root options v = .ok n) (hm : root options (W.value x n) = .ok m) :
    m = (W.node x n).withRole .root := by
  obtain hn | hn := root_built hn
  · exact eq_of_root_select hn (hn.role?_eq rfl nofun nofun) rfl hm
  · exact eq_of_root_value hn hm

end Build

end AnalyticQuery
