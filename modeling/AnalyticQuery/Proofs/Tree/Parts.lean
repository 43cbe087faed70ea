import AnalyticQuery.Proofs.Tree.Rebuilding
import AnalyticQuery.Proofs.Tree.Selecting
import Mathlib.Logic.Relation

/-!
# Parts of values and of trees

A value is built from what its parts are built to. A part of a value stands where an expression is
expected: an operand, an argument, an item, a branch of a case. The selects and set operations that
a part is built to are found again in what the whole value is built to, maybe with another alias or
cast.
-/

namespace AnalyticQuery

open QlObject Relation Result

variable {u w v' : Json} {obj : QlObject} {position : Position} {options : ParseOptions} {s : Scope}

/-! ## Parts of values -/

/-- The field with the expressions of an object of a kind. -/
def ExpressionType.itemKey? : ExpressionType → Option String
  | .operator | .and | .or => some "operands"
  | .function | .geometry => some "args"
  | .list | .array => some "values"
  | _ => none

namespace Json

/-- The object that a value is, or abbreviates. -/
def object? (v : Json) : Result QlObject := ofJson (.object v.taggable)

/-- The values inside a value from which it is built. -/
inductive Part : Json → Json → Prop
  | item {v w obj key items} : v.object? = .ok obj → obj.type.itemKey? = some key →
      obj.get? key = some (.array items) → w ∈ items → Part v w
  | branch {v w obj cases pair} : v.object? = .ok obj → obj.type = .case →
      obj.get? "cases" = some (.array cases) → .array pair ∈ cases → w ∈ pair → Part v w
  | otherwise {v w obj} : v.object? = .ok obj → obj.type = .case →
      obj.get? "defaultCase" = some w → Part v w
  | cast {v w obj} : v.object? = .ok obj → obj.type = .cast → obj.get? "value" = some w → Part v w

/-- Whether two values differ in their alias and their cast alone. -/
def SameBody (v w : Json) : Prop :=
  ∀ key, key ≠ "as" → key ≠ "cast" → Fields.get? w.taggable key = Fields.get? v.taggable key

theorem SameBody.refl (v : Json) : SameBody v v := fun _ _ _ => rfl

theorem SameBody.trans {v : Json} (h : SameBody u v) (h' : SameBody v w) : SameBody u w :=
  fun key halias hcast => (h' key halias hcast).trans (h key halias hcast)

/-- Values that differ in their alias and cast alone are objects of one kind with the same
fields. -/
theorem SameBody.object? {v : Json} (h : SameBody v w) (hobj : v.object? = .ok obj) :
    ∃ obj', w.object? = .ok obj' ∧ obj'.type = obj.type ∧
      ∀ key, key ≠ "as" → key ≠ "cast" → obj'.get? key = obj.get? key := by
  have htype := h "type" (by decide) (by decide)
  unfold Json.object? ofJson at hobj ⊢
  dsimp only at hobj ⊢
  rw [htype]
  split at hobj
  · next name hname =>
    cases hkind : ExpressionType.ofName name with
    | error e => rw [hkind] at hobj; cases hobj
    | ok type =>
      rw [hkind] at hobj
      cases hobj
      refine ⟨⟨w.taggable, type⟩, rfl, rfl, fun key halias hcast => ?_⟩
      simp only [get?, h key halias hcast]
  · cases hobj

/-- A part stays a part under another alias and cast. -/
theorem Part.sameBody {v : Json} (h : Part v w) (hsame : SameBody v v') : Part v' w := by
  cases h with
  | @item obj key items hobj hkey hitems hw =>
    obtain ⟨obj', hobj', htype, hget⟩ := hsame.object? hobj
    have hne : key ≠ "as" ∧ key ≠ "cast" := by
      unfold ExpressionType.itemKey? at hkey
      split at hkey <;> cases hkey <;> decide
    exact .item hobj' (htype ▸ hkey) (hget key hne.1 hne.2 ▸ hitems) hw
  | branch hobj htype hcases hpair hw =>
    obtain ⟨obj', hobj', htype', hget⟩ := hsame.object? hobj
    exact .branch hobj' (htype'.trans htype)
      ((hget _ (by decide) (by decide)).trans hcases) hpair hw
  | otherwise hobj htype hw =>
    obtain ⟨obj', hobj', htype', hget⟩ := hsame.object? hobj
    exact .otherwise hobj' (htype'.trans htype) ((hget _ (by decide) (by decide)).trans hw)
  | cast hobj htype hw =>
    obtain ⟨obj', hobj', htype', hget⟩ := hsame.object? hobj
    exact .cast hobj' (htype'.trans htype) ((hget _ (by decide) (by decide)).trans hw)

/-- Whether a value, under some alias and cast, is inside another one or is that one. -/
def Reaches (v u : Json) : Prop := ∃ w, ReflTransGen Part v w ∧ SameBody u w

theorem Reaches.refl (v : Json) : Reaches v v := ⟨v, .refl, .refl v⟩

theorem Reaches.head {v : Json} (h : Part v w) (h' : Reaches w u) : Reaches v u := by
  obtain ⟨w', hw', hsame⟩ := h'
  exact ⟨w', .head h hw', hsame⟩

theorem Reaches.sameBody {v : Json} (h : Reaches v u) (hsame : SameBody v v') : Reaches v' u := by
  obtain ⟨w, hw, hbody⟩ := h
  obtain rfl | ⟨k, hk, hw⟩ := hw.cases_head
  · exact ⟨v', .refl, hbody.trans hsame⟩
  · exact ⟨w, .head (hk.sameBody hsame) hw, hbody⟩

end Json

/-! ## Queries inside trees -/

namespace Node

/-- Whether a node is a select or a set operation. -/
def isQuery : Node → Bool
  | select .. | compound .. => true
  | _ => false

/-- Whether a node is a tree or inside it. -/
def Encloses (n k : Node) : Prop := ReflTransGen (fun a b => b ∈ a.children) n k

/-- Whether the selects and set operations of a tree are in another one, maybe with another alias or
cast. -/
def QueriesIn (m n : Node) : Prop := ∀ k, m.Encloses k → k.isQuery = true →
    ∃ tag, n.Encloses (k.retag tag)

variable {k m n : Node}

private theorem isQuery_retag (n : Node) (tag : Tag) : (n.retag tag).isQuery = n.isQuery := by
  cases n <;> rfl

theorem children_retag (n : Node) (tag : Tag) : (n.retag tag).children = n.children := by
  cases n <;> rfl

/-- What is in a tree is the tree or in one of its parts. -/
theorem Encloses.cases (h : n.Encloses k) : k = n ∨ ∃ c ∈ n.children, c.Encloses k := by
  obtain rfl | ⟨c, hc, h⟩ := ReflTransGen.cases_head h
  · exact .inl rfl
  · exact .inr ⟨c, hc, h⟩

theorem Encloses.of_child (hm : m ∈ n.children) (h : m.Encloses k) : n.Encloses k := .head hm h

theorem QueriesIn.refl (n : Node) : n.QueriesIn n :=
  fun k hk _ => ⟨⟨k.alias?, k.cast?⟩, by rwa [retag_tag]⟩

theorem QueriesIn.of_child (hm : m ∈ n.children) : m.QueriesIn n :=
  fun k hk _ => ⟨⟨k.alias?, k.cast?⟩, by rw [retag_tag]; exact .of_child hm hk⟩

theorem QueriesIn.trans (h : k.QueriesIn m) (h' : m.QueriesIn n) : k.QueriesIn n := by
  intro q hq hquery
  obtain ⟨tag, htag⟩ := h q hq hquery
  obtain ⟨tag', htag'⟩ := h' _ htag (by rw [isQuery_retag, hquery])
  exact ⟨tag', by rwa [retag_retag] at htag'⟩

/-- The queries of a node that is no query are those of its parts. -/
theorem QueriesIn.of_children (hn : n.isQuery = false) (h : ∀ c ∈ n.children, c.QueriesIn m) :
    n.QueriesIn m := by
  intro k hk hquery
  obtain rfl | ⟨c, hc, hk⟩ := hk.cases
  · rw [hn] at hquery
    cases hquery
  · exact h c hc k hk hquery

/-- A fold keeps the queries of a tree. -/
theorem QueriesIn.fold {n m : Node} {label : Option String} {cast : Option CastType}
    (h : n.fold label cast = .ok m) : n.QueriesIn m := by
  cases hs : n.isShort with
  | false =>
    obtain ⟨rfl, -, -⟩ := fold_cases hs h
    intro k hk hquery
    obtain rfl | ⟨c, hc, hk⟩ := hk.cases
    · exact ⟨_, .refl⟩
    · rw [← children_retag] at hc
      exact QueriesIn.of_child hc k hk hquery
  | true =>
    -- A kept short expression hands the fold to what it wraps.
    cases n with
    | short source inner =>
      obtain ⟨inner', hinner, h⟩ := of_bind h
      cases h
      have hinner : inner.QueriesIn (.short (tagShort source label cast) inner') :=
        (QueriesIn.fold hinner).trans (.of_child List.mem_cons_self)
      exact .of_children rfl fun c hc => List.mem_singleton.mp hc ▸ hinner
    | _ => cases hs
termination_by sizeOf n

end Node

/-! ## What is built of parts -/

/-- A value is built to a node at a position, with as many levels of bound parameters, of texts and
of values inside each other as that takes. -/
def Build.Makes (options : ParseOptions) (position : Position) (v : Json) (s : Scope) (n : Node) :
    Prop :=
  ∃ count level depth,
    within options (levels options (chains options count) level)
      (chains options count) depth [] position
      v s = .ok n

/-- A builder that builds the parts of a value as they are built alone. -/
def Builder.MakesParts (b : Builder) (options : ParseOptions) : Prop :=
  ∀ {position v s n}, b.part b.resolving position v s = .ok n → Build.Makes options position v s n

namespace Build

variable {v : Json} {n : Node}

/-- What a run builds is built. -/
theorem Makes.of_run (h : run options [] position v s = .ok n) : Makes options position v s n := by
  exact ⟨(options.parameters.getD []).length, 64 * v.textSize + 63, v.depth + 1, h⟩

/-- What is built is built by a builder from its parts. -/
theorem Makes.exists_builder (h : Makes options position v s n) :
    ∃ b : Builder, b.MakesParts options ∧ b.value position v s = .ok n := by
  obtain ⟨count, level, depth, h⟩ := h
  obtain _ | depth := depth
  · cases h
  exact ⟨⟨options, [], within options (levels options (chains options count) level)
    (chains options count) depth,
    levels options (chains options count) level, chains options count⟩,
      fun hpart => ⟨count, level, depth, hpart⟩, h⟩

end Build

namespace Builder

variable {b : Builder} {v : Json} {n : Node}
variable {F : Fields} {role : SelectRole}

/-- A value that is no constant is built as the object that it is, or abbreviates. -/
theorem value_eq_object (h : v.object? = .ok obj) (htype : obj.type ≠ .primitive) :
    b.value .expression v s = b.object obj s := by
  cases v with
  | object fields =>
    have hvalue : b.value .expression (.object fields) s =
        ofJson (.object fields) >>= fun obj => b.object obj s := rfl
    have h : ofJson (.object fields) = .ok obj := h
    rw [hvalue, h]
    rfl
  | array items =>
    let F : Fields := [("type", .string "array"), ("values", .array items)]
    have hwritten : ofJson (.object (F ++ Tag.fields {})) = .ok (written F .array {}) :=
      ofJson_written rfl
    have h : ofJson (.object (F ++ Tag.fields {})) = .ok obj := h
    rw [hwritten] at h
    cases h
    have hkeys : (written F .array {}).checkKeys ["values"] = .ok () :=
      checkKeys_written (by simp [F])
    have hitems : (written F .array {}).array "values" = .ok items :=
      array_eq_ok (by simp [F, get?_written])
    have htag : (written F .array {}).tag = .ok {} :=
      tag_written (by simp [F]) (by simp [F]) nofun
    have hobject : b.object (written F .array {}) s =
        b.array (written F .array {}) s >>= fun k =>
          (written F .array {}).tag >>= fun tag => k.fold tag.label tag.cast := rfl
    rw [hobject, htag, array, hkeys, hitems]
    cases hns : b.expressions items s with
    | error e => simp [value, hns]
    | ok ns => simp [value, hns, Node.fold, Node.foldPlain]
  | null | bool | number | string =>
    have hkind : ExpressionType.ofName "primitive" = .ok .primitive :=
      ExpressionType.ofName_name .primitive
    simp [Json.object?, ofJson, Json.taggable, hkind, Except.map] at h
    exact absurd (by rw [← h]) htype

/-- The queries of an operand are among those of the operation, also where the operand is
absorbed. -/
theorem queriesIn_operation {op : Operator} {operands : List Node} {qualifier : Option Qualifier}
    {m : Node} (h : operation op operands qualifier = .ok n) (hm : m ∈ operands) :
    m.QueriesIn n := by
  obtain ⟨rfl, -, -⟩ := operation_shape h
  split
  · next hlogical =>
    have hflat : ∀ k ∈ (absorbed? op m).getD [m],
        k ∈ (Node.operation op (flatten op operands) qualifier {}).children :=
      fun k hk => List.mem_flatMap.mpr ⟨m, hm, hk⟩
    cases habsorbed : absorbed? op m with
    | none => exact .of_child (hflat m (by rw [habsorbed]; exact List.mem_cons_self))
    | some inner =>
      rw [habsorbed] at hflat
      obtain ⟨qualifier', rfl⟩ := exists_of_absorbed? habsorbed
      exact .of_children rfl fun c hc => .of_child (hflat c hc)
  · exact .of_child hm

section Items

variable {items : List Json} {k : Node}

private theorem operator_items (h : b.operator obj s = .ok k)
    (hitems : obj.get? "operands" = some (.array items)) :
    ∃ ns, b.expressions items s = .ok ns ∧ ∀ m ∈ ns, m.QueriesIn k := by
  obtain ⟨op, values, operands, qualifier, -, hvalues, hoperands, -, h⟩ := operator_shape h
  rw [array_eq_ok hitems] at hvalues
  cases hvalues
  exact ⟨operands, hoperands, fun m hm => queriesIn_operation h hm⟩

private theorem call_items (h : b.call obj s = .ok k)
    (hitems : obj.get? "args" = some (.array items)) :
    ∃ ns, b.expressions items s = .ok ns ∧ ∀ m ∈ ns, m.QueriesIn k := by
  obtain ⟨_, f, values, args, flag, -, -, hvalues, hargs, -, -, -, rfl⟩ := call_shape h
  rw [array?_eq_some hitems] at hvalues
  cases hvalues
  exact ⟨args, hargs, fun m hm => .of_child hm⟩

private theorem geometry_items (h : b.geometry obj s = .ok k)
    (hitems : obj.get? "args" = some (.array items)) :
    ∃ ns, b.expressions items s = .ok ns ∧ ∀ m ∈ ns, m.QueriesIn k := by
  obtain ⟨_, type, values, args, -, -, hvalues, hargs, -, rfl⟩ := geometry_shape h
  rw [array_eq_ok hitems] at hvalues
  cases hvalues
  exact ⟨args, hargs, fun m hm => .of_child hm⟩

private theorem list_items (h : b.list obj s = .ok k)
    (hitems : obj.get? "values" = some (.array items)) :
    ∃ ns, b.expressions items s = .ok ns ∧ ∀ m ∈ ns, m.QueriesIn k := by
  obtain ⟨values, ns, hvalues, hns, -, rfl⟩ := list_shape h
  rw [array_eq_ok hitems] at hvalues
  cases hvalues
  exact ⟨ns, hns, fun m hm => .of_child hm⟩

private theorem array_items (h : b.array obj s = .ok k)
    (hitems : obj.get? "values" = some (.array items)) :
    ∃ ns, b.expressions items s = .ok ns ∧ ∀ m ∈ ns, m.QueriesIn k := by
  obtain ⟨values, ns, hvalues, hns, rfl⟩ := array_shape h
  rw [array_eq_ok hitems] at hvalues
  cases hvalues
  exact ⟨ns, hns, fun m hm => .of_child hm⟩

/-- The items of an object are built, and their queries are among those of what the object is built
to. -/
theorem object_item {key : String} (h : b.object obj s = .ok n)
    (hkey : obj.type.itemKey? = some key) (hitems : obj.get? key = some (.array items))
    (hw : w ∈ items) :
    ∃ m, b.expression w s = .ok m ∧ m.QueriesIn n := by
  have hkind : ∀ {kind : Result Node},
      (∀ k, kind = .ok k → ∃ ns, b.expressions items s = .ok ns ∧ ∀ m ∈ ns, m.QueriesIn k) →
      (do let k ← kind; let tag ← obj.tag; k.fold tag.label tag.cast) = .ok n →
        ∃ m, b.expression w s = .ok m ∧ m.QueriesIn n := by
    intro kind hkind h
    obtain ⟨k, hk, h⟩ := of_bind h
    obtain ⟨tag, -, h⟩ := of_bind h
    obtain ⟨ns, hns, hin⟩ := hkind k hk
    obtain ⟨m, hm, hmade⟩ := exists_of_mem hns hw
    exact ⟨m, hmade, (hin m hm).trans (.fold h)⟩
  obtain ⟨fields, type⟩ := obj
  cases type
  case operator | and | or =>
    cases hkey
    exact hkind (fun k hk => operator_items hk hitems) h
  case function =>
    cases hkey
    exact hkind (fun k hk => call_items hk hitems) h
  case geometry =>
    cases hkey
    exact hkind (fun k hk => geometry_items hk hitems) h
  case list =>
    cases hkey
    exact hkind (fun k hk => list_items hk hitems) h
  case array =>
    cases hkey
    exact hkind (fun k hk => array_items hk hitems) h
  all_goals cases hkey

end Items

/-- The branches of a case are built, and their queries are among those of the case. -/
theorem object_branch {cases pair : List Json} (h : b.object obj s = .ok n)
    (htype : obj.type = .case) (hcases : obj.get? "cases" = some (.array cases))
    (hpair : .array pair ∈ cases) (hw : w ∈ pair) :
    ∃ m, b.expression w s = .ok m ∧ m.QueriesIn n := by
  obtain ⟨fields, type⟩ := obj
  cases htype
  obtain ⟨k, hk, h⟩ := of_bind h
  obtain ⟨tag, -, h⟩ := of_bind h
  obtain ⟨values, branches, otherwise, hvalues, hbranches, -, -, rfl⟩ := case_shape hk
  rw [array_eq_ok hcases] at hvalues
  cases hvalues
  obtain ⟨branch, hbranch, hmade⟩ := exists_of_mem hbranches hpair
  have hin : ∀ m, m = branch.1 ∨ m = branch.2 → m.QueriesIn n := by
    intro m hm
    refine (Node.QueriesIn.of_child ?_).trans (.fold h)
    refine List.mem_append_left _ (List.mem_flatMap.mpr ⟨branch, hbranch, ?_⟩)
    simpa using hm
  obtain ⟨condition, result, hvalue, hcondition, hresult⟩ := branch_shape hmade
  cases hvalue
  simp only [List.mem_cons, List.not_mem_nil, or_false] at hw
  obtain rfl | rfl := hw
  · exact ⟨_, hcondition, hin _ (.inl rfl)⟩
  · exact ⟨_, hresult, hin _ (.inr rfl)⟩

/-- The default of a case is built, and its queries are among those of the case. -/
theorem object_otherwise (h : b.object obj s = .ok n) (htype : obj.type = .case)
    (hw : obj.get? "defaultCase" = some w) : ∃ m, b.expression w s = .ok m ∧ m.QueriesIn n := by
  obtain ⟨fields, type⟩ := obj
  cases htype
  obtain ⟨k, hk, h⟩ := of_bind h
  obtain ⟨tag, -, h⟩ := of_bind h
  obtain ⟨_, branches, otherwise, -, -, -, hotherwise, rfl⟩ := case_shape hk
  rw [hw] at hotherwise
  obtain ⟨m, hm, hotherwise⟩ := of_bind hotherwise
  cases hotherwise
  refine ⟨m, hm, (Node.QueriesIn.of_child ?_).trans (.fold h)⟩
  exact List.mem_append_right _ (Option.mem_toList.mpr rfl)

/-- What is cast is built, and its queries are among those of the cast. -/
theorem object_cast (h : b.object obj s = .ok n) (htype : obj.type = .cast)
    (hw : obj.get? "value" = some w) : ∃ m, b.expression w s = .ok m ∧ m.QueriesIn n := by
  obtain ⟨fields, type⟩ := obj
  cases htype
  obtain ⟨-, -, h⟩ := of_bind h
  obtain ⟨tag, -, h⟩ := of_bind h
  dsimp only at h
  split at h
  · cases h
  obtain ⟨v, hv, h⟩ := of_bind h
  unfold required at hv
  rw [hw] at hv
  cases hv
  obtain ⟨m, hm, h⟩ := of_bind h
  exact ⟨m, hm, .fold h⟩

/-- A part of a value is built, and its queries are among those of what the value is built to. -/
theorem value_part (h : b.value .expression v s = .ok n) (hpart : v.Part w) :
    ∃ m, b.expression w s = .ok m ∧ m.QueriesIn n := by
  cases hpart with
  | @item obj key items hobj hkey hitems hw =>
    have hprimitive : obj.type ≠ .primitive := by
      intro he
      rw [he] at hkey
      cases hkey
    exact object_item (value_eq_object hobj hprimitive ▸ h) hkey hitems hw
  | branch hobj htype hcases hpair hw =>
    exact object_branch (value_eq_object hobj (by simp [htype]) ▸ h) htype hcases hpair hw
  | otherwise hobj htype hw =>
    exact object_otherwise (value_eq_object hobj (by simp [htype]) ▸ h) htype hw
  | cast hobj htype hw => exact object_cast (value_eq_object hobj (by simp [htype]) ▸ h) htype hw

/-! ## What is built of the clauses of a select -/

variable {t : Scope} {vs : List Json} {ns : List Node}

/-- An expression that may be there is built where it is. -/
theorem optional_parts {v : Option Json} {o : Option Node} (h : b.optional v s = .ok o) :
    Option.Rel (fun v n => b.expression v s = .ok n) v o := by
  obtain ⟨rfl, rfl⟩ | ⟨_, _, rfl, rfl, hn⟩ := optional_shape h
  · exact .none
  · exact .some hn

/-- The common tables are built from their values, in order. -/
theorem ctes_parts (h : b.ctes obj vs s = .ok (ns, t)) :
    List.Forall₂ (fun v n => ∃ s, b.part b.resolving (.select .cte) v s = .ok n) vs ns := by
  induction vs generalizing s ns with
  | nil =>
    cases h
    exact .nil
  | cons v vs ih =>
    unfold ctes at h
    split at h
    · cases h
    obtain ⟨n, hn, h⟩ := of_bind h
    obtain ⟨u, -, h⟩ := of_bind h
    obtain ⟨⟨rest, w⟩, hrest, h⟩ := of_bind h
    cases h
    exact .cons ⟨s, hn⟩ (ih hrest)

/-- The joins are built from their values, in order. -/
theorem joins_parts (h : b.joins vs s = .ok (ns, t)) :
    List.Forall₂ (fun v n => ∃ s t, b.join v s = .ok (n, t)) vs ns := by
  induction vs generalizing s ns with
  | nil =>
    cases h
    exact .nil
  | cons v vs ih =>
    unfold joins at h
    obtain ⟨⟨n, u⟩, hn, h⟩ := of_bind h
    obtain ⟨⟨rest, w⟩, hrest, h⟩ := of_bind h
    cases h
    exact .cons ⟨s, u, hn⟩ (ih hrest)

/-- A relation that is no text stands for itself. -/
theorem normalizeRelation_object (hobj : ofJson (.object F) = .ok obj) (hshort : obj.type ≠ .short)
    (hsql : obj.type ≠ .sql) :
    normalizeRelation (.object F) = .ok (.object F, false) := by
  unfold normalizeRelation
  dsimp only
  rw [hobj, ok_bind]
  cases htype : obj.type with
  | short => exact absurd htype hshort
  | sql => exact absurd htype hsql
  | _ => rfl

/-- A select that is a relation is built as a select. -/
theorem relation_select {lateral : Bool} (hobj : ofJson (.object F) = .ok obj)
    (htype : obj.type = .select) (h : b.relation (.object F) s lateral = .ok (n, t)) :
    b.part b.resolving (.select (.range lateral)) (.object F) s = .ok n := by
  obtain ⟨w, expanded, hnormal, hm, -⟩ := relation_shape h
  rw [normalizeRelation_object hobj (by simp [htype]) (by simp [htype])] at hnormal
  cases hnormal
  unfold relationNode at hm
  dsimp only at hm
  obtain ⟨obj', hobj', hm⟩ := of_bind hm
  rw [hobj] at hobj'
  cases hobj'
  rw [htype] at hm
  exact hm

/-- A join is built from its relation and from its condition, where it has one that is not null. -/
theorem join_parts (hobj : ofJson (.object F) = .ok obj) (htype : obj.type = .join)
    (h : b.join (.object F) s = .ok (n, t)) :
    ∃ joined written isSubquery relation on, obj.get? "view" = some joined ∧
      obj.named? "joinType" JoinType.ofName = .ok written ∧
      n = .join (joinType written (obj.has "on") isSubquery) relation on ∧
      b.relation joined s (joinType written (obj.has "on") isSubquery == .lateral) =
        .ok (relation, t) ∧
      b.optional (obj.get? "on") t = .ok on := by
  obtain ⟨w, expanded, obj', hnormal, hobj', h⟩ := join_shape h
  rw [normalizeRelation_object hobj (by simp [htype]) (by simp [htype])] at hnormal
  cases hnormal
  rw [hobj] at hobj'
  cases hobj'
  obtain ⟨joined, w, expanded, written, relation, on, tag, hjoined, -, hwritten, -,
    hrelation, hon, h⟩ :=
    joinNode_shape h
  obtain rfl := Node.eq_of_fold_join h
  exact ⟨joined, written, _, relation, on, get?_of_required hjoined, hwritten, rfl, hrelation, hon⟩

/-- The values of the clauses of a select, as its object has them. -/
structure ClauseValues (obj : QlObject) (c : Clauses Json) : Prop where
  withs : obj.get? "with" = if c.withs.isEmpty then none else some (.array c.withs)
  source : obj.get? "from" = c.source
  joins : obj.get? "joins" = if c.joins.isEmpty then none else some (.array c.joins)
  columns : obj.get? "columns" = some (.array c.columns)
  filter : obj.get? "where" = c.filter
  groupBy : obj.get? "groupBy" = if c.groupBy.isEmpty then none else some (.array c.groupBy)
  having : obj.get? "having" = c.having
  orderBy : obj.get? "orderBy" = if c.orderBy.isEmpty then none else some (.array c.orderBy)

/-- What the clauses of a select are built from, each in the scope after those before it. -/
structure ClauseReads (b : Builder) (obj : QlObject) (v : Clauses Json) (s s₁ s₂ s₃ : Scope)
    (c : Clauses Node) :
    Prop where
  withs : b.ctes obj v.withs s = .ok (c.withs, s₁)
  source : b.source v.source s₁ = .ok (c.source, s₂)
  joins : b.joins v.joins s₂ = .ok (c.joins, s₃)
  columns : b.expressions v.columns s₃ = .ok c.columns
  filter : b.optional v.filter s₃ = .ok c.filter
  groupBy : b.expressions v.groupBy s₃ = .ok c.groupBy
  having : b.optional v.having s₃ = .ok c.having
  orderBy : b.expressions v.orderBy s₃ = .ok c.orderBy

/-- The clauses of a select are built from the values that its object has. -/
theorem ClauseSteps.reads {v : Clauses Json} {c : Clauses Node} {s₁ s₂ s₃ : Scope}
    (hv : ClauseValues obj v) (h : ClauseSteps b obj s s₁ s₂ s₃ c) :
    ClauseReads b obj v s s₁ s₂ s₃ c := by
  obtain ⟨withValues, hwithValues, hwiths⟩ := h.withs
  obtain ⟨joinValues, hjoinValues, hjoins⟩ := h.joins
  obtain ⟨columnValues, hcolumnValues, hcolumns⟩ := h.columns
  obtain ⟨groupValues, hgroupValues, hgroupBy⟩ := h.groupBy
  obtain ⟨orderValues, horderValues, horderBy⟩ := h.orderBy
  rw [getD_of_array? hv.withs hwithValues] at hwiths
  rw [getD_of_array? hv.joins hjoinValues] at hjoins
  rw [getD_of_array? hv.groupBy hgroupValues] at hgroupBy
  rw [getD_of_array? hv.orderBy horderValues] at horderBy
  rw [array_eq_ok hv.columns] at hcolumnValues
  cases hcolumnValues
  exact ⟨hwiths, hv.source ▸ h.source, hjoins, hcolumns, hv.filter ▸ h.filter, hgroupBy,
    hv.having ▸ h.having,
    horderBy⟩

/-- What the clauses of a select are built from: common tables, relations and expressions, the
latter in one scope. -/
structure ClauseParts (b : Builder) (v : Clauses Json) (c : Clauses Node) (s : Scope) : Prop where
  withs : List.Forall₂ (fun v n => ∃ s, b.part b.resolving (.select .cte) v s = .ok n)
    v.withs c.withs
  source : Option.Rel (fun v n => ∃ s t, b.relation v s false = .ok (n, t)) v.source c.source
  joins : List.Forall₂ (fun v n => ∃ s t, b.join v s = .ok (n, t)) v.joins c.joins
  columns : List.Forall₂ (fun v n => b.expression v s = .ok n) v.columns c.columns
  filter : Option.Rel (fun v n => b.expression v s = .ok n) v.filter c.filter
  groupBy : List.Forall₂ (fun v n => b.expression v s = .ok n) v.groupBy c.groupBy
  having : Option.Rel (fun v n => b.expression v s = .ok n) v.having c.having
  orderBy : List.Forall₂ (fun v n => b.expression v s = .ok n) v.orderBy c.orderBy

/-- The clauses of a select are built from the values that its object has. -/
theorem clauses_parts {v : Clauses Json} {c : Clauses Node} (hv : ClauseValues obj v)
    (h : b.clauses obj s role = .ok c) : ∃ s', ClauseParts b v c s' := by
  obtain ⟨s₁, s₂, s₃, hsteps⟩ := clauses_shape h
  have hreads := hsteps.reads hv
  refine ⟨s₃, ctes_parts hreads.withs, ?_, joins_parts hreads.joins,
    mapM_eq_ok_iff.mp hreads.columns,
    optional_parts hreads.filter, mapM_eq_ok_iff.mp hreads.groupBy, optional_parts hreads.having,
    mapM_eq_ok_iff.mp hreads.orderBy⟩
  obtain ⟨hv, ho, -⟩ | ⟨w, n, hv, ho, hn⟩ := source_shape hreads.source
  · rw [hv, ho]
    exact .none
  · rw [hv, ho]
    exact .some ⟨_, _, hn⟩

/-- What a select becomes with the alias and the cast of its object. -/
theorem exists_of_finish {m : Node} (hrole : m.role? = some role) (hbare : m.tag = {})
    (h : (do let tag ← obj.tag; let k ← m.fold tag.label tag.cast; checkAlias role k; pure k) =
      .ok n) :
    ∃ tag, obj.tag = .ok tag ∧ n = m.retag tag := by
  obtain ⟨tag, htag, h⟩ := of_bind h
  obtain ⟨k, hk, h⟩ := of_bind h
  obtain ⟨_, hcheck, h⟩ := of_bind h
  cases h
  exact ⟨tag, htag, (takes_of_fold hrole hbare (ne_empty_of_tag htag) hk hcheck).1⟩

/-- An object without a set operation is built to a select with its clauses. -/
theorem select_parts (hop : ∀ op : SetOperator, obj.get? op.name = none)
    (h : b.select obj s role = .ok n) :
    ∃ c tag, obj.tag = .ok tag ∧ n = .select role c tag ∧ b.clauses obj s role = .ok c := by
  have hnone : SetOperator.all.filter (obj.has ·.name) = [] := by
    rw [List.filter_eq_nil_iff]
    intro op _
    simp [has, hop op]
  unfold select at h
  rw [hnone] at h
  obtain ⟨c, hc, h⟩ := of_bind h
  obtain ⟨tag, htag, rfl⟩ := exists_of_finish (m := .select role c {}) rfl rfl h
  exact ⟨c, tag, htag, rfl, hc⟩

/-- An object with a set operation is built to it, over its two sides. -/
theorem compound_parts {op : SetOperator} (hsides : obj.get? op.name = some (.array [v, w]))
    (hop : ∀ op', op' ≠ op → obj.get? op'.name = none) (h : b.select obj s role = .ok n) :
    ∃ flag left right tag, obj.bool? "all" = .ok flag ∧ obj.tag = .ok tag ∧
      n = .compound role op (flag.getD false) left right tag ∧
      b.part b.resolving (.select .operand) v s = .ok left ∧
      b.part b.resolving (.select .operand) w s = .ok right := by
  have hone : SetOperator.all.filter (obj.has ·.name) = [op] := by
    have hhas : (fun op' : SetOperator => obj.has op'.name) = fun op' => decide (op' = op) := by
      funext op'
      by_cases he : op' = op
      · simp [he, has, hsides]
      · simp [he, has, hop op' he]
    rw [hhas]
    cases op <;> rfl
  unfold select at h
  rw [hone] at h
  obtain ⟨m, hm, h⟩ := of_bind h
  obtain ⟨v', w', flag, left, right, hpair, hflag, hleft, hright, rfl⟩ := compound_shape hm
  rw [array_eq_ok hsides] at hpair
  cases hpair
  obtain ⟨tag, htag, rfl⟩ := exists_of_finish
    (m := .compound role op (flag.getD false) left right {}) rfl rfl h
  exact ⟨flag, left, right, tag, hflag, htag, rfl, hleft, hright⟩

/-- A select is built to a select or a set operation, with the alias and the cast of its object. -/
theorem select_tag (h : b.select obj s role = .ok n) :
    n.isQuery = true ∧ obj.tag = .ok n.tag := by
  unfold select at h
  split at h
  · obtain ⟨c, -, h⟩ := of_bind h
    obtain ⟨tag, htag, rfl⟩ := exists_of_finish (m := .select role c {}) rfl rfl h
    exact ⟨rfl, htag⟩
  · obtain ⟨m, hm, h⟩ := of_bind h
    obtain ⟨_, _, flag, left, right, -, -, -, -, rfl⟩ := compound_shape hm
    obtain ⟨tag, htag, rfl⟩ := exists_of_finish
      (m := .compound role _ (flag.getD false) left right {}) rfl rfl h
    exact ⟨rfl, htag⟩
  · cases h

end Builder

namespace Build

variable {v : Json} {n : Node}

/-- What an object with a select is built to, wherever it stands. -/
theorem Makes.select (h : Makes options position v s n) (hobj : v.object? = .ok obj)
    (htype : obj.type = .select) :
    ∃ (b : Builder) (role : SelectRole), b.MakesParts options ∧ b.select obj s role = .ok n := by
  obtain ⟨b, hb, h⟩ := h.exists_builder
  cases position with
  | expression =>
    rw [Builder.value_eq_object hobj (by simp [htype]), Builder.object, htype] at h
    exact ⟨b, .subquery, hb, h⟩
  | select role =>
    obtain ⟨obj', hobj', h⟩ := of_bind h
    cases v with
    | object F =>
      have hobj : ofJson (.object F) = .ok obj := hobj
      rw [hobj] at hobj'
      cases hobj'
      exact ⟨b, role, hb, h⟩
    | _ => cases hobj'

/-- A part of a value makes a node whose queries are in that of the value. -/
theorem Makes.part (h : Makes options .expression v s n) (hpart : v.Part w) :
    ∃ m, Makes options .expression w s m ∧ m.QueriesIn n := by
  obtain ⟨b, hb, h⟩ := h.exists_builder
  obtain ⟨m, hm, hin⟩ := Builder.value_part h hpart
  exact ⟨m, hb hm, hin⟩

/-- What is inside a value is built, under some alias and cast, inside what the value is built
to. -/
theorem Makes.reaches (h : Makes options .expression v s n) (hu : v.Reaches u) :
    ∃ w m, u.SameBody w ∧ Makes options .expression w s m ∧ m.QueriesIn n := by
  obtain ⟨w, hw, hsame⟩ := hu
  have hmade : ∃ m, Makes options .expression w s m ∧ m.QueriesIn n := by
    clear hsame
    induction hw with
    | refl => exact ⟨n, h, .refl n⟩
    | tail _ hstep ih =>
      obtain ⟨m, hm, hin⟩ := ih
      obtain ⟨k, hk, hkm⟩ := hm.part hstep
      exact ⟨k, hk, hkm.trans hin⟩
  obtain ⟨m, hm, hin⟩ := hmade
  exact ⟨w, m, hsame, hm, hin⟩

end Build

end AnalyticQuery
