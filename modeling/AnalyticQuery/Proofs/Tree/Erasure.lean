import AnalyticQuery.Proofs.Tree.Preorder

/-!
# Trees without their short expressions

A tree that keeps its short expressions is the tree built without keeping them, with each short
expression around what it stands for. One thing more is different: a short expression hides an
operand of `and` or `or` from the operator around it, so that the operand's own operands are not
taken up. To take the short expressions away and then to take up these operands gives the tree that
is built without keeping them.
-/

namespace AnalyticQuery

open Builder List Result

namespace Node

variable {op : Operator} {ns ms : List Node}

/-! ## Changes from the leaves up -/

mutual

/-- A tree changed at each node, after the nodes inside it. -/
def bottomUp (f : Node → Node) : Node → Node
  | select role ⟨withs, source, joins, distinct, columns, filter, groupBy, having, orderBy, limit,
      offset⟩ tag =>
    f (select role ⟨bottomUpAll f withs, bottomUpOption f source, bottomUpAll f joins, distinct,
      bottomUpAll f columns, bottomUpOption f filter, bottomUpAll f groupBy,
        bottomUpOption f having,
      bottomUpAll f orderBy, limit, offset⟩ tag)
  | compound role op all left right tag =>
    f (compound role op all (bottomUp f left) (bottomUp f right) tag)
  | join type relation on => f (join type (bottomUp f relation) (bottomUpOption f on))
  | view name isCte label => f (view name isCte label)
  | column c tag => f (column c tag)
  | parameter name value tag => f (parameter name (bottomUpOption f value) tag)
  | call g args distinct tag => f (call g (bottomUpAll f args) distinct tag)
  | geometry type args tag => f (geometry type (bottomUpAll f args) tag)
  | operation op operands qualifier tag => f (operation op (bottomUpAll f operands) qualifier tag)
  | case branches otherwise tag =>
    f (case (bottomUpBranches f branches) (bottomUpOption f otherwise) tag)
  | array items tag => f (array (bottomUpAll f items) tag)
  | list items => f (list (bottomUpAll f items))
  | sort value direction nulls => f (sort (bottomUp f value) direction nulls)
  | constant value tag => f (constant value tag)
  | short source inner => f (short source (bottomUp f inner))

/-- The expressions of a list, each changed. -/
def bottomUpAll (f : Node → Node) : List Node → List Node
  | [] => []
  | n :: ns => bottomUp f n :: bottomUpAll f ns

/-- An expression that may be there, changed. -/
def bottomUpOption (f : Node → Node) : Option Node → Option Node
  | none => none
  | some n => some (bottomUp f n)

/-- The branches of a case, each changed. -/
def bottomUpBranches (f : Node → Node) : List (Node × Node) → List (Node × Node)
  | [] => []
  | (c, r) :: rest => (bottomUp f c, bottomUp f r) :: bottomUpBranches f rest

end

private theorem bottomUpAll_eq (f : Node → Node) (ns : List Node) :
    bottomUpAll f ns = ns.map (bottomUp f) := by
  induction ns with
  | nil => rfl
  | cons n ns ih => rw [bottomUpAll, ih, map_cons]

private theorem bottomUpOption_eq (f : Node → Node) (n : Option Node) :
    bottomUpOption f n = n.map (bottomUp f) := by
  cases n <;> rfl

private theorem bottomUpBranches_eq (f : Node → Node) (bs : List (Node × Node)) :
    bottomUpBranches f bs = bs.map fun b => (b.1.bottomUp f, b.2.bottomUp f) := by
  induction bs with
  | nil => rfl
  | cons b bs ih => rw [bottomUpBranches, ih, map_cons]

/-- Clauses with each expression changed. -/
def mapClauses (f : Node → Node) (c : Clauses Node) : Clauses Node :=
  ⟨c.withs.map f, c.source.map f, c.joins.map f, c.distinct, c.columns.map f, c.filter.map f,
    c.groupBy.map f,
    c.having.map f, c.orderBy.map f, c.limit, c.offset⟩

/-- An expression with those directly inside it changed. -/
def mapParts (f : Node → Node) : Node → Node
  | select role c tag => select role (mapClauses f c) tag
  | compound role op all left right tag => compound role op all (f left) (f right) tag
  | join type relation on => join type (f relation) (on.map f)
  | parameter name value tag => parameter name (value.map f) tag
  | call g args distinct tag => call g (args.map f) distinct tag
  | geometry type args tag => geometry type (args.map f) tag
  | operation op operands qualifier tag => operation op (operands.map f) qualifier tag
  | case branches otherwise tag => case (branches.map fun b => (f b.1, f b.2)) (otherwise.map f) tag
  | array items tag => array (items.map f) tag
  | list items => list (items.map f)
  | sort value direction nulls => sort (f value) direction nulls
  | short source inner => short source (f inner)
  | n => n

theorem bottomUp_eq (f : Node → Node) (n : Node) : n.bottomUp f = f (n.mapParts (bottomUp f)) := by
  cases n <;> simp only [bottomUp, bottomUpAll_eq, bottomUpOption_eq, bottomUpBranches_eq,
    mapParts, mapClauses]

theorem mapParts_id (n : Node) : n.mapParts id = n := by
  cases n <;> simp [mapParts, mapClauses]

private theorem mapParts_mapParts (f g : Node → Node) (n : Node) :
    (n.mapParts f).mapParts g = n.mapParts fun m => g (f m) := by
  cases n <;> simp [mapParts, mapClauses, Function.comp_def]

theorem children_mapParts (f : Node → Node) (n : Node) :
    (n.mapParts f).children = n.children.map f := by
  cases n with
  | select role c tag => simp [mapParts, mapClauses, children, Clauses.parts, Option.toList_map]
  | _ => simp [mapParts, children, Option.toList_map, flatMap_map, map_flatMap]

/-! ## Trees without short expressions -/

/-- What a kept short expression stands for. -/
def unwrap : Node → Node
  | short _ inner => inner
  | n => n

/-- A logical operator with the operands of its operands that are the same operator without alias
and cast. -/
def splice : Node → Node
  | operation op operands qualifier tag =>
    operation op (if op.isLogical then flatten op operands else operands) qualifier tag
  | n => n

/-- A tree without its kept short expressions, and with the operands of logical operators taken up
that were inside them. -/
def plain (n : Node) : Node := (n.bottomUp unwrap).bottomUp splice

variable {n m : Node}

@[simp]
private theorem plain_short (e : Short) (n : Node) : (short e n).plain = n.plain := by
  have hunwrap : (short e n).bottomUp unwrap = n.bottomUp unwrap := by
    rw [bottomUp_eq]
    rfl
  rw [plain, hunwrap, plain]

private theorem plain_eq (hn : n.isShort = false) : n.plain = (n.mapParts plain).splice := by
  have hunwrap : n.bottomUp unwrap = n.mapParts (bottomUp unwrap) := by
    rw [bottomUp_eq]
    cases n with
    | short => cases hn
    | _ => rfl
  rw [plain, hunwrap, bottomUp_eq, mapParts_mapParts]
  rfl

private theorem isShort_plain (n : Node) : n.plain.isShort = false := by
  cases n with
  | short e inner =>
    rw [plain_short]
    exact isShort_plain inner
  | _ =>
    rw [plain_eq rfl]
    rfl

private theorem tag_plain (n : Node) : n.plain.tag = n.tag := by
  cases n with
  | short e inner =>
    rw [plain_short, tag]
    exact tag_plain inner
  | _ =>
    rw [plain_eq rfl]
    rfl

/-! ### Folds -/

private theorem foldAlias_plain (hn : n.isShort = false) (name : String) :
    n.plain.foldAlias name = (n.foldAlias name).map plain := by
  have hset : (n.setAlias name).plain = n.plain.setAlias name := by
    cases n with
    | short => cases hn
    | _ => rw [plain_eq rfl, plain_eq (by rfl)]; rfl
  have hcan : n.plain.canAlias = n.canAlias ∧ n.plain.description = n.description := by
    rw [plain_eq hn]
    cases n with
    | short => cases hn
    | _ => exact ⟨rfl, rfl⟩
  unfold foldAlias
  rw [hcan.1, hcan.2, alias?, alias?, tag_plain]
  split
  · rfl
  split
  · rfl
  split
  · split <;> rfl
  · rw [← hset]
    rfl

private theorem foldCast_plain (hn : n.isShort = false) (type : CastType) :
    n.plain.foldCast type = (n.foldCast type).map plain := by
  have hset : (n.setCast type).plain = n.plain.setCast type := by
    cases n with
    | short => cases hn
    | _ => rw [plain_eq rfl, plain_eq (by rfl)]; rfl
  have hcan : n.plain.canCast = n.canCast ∧ n.plain.description = n.description := by
    rw [plain_eq hn]
    cases n with
    | short => cases hn
    | _ => exact ⟨rfl, rfl⟩
  unfold foldCast
  rw [hcan.1, hcan.2, cast?, cast?, tag_plain]
  split
  · rfl
  split
  · split <;> rfl
  · rw [← hset]
    rfl

private theorem foldPlain_plain (hn : n.isShort = false) (label : Option String)
    (cast : Option CastType) :
    n.plain.foldPlain label cast = (n.foldPlain label cast).map plain := by
  have hcast : ∀ m : Node, m.isShort = false →
      m.plain.foldPlain none cast = (m.foldPlain none cast).map plain := by
    intro m hm
    cases cast with
    | none => rfl
    | some type => exact foldCast_plain hm type
  cases label with
  | none => exact hcast n hn
  | some name =>
    have hsteps : ∀ m : Node, m.foldPlain (some name) cast =
      m.foldAlias name >>= (·.foldPlain none cast) :=
      fun _ => rfl
    rw [hsteps, hsteps, foldAlias_plain hn]
    cases hm : n.foldAlias name with
    | error e => rfl
    | ok m =>
      have hfold : n.fold (some name) none = .ok m := by
        rw [fold_eq_foldPlain hn]
        exact (bind_pure _).trans hm
      exact hcast m (by rw [isShort_of_fold hfold, hn])

/-- An alias and a cast can be given before or after the short expressions are taken away. -/
theorem fold_plain (n : Node) (label : Option String) (cast : Option CastType) :
    n.plain.fold label cast = (n.fold label cast).map plain := by
  cases hn : n.isShort with
  | false => rw [fold_eq_foldPlain hn, fold_eq_foldPlain (isShort_plain n), foldPlain_plain hn]
  | true =>
    cases n with
    | short e inner =>
      rw [plain_short, fold_plain inner, fold]
      cases inner.fold label cast with
      | error e => rfl
      | ok m => exact congrArg Except.ok (plain_short _ m).symm
    | _ => cases hn

/-! ### Logical operators -/

/-- Whether a node, where it is a logical operator, has an operand at least. -/
def Fed (n : Node) : Prop :=
  ∀ op operands qualifier tag, n = operation op operands qualifier tag → op.isLogical = true →
    operands ≠ []

/-- A tree without its short expressions, beside the tree. -/
def Plains (n m : Node) : Prop := m = n.plain ∧ m.Fed

private theorem fed_retag (h : n.Fed) (tag : Tag) : (n.retag tag).Fed := by
  cases n with
  | operation op operands qualifier tag' =>
    rintro _ _ _ _ ⟨⟩
    exact h _ _ _ _ rfl
  | _ => exact fun _ _ _ _ he => by cases he

private theorem flatten_cons (op : Operator) (n : Node) (ns : List Node) :
    flatten op (n :: ns) = (absorbed? op n).getD [n] ++ flatten op ns :=
  flatMap_cons

private theorem flatten_append (op : Operator) (ns ms : List Node) :
    flatten op (ns ++ ms) = flatten op ns ++ flatten op ms :=
  flatMap_append

theorem plain_operation (op : Operator) (operands : List Node) (qualifier : Option Qualifier)
    (tag : Tag) :
    (operation op operands qualifier tag).plain = operation op
      (if op.isLogical then flatten op (operands.map plain) else operands.map plain)
        qualifier tag := by
  rw [plain_eq rfl]
  rfl

/-- Operands that are taken up before the short expressions are taken away need not be taken up
after it. -/
theorem flatten_plain (hop : op.isLogical = true) (ns : List Node) :
    flatten op ((flatten op ns).map plain) = flatten op (ns.map plain) := by
  induction ns with
  | nil => rfl
  | cons n ns ih =>
    rw [flatten_cons, map_append, flatten_append, ih, map_cons, flatten_cons]
    congr 1
    cases hn : absorbed? op n with
    | none => exact append_nil _
    | some operands =>
      obtain ⟨qualifier, rfl⟩ := exists_of_absorbed? hn
      simp [plain_operation, hop, absorbed?]

/-- What is taken up of operands that have operands themselves is there. -/
theorem flatten_eq_nil_iff (hop : op.isLogical = true) (h : ∀ n ∈ ns, n.Fed) :
    flatten op ns = [] ↔ ns = [] := by
  constructor
  · intro hflat
    cases ns with
    | nil => rfl
    | cons n ns =>
      rw [flatten_cons] at hflat
      have hnil := (append_eq_nil_iff.mp hflat).1
      cases hn : absorbed? op n with
      | none =>
        rw [hn] at hnil
        cases hnil
      | some operands =>
        rw [hn] at hnil
        obtain ⟨qualifier, rfl⟩ := exists_of_absorbed? hn
        exact absurd hnil (h _ mem_cons_self _ _ _ _ rfl hop)
  · rintro rfl
    rfl

/-! ## Builders that keep short expressions and builders that do not -/

private theorem Plains.fed (h : Plains n m) : n.Fed := by
  rintro op operands qualifier tag rfl hop rfl
  obtain ⟨rfl, hfed⟩ := h
  rw [plain_operation] at hfed
  exact hfed _ _ _ _ rfl hop (by simp [hop, Builder.flatten])

/-- Whether a node is an operator with its operands. -/
def isOperation : Node → Bool
  | operation .. => true
  | _ => false

/-- A node that is no operator, beside the node with its parts without short expressions. -/
theorem plains_of_parts (hs : n.isShort = false) (hop : n.isOperation = false)
    (h : m = n.mapParts plain) :
    Plains n m := by
  rw [Plains, plain_eq hs, h]
  cases n with
  | operation => cases hop
  | short => cases hs
  | _ => exact ⟨rfl, fun _ _ _ _ he => by cases he⟩

private theorem eq_map_of_plains (h : List.Forall₂ Plains ns ms) : ms = ns.map plain := by
  induction h with
  | nil => rfl
  | cons hn _ ih => rw [map_cons, ← ih, hn.1]

private theorem eq_map_of_plains_option {o p : Option Node} (h : Option.Rel Plains o p) :
    p = o.map plain := by
  cases h with
  | some hn => rw [Option.map_some, hn.1]
  | none => rfl

private theorem arity_of_isLogical (h : op.isLogical = true) : op.arity = .atLeast 1 := by
  cases op <;> first | rfl | cases h

/-- Operands can be taken up by a logical operator before or after their short expressions are taken
away. -/
theorem operation_plains (qualifier : Option Qualifier) (h : List.Forall₂ Plains ns ms) :
    Agree .none Plains (Builder.operation op ns qualifier) (Builder.operation op ms qualifier) := by
  have hms := eq_map_of_plains h
  have hns_fed : ∀ n ∈ ns, n.Fed := fun n hn => by
    obtain ⟨m, -, hnm⟩ := exists_of_forall₂ h hn
    exact hnm.fed
  have hms_fed : ∀ m ∈ ms, m.Fed := fun m hm => by
    obtain ⟨n, -, hnm⟩ := exists_of_forall₂ h.flip hm
    exact hnm.2
  unfold Builder.operation
  cases hop : op.isLogical with
  | false =>
    simp only [Bool.false_eq_true, if_false]
    rw [h.length_eq]
    refine .same fun _ _ => ?_
    split
    · exact .error _
    · refine .ok ⟨?_, ?_⟩
      · rw [plain_operation, hop, hms]
        rfl
      · rintro _ _ _ _ ⟨⟩ hlogical
        rw [hop] at hlogical
        cases hlogical
  | true =>
    simp only [if_true]
    have hcheck : op.arity.check op.name (flatten op ns).length =
        op.arity.check op.name (flatten op ms).length := by
      by_cases hnil : ns = []
      · subst hnil
        cases h
        rfl
      · have hpos : ∀ {ks : List Node}, flatten op ks ≠ [] →
            op.arity.check op.name (flatten op ks).length = .ok () := by
          intro ks hks
          rw [Arity.check_ok_iff, arity_of_isLogical hop]
          simpa [Arity.atLeast, Arity.accepts, Nat.one_le_iff_ne_zero] using hks
        have hms_nil : ms ≠ [] := by
          rw [hms]
          simpa using hnil
        rw [hpos fun hflat => hnil ((flatten_eq_nil_iff hop hns_fed).mp hflat),
          hpos fun hflat => hms_nil ((flatten_eq_nil_iff hop hms_fed).mp hflat)]
    rw [hcheck]
    refine .same fun _ harity => ?_
    split
    · exact .error _
    · refine .ok ⟨?_, ?_⟩
      · rw [plain_operation, hop, if_pos rfl, flatten_plain hop, hms]
      · rintro _ _ _ _ ⟨⟩ _ hnil
        rw [Arity.check_ok_iff, hnil, arity_of_isLogical hop] at harity
        cases harity

private theorem congruence_plains : Congruence .none Plains where
  constant p := plains_of_parts rfl rfl rfl
  column c := plains_of_parts rfl rfl rfl
  view name isCte := plains_of_parts rfl rfl rfl
  parameter h := plains_of_parts rfl rfl (by rw [eq_map_of_plains_option h]; rfl)
  call h := plains_of_parts rfl rfl (by rw [eq_map_of_plains h]; rfl)
  geometry h := plains_of_parts rfl rfl (by rw [eq_map_of_plains h]; rfl)
  array h := plains_of_parts rfl rfl (by rw [eq_map_of_plains h]; rfl)
  list h := plains_of_parts rfl rfl (by rw [eq_map_of_plains h]; rfl)
  operation h := operation_plains _ h
  case {bs ds o p} hbs ho := by
    have hds : ds = bs.map fun b => (b.1.plain, b.2.plain) := by
      induction hbs with
      | nil => rfl
      | cons hb _ ih => rw [map_cons, ← ih, ← hb.1.1, ← hb.2.1]
    exact plains_of_parts rfl rfl (by rw [eq_map_of_plains_option ho, hds]; rfl)
  sort h := plains_of_parts rfl rfl (by rw [h.1]; rfl)
  select {role c d} h := by
    have hd : d = mapClauses plain c := by
      obtain ⟨withs, source, joins, distinct, columns, filter, groupBy, having, orderBy, limit,
        offset⟩ := d
      rw [mapClauses, Clauses.mk.injEq]
      exact ⟨eq_map_of_plains h.withs, eq_map_of_plains_option h.source, eq_map_of_plains h.joins,
        h.distinct.symm, eq_map_of_plains h.columns, eq_map_of_plains_option h.filter,
        eq_map_of_plains h.groupBy, eq_map_of_plains_option h.having, eq_map_of_plains h.orderBy,
        h.limit.symm, h.offset.symm⟩
    exact plains_of_parts rfl rfl (by rw [hd]; rfl)
  compound hn hk := plains_of_parts rfl rfl (by rw [hn.1, hk.1]; rfl)
  join hn ho := plains_of_parts rfl rfl (by rw [hn.1, eq_map_of_plains_option ho]; rfl)
  fold {n m} h label cast := by
    obtain ⟨rfl, hfed⟩ := h
    have hplain := fold_plain n label cast
    cases hk : n.fold label cast with
    | error e =>
      rw [hk] at hplain
      rw [hplain]
      exact .error e
    | ok k =>
      rw [hk] at hplain
      rw [hplain]
      obtain ⟨hretag, -, -⟩ := fold_cases (isShort_plain n) hplain
      exact .ok ⟨rfl, hretag ▸ fed_retag hfed _⟩
  alias? h := by rw [h.1, Node.alias?, Node.alias?, tag_plain]
  declaration {n m} h hn _ := by
    obtain ⟨rfl, -⟩ := h
    rw [plain_eq hn]
    cases n with
    | short => cases hn
    | _ => rfl

end Node

/-- Choices with short expressions kept and without. -/
theorem ParseOptions.parallel_plains (o : ParseOptions) :
    Parallel Node.Plains { o with keepShorts := true } { o with keepShorts := false } where
  parameters := rfl
  mustHave := rfl
  kept {n _} e h := ⟨h.1.trans (Node.plain_short e n).symm, h.2⟩

/-- A value is built without its short expressions to the tree that it is built to with them, with
the short expressions taken away; it fails in the same way. -/
theorem Build.run_plain (o : ParseOptions) (r : List String) (position : Position) (v : Json)
    (s : Scope) :
    run { o with keepShorts := false } r position v s =
      (run { o with keepShorts := true } r position v s).map Node.plain := by
  have hagree := run_agree (Scope.matching_alike _) Node.congruence_plains o.parallel_plains r
    position v s s
    ((Scope.Alike.refl s).alikeAt _)
  exact (hagree.imp fun n m _ _ hnm => hnm.related.1).eq_map

private theorem Build.root_plain (o : ParseOptions) (v : Json) :
    root { o with keepShorts := false } v =
      (root { o with keepShorts := true } v).map Node.plain := by
  unfold root
  split
  · exact run_plain o [] _ v _
  · exact run_plain o [] _ v _

/-! ## What a query mentions -/

/-- What a node says of the views and parameters of a query. -/
inductive Mention where
  | view (name : String)
  | column (view name : String)
  | parameter (name : String)

namespace Node

/-- What a node mentions itself. -/
def mention? : Node → Option Mention
  | view name false _ => some (.view name)
  | column c _ => c.origin.map (.column · c.name)
  | parameter name _ _ => some (.parameter name)
  | _ => none

/-- What a tree mentions, in order. -/
def mentions (n : Node) : List Mention := n.preorder.filterMap mention?

theorem mentions_eq (n : Node) : n.mentions = n.mention?.toList ++ n.children.flatMap mentions := by
  rw [mentions, preorder_eq, filterMap_cons, filterMap_flatMap]
  cases n.mention? <;> rfl

theorem mentions_flatten (op : Operator) (ns : List Node) :
    (flatten op ns).flatMap mentions = ns.flatMap mentions := by
  induction ns with
  | nil => rfl
  | cons n ns ih =>
    rw [flatten_cons, flatMap_append, ih, flatMap_cons]
    congr 1
    cases hn : absorbed? op n with
    | none => exact append_nil _
    | some operands =>
      obtain ⟨qualifier, rfl⟩ := exists_of_absorbed? hn
      rw [mentions_eq (operation _ _ _ _)]
      rfl

/-- A tree mentions the same without its short expressions. -/
theorem mentions_plain (n : Node) : n.plain.mentions = n.mentions := by
  have hchildren : (n.children.map plain).flatMap mentions = n.children.flatMap mentions := by
    rw [flatMap_map]
    refine flatMap_congr fun m hm => ?_
    have := sizeOf_lt_of_mem_children hm
    exact mentions_plain m
  cases n with
  | short e inner =>
    rw [plain_short, mentions_plain inner, mentions_eq (short e inner)]
    simp [children, mention?]
  | operation op operands qualifier tag =>
    rw [plain_operation, mentions_eq, mentions_eq (operation op operands qualifier tag),
      ← hchildren]
    simp only [children, mention?]
    split
    · rw [mentions_flatten]
    · rfl
  | _ =>
    rw [plain_eq rfl, mentions_eq, mentions_eq, ← hchildren, ← children_mapParts]
    rfl
termination_by sizeOf n

end Node

namespace Query

/-- The views with the columns read from them, with one more mention. -/
def visitMention (views : List (String × List String)) : Mention → List (String × List String)
  | .view name => touchView views name id
  | .column view name => touchView views view (insertColumn · name)
  | .parameter _ => views

/-- The names of parameters with one more mention. -/
def insertMention (names : List String) : Mention → List String
  | .parameter name => insertName names name
  | _ => names

theorem viewColumns_eq (query : Query) :
    query.viewColumns = query.root.mentions.foldl visitMention [] := by
  rw [viewColumns, Node.mentions, foldl_filterMap]
  congr
  funext views node
  cases node with
  | view name isCte label => cases isCte <;> rfl
  | column c tag =>
    obtain ⟨name, view, qualifier, origin⟩ := c
    cases origin <;> rfl
  | _ => rfl

theorem parameters_eq (query : Query) :
    query.parameters = query.root.mentions.foldl insertMention [] := by
  rw [parameters, Node.mentions, foldl_filterMap]
  congr
  funext names node
  cases node with
  | view name isCte label => cases isCte <;> rfl
  | column c tag =>
    obtain ⟨name, view, qualifier, origin⟩ := c
    cases origin <;> rfl
  | _ => rfl

/-- A query as it is read without keeping its short expressions. -/
def plain (query : Query) : Query := ⟨query.root.plain, { query.options with keepShorts := false }⟩

/-- To keep the short expressions of a query changes nothing else: it is read or fails in the same
way, it is the same query once its short expressions are taken away, and it reads the same views and
parameters in the same order. -/
theorem read_plain (value : Json) (options : ParseOptions) :
    read value { options with keepShorts := false } =
      (read value { options with keepShorts := true }).map plain ∧
    (read value { options with keepShorts := false }).map viewColumns =
      (read value { options with keepShorts := true }).map viewColumns ∧
    (read value { options with keepShorts := false }).map parameters =
      (read value { options with keepShorts := true }).map parameters := by
  have hroot : ∀ v : Json,
      (do return (⟨← Build.root { options with keepShorts := false } v,
        { options with keepShorts := false }⟩ : Query)) =
        (do return (⟨← Build.root { options with keepShorts := true } v,
          { options with keepShorts := true }⟩ : Query) :
          Result Query).map plain := by
    intro v
    rw [Build.root_plain]
    cases Build.root { options with keepShorts := true } v <;> rfl
  have hread : read value { options with keepShorts := false } =
      (read value { options with keepShorts := true }).map plain := by
    unfold read
    dsimp only
    split
    · exact hroot _
    · next text _ =>
      cases Sql.toQl text with
      | error e => rfl
      | ok v => exact hroot v
    · rfl
  refine ⟨hread, ?_, ?_⟩
  · rw [hread]
    cases read value { options with keepShorts := true } with
    | error e => rfl
    | ok query =>
      refine congrArg Except.ok ?_
      rw [viewColumns_eq, viewColumns_eq, plain, Node.mentions_plain]
  · rw [hread]
    cases read value { options with keepShorts := true } with
    | error e => rfl
    | ok query =>
      refine congrArg Except.ok ?_
      rw [parameters_eq, parameters_eq, plain, Node.mentions_plain]

end Query

end AnalyticQuery
