import AnalyticQuery.Proofs.Tree.Building
import AnalyticQuery.Query

/-!
# Built selects

The relations, joins and clauses of selects follow the formation rules, and with them every value:
the recursion over depths, expansions and bound parameters is closed here.
-/

namespace AnalyticQuery

open QlObject Result

variable {options : ParseOptions} {r : List String} {s : Scope} {n : Node}

namespace Builder

variable {lateral : Bool} {u : Unit} {o : Option Node} {vs : List Json} {ns : List Node} {tag : Tag}
variable {position : Position}

variable {b : Builder} {obj : QlObject} {t : Scope}
variable {place : Place} {v : Json} {rows : Nat} {role : SelectRole}

/-! ## Relations -/

/-- A view is built where a relation is expected that is not lateral. -/
theorem view_built (hplace : place.role? = some (.range false)) (h : view obj s = .ok n) :
    Built options r place s n := by
  obtain ⟨name, tag, -, hname, htag, h⟩ := view_shape h
  obtain ⟨rfl, -, -⟩ := Node.fold_cases rfl h
  have hlabel := ne_empty_of_tag htag
  refine .view hplace hname ?_
  cases hl : tag.label with
  | none => exact nofun
  | some name => rwa [hl] at hlabel

/-- A relation is a view or a select; a lateral one is a select. -/
theorem relationNode_built (hb : b.Sound) (hplace : place.role? = some (.range lateral))
    (hlateral : lateral = true → isType v .select = true) (h : b.relationNode v s lateral = .ok n) :
    b.Forms place s n := by
  unfold relationNode at h
  split at h
  · cases lateral with
    | true => cases hlateral rfl
    | false =>
      obtain ⟨hname, rfl⟩ := viewOfName_shape h
      exact .view hplace hname nofun
  · next fields =>
    obtain ⟨obj, hobj, hnode⟩ := of_bind h
    split at hnode
    · next htype =>
      cases lateral with
      | true =>
        have hselect := type_of_isType hobj (hlateral rfl)
        rw [htype] at hselect
        cases hselect
      | false => exact view_built hplace hnode
    · exact hb.part (.select (.range lateral)) place hplace hnode
    · cases hnode
  · cases h

/-- A relation is built in the scope before it and declared in it. -/
theorem relation_built (hb : b.Sound) (hplace : place.role? = some (.range lateral))
    (hlateral : lateral = true → ∀ p, normalizeRelation v = .ok p → isType p.1 .select = true)
    (h : b.relation v s lateral = .ok (n, t)) :
    b.Forms place s n ∧ declare s n = .ok t := by
  obtain ⟨v', expanded, hnormal, hm, hu⟩ := relation_shape h
  have hselect : lateral = true → isType v' .select = true := fun hl => hlateral hl _ hnormal
  refine ⟨?_, hu⟩
  cases expanded with
  | false => exact relationNode_built hb hplace hselect hm
  | true => exact relationNode_built (b := b.outside) hb.outside hplace hselect hm

/-- A join that passes its check has a condition where its type asks for one, and a lateral one
joins a subquery. -/
theorem checkJoin_cases {type : JoinType} {hasOn isSubquery : Bool}
    (h : checkJoin obj type hasOn isSubquery = .ok u) :
    hasOn = type.hasCondition ∧ (type = .lateral → isSubquery = true) := by
  unfold checkJoin at h
  cases type <;> cases hasOn <;> cases isSubquery <;> simp_all [JoinType.hasCondition]

private theorem isSome_of_optional {v : Option Json} (h : b.optional v s = .ok o) :
    o.isSome = v.isSome := by
  obtain ⟨rfl, rfl⟩ | ⟨_, _, rfl, rfl, -⟩ := optional_shape h <;> rfl

/-- A join is built in the scope before it, and its relation is declared for what comes after it. -/
theorem joinNode_built (hb : b.Sound) (h : b.joinNode obj s = .ok (n, t)) :
    b.Forms .join s n ∧ s.afterJoin n = .ok t := by
  obtain ⟨joined, w, expanded, written, relation, on, tag, -, hw, -, hcheck, hrelation, hon, h⟩ :=
    joinNode_shape h
  generalize joinType written (obj.has "on") (isType w .select) = type at hcheck hrelation h
  obtain rfl := Node.eq_of_fold_join h
  obtain ⟨hcondition, hsubquery⟩ := checkJoin_cases hcheck
  have hplace : (Place.joined type).role? = some (.range (type == .lateral)) := rfl
  have hlateral : (type == .lateral) = true →
      ∀ q, normalizeRelation joined = .ok q → isType q.1 .select = true := by
    intro hl q hq
    rw [hw] at hq
    cases hq
    exact hsubquery (eq_of_beq hl)
  obtain ⟨hpart, hdeclared⟩ := relation_built hb hplace hlateral hrelation
  refine ⟨.join hpart hdeclared ?_ (optional_built hb hon), hdeclared⟩
  rw [← hcondition, isSome_of_optional hon]
  rfl

/-- A join is built as its value is, whether it is written out or stands in a text. -/
theorem join_built (hb : b.Sound) (h : b.join v s = .ok (n, t)) :
    b.Forms .join s n ∧ s.afterJoin n = .ok t := by
  obtain ⟨_, expanded, obj, -, -, h⟩ := join_shape h
  cases expanded with
  | false => exact joinNode_built hb h
  | true =>
    have hjoin := joinNode_built hb.outside h
    exact hjoin

/-! ## Selects -/

/-- Each common table is built in the scope after those before it. -/
theorem ctes_built (hb : b.Sound) (h : b.ctes obj vs s = .ok (ns, t)) :
    s.afterCtes ns = .ok t ∧
      ∀ before n after u, ns = before ++ n :: after → s.afterCtes before = .ok u →
        b.Forms .cte u n := by
  induction vs generalizing s ns with
  | nil =>
    cases h
    exact ⟨rfl, by simp⟩
  | cons v vs ih =>
    unfold ctes at h
    split at h
    · cases h
    obtain ⟨n, hn, h⟩ := of_bind h
    obtain ⟨u, hu, h⟩ := of_bind h
    obtain ⟨⟨rest, w⟩, hrest, h⟩ := of_bind h
    cases h
    obtain ⟨hafter, hparts⟩ := ih hrest
    constructor
    · rw [Scope.afterCtes, List.foldlM_cons, hu]
      exact hafter
    · exact split_cons (hb.part (.select .cte) .cte rfl hn) hu hparts

/-- Each join is built in the scope after those before it. -/
theorem joins_built (hb : b.Sound) (h : b.joins vs s = .ok (ns, t)) :
    s.afterJoins ns = .ok t ∧
      ∀ before n after u, ns = before ++ n :: after → s.afterJoins before = .ok u →
        b.Forms .join u n := by
  induction vs generalizing s ns with
  | nil =>
    cases h
    exact ⟨rfl, by simp⟩
  | cons v vs ih =>
    unfold joins at h
    obtain ⟨⟨n, u⟩, hn, h⟩ := of_bind h
    obtain ⟨⟨rest, w⟩, hrest, h⟩ := of_bind h
    cases h
    obtain ⟨hpart, hu⟩ := join_built hb hn
    obtain ⟨hafter, hparts⟩ := ih hrest
    constructor
    · rw [Scope.afterJoins, List.foldlM_cons, hu]
      exact hafter
    · exact split_cons hpart hu hparts

/-- The first relation is built in the scope after the common tables. -/
theorem source_built (hb : b.Sound) {v : Option Json} (h : b.source v s = .ok (o, t)) :
    s.afterSource o = .ok t ∧ ∀ n ∈ o, b.Forms .source s n := by
  obtain ⟨rfl, rfl, rfl⟩ | ⟨w, n, rfl, rfl, hn⟩ := source_shape h
  · exact ⟨rfl, by simp⟩
  · have hplace : Place.source.role? = some (.range false) := rfl
    obtain ⟨hpart, hdeclared⟩ := relation_built hb hplace nofun hn
    refine ⟨hdeclared, ?_⟩
    rintro _ ⟨⟩
    exact hpart

private theorem lt_of_nat64? {number : Number} (h : number.nat64? = some rows) :
    rows < 1 <<< 64 := by
  unfold Number.nat64? at h
  split at h
  · next value inWord =>
    split at h
    · next hnonneg =>
      cases h
      obtain ⟨-, hlt⟩ := inWord
      omega
    · cases h
  · cases h

private theorem lt_of_limitOf (h : limitOf obj v = .ok (.count rows)) :
    rows < 1 <<< 64 := by
  unfold limitOf at h
  dsimp only at h
  split at h
  · split at h <;> cases h
  · split at h
    · next hrows =>
      cases h
      exact lt_of_nat64? hrows
    · cases h
  · cases h

private theorem lt_of_offsetOf (h : offsetOf obj v = .ok rows) :
    rows < 1 <<< 64 := by
  unfold offsetOf at h
  dsimp only at h
  split at h
  · split at h
    · next hrows =>
      cases h
      exact lt_of_nat64? hrows
    · cases h
  · cases h

private theorem exists_of_mapM_option {α β : Type} {f : α → Result β} {o : Option α} {y : β}
    (h : o.mapM f = .ok (some y)) : ∃ x, f x = .ok y := by
  cases o with
  | none => cases h
  | some x =>
    obtain ⟨z, hz, h⟩ := of_bind h
    cases h
    exact ⟨x, hz⟩

/-- The clauses of a select are built, each in the scope after those before it. -/
theorem clauses_built (hb : b.Sound) {c : Clauses Node} (h : b.clauses obj s role = .ok c)
    (fits : place.role? = some role) (takes : role.Takes tag) :
    b.Forms place s (.select role c tag) := by
  obtain ⟨s₁, s₂, s₃, hsteps⟩ := clauses_shape h
  obtain ⟨_, -, hwiths⟩ := hsteps.withs
  obtain ⟨_, -, hjoins⟩ := hsteps.joins
  obtain ⟨_, -, hcolumns⟩ := hsteps.columns
  obtain ⟨_, -, hgroupBy⟩ := hsteps.groupBy
  obtain ⟨_, -, horderBy⟩ := hsteps.orderBy
  obtain ⟨hafterWiths, hwiths⟩ := ctes_built hb hwiths
  obtain ⟨hafterSource, hsource⟩ := source_built hb hsteps.source
  obtain ⟨hafterJoins, hjoins⟩ := joins_built hb hjoins
  refine .select fits takes hafterWiths hafterSource hafterJoins hwiths hsource hjoins
    hsteps.nonempty ?_ ?_ ?_
  · intro n hn
    simp only [Clauses.values, List.mem_append, Option.mem_toList] at hn
    obtain (((hn | hn) | hn) | hn) | hn := hn
    · exact expressions_built hb hcolumns n hn
    · exact optional_built hb hsteps.filter n hn
    · exact expressions_built hb hgroupBy n hn
    · exact optional_built hb hsteps.having n hn
    · exact expressions_built hb horderBy n hn
  · intro rows hrows
    obtain ⟨v, hv⟩ := exists_of_mapM_option (hrows ▸ hsteps.limit)
    exact lt_of_limitOf hv
  · intro rows hrows
    obtain ⟨v, hv⟩ := exists_of_mapM_option (hrows ▸ hsteps.offset)
    exact lt_of_offsetOf hv

/-- The sides of a set operation are built in its scope. -/
theorem compound_built (hb : b.Sound) {op : SetOperator} (h : b.compound obj s role op = .ok n) :
    ∃ all left right, n = .compound role op all left right {} ∧
      b.Forms .side s left ∧ b.Forms .side s right := by
  obtain ⟨_, _, flag, left, right, -, -, hleft, hright, rfl⟩ := compound_shape h
  exact ⟨_, left, right, rfl, hb.part (.select .operand) .side rfl hleft,
    hb.part (.select .operand) .side rfl hright⟩

/-- An alias and a cast that a select was given are such as its role takes. -/
theorem takes_of_fold {m k : Node} (hrole : m.role? = some role) (hbare : m.tag = {})
    (hnamed : tag.label ≠ some "") (hfold : m.fold tag.label tag.cast = .ok k)
    (hcheck : checkAlias role k = .ok u) :
    k = m.retag tag ∧ role.Takes tag := by
  have hshort : m.isShort = false := by
    cases m with
    | short => cases hrole
    | _ => rfl
  obtain ⟨rfl, halias, hcast⟩ := Node.fold_cases hshort hfold
  have htag : (⟨tag.label <|> m.alias?, tag.cast <|> m.cast?⟩ : Tag) = tag := by
    rw [Node.alias?, Node.cast?, hbare]
    cases tag with
    | mk label cast => cases label <;> cases cast <;> rfl
  rw [htag] at hcheck ⊢
  have hcans : m.canAlias = role.canAlias ∧ m.canCast = (role == .subquery) ∧
      (m.retag tag).alias? = tag.label := by
    cases m with
    | select role' | compound role' =>
      cases hrole
      exact ⟨rfl, rfl, rfl⟩
    | _ => cases hrole
  obtain ⟨hcanAlias, hcanCast, hlabel⟩ := hcans
  refine ⟨rfl, ?_⟩
  rw [hcanAlias] at halias
  rw [hcanCast] at hcast
  unfold checkAlias at hcheck
  rw [hlabel] at hcheck
  obtain ⟨label, cast⟩ := tag
  cases role with
  | cte | range =>
    cases label with
    | none => cases hcheck
    | some name =>
      cases cast with
      | none => exact ⟨⟨name, (halias name rfl).1, rfl⟩, rfl⟩
      | some type => cases hcast rfl
  | root | operand =>
    cases label with
    | some name => cases (halias name rfl).2
    | none =>
      cases cast with
      | none => rfl
      | some type => cases hcast rfl
  | subquery => exact hnamed

/-- A select is built at every place of its role. -/
theorem select_built (hb : b.Sound) (fits : place.role? = some role)
    (h : b.select obj s role = .ok n) :
    b.Forms place s n := by
  have hfinish : ∀ {m : Node}, m.role? = some role → m.tag = {} →
      (do let tag ← obj.tag; let k ← m.fold tag.label tag.cast; checkAlias role k; pure k) = .ok n →
        ∃ tag, n = m.retag tag ∧ role.Takes tag := by
    intro m hrole hbare h
    obtain ⟨tag, htag, h⟩ := of_bind h
    obtain ⟨k, hk, h⟩ := of_bind h
    obtain ⟨_, hcheck, h⟩ := of_bind h
    cases h
    exact ⟨tag, takes_of_fold hrole hbare (ne_empty_of_tag htag) hk hcheck⟩
  unfold select at h
  split at h
  · obtain ⟨c, hc, h⟩ := of_bind h
    obtain ⟨tag, rfl, takes⟩ := hfinish (m := .select role c {}) rfl rfl h
    exact clauses_built hb hc fits takes
  · obtain ⟨m, hm, h⟩ := of_bind h
    obtain ⟨all, left, right, rfl, hleft, hright⟩ := compound_built hb hm
    obtain ⟨tag, rfl, takes⟩ := hfinish (m := .compound role _ all left right {}) rfl rfl h
    exact .compound fits takes hleft hright
  · cases h

/-! ## Values -/

/-- An object is built as a value. -/
theorem object_built (hb : b.Sound) (h : b.object obj s = .ok n) :
    b.Forms .value s n := by
  have hfold : ∀ {m : Result Node}, (∀ k, m = .ok k → b.Forms .value s k) →
      (do let k ← m; let tag ← obj.tag; k.fold tag.label tag.cast) = .ok n →
        b.Forms .value s n := by
    intro m hm h
    obtain ⟨k, hk, h⟩ := of_bind h
    obtain ⟨tag, -, h⟩ := of_bind h
    exact (hm k hk).fold h
  unfold object at h
  split at h
  · exact select_built hb rfl h
  · exact short_built hb h
  · exact sql_built hb h
  · exact cast_built hb h
  · cases h
  · cases h
  · exact hfold (fun _ => column_built) h
  · exact hfold (fun _ => parameter_built hb) h
  · exact hfold (fun _ => call_built hb) h
  · exact hfold (fun _ => geometry_built hb) h
  · exact hfold (fun _ => operator_built hb) h
  · exact hfold (fun _ => operator_built hb) h
  · exact hfold (fun _ => operator_built hb) h
  · exact hfold (fun _ => case_built hb) h
  · exact hfold (fun _ => array_built hb) h
  · exact hfold (fun _ => list_built hb) h
  · exact hfold (fun _ => sort_built hb) h
  · exact hfold (fun _ => constant_built) h

/-- A value is built at the places that its position admits. -/
theorem value_built (hb : b.Sound) (admits : position.Admits place)
    (h : b.value position v s = .ok n) :
    b.Forms place s n := by
  unfold value at h
  split at h
  · obtain ⟨obj, -, h⟩ := of_bind h
    exact select_built hb admits h
  · obtain ⟨items, hitems, h⟩ := of_bind h
    cases h
    cases admits
    exact .array (expressions_built hb hitems) nofun
  · obtain ⟨obj, -, h⟩ := of_bind h
    cases admits
    exact object_built hb h
  · obtain ⟨p, hp, h⟩ := of_bind h
    cases h
    cases admits
    exact .constant _ hp nofun

end Builder

/-! ## The recursion -/

namespace Build

variable {binding : BuildFn}

/-- The bound values are built by runs, and these follow the formation rules. -/
structure Bindings (options : ParseOptions) (r : List String) (binding : BuildFn) : Prop where
  /-- A bound value is built by a run. -/
  eq_run : ∀ {name v s}, binding (r ++ [name]) .expression v s =
    run options (r ++ [name]) .expression v s
  /-- The run follows the formation rules. -/
  built : ∀ {name v s n}, run options (r ++ [name]) .expression v s = .ok n →
    Built options (r ++ [name]) .value s n

/-- A value is built by the rules at each depth, where its expansions are. -/
theorem within_built {expansion : BuildFn} (hbinding : Bindings options r binding)
    (hexpansion : ∀ (position : Position) (place : Place) {v s n}, position.Admits place →
      expansion r position v s = .ok n → Built options r place s n)
    (hexpands : ∀ {v s n}, expansion r .expression v s = .ok n → Expands options r v s n)
    (depth : Nat) :
    ∀ (position : Position) (place : Place) {v s n}, position.Admits place →
      within options expansion binding depth r position v s = .ok n →
        Built options r place s n := by
  induction depth with
  | zero => nofun
  | succ depth ih =>
    intro position place v s n admits h
    have hb : Builder.Sound
        ⟨options, r, within options expansion binding depth, expansion, binding⟩ :=
      ⟨ih, hexpansion, hexpands, hbinding.eq_run, hbinding.built⟩
    exact Builder.value_built hb admits h

/-- A value is built by the rules with any number of expansions inside each other. -/
theorem levels_built (hbinding : Bindings options r binding) (level : Nat) :
    ∀ (position : Position) (place : Place) {v s n}, position.Admits place →
      levels options binding level r position v s = .ok n → Built options r place s n := by
  induction level with
  | zero => nofun
  | succ level ih =>
    intro position place v s n admits h
    have hexpands : ∀ {v s n}, levels options binding level r .expression v s = .ok n →
      Expands options r v s n :=
      fun h => ⟨binding, level, fun _ _ _ => hbinding.eq_run, h⟩
    exact within_built hbinding ih hexpands _ position place admits h

/-- One more parameter under resolution leaves one less to resolve. -/
theorem chainsLeft_append (name : String) :
    chainsLeft options (r ++ [name]) = chainsLeft options r - 1 := by
  simp only [chainsLeft, List.length_append, List.length_singleton]
  omega

private theorem chains_built (count : Nat) :
    ∀ r, chainsLeft options r = count → ∀ (position : Position) (place : Place) {v s n},
      position.Admits place → chains options count r position v s = .ok n →
        Built options r place s n := by
  induction count with
  | zero => nofun
  | succ count ih =>
    intro r hleft position place v s n admits h
    have hnext : ∀ name, chainsLeft options (r ++ [name]) = count := by
      intro name
      rw [chainsLeft_append, hleft, Nat.add_sub_cancel]
    have hbinding : Bindings options r (chains options count) := by
      constructor
      · intro name v s
        rw [run, hnext]
      · intro name v s n h
        rw [run, hnext] at h
        exact ih _ (hnext name) .expression .value rfl h
    exact levels_built hbinding _ position place admits h

/-- Every tree that is built follows the formation rules. -/
theorem run_built (position : Position) (place : Place) {v : Json} (admits : position.Admits place)
    (h : run options r position v s = .ok n) :
    Built options r place s n :=
  chains_built _ r rfl position place admits h

/-- What a run builds was built at some place. -/
theorem exists_built {v : Json} (h : run options r position v s = .ok n) :
    ∃ place, Built options r place s n := by
  have hplace : ∃ place, position.Admits place := by
    cases position with
    | expression => exact ⟨.value, rfl⟩
    | select role =>
      cases role with
      | root => exact ⟨.root, rfl⟩
      | cte => exact ⟨.cte, rfl⟩
      | subquery => exact ⟨.value, rfl⟩
      | operand => exact ⟨.side, rfl⟩
      | range lateral =>
        cases lateral with
        | true => exact ⟨.joined .lateral, rfl⟩
        | false => exact ⟨.source, rfl⟩
  obtain ⟨place, admits⟩ := hplace
  exact ⟨place, run_built position place admits h⟩

/-- The root of a tree is a root select or a value. -/
theorem root_built {v : Json} (h : root options v = .ok n) :
    Built options [] .root .root n ∨ Built options [] .value .root n := by
  unfold root at h
  split at h
  · exact .inl (run_built (.select .root) .root rfl h)
  · exact .inr (run_built .expression .value rfl h)

end Build

/-- The tree of a query that was read follows the formation rules. -/
theorem Query.read_built {value : Json} {query : Query} (h : read value options = .ok query) :
    Built options [] .root .root query.root ∨ Built options [] .value .root query.root := by
  unfold read at h
  split at h
  · obtain ⟨n, hn, h⟩ := of_bind h
    cases h
    exact Build.root_built hn
  · obtain ⟨v, -, h⟩ := of_bind h
    obtain ⟨n, hn, h⟩ := of_bind h
    cases h
    exact Build.root_built hn
  · cases h

end AnalyticQuery
