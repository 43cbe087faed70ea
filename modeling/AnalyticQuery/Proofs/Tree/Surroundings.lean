import AnalyticQuery.Proofs.Tree.Points

/-!
# What a nested select sees

A nested select sees the names of the common tables around it. The relations around it are seen by a
lateral relation alone, if it has clauses of its own: then they come before its own relations, for
itself and for the lateral relations inside it. The sides of a set operation are no lateral
relations, so a lateral set operation does not see them.
-/

namespace AnalyticQuery

open Builder List Relation Result Scope

variable {s t : Scope} {q p : Scope × Node} {options : ParseOptions}

variable {role : SelectRole} {obj : QlObject} {op : SetOperator} {c : Clauses Node} {tag : Tag}
variable {name : String}

/-! ## Common tables -/

/-- A select that is no lateral relation takes nothing but common tables from the scope around
it. -/
theorem Scope.alikeAt_of_ctes (hrole : role ≠ .range true)
    (hctes : ∀ name, name ∈ s.ctes ↔ name ∈ t.ctes) : s.AlikeAt (.select role) t := by
  have hsees : seesSiblings role = false := beq_eq_false_iff_ne.mpr hrole
  refine ⟨?_, rfl, rfl, hctes⟩
  simp [childSelect, hsees]

/-- A set operation is built from its sides, in any role. -/
theorem Builder.select_eq_of_sides {b : Builder}
    (hop : obj.has op.name = true)
    (hsides : ∀ v, b.part b.resolving (.select .operand) v s =
      b.part b.resolving (.select .operand) v t)
    (role : SelectRole) : b.select obj s role = b.select obj t role := by
  have hcompound : ∀ op, b.compound obj s role op = b.compound obj t role op := by
    intro op
    simp only [compound, side, hsides]
  unfold select
  split
  · next hnone =>
    have hmem : op ∈ SetOperator.all.filter (obj.has ·.name) :=
      mem_filter.mpr ⟨by cases op <;> decide, hop⟩
    rw [hnone] at hmem
    cases hmem
  · rw [hcompound]
  · rfl

namespace Build

variable {r : List String}

/-- A set operation sees common tables only, also where it is a lateral relation. -/
theorem run_eq_of_setOperator {v : Json} (hobj : QlObject.ofJson v = .ok obj)
    (hop : obj.has op.name = true) (hctes : ∀ name, name ∈ s.ctes ↔ name ∈ t.ctes)
    (hr : Resolvable options r) (role : SelectRole) :
    run options r (.select role) v s = run options r (.select role) v t := by
  have hvalue : ∀ s, run options r (.select role) v s = (runner options r).select obj s role := by
    intro s
    rw [run_eq_value hr, value, hobj]
    rfl
  rw [hvalue, hvalue]
  have hside : s.AlikeAt (.select .operand) t := alikeAt_of_ctes (by rintro ⟨⟩) hctes
  exact select_eq_of_sides hop (fun w => run_eq_of_alikeAt options.parallel_eq hside w) role

/-- What a select is built to that is no lateral relation, or how it fails, depends on the scope
around it by the names of the common tables alone: not by the relations there, by the select that
declares the common tables, or by whether it is inside a select. -/
theorem run_eq_of_ctes {options : ParseOptions} {role : SelectRole} (hrole : role ≠ .range true)
    {s t : Scope} (hctes : ∀ name, name ∈ s.ctes ↔ name ∈ t.ctes) (r : List String) (v : Json) :
    run options r (.select role) v s = run options r (.select role) v t :=
  run_eq_of_alikeAt options.parallel_eq (alikeAt_of_ctes hrole hctes) v

/-- A subquery with a parameter and a common table is built inside a select as it is outside of
one. -/
theorem run_eq_of_ctes_subquery :
    ∃ v, ∃ n : Node, n.children =
      [.view "c" true none, .parameter "p" (some (.constant (.bool true) {})) {}] ∧
      select { parameters := some [("p", .bool true)] } v
        ⟨[], ["d", "c"], [], false⟩ .subquery = .ok n ∧
      select { parameters := some [("p", .bool true)] } v
        ⟨[("v", .view "v")], ["c", "d"], ["d"], true⟩ .subquery =
        .ok n := by
  let v : Json := .object [("type", .string "select"), ("from", .string "c"),
    ("columns", .array [.object [("type", .string "parameter"), ("value", .string "p")]])]
  let c : Clauses Node :=
    { source := some (.view "c" true none),
      columns := [.parameter "p" (some (.constant (.bool true) {})) {}] }
  have hrole : SelectRole.subquery ≠ .range true := nofun
  have hctes : ∀ name, name ∈ ["c", "d"] ↔ name ∈ ["d", "c"] := by simp [or_comm]
  refine ⟨v, .select .subquery c {}, rfl, ?_⟩
  refine (fun h : select _ _ _ _ = .ok _ => ⟨h, (run_eq_of_ctes hrole hctes [] v).trans h⟩) ?_
  cbv

end Build

/-! ## Relations -/

namespace Scope

variable {u : Scope} {n m : Node}

/-- A scope with the relations of another one and maybe more after them, in a select if the other
one is. -/
structure Grows (s t : Scope) : Prop where
  refs : s.refs <+: t.refs
  inSelect : s.inSelect = true → t.inSelect = true

namespace Grows

theorem refl (s : Scope) : s.Grows s := ⟨prefix_rfl, id⟩

theorem trans (h : s.Grows t) (h' : t.Grows u) :
    s.Grows u := ⟨h.refs.trans h'.refs, h'.inSelect ∘ h.inSelect⟩

theorem declareCte (h : declareCte s n = .ok t) : s.Grows t := by
  unfold Builder.declareCte Scope.withCte at h
  split at h
  · split at h
    · cases h
    · cases h
      exact ⟨prefix_rfl, id⟩
  · cases h
    exact refl s

theorem declare (h : declare s n = .ok t) : s.Grows t := by
  obtain ⟨⟨name, target⟩, -, h⟩ := of_bind h
  dsimp only [withRef] at h
  split at h
  · cases h
  · cases h
    exact ⟨prefix_append _ _, id⟩

theorem foldlM {step : Scope → Node → Result Scope}
    (hstep : ∀ {s n t}, step s n = .ok t → s.Grows t) {nodes : List Node}
    (h : nodes.foldlM step s = .ok t) : s.Grows t := by
  induction nodes generalizing s with
  | nil =>
    cases h
    exact refl _
  | cons n nodes ih =>
    obtain ⟨u, hu, h⟩ := of_bind h
    exact (hstep hu).trans (ih h)

theorem afterSource {source : Option Node} (h : s.afterSource source = .ok t) : s.Grows t := by
  cases source with
  | none =>
    cases h
    exact refl s
  | some n => exact declare h

theorem afterJoins {joins : List Node} (h : s.afterJoins joins = .ok t) : s.Grows t := by
  refine foldlM (fun {s n t} h => ?_) h
  cases n with
  | join type relation on => exact declare h
  | _ =>
    cases h
    exact refl s

/-- What is inside a select stands in the scope at its start, with more relations. -/
theorem of_step (h : Step (s, .select role c tag) (t, m)) :
    (s.childSelect (seesSiblings role)).Grows t := by
  cases h with
  | cte split tables => exact foldlM declareCte tables
  | source mem tables => exact foldlM declareCte tables
  | join split tables first others =>
    exact ((foldlM declareCte tables).trans (afterSource first)).trans (afterJoins others)
  | value mem tables first others =>
    exact ((foldlM declareCte tables).trans (afterSource first)).trans (afterJoins others)
  | part plain => cases plain

/-- A relation that is found in a scope is found in a larger one. -/
theorem resolveColumn (h : s.Grows t) (hin : s.inSelect = true) {target : RefTarget}
    (hfind : s.refs.find? (·.1 == name) = some (name, target)) (column : String) :
    t.resolveColumn (some name) column = .ok ⟨some name, target.view?⟩ := by
  obtain ⟨more, hmore⟩ := h.refs
  have hfound : t.refs.find? (·.1 == name) = some (name, target) := by
    rw [← hmore, find?_append, hfind]
    rfl
  simp only [Scope.resolveColumn, h.inSelect hin, if_true, hfound]

end Grows

/-- One step down a tree that goes into no select but a lateral relation. -/
structure StepInside (p q : Scope × Node) : Prop where
  step : Step p q
  lateral : ∀ role c tag, p.2 = .select role c tag → role = .range true

theorem StepInside.relation {type : JoinType} {on : Option Node} :
    StepInside (s, .join type n on) (s, n) := by
  refine ⟨.relation, ?_⟩
  rintro _ _ _ ⟨⟩

private theorem StepInside.of_lateral (h : Step (s, .select (.range true) c tag) q) :
    StepInside (s, .select (.range true) c tag) q := by
  refine ⟨h, ?_⟩
  rintro _ _ _ ⟨⟩
  rfl

/-- The relations around a lateral relation stay in sight inside it. -/
theorem StepInside.grows (h : StepInside p q) : p.1.Grows q.1 := by
  obtain ⟨hstep, hlateral⟩ := h
  have hselect : ∀ {role c tag}, p.2 = .select role c tag → p.1.Grows q.1 := by
    intro role c tag hp
    obtain ⟨s, n⟩ := p
    subst hp
    have hrole := hlateral role c tag rfl
    subst hrole
    have hchild : s.Grows (s.childSelect (seesSiblings (.range true))) := ⟨prefix_rfl, fun _ => rfl⟩
    exact hchild.trans (.of_step hstep)
  cases hstep with
  | cte | source | join | value => exact hselect rfl
  | side | relation | part => exact .refl _
  | on mem declared => exact .declare declared

/-- The relations of a scope stay in sight inside the lateral relations in it. -/
theorem Grows.of_reaches (h : ReflTransGen StepInside p q) : p.1.Grows q.1 := by
  induction h with
  | refl => exact .refl _
  | tail _ hstep ih => exact ih.trans hstep.grows

private theorem reaches_of_inside (h : ReflTransGen StepInside p q) : Reaches p q := by
  have hle : StepInside ≤ Step := fun _ _ hstep => hstep.step
  exact ReflTransGen.mono hle p q h

/-- A relation of a scope is found there. -/
theorem exists_find?_refs (h : name ∈ s.refs.map (·.1)) :
    ∃ target, s.refs.find? (·.1 == name) = some (name, target) := by
  obtain ⟨ref, hmem, rfl⟩ := mem_map.mp h
  have hsome : (s.refs.find? (·.1 == ref.1)).isSome :=
    find?_isSome.mpr ⟨ref, hmem, beq_self_eq_true ref.1⟩
  obtain ⟨⟨name, target⟩, hfind⟩ := Option.isSome_iff_exists.mp hsome
  have hname : (name == ref.1) = true := by simpa using find?_some hfind
  obtain rfl := eq_of_beq hname
  exact ⟨target, hfind⟩

end Scope

namespace Build

/-- A column that is found is built from what is written for it. -/
theorem expression_column {c : Column} {found : ResolvedColumn} (hname : c.name ≠ "")
    (hview : c.view ≠ some "") (hfound : s.resolveColumn c.view c.name = .ok found)
    (named : tag.label ≠ some "") :
    expression options (tag.onto c.toQl) s =
      .ok (.column { c with qualifier := found.qualifier, origin := found.origin } tag) := by
  let c' : Column := { c with qualifier := found.qualifier, origin := found.origin }
  obtain ⟨m, hm, rfl⟩ := value_column (Node.congruence_eq .none) (b := runner options [])
    (c := c') hname hview
    hfound named
  exact (run_eq_value (resolvable_nil options) _ _ _).trans hm

/-- The relations that a select has declared before a lateral relation are found, as they are in the
select, wherever a column names them inside the lateral relation and the lateral relations in it. In
place of that relation a set operation finds none of them. -/
theorem run_lateral {options : ParseOptions} {names : List String} {position : Position} {v : Json}
    {s s' t : Scope} {n relation : Node} {on : Option Node} {role : SelectRole} {c : Clauses Node}
    {tag : Tag} (h : run options names position v s = .ok n)
    (hselect : Scope.Reaches (s, n) (s', .select role c tag))
    (hjoin : Scope.Step (s', .select role c tag) (t, .join .lateral relation on)) :
    (∀ ref ∈ t.refs.map (·.1), ref ≠ "" → ∃ target, (ref, target) ∈ t.refs ∧
      ∀ u m, ReflTransGen Scope.StepInside (t, relation) (u, m) →
        (∀ (c : Column) (tag : Tag), c.view = some ref → c.name ≠ "" → tag.label ≠ some "" →
          expression options (tag.onto c.toQl) u =
            .ok (.column { c with qualifier := some ref, origin := target.view? } tag)) ∧
        ∀ c tag, m = .column c tag → c.view = some ref → c.qualifier = some ref ∧
          c.origin = target.view?) ∧
      ∀ v obj op, QlObject.ofJson v = .ok obj → obj.has (SetOperator.name op) = true →
        select options v t (.range true) = select options v { ctes := t.ctes } (.range true) := by
  obtain ⟨place, hbuilt⟩ := exists_built h
  have hin : t.inSelect = true := (Scope.Grows.of_step hjoin).inSelect rfl
  constructor
  · intro ref href hne
    obtain ⟨target, hfind⟩ := exists_find?_refs href
    refine ⟨target, mem_of_find?_eq_some hfind, fun u m hm => ?_⟩
    have hfound : ∀ column, u.resolveColumn (some ref) column = .ok ⟨some ref, target.view?⟩ :=
      (Scope.Grows.of_reaches hm).resolveColumn hin hfind
    constructor
    · intro c tag hview hname named
      have hresolve : u.resolveColumn c.view c.name = .ok ⟨some ref, target.view?⟩ := by
        rw [hview, hfound]
      exact expression_column hname (by simpa [hview] using hne) hresolve named
    · rintro c tag rfl hview
      have hreaches := ((hselect.tail hjoin).tail .relation).trans (reaches_of_inside hm)
      obtain ⟨names, place', hcolumn, -⟩ := hbuilt.of_reaches (resolvable_of_run h) hreaches
      cases hcolumn with
      | column hasName hasView found =>
        rw [hview, hfound] at found
        injection found with found
        injection found with hqualifier horigin
        exact ⟨hqualifier.symm, horigin.symm⟩
  · intro v obj op hobj hop
    have hctes : ∀ name, name ∈ t.ctes ↔ name ∈ ctes { ctes := t.ctes } := fun _ => Iff.rfl
    exact run_eq_of_setOperator hobj hop hctes (resolvable_nil options) _

/-- The first relation is in sight inside a lateral relation of a lateral relation. -/
theorem run_lateral_twice :
    ∃ n u c,
      select {}
        (.object
        [("type", .string "select"), ("from", .string "v"), ("columns", .array [.bool true]),
        ("joins",
          .array [.object [("type", .string "join"), ("view", .object [("type", .string "select"),
          ("from", .string "w"), ("columns", .array [.bool true]), ("as", .string "l"),
          ("joins",
            .array [.object [("type", .string "join"), ("view", .object [("type", .string "select"),
            ("columns", .array [.object [("type", .string "column"), ("column", .string "x"),
              ("view", .string "v")]]), ("as", .string "k")])]])])]])]) .root .root = .ok n ∧
      Scope.Reaches (.root, n) (u, .column c {}) ∧ c.qualifier = some "v" ∧
        c.origin = some "v" := by
  let c : Column := ⟨"x", some "v", some "v", some "v"⟩
  let last : Node := .select (.range true) { columns := [.column c {}] } { label := some "k" }
  let inner : Clauses Node :=
    { source := some (.view "w" false none)
      joins := [.join .lateral last none]
      columns := [.constant (.bool true) {}] }
  let relation : Node := .select (.range true) inner { label := some "l" }
  let outer : Clauses Node :=
    { source := some (.view "v" false none)
      joins := [.join .lateral relation none]
      columns := [.constant (.bool true) {}] }
  let t : Scope := ⟨[("v", .view "v")], [], [], true⟩
  let u : Scope := ⟨[("v", .view "v"), ("w", .view "w")], [], [], true⟩
  have houter : outer.joins = [] ++ .join .lateral relation none :: [] := rfl
  have hinner : inner.joins = [] ++ .join .lateral last none :: [] := rfl
  have hjoin : Scope.Step (.root, .select .root outer {}) (t, .join .lateral relation none) :=
    .join houter rfl rfl rfl
  have hlast : Scope.Step (t, relation) (u, .join .lateral last none) := .join hinner rfl rfl rfl
  have hcolumn : Scope.Step (u, last) (u, .column c {}) :=
    .value (by simp [Clauses.values]) rfl rfl rfl
  have hinside : ReflTransGen Scope.StepInside (t, relation) (u, .column c {}) :=
    ((ReflTransGen.single (.of_lateral hlast)).tail .relation).tail (.of_lateral hcolumn)
  refine ⟨.select .root outer {}, u, c, ?_⟩
  refine (fun h : select _ _ _ _ = .ok _ => ⟨h, ?_, ?_⟩) ?_
  · cbv
  · exact ((ReflTransGen.single hjoin).tail .relation).trans (reaches_of_inside hinside)
  · obtain ⟨target, hmem, htarget⟩ := (run_lateral h .refl hjoin).1 "v" (by decide) (by decide)
    obtain rfl : target = .view "v" := by simpa [t] using hmem
    exact (htarget u _ hinside).2 c {} rfl rfl

/-- The sides of a lateral set operation do not see the relations before it. -/
theorem root_lateral_union :
    root {}
      (.object [("type", .string "select"), ("from", .string "v"), ("columns", .array [.bool true]),
      ("joins", .array [.object [("type", .string "join"), ("joinType", .string "lateral"),
        ("view", .object [("type", .string "select"), ("as", .string "l"), ("union", .array [
          .object [("type", .string "select"), ("from", .string "w"), ("columns", .array [
            .object [("type", .string "column"), ("column", .string "x"), ("view", .string "v")]])],
          .object [("type", .string "select"), ("from", .string "w"),
            ("columns", .array [.bool true])]])])]])]) =
      .error (.unknownView "v") := by
  cbv

end Build

end AnalyticQuery
