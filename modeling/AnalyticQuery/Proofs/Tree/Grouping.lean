import AnalyticQuery.Proofs.Tree.Points
import AnalyticQuery.Proofs.Tree.Relabelling

/-!
# Groups of conditions

Conditions under `and`, or under `or`, can be put into groups of the same operator, and these into
groups again. The groups are written as objects of the operator's own kind, as operators with a name
or as texts that stand for such. Where short expressions are expanded and no group has an alias or a
cast, all groupings are built to one node, with the conditions as its operands. No operand in a tree
is a group that could have been taken up.
-/

namespace AnalyticQuery

open Builder List QlObject Result

variable {obj : QlObject} {op : Operator} {leaves items : List Json} {ms ns : List Node} {s : Scope}
variable {n : Node}

/-- A field with a key that is not allowed is not there. -/
theorem QlObject.get?_eq_none_of_checkKeys {allowed : List String} {key : String}
    (h : obj.checkKeys allowed = .ok ()) (hkey : isCommonKey key = false)
    (hallowed : key ∉ allowed) :
    obj.get? key = none := by
  have hfields : Fields.get? obj.fields key = none := by
    cases hget : Fields.get? obj.fields key with
    | none => rfl
    | some v =>
      unfold checkKeys at h
      split at h
      · cases h
      · next hfind =>
        have hfound := find?_eq_none.mp hfind _ (Fields.get?_mem hget)
        simp [hkey, hallowed] at hfound
  rw [get?, hfields]
  rfl

namespace Json

/-- A value that is a group of an operator over some values, without alias and cast: an object of
the operator's own kind, an operator with its name, or a text that stands for a group. -/
inductive Group (op : Operator) : Json → List Json → Prop
  | own {v obj items} (read : ofJson v = .ok obj) (type : obj.type = operatorKind op)
      (keys : obj.checkKeys ["operands"] = .ok ()) (bare : obj.tag = .ok {})
      (operands : obj.get? "operands" = some (.array items)) : Group op v items
  | named {v obj name items} (read : ofJson v = .ok obj) (type : obj.type = .operator)
      (keys : obj.checkKeys ["value", "operands", "qualifier"] = .ok ()) (bare : obj.tag = .ok {})
      (value : obj.string "value" = .ok name) (spells : Operator.ofName name = .ok op)
      (unqualified : obj.get? "qualifier" = none)
      (operands : obj.get? "operands" = some (.array items)) : Group op v items
  | text {v obj text w items} (read : ofJson v = .ok obj) (keys : obj.checkKeys ["value"] = .ok ())
      (bare : obj.tag = .ok {}) (value : obj.string "value" = .ok text)
      (denotes : Denotes obj.type text w)
      (inner : Group op w items) : Group op v items

/-- Values that are groups of an operator, in turn over such values, or are taken as they are; with
those that are taken as they are, in order. No group is empty. -/
inductive Nests (op : Operator) : List Json → List Json → Prop
  | nil : Nests op [] []
  | leaf (v) {vs leaves} (rest : Nests op vs leaves) : Nests op (v :: vs) (v :: leaves)
  | group {v items inside vs leaves} (group : Group op v items) (nonempty : items ≠ [])
      (inner : Nests op items inside) (rest : Nests op vs leaves) :
        Nests op (v :: vs) (inside ++ leaves)

private theorem Nests.ne_nil {vs : List Json} (h : Nests op vs leaves) (hvs : vs ≠ []) :
    leaves ≠ [] := by
  induction h with
  | nil => exact hvs
  | leaf => exact cons_ne_nil _ _
  | group _ nonempty _ _ ih _ => exact append_ne_nil_of_left_ne_nil (ih nonempty) _

end Json

namespace Builder

variable {b : Builder}

/-- What is not taken up is no operator of that kind without alias and cast. -/
theorem absorbed?_eq_none_iff :
    absorbed? op n = none ↔ ∀ inner qualifier, n ≠ .operation op inner qualifier {} := by
  cases n with
  | operation other inner qualifier tag =>
    by_cases h : other = op ∧ tag = {}
    · obtain ⟨rfl, rfl⟩ := h
      simp [absorbed?]
    · simp_all [absorbed?]
  | _ => simp [absorbed?]

/-- A logical operator has the operands that are left after those of its own kind are taken up, of
which there is at least one. -/
theorem operation_of_flatten (hop : op = .and ∨ op = .or) (hflat : flatten op ms = ns)
    (hne : ns ≠ []) : operation op ms none = .ok (.operation op ns none {}) := by
  have hlogical : op.isLogical = true := by obtain rfl | rfl := hop <;> rfl
  have harity : op.arity.check op.name ns.length = .ok () := by
    have hlength : 1 ≤ ns.length := length_pos_iff.mpr hne
    rw [Arity.check_ok_iff]
    obtain rfl | rfl := hop <;> simpa [Operator.arity, Arity.atLeast, Arity.accepts] using hlength
  simp [operation, hlogical, hflat, harity]

/-- An operator is what its object names, over its operands, where it has no qualifier. -/
theorem operator_of_operatorOf (hop : operatorOf obj = .ok op)
    (unqualified : obj.get? "qualifier" = none)
    (operands : obj.get? "operands" = some (.array items))
    (hitems : b.expressions items s = .ok ns) : b.operator obj s = operation op ns none := by
  have hqualifier : obj.named? "qualifier" Qualifier.ofName = .ok none := by
    simp [named?, string?, unqualified]
  simp only [operator, hop, array_eq_ok operands, hitems, hqualifier, ok_bind]

end Builder

namespace Build

variable {options : ParseOptions} {r : List String} {v : Json}


/-- A group is built to the operator over its operands, however it is written. -/
theorem run_group (hr : Resolvable options r) (hshorts : options.keepShorts = false)
    (hop : op = .and ∨ op = .or) (h : v.Group op items)
    (hitems : (runner options r).expressions items s = .ok ms) (hn : operation op ms none = .ok n) :
    run options r .expression v s = .ok n := by
  have hobject : ∀ {v obj}, ofJson v = .ok obj → obj.tag = .ok {} → obj.type ≠ .cast →
      (runner options r).stem obj s = .ok n → run options r .expression v s = .ok n := by
    intro v obj hobj htag hcast hstem
    obtain ⟨rfl, -⟩ := exists_of_ofJson hobj
    rw [run_object hr hobj, object_eq_fold hstem htag (absurd · hcast), Node.fold_nothing]
  induction h with
  | @own v obj items read type keys bare operands =>
    have hname : operatorOf obj = .ok op := by
      obtain rfl | rfl := hop <;> simp only [operatorOf, type, operatorKind, keys] <;> rfl
    have hqualifier : obj.get? "qualifier" = none := get?_eq_none_of_checkKeys keys rfl (by simp)
    have hoperator := (operator_of_operatorOf hname hqualifier operands hitems).trans hn
    refine hobject read bare ?_ ?_
    · obtain rfl | rfl := hop <;> simp [type, operatorKind]
    · obtain rfl | rfl := hop <;> simp only [stem, type, operatorKind, hoperator]
  | @named v obj name items read type keys bare value spells unqualified operands =>
    have hname : operatorOf obj = .ok op := by
      simp only [operatorOf, type, keys, value, ok_bind, spells]
    have hoperator := (operator_of_operatorOf hname unqualified operands hitems).trans hn
    refine hobject read bare (by simp [type]) ?_
    simp only [stem, type, hoperator]
  | @text v obj text w items read keys bare value denotes inner ih =>
    have hinner : (runner options r).outside.expression w s = .ok n := ih hitems
    have hkeep : (runner options r).options.keepShorts = false := hshorts
    obtain ⟨F, kind⟩ := obj
    refine hobject read bare ?_ ?_
    · rintro rfl
      cases denotes
    · cases denotes with
      | short parsed expanded =>
        simp only [stem, keys, value, parsed, expandShort, expanded, ok_bind, hinner, hkeep]
        rfl
      | sql lowered => simp only [stem, keys, value, lowered, ok_bind, hinner]

/-- Values that are groups are built to operands that, once they are taken up, are what the values
taken as they are are built to. -/
theorem exists_expressions_of_nests (hr : Resolvable options r)
    (hshorts : options.keepShorts = false) (hop : op = .and ∨ op = .or)
    (h : Json.Nests op items leaves) (hleaves : (runner options r).expressions leaves s = .ok ns)
    (hflat : ∀ n ∈ ns, absorbed? op n = none) :
    ∃ ms, (runner options r).expressions items s = .ok ms ∧ flatten op ms = ns := by
  induction h generalizing ns with
  | nil =>
    cases hleaves
    exact ⟨[], rfl, rfl⟩
  | leaf v rest ih =>
    rw [expressions, mapM_cons] at hleaves
    obtain ⟨n, hn, hleaves⟩ := of_bind hleaves
    obtain ⟨ns, hns, hleaves⟩ := of_bind hleaves
    cases hleaves
    obtain ⟨ms, hms, rfl⟩ := ih hns fun m hm => hflat m (mem_cons_of_mem n hm)
    refine ⟨n :: ms, ?_, ?_⟩
    · rw [expressions, mapM_eq_ok_iff] at hms ⊢
      exact .cons hn hms
    · rw [Builder.flatten, flatMap_cons, hflat n mem_cons_self]
      rfl
  | @group v items inside vs leaves group nonempty inner rest ihInner ihRest =>
    rw [expressions, mapM_append] at hleaves
    obtain ⟨ns₁, hns₁, hleaves⟩ := of_bind hleaves
    obtain ⟨ns₂, hns₂, hleaves⟩ := of_bind hleaves
    cases hleaves
    obtain ⟨ms₁, hms₁, hflat₁⟩ := ihInner hns₁ fun m hm => hflat m (mem_append_left _ hm)
    obtain ⟨ms₂, hms₂, hflat₂⟩ := ihRest hns₂ fun m hm => hflat m (mem_append_right _ hm)
    have hne : ns₁ ≠ [] := by
      have hlength := (mapM_eq_ok_iff.mp hns₁).length_eq
      rw [← length_pos_iff, ← hlength]
      exact length_pos_iff.mpr (inner.ne_nil nonempty)
    have hv : run options r .expression v s = .ok (.operation op ns₁ none {}) :=
      run_group hr hshorts hop group hms₁ (operation_of_flatten hop hflat₁ hne)
    refine ⟨.operation op ns₁ none {} :: ms₂, ?_, ?_⟩
    · rw [expressions, mapM_eq_ok_iff] at hms₂ ⊢
      exact .cons hv hms₂
    · have htaken : absorbed? op (.operation op ns₁ none {}) = some ns₁ := by simp [absorbed?]
      rw [Builder.flatten, flatMap_cons, htaken, ← hflat₂]
      rfl

/-- All groupings of values under one logical operator are built to one node, with what the values
are built to as its operands, in order; and no operand in a tree is the same operator without alias
and cast. -/
theorem run_groups {options : ParseOptions} (hshorts : options.keepShorts = false) {op : Operator}
    (hop : op = .and ∨ op = .or) :
    (∀ r s v items leaves ns, Json.Group op v items → items ≠ [] → Json.Nests op items leaves →
      List.Forall₂ (fun w n => run options r .expression w s = .ok n) leaves ns →
      (∀ inner qualifier, .operation op inner qualifier {} ∉ ns) →
      run options r .expression v s = .ok (.operation op ns none {})) ∧
    ∀ r position v s n, run options r position v s = .ok n →
      ∀ operands qualifier tag, n.Encloses (.operation op operands qualifier tag) →
        ∀ inner qualifier', .operation op inner qualifier' {} ∉ operands := by
  constructor
  · intro r s v items leaves ns hgroup hitems hnests hleaves hflat
    have hne : ns ≠ [] := by
      rw [← length_pos_iff, ← hleaves.length_eq]
      exact length_pos_iff.mpr (hnests.ne_nil hitems)
    have hr : Resolvable options r := by
      cases hleaves with
      | nil => exact absurd rfl hne
      | cons hn _ => exact resolvable_of_run hn
    obtain ⟨ms, hms, hflatten⟩ := exists_expressions_of_nests hr hshorts hop hnests
      (mapM_eq_ok_iff.mpr hleaves) fun n hn => absorbed?_eq_none_iff.mpr
        fun inner qualifier he => hflat inner qualifier (he ▸ hn)
    exact run_group hr hshorts hop hgroup hms (operation_of_flatten hop hflatten hne)
  · intro r position v s n hrun operands qualifier tag hinside inner qualifier' hmem
    obtain ⟨place, hbuilt⟩ := exists_built hrun
    obtain ⟨t, ht⟩ := hbuilt.exists_reaches (resolvable_of_run hrun) hinside
    obtain ⟨names, place', hoperation, -⟩ := hbuilt.of_reaches (resolvable_of_run hrun) ht
    cases hoperation with
    | operation parts arity qualified flat =>
      have hlogical : op.isLogical = true := by obtain rfl | rfl := hop <;> rfl
      exact absorbed?_eq_none_iff.mp (flat hlogical _ hmem) inner qualifier' rfl

/-- Groups in three notations are taken up into one operator. -/
theorem run_groups_notations :
    expression {}
      (.object [("type", .string "operator"), ("value", .string "And"), ("operands", .array [
        .object [("type", .string "and"), ("operands", .array [.null, .string "x"])],
        .object [("type", .string "short"), ("value", .string "@and([true])")], .bool false])])
          .root =
      .ok (.operation .and
        [.constant .null {}, .constant (.string "x") {}, .constant (.bool true) {},
        .constant (.bool false) {}] none {}) := by
  let own (items : List Json) : Fields := [("type", .string "and"), ("operands", .array items)]
  let short : Fields := [("type", .string "short"), ("value", .string "@and([true])")]
  let items : List Json := [.object (own [.null, .string "x"]), .object short, .bool false]
  let named : Fields :=
    [("type", .string "operator"), ("value", .string "And"), ("operands", .array items)]
  have hown : ∀ items, Json.Group .and (.object (own items)) items := by
    intro items
    have hread : ofJson (.object (own items)) = .ok ⟨own items, .and⟩ := by cbv
    exact .own hread rfl rfl rfl rfl
  have hshort : Json.Group .and (.object short) [.bool true] := by
    have hread : ofJson (.object short) = .ok ⟨short, .short⟩ := by cbv
    have hparsed : Short.ofText "@and([true])" = .ok (.mk "and" [.array [.bool true]] []) := by cbv
    have hexpanded : (Short.mk "and" [.array [.bool true]] []).expand =
        .ok (.object (own [.bool true])) := by cbv
    exact .text hread rfl rfl rfl (.short hparsed hexpanded) (hown _)
  have hnamed : Json.Group .and (.object named) items := by
    have hread : ofJson (.object named) = .ok ⟨named, .operator⟩ := by cbv
    have hname : Operator.ofName "And" = .ok .and := by cbv
    exact .named hread rfl rfl rfl rfl hname rfl rfl
  have hnests : Json.Nests .and items [.null, .string "x", .bool true, .bool false] :=
    .group (hown _) (cons_ne_nil _ _) (.leaf _ (.leaf _ .nil))
      (.group hshort (cons_ne_nil _ _) (.leaf _ .nil) (.leaf _ .nil))
  refine (run_groups rfl (.inl rfl)).1 [] .root _ _ _ _ hnamed (cons_ne_nil _ _) hnests
    (.cons rfl (.cons rfl (.cons rfl (.cons rfl .nil)))) ?_
  simp

end Build

end AnalyticQuery
