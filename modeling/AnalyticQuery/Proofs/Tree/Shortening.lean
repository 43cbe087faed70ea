import AnalyticQuery.Proofs.Json.Integer
import AnalyticQuery.Proofs.Tree.RoundTrip

/-!
# Trees are built again from their short expressions

An expression that has a short form is written as a text and built again from that text in the same
scope. The parts of a short expression are short expressions of their own, which are read again when
the value around them is built.
-/

namespace AnalyticQuery

open Argument Build Builder FormArgs Node QlObject Result Short

variable {n : Node} {s : Scope} {options' : QlOptions} {options : ParseOptions} {r : List String}
variable {args : List Argument} {ns : List Node}

variable {v : Json} {p : Primitive} {short : Short} {form : Form} {positional : List Argument}
variable {named : List (String × Argument)} {op : Operator}

private theorem toQl_array (items : List Argument) :
    (Argument.array items).toQl = .array (items.map Argument.toQl) := by
  have hgo : ∀ items, Argument.toQl.go items = items.map Argument.toQl := by
    intro items
    induction items with
    | nil => rfl
    | cons item items ih => rw [Argument.toQl.go, ih, List.map_cons]
  rw [Argument.toQl, hgo]

/-! ## Reals in a tree -/

namespace Node

/-- The real number that an expression is, if it is one. -/
def real? : Node → Option Binary64
  | .constant (.real x) _ => some x
  | _ => none

open Relation in
/-- The real numbers in all that is written of an expression are read back from their own text. -/
def RealsLegible (n : Node) : Prop :=
  ∀ m, ReflTransGen (fun a b => b ∈ a.inQl) n m →
    ∀ x ∈ m.real?, Number.ofText? (Number.real x).text = some (.real x)

/-- The real numbers in a part of an expression are among those of the expression. -/
theorem RealsLegible.of_mem {m : Node} (h : n.RealsLegible) (hm : m ∈ n.inQl) : m.RealsLegible :=
  fun k hk => h k (.head hm hk)

/-- The real numbers of an expression are itself and those of its parts. -/
theorem RealsLegible.intro
    (here : ∀ x ∈ n.real?, Number.ofText? (Number.real x).text = some (.real x))
    (below : ∀ m ∈ n.inQl, m.RealsLegible) : n.RealsLegible := by
  intro m hm
  obtain rfl | ⟨k, hk, hm⟩ := hm.cases_head
  · exact here
  · exact below k hk m hm

end Node

/-- A constant that was read is read back from its argument. -/
theorem Primitive.legible_toArgument (read : Primitive.ofJson v = .ok p)
    (hreal : ∀ x, p = .real x → Number.ofText? (Number.real x).text = some (.real x)) :
    p.toArgument.All Argument.Legible := by
  cases p with
  | string | bool | null => trivial
  | real x => exact hreal x rfl
  | int i =>
    have hword : InWord i := by
      cases v with
      | number n =>
        have h : Primitive.ofNumber n = .int i := Except.ok.inj read
        unfold Primitive.ofNumber at h
        split at h
        · next hn =>
          cases h
          cases n with
          | real => cases hn
          | integer j hj =>
            rw [Number.int64?] at hn
            split at hn <;> cases hn
            exact hj
        · cases h
      | _ => cases read
    have hnumber : Number.ofInt i = .integer i hword := dif_pos hword
    have hlegible : (number (.integer i hword)).All Argument.Legible :=
      Number.ofText?_text_integer hword
    rwa [Primitive.toArgument, hnumber]

/-! ## Aliases and casts -/

private theorem Short.text_ne_empty (s : Short) : s.text ≠ "" := by
  obtain ⟨name, positional, named⟩ := s
  rw [← String.toList_inj.ne]
  simp [text, shortChars]

/-- A short expression that is read back from its text is built to what it expands to. -/
theorem Builder.value_short {b : Builder} (hproper : short.All Argument.Proper)
    (hlegible : short.All Argument.Legible) (hexpanded : b.expandShort short s = .ok n) :
    b.value .expression (Argument.short short).toQl s = .ok n := by
  let F : Fields := [("type", .string "short"), ("value", .string short.text)]
  have hvalue : b.value .expression (Argument.short short).toQl s =
      ofJson (.object (F ++ Tag.fields {})) >>= fun obj => b.object obj s := rfl
  have hobject : ofJson (.object (F ++ Tag.fields {})) = .ok (written F .short {}) :=
    ofJson_written rfl
  have hkeys : (written F .short {}).checkKeys ["value"] = .ok () :=
    checkKeys_written (by simp [F])
  have htext : (written F .short {}).string "value" = .ok short.text :=
    string_eq_ok (by simp [F, get?_written]) short.text_ne_empty
  have hread : ofText short.text = .ok short :=
    ofText_of_laidOut hproper hlegible short.laidOut_text
  have htag : (written F .short {}).tag = .ok {} :=
    tag_written (by simp [F]) (by simp [F]) nofun
  have hshort : b.object (written F .short {}) s = b.short (written F .short {}) s := rfl
  rw [hvalue, hobject, ok_bind, hshort]
  simp only [Builder.short, hkeys, htext, hread, hexpanded, htag, ok_bind, fold_nothing]

private theorem Short.ofName_form (form : Form) : ofName form.name = .mk form.name [] [] := by
  rw [ofName, form.isIdentifier_name.2]

/-- The arguments of an alias and a cast go to the end of a short expression. -/
theorem Tag.ontoArgument_short (h : form.Takes positional named) (tag : Tag) :
    tag.ontoArgument (.short (.mk form.name positional named)) =
      .short (.mk form.name positional (named ++ tag.arguments)) := by
  obtain ⟨label, cast⟩ := tag
  rw [ontoArgument]
  split
  · cases label <;> cases cast <;> simp_all [arguments]
  · rw [toShort, h.tagShort_eq ⟨label, cast⟩]

namespace Build

/-! ## What a text is built to -/

variable {tag : Tag}

/-- A short expression that is read back from its text is built to what its expansion is built
to. -/
theorem run_short (hr : Resolvable options r) (hshorts : options.keepShorts = false)
    (hproper : short.All Argument.Proper) (hlegible : short.All Argument.Legible)
    (hexpand : short.expand = .ok v) (hv : run options r .expression v s = .ok n) :
    run options r .expression (Argument.short short).toQl s = .ok n := by
  have hinner : (runner options r).outside.expression v s = .ok n := hv
  have hkeep : (runner options r).options.keepShorts = false := hshorts
  have hexpanded : (runner options r).expandShort short s = .ok n := by
    simp [Builder.expandShort, hexpand, hinner, hkeep]
  rw [run_eq_value hr, value_short hproper hlegible hexpanded]

/-- An argument stands for an expression: it is read back from its text, and its value is built to
the expression. -/
structure Writes (options : ParseOptions) (r : List String) (s : Scope) (arg : Argument)
    (n : Node) :
    Prop where
  proper : arg.All Argument.Proper
  legible : arg.All Argument.Legible
  builds : Resolvable options r → run options r .expression arg.toQl s = .ok n

/-- Arguments stand for expressions, one by one. -/
def WritesAll (options : ParseOptions) (r : List String) (s : Scope) :
    List Argument → List Node → Prop :=
  List.Forall₂ (Writes options r s)

namespace WritesAll

/-- The arguments of a list stand for its expressions if each does. -/
theorem of_toArgumentAll (hargs : toArgumentAll options' ns = .ok args)
    (h : ∀ n ∈ ns, ∀ arg, n.toArgument options' = .ok arg → Writes options r s arg n) :
    WritesAll options r s args ns := by
  induction ns generalizing args with
  | nil =>
    cases hargs
    exact .nil
  | cons n ns ih =>
    rw [toArgumentAll] at hargs
    obtain ⟨first, hfirst, hargs⟩ := of_bind hargs
    obtain ⟨rest, hrest, hargs⟩ := of_bind hargs
    cases hargs
    exact .cons (h n List.mem_cons_self first hfirst)
      (ih hrest fun m hm => h m (List.mem_cons_of_mem n hm))

theorem of_bind {α : Type} {f : List Argument → Result α} {a : α}
    (ha : (toArgumentAll options' ns >>= f) = .ok a)
    (h : ∀ n ∈ ns, ∀ arg, n.toArgument options' = .ok arg → Writes options r s arg n) :
    ∃ args, WritesAll options r s args ns ∧ f args = .ok a := by
  obtain ⟨args, hargs, ha⟩ := Result.of_bind ha
  exact ⟨args, of_toArgumentAll hargs h, ha⟩

theorem proper (h : WritesAll options r s args ns) : (array args).All Argument.Proper :=
  ⟨trivial, itemsAll_iff.mpr ((List.forall₂_and_left _ _).mp (h.imp fun _ _ h => ⟨h.proper, h⟩)).1⟩

theorem legible (h : WritesAll options r s args ns) : (array args).All Argument.Legible :=
  ⟨trivial, itemsAll_iff.mpr ((List.forall₂_and_left _ _).mp (h.imp fun _ _ h => ⟨h.legible, h⟩)).1⟩

/-- The values of the arguments are built to the expressions. -/
theorem expressions (h : WritesAll options r s args ns) (hr : Resolvable options r) :
    ∃ ms, (runner options r).expressions (args.map toQl) s = .ok ms ∧ List.Forall₂ Eq ns ms := by
  refine ⟨ns, ?_, List.forall₂_same.mpr fun _ _ => rfl⟩
  rw [Builder.expressions, mapM_eq_ok_iff, List.forall₂_map_left_iff]
  exact h.imp fun arg n harg => harg.builds hr

end WritesAll

/-- What stands for an expression without its alias and cast and, as a short expression, with them,
stands for it both as an argument and as a short expression. -/
theorem writes_toShort {arg : Argument} (hbare : tag = {} → Writes options r s arg n)
    (hshort : Writes options r s (tag.ontoArgument (.short arg.toShort)) n) :
    Writes options r s (tag.ontoArgument arg) n ∧
      Writes options r s (.short (tag.ontoArgument arg).toShort) n := by
  by_cases htag : tag = {}
  · subst htag
    exact ⟨hbare rfl, hshort⟩
  · have honto : ∀ arg, tag.ontoArgument arg =
        .short (tagShort arg.toShort tag.label tag.cast) := by
      intro arg
      obtain ⟨label, cast⟩ := tag
      cases label <;> cases cast <;> first | rfl | exact absurd rfl htag
    rw [honto] at hshort ⊢
    exact ⟨hshort, hshort⟩

/-- A short expression that stands for an expression does so in both ways. -/
theorem writes_of_short (h : Writes options r s (tag.ontoArgument (.short short)) n) :
    Writes options r s (tag.ontoArgument (.short short)) n ∧
      Writes options r s (.short (tag.ontoArgument (.short short)).toShort) n := by
  refine writes_toShort ?_ h
  rintro rfl
  exact h

/-- A short expression with arguments that its form takes stands for an expression if the value of
its form does, with its alias and cast. -/
theorem writes_form
    (hshorts : options.keepShorts = false) (htakes : form.Takes positional named)
    (hproper : itemsAll Argument.Proper positional ∧ namedAll Argument.Proper named)
    (hlegible : itemsAll Argument.Legible positional ∧ namedAll Argument.Legible named)
    (hexpand : FormArgs.expand ⟨form, form.template.zip positional ++ (named ++ tag.arguments)⟩ =
      .ok v)
    (hbuilds : Resolvable options r →
      ∃ m, (runner options r).value .expression (tag.onto v) s = .ok m ∧ n = m) :
    Writes options r s (tag.ontoArgument (.short (.mk form.name positional named))) n := by
  rw [Tag.ontoArgument_short htakes]
  have hproper := htakes.proper tag hproper.1 hproper.2
  have hlegible : (mk form.name positional (named ++ tag.arguments)).All Argument.Legible :=
    Form.Takes.legible tag hlegible.1 hlegible.2
  refine ⟨hproper, hlegible, fun hr => ?_⟩
  obtain ⟨m, hm, rfl⟩ := hbuilds hr
  refine run_short hr hshorts hproper hlegible (expand_eq_ok htakes hexpand) ?_
  rw [run_eq_value hr, hm]

/-! ## Kinds of expressions -/

section Kinds

/-- An array without alias and cast stands for itself. -/
theorem bareArray_writes (parts : WritesAll options r s args ns) :
    Writes options r s (.array args) (.array ns {}) := by
  refine ⟨parts.proper, parts.legible, fun hr => ?_⟩
  obtain ⟨m, hm, rfl⟩ := value_bareArray (congruence_eq (.ofFirst fun _ => True))
    (parts.expressions hr)
  rw [toQl_array, run_eq_value hr, hm]

private theorem toQl_toArgument (p : Primitive) : p.toArgument.toQl = p.toJson := by
  cases p <;> rfl

/-- A constant without alias and cast stands for itself. -/
theorem bareConstant_writes (read : Primitive.ofJson v = .ok p)
    (hlegible : p.toArgument.All Argument.Legible) :
    Writes options r s p.toArgument (.constant p {}) := by
  refine ⟨by cases p <;> trivial, hlegible, fun hr => ?_⟩
  have hvalue : ∃ m, (runner options r).value .expression (Tag.onto {} p.toJson) s = .ok m ∧
    .constant p {} = m :=
    value_constant (congruence_eq (.ofFirst fun _ => True)) read nofun
  obtain ⟨m, hm, rfl⟩ := hvalue
  rw [toQl_toArgument, run_eq_value hr]
  exact hm

variable (hshorts : options.keepShorts = false)

include hshorts

/-- A column stands in its form. -/
theorem column_writes {c : Column} (hname : c.name ≠ "") (hview : c.view ≠ some "")
    (found : s.resolveColumn c.view c.name = .ok ⟨c.qualifier, c.origin⟩)
    (named : tag.label ≠ some "") :
    Writes options r s (tag.ontoArgument (.short (.mk Form.column.name
      (.string c.name :: (c.view.map .string).toList) []))) (.column c tag) := by
  refine writes_form (v := c.toQl) hshorts (.of_positional ?_) ⟨?_, trivial⟩ ⟨?_, trivial⟩ ?_ ?_
  · cases c.view <;> simp [Form.template]
  · cases c.view <;> exact ⟨trivial, by trivial⟩
  · cases c.view <;> exact ⟨trivial, by trivial⟩
  · let given : FormArgs := ⟨.column, Form.column.template.zip
      (.string c.name :: (c.view.map .string).toList) ++ ([] ++ tag.arguments)⟩
    have hcolumn : given.string "column" = .ok c.name :=
      string_eq_ok (by simp [given, Form.template])
    have hview : given.string? "view" = .ok c.view := by
      refine string?_eq_ok ?_
      cases hv : c.view <;> simp [given, hv, Form.template, List.lookup, Tag.lookup_arguments]
    change given.expand = .ok c.toQl
    simp only [FormArgs.expand, hcolumn, hview, given, ok_bind, Column.toQl]
    cases c.view <;> rfl
  · intro _
    exact value_column (congruence_eq (.ofFirst fun _ => True)) hname hview found named

/-- A parameter stands in its form. -/
theorem parameter_writes {name : String} {value : Option Node} (hasName : name ≠ "")
    (unreserved : name.startsWith "__" = false)
    (hvalue : (runner options r).boundValue name s = .ok value) (named : tag.label ≠ some "") :
    Writes options r s (tag.ontoArgument (.short (.mk Form.param.name [.string name] [])))
      (.parameter name value tag) := by
  refine writes_form (v := .object [("type", .string "parameter"), ("value", .string name)]) hshorts
    (.of_positional (by simp [Form.template])) ⟨⟨trivial, trivial⟩, trivial⟩
      ⟨⟨trivial, trivial⟩, trivial⟩
    ?_ ?_
  · have hname : FormArgs.string
      ⟨.param, Form.param.template.zip [.string name] ++ ([] ++ tag.arguments)⟩
        "name" = .ok name := string_eq_ok (by simp [Form.template])
    simp only [FormArgs.expand, hname]
    rfl
  · intro _
    refine value_parameter (congruence_eq (.ofFirst fun _ => True)) hasName unreserved
      ⟨value, hvalue, ?_⟩ named
    cases value with
    | none => exact .none
    | some n => exact .some rfl

/-- A function call stands in its form, over arguments that stand for its own. -/
theorem call_writes {f : FunctionSpec} {distinct : Bool}
    (known : FunctionRegistry.standard.get? f.name = some f ∧ f.name ≠ "")
    (parts : WritesAll options r s args ns) (arity : f.arity.accepts ns.length = true)
    (aggregate : distinct = true → f.isAggregate = true) (named : tag.label ≠ some "") :
    Writes options r s
      (tag.ontoArgument (.short (.mk Form.function.name [.string f.name, .array args]
      (if distinct then [("distinct", .bool true)] else []))))
      (.call f ns distinct tag) := by
  refine writes_form (v := .object ([("type", .string "function"), ("value", .string f.name),
      ("args", .array (args.map Argument.toQl))] ++ flagField "distinct" distinct)) hshorts ?_
    ⟨⟨trivial, parts.proper, trivial⟩, ?_⟩ ⟨⟨trivial, parts.legible, trivial⟩, ?_⟩ ?_ ?_
  · cases distinct
    · exact .of_positional (by simp [Form.template])
    · exact ⟨by simp [Form.template], by simp [Form.template], by simp [Form.template]⟩
  · cases distinct <;> simp [namedAll, Argument.All, Argument.Proper]
  · cases distinct <;> simp [namedAll, Argument.All, Argument.Legible]
  · let given : FormArgs := ⟨.function, Form.function.template.zip [.string f.name, .array args] ++
      ((if distinct then [("distinct", .bool true)] else []) ++ tag.arguments)⟩
    have hname : given.string "name" = .ok f.name :=
      string_eq_ok (by simp [given, Form.template])
    have hargs : given.qlList "args" = args.map Argument.toQl :=
      qlList_eq (by simp [given, Form.template, List.lookup])
    have hdistinct : given.bool? "distinct" = .ok (if distinct then some true else none) := by
      cases distinct <;>
        simp [FormArgs.bool?, FormArgs.get?, given, Form.template, List.lookup,
          Tag.lookup_arguments]
      rfl
    change given.expand = _
    simp only [FormArgs.expand, hname, hargs, hdistinct, given, ok_bind]
    cases distinct <;> rfl
  · intro hr
    exact value_call (Node.congruence_eq (.ofFirst fun _ => True)) known
      (parts.expressions hr) arity aggregate named

/-- A shape stands in its form, over arguments that stand for its own. -/
theorem geometry_writes {type : GeometryType} (parts : WritesAll options r s args ns)
    (arity : type.arity.accepts ns.length = true) (named : tag.label ≠ some "") :
    Writes options r s
      (tag.ontoArgument (.short (.mk Form.geo.name [.string type.name, .array args] [])))
      (.geometry type ns tag) := by
  refine writes_form (v := FormArgs.geometry type (args.map Argument.toQl)) hshorts
    (.of_positional (by simp [Form.template])) ⟨⟨trivial, parts.proper, trivial⟩, trivial⟩
    ⟨⟨trivial, parts.legible, trivial⟩, trivial⟩ ?_ ?_
  · let given : FormArgs :=
      ⟨.geo, Form.geo.template.zip [.string type.name, .array args] ++ ([] ++ tag.arguments)⟩
    have hname : given.string "type" = .ok type.name :=
      string_eq_ok (by simp [given, Form.template])
    have hargs : given.qlList "args" = args.map Argument.toQl :=
      qlList_eq (by simp [given, Form.template, List.lookup])
    change given.expand = _
    simp only [FormArgs.expand, hname, hargs, given, ok_bind, GeometryType.ofName_name]
    rfl
  · intro hr
    exact value_geometry (Node.congruence_eq (.ofFirst fun _ => True))
      (parts.expressions hr) arity named

/-- A logical operator stands in its own form, over arguments that stand for its operands. -/
theorem logical_writes (hform : op = .and ∧ form = .and ∨ op = .or ∧ form = .or)
    (parts : WritesAll options r s args ns) (arity : op.arity.accepts ns.length = true)
    (flat : ∀ n ∈ ns, Builder.absorbed? op n = none) (named : tag.label ≠ some "") :
    Writes options r s (tag.ontoArgument (.short (.mk form.name [.array args] [])))
      (.operation op ns none tag) := by
  refine writes_form (v := .object (op.qlFields ++ [("operands", .array (args.map toQl))] ++
      optionField "qualifier" (Option.map (.string ·.name) (none : Option Qualifier)))) hshorts
    (.of_positional ?_) ⟨⟨parts.proper, trivial⟩, trivial⟩ ⟨⟨parts.legible, trivial⟩, trivial⟩ ?_ ?_
  · obtain ⟨-, rfl⟩ | ⟨-, rfl⟩ := hform <;> simp [Form.template]
  · have hoperands : FormArgs.qlList
      ⟨form, form.template.zip [.array args] ++ ([] ++ tag.arguments)⟩
        "operands" = args.map Argument.toQl := by
      refine qlList_eq ?_
      obtain ⟨-, rfl⟩ | ⟨-, rfl⟩ := hform <;> simp [Form.template]
    obtain ⟨rfl, rfl⟩ | ⟨rfl, rfl⟩ := hform
    · simp only [FormArgs.expand, hoperands]
      rfl
    · simp only [FormArgs.expand, hoperands]
      rfl
  · intro hr
    exact value_operation (congruence_eq (.ofFirst fun _ => True))
      (parts.expressions hr) arity nofun
      (fun _ => flat) named

/-- An operator with a name stands in its form, over arguments that stand for its operands. -/
theorem operator_writes {qualifier : Option Qualifier} (hop : op ≠ .and ∧ op ≠ .or)
    (parts : WritesAll options r s args ns) (arity : op.arity.accepts ns.length = true)
    (qualified : qualifier.isSome → op.allowsQualifier = true)
    (flat : op.isLogical = true → ∀ n ∈ ns, Builder.absorbed? op n = none)
    (named : tag.label ≠ some "") :
    Writes options r s
      (tag.ontoArgument (.short (.mk Form.operator.name ([.string op.name, .array args] ++
      (qualifier.map (.string ·.name)).toList) [])))
      (.operation op ns qualifier tag) := by
  have hfields : op.qlFields = [("type", .string "operator"), ("value", .string op.name)] := by
    cases op <;> simp_all [Operator.qlFields]
  refine writes_form
    (v := .object (op.qlFields ++ [("operands", .array (args.map Argument.toQl))] ++
      optionField "qualifier" (qualifier.map (.string ·.name)))) hshorts (.of_positional ?_)
    ⟨?_, trivial⟩ ⟨?_, trivial⟩ ?_ ?_
  · cases qualifier <;> simp [Form.template]
  · cases qualifier <;> exact ⟨trivial, parts.proper, by trivial⟩
  · cases qualifier <;> exact ⟨trivial, parts.legible, by trivial⟩
  · let given : FormArgs :=
      ⟨.operator, Form.operator.template.zip ([.string op.name, .array args] ++
      (qualifier.map (.string ·.name)).toList) ++ ([] ++ tag.arguments)⟩
    have hname : given.string "operator" = .ok op.name :=
      string_eq_ok (by simp [given, Form.template])
    have hoperands : given.qlList "operands" = args.map Argument.toQl :=
      qlList_eq (by simp [given, Form.template, List.lookup])
    have hqualifier : given.string? "qualifier" = .ok (qualifier.map (·.name)) := by
      refine string?_eq_ok ?_
      cases qualifier <;> simp [given, Form.template, List.lookup, Tag.lookup_arguments]
    change given.expand = _
    simp only [FormArgs.expand, hname, hoperands, hqualifier, given, ok_bind, hfields]
    cases qualifier <;> rfl
  · intro hr
    exact value_operation (Node.congruence_eq (.ofFirst fun _ => True))
      (parts.expressions hr) arity qualified
      flat named

/-- A list of values stands in its form. -/
theorem list_writes (nonempty : ns ≠ []) (parts : WritesAll options r s args ns) :
    Writes options r s (Tag.ontoArgument {} (.short (.mk Form.list.name [.array args] [])))
      (.list ns) := by
  refine writes_form (v := .object [("type", .string "list"), ("values", .array (args.map toQl))])
    hshorts (.of_positional (by simp [Form.template])) ⟨⟨parts.proper, trivial⟩, trivial⟩
    ⟨⟨parts.legible, trivial⟩, trivial⟩ ?_ ?_
  · rfl
  · intro hr
    exact value_list (congruence_eq (.ofFirst fun _ => True)) nonempty (parts.expressions hr)

/-- An array stands in its form. -/
theorem array_writes (parts : WritesAll options r s args ns) (named : tag.label ≠ some "") :
    Writes options r s (tag.ontoArgument (.short (.mk Form.array.name [.array args] [])))
      (.array ns tag) := by
  refine writes_form (v := .object [("type", .string "array"), ("values", .array (args.map toQl))])
    hshorts (.of_positional (by simp [Form.template])) ⟨⟨parts.proper, trivial⟩, trivial⟩
    ⟨⟨parts.legible, trivial⟩, trivial⟩ ?_ ?_
  · rfl
  · intro hr
    exact value_arrayObject (congruence_eq (.ofFirst fun _ => True)) (parts.expressions hr) named

/-- A constant stands in its form. -/
theorem constant_writes (read : Primitive.ofJson v = .ok p)
    (hlegible : p.toArgument.All Argument.Legible) (named : tag.label ≠ some "") :
    Writes options r s (tag.ontoArgument (.short (.mk Form.primitive.name [p.toArgument] [])))
      (.constant p tag) := by
  have hproper : p.toArgument.All Argument.Proper := by cases p <;> trivial
  refine writes_form (v := .object [("type", .string "primitive"), ("value", p.toJson)]) hshorts
    (.of_positional (by simp [Form.template])) ⟨⟨hproper, trivial⟩, trivial⟩
      ⟨⟨hlegible, trivial⟩, trivial⟩
    ?_ ?_
  · cases p <;> rfl
  · intro _
    exact value_constantObject (congruence_eq (.ofFirst fun _ => True)) (ofJson_toJson read) named

end Kinds

end Build

/-! ## The round trip -/

/-- What was built is what its argument stands for, both as it is and as a short expression. -/
theorem Built.writes {place : Place} (hshorts : options.keepShorts = false)
    (h : Built options r place s n) :
    place = .value → n.RealsLegible → ∀ arg, n.toArgument { keepParamRefs := true } = .ok arg →
      Build.Writes options r s arg n ∧ Build.Writes options r s (.short arg.toShort) n := by
  induction h with
  | @constant r s p tag value read named =>
    rintro - hreals arg ⟨⟩
    have hlegible : p.toArgument.All Argument.Legible :=
      Primitive.legible_toArgument read fun x hx => hreals _ .refl x (hx ▸ rfl)
    have hform : p.toArgument.toShort = .mk Form.primitive.name [p.toArgument] [] := by
      cases p <;> exact congrArg (push · _) (ofName_form .primitive)
    refine writes_toShort ?_ (hform ▸ constant_writes hshorts read hlegible named)
    rintro rfl
    exact bareConstant_writes read hlegible
  | @column r s c tag hasName hasView found named =>
    rintro - - arg ⟨⟩
    have hform : c.toShort = .mk Form.column.name
        (.string c.name :: (c.view.map .string).toList) [] := by
      rw [Column.toShort, show ofName "column" = _ from ofName_form .column]
      cases c.view <;> rfl
    rw [hform]
    exact writes_of_short (column_writes hshorts hasName hasView found named)
  | @bound r s name value n tag hasName unreserved binding fresh run inner named ih =>
    rintro - - arg ⟨⟩
    rw [show ofName "param" = _ from ofName_form .param]
    refine writes_of_short (parameter_writes hshorts hasName unreserved ?_ named)
    exact boundValue_eq_some binding fresh run
  | free hasName unreserved binding allowed named =>
    rintro - - arg ⟨⟩
    rw [show ofName "param" = _ from ofName_form .param]
    refine writes_of_short (parameter_writes hshorts hasName unreserved ?_ named)
    exact boundValue_eq_none binding allowed
  | @call r s f args distinct tag known parts arity aggregate named ih =>
    intro _ hreals arg harg
    rw [toArgument] at harg
    obtain ⟨args', hparts, ⟨⟩⟩ := Build.WritesAll.of_bind harg fun n hn arg harg =>
      (ih n hn rfl (hreals.of_mem hn) arg harg).1
    have hwrites := call_writes hshorts known hparts arity aggregate named
    rw [show ofName "function" = _ from ofName_form .function]
    cases distinct <;> exact writes_of_short hwrites
  | @geometry r s type args tag parts arity named ih =>
    intro _ hreals arg harg
    rw [toArgument] at harg
    obtain ⟨args', hparts, ⟨⟩⟩ := Build.WritesAll.of_bind harg fun n hn arg harg =>
      (ih n hn rfl (hreals.of_mem hn) arg harg).1
    rw [show ofName "geo" = _ from ofName_form .geo]
    exact writes_of_short (geometry_writes hshorts hparts arity named)
  | @operation r s op operands qualifier tag parts arity qualified flat named ih =>
    intro _ hreals arg harg
    rw [toArgument] at harg
    obtain ⟨args', hparts, ⟨⟩⟩ := Build.WritesAll.of_bind harg fun n hn arg harg =>
      (ih n hn rfl (hreals.of_mem hn) arg harg).1
    by_cases hop : op = .and ∨ op = .or
    · have hnone : qualifier = none := by
        obtain rfl | rfl := hop <;> cases qualifier <;> first | rfl | cases qualified rfl
      subst hnone
      have hlogical : op.isLogical = true := by obtain rfl | rfl := hop <;> rfl
      obtain rfl | rfl := hop
      · rw [Operator.toShort, show ofName "and" = _ from ofName_form .and]
        exact writes_of_short
          (logical_writes hshorts (.inl ⟨rfl, rfl⟩) hparts arity (flat hlogical) named)
      · rw [Operator.toShort, show ofName "or" = _ from ofName_form .or]
        exact writes_of_short
          (logical_writes hshorts (.inr ⟨rfl, rfl⟩) hparts arity (flat hlogical) named)
    · have hform : op.toShort = .mk Form.operator.name [.string op.name] [] := by
        have hname : (ofName "operator").push (.string op.name) =
            .mk Form.operator.name [.string op.name] [] :=
          congrArg (push · _) (ofName_form .operator)
        cases op <;> first | exact hname | exact absurd (by simp) hop
      rw [hform]
      have hwrites := operator_writes hshorts (not_or.mp hop) hparts arity qualified flat named
      cases qualifier <;> exact writes_of_short hwrites
  | @array r s items tag parts named ih =>
    intro _ hreals arg harg
    rw [toArgument] at harg
    obtain ⟨args', hparts, ⟨⟩⟩ := Build.WritesAll.of_bind harg fun n hn arg harg =>
      (ih n hn rfl (hreals.of_mem hn) arg harg).1
    have hform : (Argument.array args').toShort = .mk Form.array.name [.array args'] [] :=
      congrArg (push · _) (ofName_form .array)
    refine writes_toShort ?_ (hform ▸ array_writes hshorts hparts named)
    rintro rfl
    exact bareArray_writes hparts
  | @list r s items nonempty parts ih =>
    intro _ hreals arg harg
    rw [toArgument] at harg
    obtain ⟨args', hparts, ⟨⟩⟩ := Build.WritesAll.of_bind harg fun n hn arg harg =>
      (ih n hn rfl (hreals.of_mem hn) arg harg).1
    rw [show ofName "list" = _ from ofName_form .list]
    exact writes_of_short (list_writes hshorts nonempty hparts)
  | short kept part =>
    rw [hshorts] at kept
    cases kept
  | case | sort | select | compound | join =>
    intro _ _ arg harg
    cases harg
  | view fits =>
    rintro rfl
    cases fits

namespace Build

/-- What was built and has a short form is built again from the text of that form, in the same scope
and with the same choices, provided that its real numbers are read back from their own text. -/
theorem shortText_roundTrip {options : ParseOptions} (hshorts : options.keepShorts = false)
    {q : Json} {s : Scope} {n : Node} {text : String} (hbuild : expression options q s = .ok n)
    (hreals : n.RealsLegible) (htext : n.shortText { keepParamRefs := true } = .ok text) :
    expression options (.object [("type", .string "short"), ("value", .string text)]) s =
        .ok n := by
  obtain ⟨arg, harg, htext⟩ := Result.of_bind htext
  cases htext
  have hbuilt := run_built .expression .value rfl hbuild
  have hwrites := (hbuilt.writes hshorts rfl hreals arg harg).2
  exact hwrites.builds (resolvable_nil options)

/-- Texts that are empty or look like a number stay texts, beside a column with a cast, a real
number and a bound parameter with an alias. -/
theorem shortText_roundTrip_texts :
    ∃ n, n.RealsLegible ∧
      n.shortText { keepParamRefs := true } =
        .ok "@operator(in,[@param(p,as='x y'),@list(['7',@column(a,v,cast=text),'',1.5])])" ∧
      expression { parameters := some [("p", .array [.null])] }
        (.object [("type", .string "short"), ("value",
          .string "@operator(in,[@param(p,as='x y'),@list(['7',@column(a,v,cast=text),'',1.5])])")])
        { refs := [("v", .view "v")], inSelect := true } = .ok n := by
  let column : Node := .column ⟨"a", some "v", some "v", some "v"⟩ { cast := some .text }
  let items (x : Binary64) : List Node :=
    [.constant (.string "7") {}, column, .constant (.string "") {}, .constant (.real x) {}]
  let n (x : Binary64) : Node :=
    .operation .isIn [.parameter "p" (some (.array [.constant .null {}] {}))
    { label := some "x y" }, .list (items x)] none {}
  have hleaf : ∀ m : Node, m.real? = none → m.inQl = [] → m.RealsLegible := by
    intro m hreal hparts
    exact .intro (by simp [hreal]) (by simp [hparts])
  have hreals : ∀ x, Number.ofText? (Number.real x).text = some (.real x) → (n x).RealsLegible := by
    intro x hx
    refine .intro (by simp [n, real?]) ?_
    intro m hm
    simp only [inQl, children, n, List.mem_cons, List.not_mem_nil, or_false] at hm
    obtain rfl | rfl := hm
    · exact hleaf _ rfl rfl
    · refine .intro (by simp [real?]) ?_
      intro m hm
      simp only [inQl, children, items, List.mem_cons, List.not_mem_nil, or_false] at hm
      obtain rfl | rfl | rfl | rfl := hm
      · exact hleaf _ rfl rfl
      · exact hleaf _ rfl rfl
      · exact hleaf _ rfl rfl
      · exact .intro (by simp [real?, hx]) (by simp [inQl, children])
  have hbuild : ∀ x, expression { parameters := some [("p", .array [.null])] }
      (.object [("type", .string "operator"), ("value", .string "in"), ("operands", .array
        [.object [("type", .string "parameter"), ("value", .string "p"), ("as", .string "x y")],
          .object [("type", .string "list"), ("values", .array [.string "7",
            .object [("type", .string "column"), ("column", .string "a"), ("view", .string "v"),
              ("cast", .string "text")], .string "", .number (.real x)])]])])
      { refs := [("v", .view "v")], inSelect := true } = .ok (n x) := by
    intro x
    cbv
  let real : Binary64 := ⟨false, 6755399441055744, -52, by decide⟩
  have hreal : Number.ofText? (Number.real real).text = some (.real real) := by decide +kernel
  have htext : ((n real).shortText { keepParamRefs := true }).toOption =
      some "@operator(in,[@param(p,as='x y'),@list(['7',@column(a,v,cast=text),'',1.5])])" := by
    decide +kernel
  have htext : (n real).shortText { keepParamRefs := true } =
      .ok "@operator(in,[@param(p,as='x y'),@list(['7',@column(a,v,cast=text),'',1.5])])" := by
    cases h : (n real).shortText { keepParamRefs := true } with
    | error e => simp [h, Except.toOption] at htext
    | ok text => simpa [h, Except.toOption] using htext
  exact ⟨n real, hreals real hreal, htext,
    shortText_roundTrip rfl (hbuild real) (hreals real hreal) htext⟩

end Build

end AnalyticQuery
