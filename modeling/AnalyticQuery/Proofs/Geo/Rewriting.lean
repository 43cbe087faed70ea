import AnalyticQuery.Proofs.Geo.Crossing
import AnalyticQuery.Proofs.Tree.Tagging

/-!
# Intersections read back

A tree is written as a query value, equations between places of different types become intersections
in the value, and the value is read in place of the first one. The search finds the same equations
in the value as in the tree, so that what is read back is the tree with the same changes.
-/

namespace AnalyticQuery

open Builder Fields Geo Json List Node

open Geo (Refs)

variable {n m : Node} {tag : Tag} {options : ParseOptions} {r : List String} {s : Scope}
variable {catalog : Catalog} {refs : Refs} {F : Fields}

variable {found leftType rightType : String}

/-! ## Changes inside a written value -/

/-- Changes of values that leave scalars as they are and go through arrays. -/
structure Json.Passes (g : Json → Json) : Prop where
  null : g .null = .null
  bool : ∀ b, g (.bool b) = .bool b
  number : ∀ number, g (.number number) = .number number
  string : ∀ text, g (.string text) = .string text
  array : ∀ items, g (.array items) = .array (items.map g)

private theorem Geo.passes_crossed (catalog : Catalog) (refs : Refs) :
    Json.Passes (crossed catalog refs) where
  null := rfl
  bool _ := rfl
  number _ := rfl
  string _ := rfl
  array := crossed_array

section Passes

variable {g : Json → Json} {type : ExpressionType}

theorem Fields.Own.mapValues (hown : F.Own type) (hg : Json.Passes g) :
    (F.mapValues g).Own type where
  type := by rw [get?_mapValues, hown.type, Option.map_some, hg.string]
  cast := by rw [get?_mapValues, hown.cast, Option.map_none]
  label := by rw [get?_mapValues, hown.label, Option.map_none]

private theorem Tag.mapValues_fields (hg : Json.Passes g) (tag : Tag) :
    mapValues g tag.fields = tag.fields := by
  obtain ⟨label, cast⟩ := tag
  cases label <;> cases cast <;> simp [fields, hg.string]

/-- An alias and a cast stay as they are. -/
theorem Json.mapInside_onto (hg : Passes g) (hown : F.Own type) (tag : Tag) :
    (tag.onto (.object F)).mapInside g = tag.onto (.object (F.mapValues g)) := by
  have hown' := hown.mapValues hg
  rw [tag.onto_object hown.cast hown.label, tag.onto_object hown'.cast hown'.label, mapInside,
    mapValues_append, tag.mapValues_fields hg]

private theorem Primitive.passes_toJson (hg : Json.Passes g) (p : Primitive) :
    g p.toJson = p.toJson := by
  cases p with
  | string text => exact hg.string text
  | int i => exact hg.number _
  | real x => exact hg.number _
  | bool b => exact hg.bool b
  | null => exact hg.null

private theorem Limit.passes_toQl (hg : Json.Passes g) (limit : Limit) :
    g limit.toQl = limit.toQl := by
  cases limit with
  | count rows => exact hg.number _
  | all => exact hg.string _

namespace Node

private theorem relationWith_passes (hg : Json.Passes g) (n : Node) :
    g (n.relationWith (ql false)) = n.relationWith fun m => g (m.ql false) := by
  unfold relationWith
  split
  · exact hg.string _
  · rfl

private theorem mapValues_selectFields (hg : Json.Passes g) (c : Clauses Node) :
    mapValues g (selectFields (clausesWith (ql false) c)) =
      selectFields (clausesWith (fun m => g (m.ql false)) c) := by
  have hoffset : ∀ rows, g (.nat rows) = .nat rows := fun rows => hg.number _
  simp [selectFields, clausesWith, mapValues_listField hg.array, mapValues_flagField (hg.bool true),
    hg.string, hg.array, Function.comp_def, relationWith_passes hg, Limit.passes_toQl hg, hoffset]

private theorem mapValues_compoundFields (hg : Json.Passes g) (op : SetOperator) (all : Bool)
    (left right : Json) :
    mapValues g (compoundFields op all left right) = compoundFields op all (g left) (g right) := by
  simp [compoundFields, mapValues_flagField (hg.bool true), hg.string, hg.array]

private theorem mapValues_operationFields (hg : Json.Passes g) (op : Operator) (values : List Json)
    (qualifier : Option Qualifier) :
    mapValues g (operationFields op values qualifier) =
      operationFields op (values.map g) qualifier := by
  have hop : mapValues g op.qlFields = op.qlFields := by
    cases op <;> simp [Operator.qlFields, hg.string]
  simp [operationFields, hop, hg.string, hg.array, Function.comp_def]

private theorem mapValues_ownFields (hg : Json.Passes g) (n : Node) :
    mapValues g (n.ownFields (ql false)) = n.ownFields fun m => g (m.ql false) := by
  cases n with
  | select role c tag => exact mapValues_selectFields hg c
  | compound => exact mapValues_compoundFields hg ..
  | operation op operands qualifier tag =>
    simp [ownFields, mapValues_operationFields hg, Function.comp_def]
  | constant value tag =>
    have hvalue := value.passes_toJson hg
    cases value <;> simp_all [ownFields, Primitive.toJson, taggable, int, hg.string]
  | short => rfl
  | _ =>
    simp [ownFields, joinFields, viewFields, columnFields, parameterFields, callFields,
      geometryFields, caseFields, arrayFields, listFields, sortFields, hg.string, hg.array,
      mapValues_flagField (hg.bool true), relationWith_passes hg, Function.comp_def]

/-- A change of what is directly inside a written value is a change of how the expressions inside
are written. -/
theorem mapInside_ql (hg : Json.Passes g) (hs : n.isShort = false) :
    (n.ql false).mapInside g = n.qlWith fun m => g (m.ql false) := by
  rw [ql_eq]
  obtain h | ⟨items, rfl⟩ | ⟨value, rfl⟩ := qlWith_cases hs
  · rw [h, h, mapInside_onto hg (own_ownFields _ hs), mapValues_ownFields hg]
  · simp [qlWith, Tag.onto_empty, mapInside, Function.comp_def]
  · cases value <;> rfl

end Node

end Passes

/-- Properties that scalars have, and arrays if all their items have them. -/
structure Json.Spreads (P : Json → Prop) : Prop where
  null : P .null
  bool : ∀ b, P (.bool b)
  number : ∀ number, P (.number number)
  string : ∀ text, P (.string text)
  array : ∀ items, P (.array items) ↔ ∀ v ∈ items, P v
  view : ∀ name, P (viewQl name)

section Spreads

variable {P : Json → Prop} {G : Fields} {type : ExpressionType}

/-- Whether the values of fields all have a property. -/
def Fields.Each (P : Json → Prop) (F : Fields) : Prop := ∀ field ∈ F, P field.2

namespace Fields

@[simp] theorem each_nil : Each P [] ↔ True := by simp [Each]

@[simp] theorem each_cons (key : String) (v : Json) :
    Each P ((key, v) :: F) ↔ P v ∧ Each P F := by simp [Each]

@[simp] theorem each_append :
    Each P (F ++ G) ↔ Each P F ∧ Each P G := by simp [Each, or_imp, forall_and]

@[simp] theorem each_optionField (key : String) (v : Option Json) :
    Each P (optionField key v) ↔ ∀ w ∈ v, P w := by
  cases v <;> simp [Each, optionField]

private theorem each_listField (hP : Json.Spreads P) (key : String) (items : List Json) :
    Each P (listField key items) ↔ ∀ v ∈ items, P v := by
  cases items <;> simp [Each, listField, hP.array]

private theorem each_flagField (hP : Json.Spreads P) (key : String) (flag : Bool) :
    Each P (flagField key flag) := by
  cases flag <;> simp [Each, flagField, hP.bool]

private theorem each_tag (hP : Json.Spreads P) (tag : Tag) : Each P tag.fields := by
  obtain ⟨label, cast⟩ := tag
  cases label <;> cases cast <;> simp [Tag.fields, hP.string]

end Fields

private theorem Json.forall_inside_object : (∀ w ∈ Geo.inside (.object F), P w) ↔ F.Each P :=
  forall_mem_map

/-- An alias and a cast are texts. -/
theorem Json.forall_inside_onto (hP : Spreads P) (hown : F.Own type) (tag : Tag) :
    (∀ w ∈ Geo.inside (tag.onto (.object F)), P w) ↔ F.Each P := by
  rw [tag.onto_object hown.cast hown.label, forall_inside_object, each_append]
  exact and_iff_left (each_tag hP tag)

private theorem Primitive.spreads_toJson (hP : Json.Spreads P) (p : Primitive) : P p.toJson := by
  cases p with
  | string text => exact hP.string text
  | int i => exact hP.number _
  | real x => exact hP.number _
  | bool b => exact hP.bool b
  | null => exact hP.null

private theorem Limit.spreads_toQl (hP : Json.Spreads P) (limit : Limit) : P limit.toQl := by
  cases limit with
  | count rows => exact hP.number _
  | all => exact hP.string _

namespace Node

private theorem spreads_relationWith (hP : Json.Spreads P) (n : Node) :
    P (n.relationWith (ql false)) ↔ P (n.ql false) := by
  unfold relationWith
  split
  · next name hname =>
    cases n with
    | view name isCte label =>
      cases label with
      | none => exact iff_of_true (hP.string _) (hP.view name)
      | some => cases hname
    | _ => cases hname
  · rfl

private theorem each_ownFields (hP : Json.Spreads P) (hs : n.isShort = false) :
    (n.ownFields (ql false)).Each P ↔ ∀ m ∈ n.inQl, P (m.ql false) := by
  cases n with
  | select role c tag =>
    have hoffset : ∀ rows : Nat, P (.nat rows) := fun rows => hP.number _
    simp [ownFields, selectFields, clausesWith, inQl, children, Clauses.parts, each_listField hP,
      each_flagField hP, hP.string, hP.array, Limit.spreads_toQl hP, hoffset, or_imp, forall_and,
      spreads_relationWith hP]
  | operation op operands qualifier tag =>
    have hop : Fields.Each P op.qlFields := by
      cases op <;> simp [Operator.qlFields, hP.string]
    simp [ownFields, operationFields, inQl, children, hop, hP.string, hP.array]
  | case branches otherwise tag =>
    have hcases : (∀ v ∈ branches.map fun b => Json.array [b.1.ql false, b.2.ql false], P v) ↔
        ∀ b ∈ branches, ∀ m ∈ [b.1, b.2], P (m.ql false) := by
      rw [forall_mem_map]
      simp [hP.array]
    simp only [ownFields, caseFields, Fields.each_append, Fields.each_cons, Fields.each_nil,
      Fields.each_optionField, hP.string, hP.array, hcases, inQl, children, forall_mem_append,
      forall_mem_flatMap]
    simp
  | constant value tag =>
    refine iff_of_true ?_ (by rintro _ ⟨⟩)
    have hvalue := value.spreads_toJson hP
    cases value <;> simp_all [ownFields, Primitive.toJson, taggable, int, hP.string]
  | short => cases hs
  | _ =>
    simp [ownFields, compoundFields, joinFields, viewFields, columnFields, parameterFields,
      callFields, geometryFields, arrayFields, listFields, sortFields, inQl, children, hP.string,
      hP.array, each_flagField hP, spreads_relationWith hP]

/-- What is directly inside a written value has a property exactly if what the expressions inside
are written as has it. -/
theorem forall_inside_ql (hP : Json.Spreads P) (hs : n.isShort = false) :
    (∀ w ∈ Geo.inside (n.ql false), P w) ↔ ∀ m ∈ n.inQl, P (m.ql false) := by
  rw [ql_eq]
  obtain h | ⟨items, rfl⟩ | ⟨value, rfl⟩ := qlWith_cases hs
  · rw [h, forall_inside_onto hP (own_ownFields _ hs), each_ownFields hP hs]
  · simp [qlWith, Tag.onto_empty, Geo.inside, inQl, children]
  · exact iff_of_true (by cases value <;> rintro _ ⟨⟩) (by rintro _ ⟨⟩)

end Node

end Spreads

/-! ## Equations between places in written values -/

namespace Node

variable {type : ExpressionType}

/-- An expression is written as an object of its kind, or as a bare array or scalar. -/
theorem exists_own_ql (hs : n.isShort = false) :
    (∃ F tag, n.ql false = Tag.onto tag (.object F) ∧ Fields.Own F n.type) ∨
      ∀ F, n.ql false ≠ .object F := by
  rw [ql_eq]
  obtain h | ⟨items, rfl⟩ | ⟨value, rfl⟩ := qlWith_cases hs
  · exact .inl ⟨_, n.tag, h _, own_ownFields _ hs⟩
  · exact .inr nofun
  · exact .inr (by cases value <;> exact nofun)

private theorem stringField?_own (hown : F.Own type) (tag : Tag) :
    stringField? (F ++ tag.fields) "type" = some type.name := by
  simp [stringField?, hown.type, string?]

/-- An expression of another kind is no equation. -/
theorem intersection_ql_of_type (hs : n.isShort = false) (htype : n.type ≠ .operator) :
    intersection catalog refs (n.ql false) = .ok none := by
  obtain ⟨F, tag, hql, hown⟩ | hbare := exists_own_ql hs
  · have hname : n.type.name ≠ "operator" := by
      revert htype
      cases n.type <;> decide
    have hnone : Geo.crossing? catalog refs (F ++ tag.fields) = none := by
      rw [Geo.crossing?, stringField?_own hown]
      simp [hname]
    rw [hql, tag.onto_object hown.cast hown.label, intersection, hnone]
  · cases hv : n.ql false with
    | object F => exact absurd hv (hbare F)
    | _ => rfl

/-- An expression of another kind is no column. -/
theorem operandType?_ql_of_type (hs : n.isShort = false) (htype : n.type ≠ .column) :
    operandType? catalog refs (n.ql false) = none := by
  obtain ⟨F, tag, hql, hown⟩ | hbare := exists_own_ql hs
  · have hname : n.type.name ≠ "column" := by
      revert htype
      cases n.type <;> decide
    rw [hql, tag.onto_object hown.cast hown.label, operandType?, stringField?_own hown]
    simp [hname]
  · cases hv : n.ql false with
    | object F => exact absurd hv (hbare F)
    | _ => rfl

/-- The fields of a column, with its alias and its cast. -/
theorem ql_column (c : Column) (tag : Tag) :
    (column c tag).ql false = .object (columnFields c ++ tag.fields) :=
  have hown := own_columnFields c
  tag.onto_object hown.cast hown.label

/-- The type of the places that an expression holds is found in its value. -/
theorem operandType?_ql (refs : Refs) (n : Node) :
    operandType? catalog refs (n.ql false) = n.placeType? catalog refs := by
  cases n with
  | short e inner => exact operandType?_ql refs inner
  | column c tag =>
    have hview : stringField? (columnFields c ++ tag.fields) "view" = c.view := by
      obtain ⟨label, cast⟩ := tag
      cases hview : c.view <;> cases label <;> cases cast <;>
        simp [stringField?, columnFields, Tag.fields, hview, string?]
    have hname : stringField? (columnFields c ++ tag.fields) "column" = some c.name := by
      simp [stringField?, columnFields, string?]
    have hcast : contains (columnFields c ++ tag.fields) "cast" = tag.cast.isSome := by
      obtain ⟨label, cast⟩ := tag
      cases label <;> cases cast <;> simp [columnFields, Tag.fields]
    rw [ql_column, operandType?, stringField?_own (own_columnFields c), hview, hname, hcast,
      placeType?]
    cases tag.cast with
    | some => rfl
    | none =>
      unfold Column.viewIn
      cases c.view with
      | some name => rfl
      | none => obtain _ | ⟨⟨_, _⟩, _ | ⟨_, _⟩⟩ := refs <;> rfl
  | operation op => exact operandType?_ql_of_type rfl (by cases op <;> rintro ⟨⟩)
  | _ => exact operandType?_ql_of_type rfl (by rintro ⟨⟩)
termination_by sizeOf n

/-- An expression that holds places is a column that is not cast. -/
theorem exists_column_of_placeType? (n : Node) {typeName : String}
    (h : n.placeType? catalog refs = some typeName) :
    ∃ c label, n.bare = column c { label } ∧ n.ql false = (column c { label }).ql false := by
  cases n with
  | short e inner => exact exists_column_of_placeType? inner h
  | column c tag =>
    obtain ⟨label, cast⟩ := tag
    cases cast with
    | none => exact ⟨c, label, rfl, rfl⟩
    | some => cases h
  | _ => cases h
termination_by sizeOf n

theorem placeShape_eq {type : GeometryType} {c : Column} {label : Option String}
    (h : n.bare = column c { label }) :
    placeShape type n = geometry type [column c {}] {} := by
  rw [placeShape, h]
  rfl

/-- The shape of a place is written over the column that holds it, without its alias. -/
theorem columnShape_ql (h : n.placeType? catalog refs = some found) (typeName : String) :
    (∀ type, GeometryType.place? typeName = some type →
      columnShape typeName (n.ql false) = .ok ((placeShape type n).ql false)) ∧
    (GeometryType.place? typeName = none → ∃ e, columnShape typeName (n.ql false) = .error e) := by
  obtain ⟨c, label, hbare, hql⟩ := exists_column_of_placeType? n h
  have hfilter : (columnFields c ++ Tag.fields { label }).filter (·.1 != "as") =
      columnFields c := by
    cases hview : c.view <;> cases label <;> simp [columnFields, Tag.fields, optionField, hview]
  unfold columnShape GeometryType.place?
  cases GeometryType.ofName typeName with
  | error e => exact ⟨by rintro _ ⟨⟩, fun _ => ⟨e, rfl⟩⟩
  | ok type =>
    cases hplace : type.isPlace with
    | false =>
      simp [hplace, Except.toOption, throw, throwThe, MonadExceptOf.throw, bind, Except.bind]
    | true =>
      refine ⟨fun type' htype => ?_, fun hnone => ?_⟩
      · obtain ⟨rfl, -⟩ : type = type' ∧ type'.isPlace = true := by
          simpa [Except.toOption] using htype
        rw [hql, ql_column, placeShape_eq hbare]
        simp only [Result.ok_bind, hplace, hfilter]
        rfl
      · simp [hplace, Except.toOption] at hnone

/-- An equation whose sides hold places of different types. -/
theorem crossing?_eq_some :
    n.crossing? catalog refs = some (leftType, rightType) ↔
      ∃ left right tag, n = operation .eq [left, right] none tag ∧
        left.placeType? catalog refs = some leftType ∧
        right.placeType? catalog refs = some rightType ∧ leftType ≠ rightType := by
  constructor
  · intro h
    unfold crossing? at h
    split at h
    · next left right tag =>
      obtain ⟨leftType', hleft, h⟩ := Option.bind_eq_some_iff.mp h
      obtain ⟨rightType', hright, h⟩ := Option.bind_eq_some_iff.mp h
      split at h
      · cases h
      · next hne =>
        cases h
        exact ⟨left, right, tag, rfl, hleft, hright, hne⟩
    · cases h
  · rintro ⟨left, right, tag, rfl, hleft, hright, hne⟩
    simp [crossing?, hleft, hright, hne]

private theorem crossing?_operation (catalog : Catalog) (refs : Refs) (op : Operator)
    (operands : List Node) (qualifier : Option Qualifier) (tag : Tag) :
    Geo.crossing? catalog refs
      (operationFields op (operands.map (ql false)) qualifier ++ tag.fields) =
      ((operation op operands qualifier tag).crossing? catalog refs).bind fun types =>
        match operands with
        | [left, right] => some ((left.ql false, types.1), (right.ql false, types.2))
        | _ => none := by
  by_cases hop : op = .eq
  · subst hop
    have htype :
      stringField? (operationFields .eq (operands.map (ql false)) qualifier ++ tag.fields)
        "type" = some "operator" := rfl
    have hvalue :
      stringField? (operationFields .eq (operands.map (ql false)) qualifier ++ tag.fields)
        "value" = some "=" := rfl
    have hqualifier :
      contains (operationFields .eq (operands.map (ql false)) qualifier ++ tag.fields)
        "qualifier" = qualifier.isSome := by
      obtain ⟨label, cast⟩ := tag
      cases qualifier <;> cases label <;> cases cast <;>
        simp [operationFields, Operator.qlFields, Tag.fields]
    have hoperands : get? (operationFields .eq (operands.map (ql false)) qualifier ++ tag.fields)
        "operands" = some (.array (operands.map (ql false))) := by
      simp [operationFields, Operator.qlFields]
    rw [Geo.crossing?, htype, hvalue, hqualifier, hoperands]
    obtain _ | ⟨left, _ | ⟨right, _ | ⟨_, _⟩⟩⟩ := operands
    · cases qualifier <;> rfl
    · cases qualifier <;> rfl
    · cases qualifier with
      | some => rfl
      | none =>
        simp only [map_cons, map_nil, operandType?_ql, crossing?]
        cases left.placeType? catalog refs with
        | none => rfl
        | some leftType =>
          cases right.placeType? catalog refs with
          | none => rfl
          | some rightType => by_cases h : leftType = rightType <;> simp [h]
    · cases qualifier <;> rfl
  · have hvalue :
      (stringField? (operationFields op (operands.map (ql false)) qualifier ++ tag.fields)
        "type" == some "operator" && stringField?
          (operationFields op (operands.map (ql false)) qualifier ++
          tag.fields) "value" == some "=") = false := by
      cases op with
      | eq => exact absurd rfl hop
      | _ => rfl
    have hnone : (operation op operands qualifier tag).crossing? catalog refs = none := by
      cases op with
      | eq => exact absurd rfl hop
      | _ => rfl
    rw [Geo.crossing?, hvalue, hnone]
    rfl

private theorem ql_operation (op : Operator) (operands : List Node) (qualifier : Option Qualifier)
    (tag : Tag) :
    (operation op operands qualifier tag).ql false =
      .object (operationFields op (operands.map (ql false)) qualifier ++ tag.fields) := by
  have hown := own_operationFields op (operands.map (ql false)) qualifier
  rw [ql_eq, qlWith, tag.onto_object hown.cast hown.label]

/-- Where no equation between places of different types is in a tree, none is found in its value. -/
theorem intersection_ql_of_none (hs : n.isShort = false) (h : n.crossing? catalog refs = none) :
    intersection catalog refs (n.ql false) = .ok none := by
  by_cases htype : n.type = .operator
  · cases n with
    | operation op operands qualifier tag =>
      have hnone := crossing?_operation catalog refs op operands qualifier tag
      rw [h, Option.bind_none] at hnone
      rw [ql_operation, intersection, hnone]
    | _ => cases htype
  · exact intersection_ql_of_type hs htype

/-- The fields of the intersection that stands for an equation. -/
def intersectionFields (left right : Json) (tag : Tag) : Fields :=
  callFields geoIntersects [left, right] false ++ optionField "as" (tag.label.map .string) ++
    optionField "cast" (tag.cast.map (.string ·.name))

private theorem tags_intersectionFields (left right : Json) (tag : Tag) :
    (callFields geoIntersects [left, right] false).Tags .function
    (intersectionFields left right tag) tag.label
      (tag.cast.map CastType.name) := by
  have hown := own_callFields geoIntersects [left, right] false
  have hlabel : ∀ name, callFields geoIntersects [left, right] false ++ [("as", .string name)] =
      (callFields geoIntersects [left, right] false).insert "as" (.string name) := fun name =>
    (insert_of_get?_eq_none hown.label).symm
  have hcast : ∀ (F : Fields) name, get? F "cast" = none → F ++ [("cast", .string name)] =
      F.insert "cast" (.string name) := fun F name h => (insert_of_get?_eq_none h).symm
  have hself : (callFields geoIntersects [left, right] false).Tags .function
      (callFields geoIntersects [left, right] false) none none := ⟨.refl _, hown.label, hown.cast⟩
  obtain ⟨label, cast⟩ := tag
  cases label with
  | none =>
    cases cast with
    | none => simpa [intersectionFields, optionField] using hself
    | some type =>
      have htags := hself.insert_cast type.name
      rw [← hcast _ _ hown.cast] at htags
      simpa [intersectionFields, optionField] using htags
  | some name =>
    have htags := hself.insert_label name
    cases cast with
    | none =>
      rw [← hlabel] at htags
      simpa [intersectionFields, optionField] using htags
    | some type =>
      have hfields : intersectionFields left right ⟨some name, some type⟩ =
          ((callFields geoIntersects [left, right] false).insert "as" (.string name)).insert "cast"
            (.string type.name) := by
        rw [← hcast _ _ htags.cast, ← hlabel]
        rfl
      rw [hfields]
      exact ⟨htags.body.trans (sameBody_insert _ _ (.inr rfl) _), by simp [get?_insert],
        by simp [get?_insert]⟩

/-- An equation between places of different types is found in its value, and becomes an intersection
unless one of the types is no type of places. -/
theorem intersection_ql_of_some {left right : Node}
    (hleft : left.placeType? catalog refs = some leftType)
    (hright : right.placeType? catalog refs = some rightType) (hne : leftType ≠ rightType) :
    (∀ k, (operation .eq [left, right] none tag).intersection? catalog refs = some k →
      ∃ l r, k = call geoIntersects [placeShape l left, placeShape r right] false tag ∧
        intersection catalog refs ((operation .eq [left, right] none tag).ql false) =
          .ok (some (.object
            (intersectionFields ((placeShape l left).ql false)
              ((placeShape r right).ql false) tag)))) ∧
    ((operation .eq [left, right] none tag).intersection? catalog refs = none →
      ∃ e, intersection catalog refs ((operation .eq [left, right] none tag).ql false) =
        .error e) := by
  have hcrossing : (operation .eq [left, right] none tag).crossing? catalog refs =
    some (leftType, rightType) :=
    crossing?_eq_some.mpr ⟨left, right, tag, rfl, hleft, hright, hne⟩
  have htag : (["as", "cast"].filterMap fun key => (get? (operationFields .eq
      ([left, right].map (ql false)) none ++ tag.fields) key).map (key, ·)) =
        optionField "as" (tag.label.map .string) ++ optionField "cast"
            (tag.cast.map (.string ·.name)) := by
    obtain ⟨label, cast⟩ := tag
    cases label <;> cases cast <;> rfl
  have hvalue : intersection catalog refs ((operation .eq [left, right] none tag).ql false) = do
      let l ← columnShape leftType (left.ql false)
      let r ← columnShape rightType (right.ql false)
      return some (.object (intersectionFields l r tag)) := by
    rw [ql_operation, intersection, crossing?_operation, hcrossing]
    simp only [Option.bind_some, htag]
    rfl
  have hnode : (operation .eq [left, right] none tag).intersection? catalog refs =
      (GeometryType.place? leftType).bind fun l => (GeometryType.place? rightType).bind fun r =>
        some (call geoIntersects [placeShape l left, placeShape r right] false tag) := by
    rw [intersection?, hcrossing]
    rfl
  obtain ⟨hleftOk, hleftFails⟩ := columnShape_ql hleft leftType
  obtain ⟨hrightOk, hrightFails⟩ := columnShape_ql hright rightType
  rw [hvalue, hnode]
  cases hl : GeometryType.place? leftType with
  | none =>
    obtain ⟨e, he⟩ := hleftFails hl
    exact ⟨nofun, fun _ => ⟨e, by rw [he]; rfl⟩⟩
  | some l =>
    rw [hleftOk l hl]
    cases hr : GeometryType.place? rightType with
    | none =>
      obtain ⟨e, he⟩ := hrightFails hr
      exact ⟨nofun, fun _ => ⟨e, by rw [he]; rfl⟩⟩
    | some r =>
      rw [hrightOk r hr]
      refine ⟨fun k hk => ?_, nofun⟩
      cases hk
      exact ⟨l, r, rfl, rfl⟩

/-! ### Relations -/

/-- A relation that is a view is found in its value, and no other. -/
theorem relationRef?_relationWith (h : n.isRelation = true) :
    relationRef? (n.relationWith (ql false)) = n.viewRef? := by
  have hselect : ∀ {F : Fields} {tag : Tag}, F.Own .select →
      relationRef? (tag.onto (.object F)) = none := by
    intro F tag hown
    rw [tag.onto_object hown.cast hown.label, relationRef?, stringField?_own hown]
    rfl
  cases n with
  | view name isCte label => cases label <;> rfl
  | select role c tag =>
    change relationRef? ((select role c tag).ql false) = none
    rw [ql_eq]
    exact hselect (own_selectFields _)
  | compound role op all left right tag =>
    change relationRef? ((compound role op all left right tag).ql false) = none
    rw [ql_eq]
    exact hselect (own_compoundFields ..)
  | _ => cases h

/-- The relations of a select that are views are found in its value. -/
theorem selectRefs?_select {role : SelectRole} {c : Clauses Node}
    (hf : (select role c tag).Formed) :
    selectRefs? ((select role c tag).ql false) = some (viewRefs c.relations) := by
  obtain ⟨hsource, hjoins⟩ := hf
  have hown := own_selectFields (clausesWith (ql false) c)
  have hget : ∀ key, key ≠ "cast" → key ≠ "as" →
      get? (selectFields (clausesWith (ql false) c) ++ tag.fields) key =
        get? (selectFields (clausesWith (ql false) c)) key := by
    intro key hcast hlabel
    obtain ⟨label, cast⟩ := tag
    cases label <;> cases cast <;> simp [Tag.fields, hcast.symm, hlabel.symm]
  have hcolumns : contains (selectFields (clausesWith (ql false) c) ++ tag.fields) "columns" =
      true := by
    rw [contains_eq_isSome, hget _ (by decide) (by decide)]
    simp [selectFields]
  have hfrom : get? (selectFields (clausesWith (ql false) c) ++ tag.fields) "from" =
      c.source.map (relationWith (ql false)) := by
    rw [hget _ (by decide) (by decide)]
    simp [selectFields, clausesWith]
  have hjoined : joinedRelations (selectFields (clausesWith (ql false) c) ++ tag.fields) =
      (c.joins.filterMap joined?).map (relationWith (ql false)) := by
    have hlist : get? (selectFields (clausesWith (ql false) c) ++ tag.fields) "joins" =
        if c.joins.isEmpty then none else some (.array (c.joins.map (ql false))) := by
      rw [hget _ (by decide) (by decide)]
      cases hc : c.joins <;> simp [selectFields, clausesWith, hc]
    have heach : ∀ (fields : Fields) (joins : List Node),
        get? fields "joins" = some (.array (joins.map (ql false))) →
        (∀ n ∈ joins, ∃ relation, n.joined? = some relation) →
        joinedRelations fields = (joins.filterMap joined?).map (relationWith (ql false)) := by
      intro fields joins hfields h
      rw [joinedRelations, hfields]
      clear hfields
      dsimp only
      induction joins with
      | nil => rfl
      | cons n joins ih =>
        obtain ⟨relation, hn⟩ := h n mem_cons_self
        cases n with
        | join type relation on =>
          rw [map_cons, filterMap_cons, filterMap_cons, joined?, map_cons,
            ← ih fun k hk => h k (mem_cons_of_mem _ hk), ql_eq]
          rfl
        | _ => cases hn
    cases hc : c.joins with
    | nil => rw [joinedRelations, hlist, hc]; rfl
    | cons n joins =>
      rw [← hc]
      exact heach _ c.joins (by rw [hlist, hc]; rfl) fun n hn => (hjoins n hn).imp fun _ h => h.1
  have hrelations : ∀ relations : List Node, (∀ n ∈ relations, n.isRelation = true) →
      (relations.map (relationWith (ql false))).filterMap relationRef? =
          relations.filterMap viewRef? := by
    intro relations h
    rw [filterMap_map]
    exact filterMap_congr fun n hn => relationRef?_relationWith (h n hn)
  have hown' : ∀ n ∈ c.relations, n.isRelation = true := by
    intro n hn
    obtain hn | hn := mem_append.mp hn
    · exact hsource n (Option.mem_toList.mp hn)
    · obtain ⟨k, hk, hn⟩ := mem_filterMap.mp hn
      obtain ⟨relation, hjoin, hrelation⟩ := hjoins k hk
      cases hn.symm.trans hjoin
      exact hrelation
  rw [ql_eq, qlWith, tag.onto_object hown.cast hown.label, selectRefs?, stringField?_own hown,
    hcolumns, hfrom, hjoined, viewRefs, ← hrelations c.relations hown', Clauses.relations,
    map_append]
  cases c.source <;> rfl

/-- An expression of another kind has no relations of its own. -/
theorem selectRefs?_of_type (hs : n.isShort = false) (htype : n.type ≠ .select) :
    selectRefs? (n.ql false) = none := by
  obtain ⟨F, tag, hql, hown⟩ | hbare := exists_own_ql hs
  · have hname : n.type.name ≠ "select" := by
      revert htype
      cases n.type <;> decide
    rw [hql, tag.onto_object hown.cast hown.label, selectRefs?, stringField?_own hown]
    simp [hname]
  · cases hv : n.ql false with
    | object F => exact absurd hv (hbare F)
    | _ => rfl

/-- A set operation has no relations of its own. -/
theorem selectRefs?_compound (role : SelectRole) (op : SetOperator) (all : Bool) (left right : Node)
    (tag : Tag) :
    selectRefs? ((compound role op all left right tag).ql false) = none := by
  have hown := own_compoundFields op all (left.ql false) (right.ql false)
  have hcolumns : contains (compoundFields op all (left.ql false) (right.ql false) ++ tag.fields)
    "columns" =
      false := by
    obtain ⟨label, cast⟩ := tag
    cases op <;> cases all <;> cases label <;> cases cast <;> rfl
  rw [ql_eq, qlWith, tag.onto_object hown.cast hown.label, selectRefs?, hcolumns, Bool.and_false]
  rfl

/-- The views in sight inside an expression are those in sight inside its value. -/
theorem refsInside_ql (hf : n.Formed) (hs : n.isShort = false) (refs : Refs) :
    Geo.refsInside refs (n.ql false) = n.refsInside refs := by
  have hother : n.type ≠ .select → n.refsInside refs = refs →
      Geo.refsInside refs (n.ql false) = n.refsInside refs := by
    intro htype hrefs
    rw [Geo.refsInside, selectRefs?_of_type hs htype, hrefs]
    rfl
  cases n with
  | select role c tag =>
    rw [Geo.refsInside, selectRefs?_select hf]
    rfl
  | compound role op all left right tag =>
    rw [Geo.refsInside, selectRefs?_compound]
    rfl
  | operation op => exact hother (by cases op <;> exact nofun) rfl
  | short => cases hs
  | _ => exact hother nofun rfl

end Node

/-! ## What is read back -/

/-- What a kept short expression stands for was built in its place. -/
theorem Built.bare (n : Node) (h : Built options r .value s n) :
    Built options r .value s n.bare := by
  cases n with
  | short e inner =>
    cases h with
    | short kept part => exact Built.bare inner part
  | _ => exact h
termination_by sizeOf n

namespace Build

variable {t : Scope} {type : GeometryType}

/-- The shape of a place is read back in a wider scope. -/
theorem eq_of_run_placeShape (hr : Resolvable options r) (hn : Built options r .value s n)
    (hplace : n.placeType? catalog refs = some found) (hst : s.Wider t)
    (hm : run options r .expression ((placeShape type n).ql false) t = .ok m) :
    m = placeShape type n := by
  obtain ⟨c, label, hbare, -⟩ := exists_column_of_placeType? n hplace
  rw [placeShape_eq hbare] at hm ⊢
  have hcolumn := hbare ▸ hn.bare
  rw [run_eq_value hr] at hm
  obtain ⟨ms, hms, rfl⟩ : ∃ ms, (runner options r).expressions [(column c {}).ql false] t = .ok ms ∧
      m = .geometry type ms {} := exists_of_value_geometry nofun hm
  have hcolumns : ms = [column c {}].map id := by
    refine Rewriting.eq_map_of_expressions hms fun k hk m hm => ?_
    obtain rfl := mem_singleton.mp hk
    have hm : run options r .expression (Tag.onto {} c.toQl) t = .ok m := hm
    rw [run_eq_value hr] at hm
    cases hcolumn with
    | column hasName hasView found =>
      obtain ⟨found', hfound', rfl⟩ :=
        exists_of_value_column hasName hasView (nofun : none ≠ some "") hm
      obtain rfl := hst.resolveColumn found hfound'
      rfl
  rw [hcolumns]
  rfl

/-- An intersection is read back in a wider scope, with the alias and the cast of the equation. -/
theorem eq_of_run_intersection {left right : Json} {l r' : Node} (hr : Resolvable options r)
    (hleft : ∀ m, run options r .expression left t = .ok m → m = l)
    (hright : ∀ m, run options r .expression right t = .ok m → m = r')
    (hm : run options r .expression (.object (intersectionFields left right tag)) t = .ok m) :
    m = .call geoIntersects [l, r'] false tag := by
  have hown := own_callFields geoIntersects [left, right] false
  obtain ⟨n, cast, hstem, hcast, -, hfold⟩ :=
    (run_object_ok_iff hr hown.type (tags_intersectionFields left right tag)).mp hm
  have hcall : (runner options r).call ⟨callFields geoIntersects [left, right] false, .function⟩ t =
      .ok n := hstem
  obtain ⟨ms, hms, rfl⟩ : ∃ ms, (runner options r).expressions [left, right] t = .ok ms ∧
      n = .call geoIntersects ms false {} :=
    exists_of_call ⟨by decide +kernel, by decide⟩ rfl rfl rfl hcall
  have hargs : ms = [l, r'] := by
    rw [Builder.expressions, Result.mapM_eq_ok_iff] at hms
    obtain _ | ⟨hl, _ | ⟨hr, ⟨⟩⟩⟩ := hms
    rw [hleft _ hl, hright _ hr]
  have htype : cast = tag.cast := by
    cases htag : tag.cast with
    | none =>
      rw [htag] at hcast
      cases hcast
      rfl
    | some type =>
      rw [htag] at hcast
      simpa [CastType.ofName?, CastType.ofName_name, eq_comm] using hcast
  rw [htype] at hfold
  rw [eq_retag_of_fold tag rfl rfl hfold, hargs]
  rfl

end Build

namespace Geo

/-- An equation that becomes an intersection is read back as it. -/
theorem rewritten {k : Node} (h : n.intersection? catalog refs = some k) :
    n.crossed catalog refs = k ∧ Rewritten options n (crossed catalog refs (n.ql false)) k := by
  obtain ⟨⟨leftType, rightType⟩, hcrossing, -⟩ := Option.bind_eq_some_iff.mp h
  obtain ⟨left, right, tag, rfl, hleft, hright, hne⟩ := crossing?_eq_some.mp hcrossing
  obtain ⟨l, r, rfl, hvalue⟩ := (intersection_ql_of_some hleft hright hne).1 k h
  have hcrossed : crossed catalog refs ((operation .eq [left, right] none tag).ql false) =
      .object (intersectionFields ((placeShape l left).ql false)
        ((placeShape r right).ql false) tag) := by
    rw [crossed, intersected_of_some]
    rw [refsInside_ql (n := .operation .eq [left, right] none tag) trivial rfl]
    exact hvalue
  have hselect : QlObject.isType (.object (intersectionFields ((placeShape l left).ql false)
      ((placeShape r right).ql false) tag)) .select = false := by
    have hkind : ExpressionType.ofName?
        "function" = some .function := ExpressionType.ofName?_name .function
    simp [QlObject.isType, intersectionFields, callFields, hkind]
  refine ⟨(crossed_eq _ _).trans (congrArg (Option.getD · _) h), ?_⟩
  rw [hcrossed]
  refine ⟨rfl, rfl, hselect, rfl, rfl, fun {names s t m} hr hn hst hm => ?_⟩
  cases hn with
  | operation parts =>
    refine Build.eq_of_run_intersection hr (fun m hm => ?_) (fun m hm => ?_) hm
    · exact Build.eq_of_run_placeShape hr (parts left (by simp)) hleft hst hm
    · exact Build.eq_of_run_placeShape hr (parts right (by simp)) hright hst hm

/-- The search in a value that is read back: what an expression is written as, and what it is read
back as. -/
def rewriting (catalog : Catalog) (options : ParseOptions) : Rewriting options Refs where
  value refs n := crossed catalog refs (n.ql false)
  node refs n := n.crossed catalog refs
  inside refs n := n.refsInside refs
  step refs n hf := by
    cases hs : n.isShort with
    | true =>
      cases n with
      | short e inner => exact .inl ⟨rfl, by simp only [Node.crossed]; rfl⟩
      | _ => cases hs
    | false =>
      have hrefs := refsInside_ql hf hs refs
      cases hinter : n.intersection? catalog (n.refsInside refs) with
      | some k =>
        have hop : n.refsInside refs = refs := by
          obtain ⟨⟨leftType, rightType⟩, hcrossing, -⟩ := Option.bind_eq_some_iff.mp hinter
          obtain ⟨left, right, tag, rfl, -⟩ := crossing?_eq_some.mp hcrossing
          rfl
        rw [hop] at hinter
        obtain ⟨hnode, h⟩ := rewritten hinter
        rw [hnode]
        exact .inr h
      | none =>
        refine .inl ⟨?_, by rw [crossed_eq, hinter]; rfl⟩
        have hno : ∀ shapes, intersection catalog (refsInside refs (n.ql false)) (n.ql false) ≠
            .ok (some shapes) := by
          rw [hrefs]
          intro shapes hshapes
          cases hcrossing : n.crossing? catalog (n.refsInside refs) with
          | none =>
            rw [intersection_ql_of_none hs hcrossing] at hshapes
            cases hshapes
          | some types =>
            obtain ⟨left, right, tag, rfl, hleft, hright, hne⟩ := crossing?_eq_some.mp hcrossing
            obtain ⟨e, he⟩ := (intersection_ql_of_some hleft hright hne).2 hinter
            rw [he] at hshapes
            cases hshapes
        rw [(intersected_eq hno).1, hrefs, mapInside_ql (passes_crossed catalog _) hs]

end Geo

end AnalyticQuery
