import AnalyticQuery.Proofs.Names
import AnalyticQuery.Proofs.Ql.Object
import AnalyticQuery.Tree.Ql

/-!
# Fields that are written

What is read back from the fields that an expression is written with: its own fields, and after them
its cast and its alias.
-/

namespace AnalyticQuery

variable {keys : List String} {v : Json} {F : Fields} {key : String} {tag : Tag}

variable {items : List Json}

/-! ## Single fields -/

namespace Fields

variable {G : Fields} {k : String}

@[simp] theorem get?_nil (key : String) : get? [] key = none := rfl

@[simp] theorem get?_cons (k : String) (v : Json) (F : Fields) (key : String) :
    get? ((k, v) :: F) key = if k = key then some v else get? F key := by
  by_cases h : k = key
  · simp [get?, h]
  · simp [get?, h]

@[simp] theorem get?_append (F G : Fields) (key : String) :
    get? (F ++ G) key = (get? F key).or (get? G key) := by
  simp only [get?, List.find?_append]
  cases F.find? fun field => field.1 == key <;> rfl

@[simp] theorem get?_optionField (key k : String) (v : Option Json) :
    get? (optionField key v) k = if key = k then v else none := by
  cases v <;> simp [optionField]

@[simp] theorem get?_listField (key k : String) (items : List Json) :
    get? (listField key items) k =
      if key = k then (if items.isEmpty then none else some (.array items)) else none := by
  cases items <;> simp [listField]

@[simp] theorem get?_flagField (key k : String) (flag : Bool) :
    get? (flagField key flag) k = if key =
      k then (if flag then some (.bool true) else none) else none := by
  cases flag <;> simp [flagField]

/-- A key that is not there is inserted at the end. -/
theorem insert_of_get?_eq_none (h : get? F key = none) : F.insert key v = F ++ [(key, v)] := by
  induction F with
  | nil => rfl
  | cons field F ih =>
    obtain ⟨k, w⟩ := field
    rw [get?_cons] at h
    split at h
    · cases h
    · next hk =>
      have hbeq : (k == key) = false := by simpa using hk
      simp [insert, hbeq, ih h]

/-- Whether all keys are among some. -/
def keysIn (F : Fields) (keys : List String) : Bool := F.all fun field => keys.contains field.1

@[simp] theorem keysIn_nil (keys : List String) : keysIn [] keys = true := rfl

@[simp] theorem keysIn_cons (k : String) (v : Json) (F : Fields) (keys : List String) :
    keysIn ((k, v) :: F) keys = (keys.contains k && keysIn F keys) := rfl

@[simp] theorem keysIn_append (F G : Fields) (keys : List String) :
    keysIn (F ++ G) keys = (keysIn F keys && keysIn G keys) := List.all_append

/-- A field that may be there has a key among some if they hold its key. -/
theorem keysIn_optionField (v : Option Json) (h : keys.contains key = true) :
    keysIn (optionField key v) keys = true := by
  cases v <;> simp_all [keysIn, optionField]

theorem keysIn_listField (items : List Json) (h : keys.contains key = true) :
    keysIn (listField key items) keys = true := by
  cases items <;> simp_all [keysIn, listField]

theorem keysIn_flagField (flag : Bool) (h : keys.contains key = true) :
    keysIn (flagField key flag) keys = true := by
  cases flag <;> simp_all [keysIn, flagField]

end Fields

namespace Json

@[simp] theorem isNull_bool (b : Bool) : (Json.bool b).isNull = false := rfl

@[simp] theorem isNull_number (n : Number) : (Json.number n).isNull = false := rfl

@[simp] theorem isNull_string (s : String) : (Json.string s).isNull = false := rfl

@[simp] theorem isNull_array (items : List Json) : (Json.array items).isNull = false := rfl

@[simp] theorem isNull_object (F : Fields) : (Json.object F).isNull = false := rfl

/-! ## Depths -/

/-- An item is less deep than its array. -/
theorem depth_lt_of_mem (h : v ∈ items) :
    v.depth < (Json.array items).depth := by
  have hle : v.depth ≤ depthItems items := by
    induction items with
    | nil => cases h
    | cons item items ih =>
      rw [depthItems]
      obtain rfl | h := List.mem_cons.mp h
      · omega
      · have := ih h
        omega
  rw [depth]
  omega

/-- The value of a key is less deep than its object. -/
theorem depth_lt_of_get? (h : Fields.get? F key = some v) :
    v.depth < (Json.object F).depth := by
  have hle : v.depth ≤ depthFields F := by
    induction F with
    | nil => cases h
    | cons field F ih =>
      obtain ⟨k, w⟩ := field
      rw [Fields.get?_cons] at h
      rw [depthFields]
      split at h
      · cases h
        omega
      · have := ih h
        omega
  rw [depth]
  omega

end Json

/-! ## Aliases and casts -/

/-- The fields of a cast and an alias. -/
def Tag.fields (tag : Tag) : Fields :=
  optionField "cast" (tag.cast.map (.string ·.name)) ++ optionField "as" (tag.label.map .string)

/-- An alias and a cast are written after the fields of an object that has none. -/
theorem Tag.onto_object (tag : Tag) (hcast : Fields.get? F "cast" = none)
    (halias : Fields.get? F "as" = none) : tag.onto (.object F) = .object (F ++ tag.fields) := by
  obtain ⟨label, cast⟩ := tag
  have hinsert : ∀ name, (Json.withCast F name) = F ++ [("cast", .string name)] := by
    intro name
    rw [Json.withCast, hcast]
    exact Fields.insert_of_get?_eq_none hcast
  cases cast with
  | none =>
    cases label with
    | none => simp [onto, fields, optionField, Json.tagged]
    | some name =>
      simp [onto, fields, optionField, Json.tagged, Json.taggable,
        Fields.insert_of_get?_eq_none halias]
  | some type =>
    cases label with
    | none => simp [onto, fields, optionField, Json.tagged, Json.taggable, hinsert]
    | some name =>
      have hlast : Fields.get? (F ++ [("cast", Json.string type.name)]) "as" = none := by
        simp [halias]
      simp [onto, fields, optionField, Json.tagged, Json.taggable, hinsert,
        Fields.insert_of_get?_eq_none hlast]

/-- With an alias or a cast a bare value is written as the object that it abbreviates. -/
theorem Tag.onto_taggable (v : Json) (h : tag ≠ {}) :
    tag.onto v = tag.onto (.object v.taggable) := by
  obtain ⟨label, cast⟩ := tag
  cases label <;> cases cast <;> simp_all [onto, Json.tagged, Json.taggable]

/-- Without an alias and a cast a value is written as it is. -/
theorem Tag.onto_empty (v : Json) : Tag.onto {} v = v := rfl

/-! ## Objects that are written -/

/-- An expression's own fields: they name its kind and hold no alias and no cast. -/
structure Fields.Own (F : Fields) (type : ExpressionType) : Prop where
  /-- The kind of the expression. -/
  type : get? F "type" = some (.string type.name)
  /-- No cast. -/
  cast : get? F "cast" = none
  /-- No alias. -/
  label : get? F "as" = none

namespace QlObject

/-- The object of an expression's own fields, with an alias and a cast after them. -/
def written (F : Fields) (type : ExpressionType) (tag : Tag) : QlObject := ⟨F ++ tag.fields, type⟩

variable {obj : QlObject} {type : ExpressionType}

@[simp] theorem type_written (F : Fields) (type : ExpressionType) (tag : Tag) :
    (written F type tag).type = type := rfl

/-- An object is taken under the kind that its first field names. -/
theorem ofJson_written (h : Fields.get? F "type" = some (.string type.name)) :
    ofJson (.object (F ++ tag.fields)) = .ok (written F type tag) := by
  simp [ofJson, h, ExpressionType.ofName_name, written, Except.map]

/-- The kind of an object is the one that its first field names. -/
theorem isType_written (h : Fields.get? F "type" = some (.string type.name))
    (other : ExpressionType) :
    isType (.object (F ++ tag.fields)) other = (type == other) := by
  simp [isType, h, ExpressionType.ofName?_name]

/-- Beside the alias and the cast, an object has the expression's own fields. -/
theorem get?_written (hcast : key ≠ "cast") (halias : key ≠ "as") :
    (written F type tag).get? key = (Fields.get? F key).filter (!·.isNull) := by
  have htag : Fields.get? tag.fields key = none := by
    simp [Tag.fields, hcast.symm, halias.symm]
  simp [get?, written, htag]

/-- An object passes the check of its keys where the expression's own fields do. -/
theorem checkKeys_written {allowed : List String} (h : F.keysIn ("type" :: allowed) = true) :
    (written F type tag).checkKeys allowed = .ok () := by
  have hnone : (F ++ tag.fields).find?
      (fun field => !isCommonKey field.1 && !allowed.contains field.1) = none := by
    rw [List.find?_eq_none]
    intro field hfield
    obtain hfield | hfield := List.mem_append.mp hfield
    · have hkey := List.all_eq_true.mp h field hfield
      rw [List.contains_cons, Bool.or_eq_true] at hkey
      obtain hkey | hkey := hkey
      · simp [isCommonKey, hkey]
      · simp only [hkey]
        simp
    · have hkey : field.1 = "cast" ∨ field.1 = "as" := by
        obtain ⟨label, cast⟩ := tag
        cases cast <;> cases label <;> simp_all [Tag.fields, optionField]
        obtain rfl | rfl := hfield
        · exact .inl rfl
        · exact .inr rfl
      obtain hkey | hkey := hkey <;> simp [isCommonKey, hkey]
  simp only [checkKeys, written, hnone]

/-! ### Reading fields -/

/-- A text that is there or not is read back. -/
theorem string?_eq_ok {s : Option String} (h : obj.get? key = s.map .string) (hs : s ≠ some "") :
    obj.string? key = .ok s := by
  cases s with
  | none =>
    have h : obj.get? key = none := h
    simp only [string?, h]
  | some s =>
    have h : obj.get? key = some (.string s) := h
    have hne : s.isEmpty = false := by
      rw [← Bool.not_eq_true, String.isEmpty_iff]
      rintro rfl
      exact hs rfl
    simp only [string?, h, hne]
    rfl

/-- A text is read back. -/
theorem string_eq_ok {s : String} (h : obj.get? key = some (.string s)) (hs : s ≠ "") :
    obj.string key = .ok s := by
  have hread : obj.string? key = .ok (some s) := string?_eq_ok h (by simpa using hs)
  simp [string, hread]

/-- What a text names is read back. -/
theorem named?_eq_ok {α : Type} {read : String → Result α} {name : α → String} {a : Option α}
    (h : obj.get? key = a.map (.string <| name ·)) (hname : ∀ a, name a ≠ "")
    (hread : ∀ a, read (name a) = .ok a) : obj.named? key read = .ok a := by
  have hstring : obj.string? key = .ok (a.map name) := by
    refine string?_eq_ok ?_ ?_
    · rw [h, Option.map_map]
      rfl
    · cases a with
      | none => exact nofun
      | some a => simpa using hname a
  cases a with
  | none => simp [named?, hstring]
  | some a => simp [named?, hstring, hread]

/-- An array that is there is read back. -/
theorem array?_eq_some (h : obj.get? key = some (.array items)) :
    obj.array? key = .ok (some items) := by
  simp [array?, h]

/-- An array is read back. -/
theorem array_eq_ok (h : obj.get? key = some (.array items)) :
    obj.array key = .ok items := by
  simp [array, array?_eq_some h]

/-- An array that is left out where it is empty is read back. -/
theorem array?_eq_ok (h : obj.get? key = if items.isEmpty then none else some (.array items)) :
    ∃ found, obj.array? key = .ok found ∧ found.getD [] = items := by
  cases items with
  | nil => exact ⟨none, by simp_all [array?], rfl⟩
  | cons item items => exact ⟨some (item :: items), by simp_all [array?], rfl⟩

/-- What is read of an array that is left out where it is empty. -/
theorem getD_of_array? {found : Option (List Json)}
    (h : obj.get? key = if items.isEmpty then none else some (.array items))
    (hfound : obj.array? key = .ok found) :
    found.getD [] = items := by
  obtain ⟨found', hfound', hitems⟩ := array?_eq_ok h
  rw [hfound'] at hfound
  cases hfound
  exact hitems

/-- A truth value that is left out where it is false is read back. -/
theorem bool?_eq_ok {flag : Bool} (h : obj.get? key = if flag then some (.bool true) else none) :
    ∃ found, obj.bool? key = .ok found ∧ found.getD false = flag := by
  cases flag with
  | false => exact ⟨none, by simp_all [bool?], rfl⟩
  | true => exact ⟨some true, by simp_all [bool?], rfl⟩

private theorem castName_ne_empty (type : CastType) : type.name ≠ "" := by
  cases type <;> decide

/-- The alias and the cast are read back. -/
theorem tag_written (hcast : Fields.get? F "cast" = none) (halias : Fields.get? F "as" = none)
    (named : tag.label ≠ some "") : (written F type tag).tag = .ok tag := by
  have hlabel : (written F type tag).get? "as" = tag.label.map .string := by
    cases hl : tag.label <;> simp [get?, written, halias, Tag.fields, hl]
  have htype : (written F type tag).get? "cast" = tag.cast.map (.string <| CastType.name ·) := by
    cases hc : tag.cast <;> simp [get?, written, hcast, Tag.fields, hc]
  simp [QlObject.tag, string?_eq_ok hlabel named,
    named?_eq_ok htype castName_ne_empty CastType.ofName_name]

end QlObject

end AnalyticQuery
