import AnalyticQuery.Proofs.Short.Expansion
import AnalyticQuery.Proofs.Short.Marks
import AnalyticQuery.Proofs.Sql.Lowering

/-!
# Ranks of query values

The rank of a query value bounds how often texts inside it are expanded one inside the other. A text
counts by its marks; SQL text counts a little more than a short expression, since its short
expressions stay as they are. What a short expression stands for has a lower rank than an object
with its text.
-/

namespace AnalyticQuery

open Argument Fields Json List Result

variable {F : Fields} {key : String} {v : Json} {k : Nat}

variable {text : String} {arg : Argument} {s : Short}

/-- The rank of an object itself, by the text that it holds. -/
def Fields.rank (F : Fields) : Nat :=
  match get? F "type", get? F "value" with
  | some (.string name), some (.string text) =>
    match ExpressionType.ofName? name with
    | some .short => 2 * marks text.toList
    | some .sql => 2 * marks text.toList + 1
    | _ => 0
  | _, _ => 0

theorem Fields.get?_mem (h : get? F key = some v) : (key, v) ∈ F := by
  obtain ⟨⟨key', w⟩, hfind, hv⟩ := Option.map_eq_some_iff.mp h
  cases hv
  have hkey := find?_some hfind
  rw [beq_iff_eq] at hkey
  exact hkey ▸ mem_of_find?_eq_some hfind

namespace Json

mutual

/-- The greatest rank of an object in a value. -/
def rank : Json → Nat
  | .array items => rankItems items
  | .object fields => max (Fields.rank fields) (rankFields fields)
  | _ => 0

/-- The greatest rank of a list of values. -/
def rankItems : List Json → Nat
  | [] => 0
  | item :: items => max (rank item) (rankItems items)

/-- The greatest rank of the values of fields. -/
def rankFields : List (String × Json) → Nat
  | [] => 0
  | (_, value) :: fields => max (rank value) (rankFields fields)

end

@[simp]
private theorem rank_null : rank .null = 0 := rfl

@[simp]
private theorem rank_bool (b : Bool) : rank (.bool b) = 0 := rfl

@[simp]
private theorem rank_number (n : Number) : rank (.number n) = 0 := rfl

@[simp]
private theorem rank_string (s : String) : rank (.string s) = 0 := rfl

@[simp]
theorem rank_array_le {items : List Json} : rank (.array items) ≤ k ↔ ∀ v ∈ items, v.rank ≤ k := by
  rw [rank]
  induction items with
  | nil => simp [rankItems]
  | cons item items ih => simp [rankItems, ih]

@[simp]
theorem rank_object_le :
    rank (.object F) ≤ k ↔ Fields.rank F ≤ k ∧ ∀ field ∈ F, field.2.rank ≤ k := by
  have hfields : rankFields F ≤ k ↔ ∀ field ∈ F, field.2.rank ≤ k := by
    induction F with
    | nil => simp [rankFields]
    | cons field F ih => simp [rankFields, ih]
  rw [rank, max_le_iff, hfields]

theorem rank_le_of_mem {w : Json} (h : (object F).rank ≤ k) (hw : (key, w) ∈ F) : w.rank ≤ k :=
  (rank_object_le.mp h).2 _ hw

/-- A value has no higher rank than the marks allow by a measure of its texts. -/
theorem rank_le_of_measure (measure : Json → Nat)
    (hstring : ∀ s, marks s.toList ≤ measure (.string s))
    (hitem : ∀ {items v}, v ∈ items → measure v ≤ measure (.array items))
    (hfield : ∀ {F key v}, (key, v) ∈ F → measure v ≤ measure (.object F)) :
    ∀ v, rank v ≤ 2 * measure v + 1
  | .null | .bool _ | .number _ | .string _ => Nat.zero_le _
  | .array items => by
    rw [rank_array_le]
    intro v hv
    have ih := rank_le_of_measure measure hstring hitem hfield v
    have hle := hitem hv
    omega
  | .object F => by
    rw [rank_object_le]
    constructor
    · unfold Fields.rank
      split
      · next hvalue =>
        have htext := (hstring _).trans (hfield (Fields.get?_mem hvalue))
        split
        all_goals omega
      · exact Nat.zero_le _
    · rintro ⟨key, v⟩ hv
      have ih := rank_le_of_measure measure hstring hitem hfield v
      have hle := hfield hv
      dsimp only
      omega
termination_by v => sizeOf v
decreasing_by
  · have hsize := sizeOf_lt_of_mem hv
    simp only [Json.array.sizeOf_spec]
    omega
  · have hsize := sizeOf_lt_of_mem hv
    simp only [Json.object.sizeOf_spec, Prod.mk.sizeOf_spec] at hsize ⊢
    omega

end Json

/-! ## Objects without texts -/

/-- Whether objects of a kind hold a text that is expanded. -/
def ExpressionType.holdsText : ExpressionType → Bool
  | .short | .sql => true
  | _ => false

private theorem Fields.rank_of_type {type : ExpressionType}
    (h : get? F "type" = some (.string type.name)) (htext : type.holdsText = false) :
    rank F = 0 := by
  unfold rank
  rw [h]
  split
  · next name text hname _ =>
    cases hname
    rw [ExpressionType.ofName?_name]
    cases type <;> first | rfl | cases htext
  · rfl

/-- An object of a kind that holds no text has the greatest rank of its fields. -/
theorem Json.rank_le_of_type (type : ExpressionType)
    (htype : get? F "type" = some (.string type.name)) (htext : type.holdsText = false)
    (h : ∀ field ∈ F, field.2.rank ≤ k) : (object F).rank ≤ k := by
  rw [rank_object_le, rank_of_type htype htext]
  exact ⟨Nat.zero_le _, h⟩

theorem Json.rank_typed_le (type : ExpressionType) (htext : type.holdsText = false)
    (h : ∀ field ∈ F, field.2.rank ≤ k) :
    (Json.object (("type", .string type.name) :: F)).rank ≤ k :=
  rank_le_of_type type (by simp) htext (forall_mem_cons.mpr ⟨Nat.zero_le _, h⟩)

private theorem Fields.mem_insert {field : String × Json} (h : field ∈ F.insert key v) :
    field ∈ F ∨ field = (key, v) := by
  induction F with
  | nil => exact .inr (mem_singleton.mp h)
  | cons other F ih =>
    rw [insert] at h
    split at h
    · rcases mem_cons.mp h with h | h
      · exact .inr h
      · exact .inl (mem_cons_of_mem _ h)
    · rcases mem_cons.mp h with h | h
      · exact .inl (h ▸ mem_cons_self)
      · exact (ih h).imp_left (mem_cons_of_mem _)

/-! ## Aliases and casts -/

namespace Json

/-- An alias and a cast do not raise the rank. -/
theorem rank_insert_le (hkey : key = "as" ∨ key = "cast") (h : (Json.object F).rank ≤ k) :
    (Json.object (F.insert key (.string text))).rank ≤ k := by
  rw [rank_object_le] at h ⊢
  have hown : Fields.rank (F.insert key (.string text)) = Fields.rank F := by
    unfold Fields.rank
    rw [Fields.get?_insert, Fields.get?_insert, if_neg, if_neg]
    all_goals
      obtain rfl | rfl := hkey
      all_goals decide
  rw [hown]
  refine ⟨h.1, fun field hfield => ?_⟩
  obtain hfield | rfl := Fields.mem_insert hfield
  · exact h.2 field hfield
  · exact Nat.zero_le _

theorem rank_tagged_le (h : v.rank ≤ k) (label cast : Option String) :
    (v.tagged label cast).rank ≤ k := by
  have htaggable : (object v.taggable).rank ≤ k := by
    cases v with
    | object F => exact h
    | array items => exact rank_typed_le .array rfl (by simpa using h)
    | null | bool | number | string => exact rank_typed_le .primitive rfl (by simp)
  have hcast : ∀ name, (object (withCast v.taggable name)).rank ≤ k := by
    intro name
    have hinsert : (object (v.taggable.insert "cast" (.string name))).rank ≤ k :=
      rank_insert_le (.inr rfl) htaggable
    unfold withCast
    split
    · split
      · exact hinsert
      · exact rank_typed_le .cast rfl (by simpa using htaggable)
    · exact hinsert
  unfold tagged
  split
  · exact h
  · cases cast <;> cases label
    · exact htaggable
    · exact rank_insert_le (.inl rfl) htaggable
    · exact hcast _
    · exact rank_insert_le (.inl rfl) (hcast _)

end Json

/-! ## Short expressions -/

private theorem Json.rank_le_marks (v : Json) : v.rank ≤ 2 * marks v.chars + 1 := by
  refine rank_le_of_measure (fun v => marks v.chars) (fun s => ?_) (fun {items v} hv => ?_)
    (fun {F key v} hv => ?_) v
  · rw [chars, marks_quotedChars]
  · rw [marks_array]
    induction items with
    | nil => cases hv
    | cons item items ih =>
      rw [marks_itemChars_cons]
      obtain rfl | hv := mem_cons.mp hv
      · omega
      · have := ih hv
        omega
  · rw [marks_object]
    induction F with
    | nil => cases hv
    | cons field F ih =>
      obtain ⟨other, w⟩ := field
      rw [marks_fieldChars_cons]
      obtain hv | hv := mem_cons.mp hv
      · cases hv
        omega
      · have := ih hv
        omega

/-- The levels that a value is built with are more than its rank. -/
theorem Json.rank_le_textSize (v : Json) : v.rank ≤ 2 * v.textSize + 1 := by
  refine rank_le_of_measure textSize (fun s => ?_) (fun {items v} hv => ?_)
    (fun {F key v} hv => ?_) v
  · have hle := marks_le_length s.toList
    rw [textSize, ← String.length_toList]
    omega
  · rw [textSize]
    induction items with
    | nil => cases hv
    | cons item items ih =>
      rw [textSizeItems]
      obtain rfl | hv := mem_cons.mp hv
      · omega
      · have := ih hv
        omega
  · rw [textSize]
    induction F with
    | nil => cases hv
    | cons field F ih =>
      obtain ⟨other, w⟩ := field
      rw [textSizeFields]
      obtain hv | hv := mem_cons.mp hv
      · cases hv
        omega
      · have := ih hv
        omega

private theorem marks_le_argumentMarks {args : List Argument} (h : arg ∈ args) :
    marks arg.chars ≤ argumentMarks args :=
  single_le_sum (fun _ _ => Nat.zero_le _) _ (mem_map_of_mem h)

private theorem marks_le_namedMarks {named : List (String × Argument)} {entry : String × Argument}
    (h : entry ∈ named) :
    marks entry.2.chars ≤ namedMarks named :=
  le_trans (Nat.le_add_left _ _) (single_le_sum (fun _ _ => Nat.zero_le _) _ (mem_map_of_mem
    (f := fun entry : String × Argument => marks entry.1.toList + marks entry.2.chars) h))

private theorem Argument.toQl_go (items : List Argument) : toQl.go items = items.map toQl := by
  induction items with
  | nil => rfl
  | cons item items ih => rw [toQl.go, ih, map_cons]

theorem rank_shortObject (s : Short) :
    (object [("type", .string "short"), ("value", .string s.text)]).rank =
      2 * marks s.text.toList := by
  have hname : ExpressionType.ofName? "short" = some .short := ExpressionType.ofName?_name .short
  simp [Json.rank, Json.rankFields, Fields.rank, hname]

/-- An argument's value has no higher rank than the argument's marks allow. -/
theorem Argument.rank_toQl_le : ∀ arg : Argument, arg.toQl.rank ≤ 2 * marks arg.chars + 1
  | .null | .bool _ | .number _ | .string _ => by simp [toQl]
  | .array items => by
    rw [toQl, toQl_go, rank_array_le, marks_array]
    intro v hv
    obtain ⟨item, hitem, rfl⟩ := mem_map.mp hv
    have ih := rank_toQl_le item
    have hle := marks_le_argumentMarks hitem
    omega
  | .json v => by
    rw [toQl, chars]
    exact v.rank_le_marks
  | .short s => by
    rw [toQl, chars, rank_shortObject, Short.text, String.toList_ofList]
    omega

namespace FormArgs

variable {args : FormArgs}

/-- Whether each argument is light enough for a rank. -/
def Light (args : FormArgs) (k : Nat) : Prop :=
  ∀ entry ∈ args.values, 2 * marks entry.2.chars + 1 ≤ k

private theorem light_of_bind {form : Form} (h : bind form s = .ok args) :
    args.Light (2 * marks s.text.toList - 1) := by
  obtain ⟨-, rfl⟩ := bind_ok_iff.mp h
  intro entry hentry
  rw [Short.marks_text]
  rcases mem_append.mp hentry with hentry | hentry
  · have hle := marks_le_argumentMarks (of_mem_zip hentry).2
    omega
  · have hle := marks_le_namedMarks hentry
    omega

variable (hlight : args.Light k)

include hlight

theorem Light.get? (h : args.get? key = some arg) : 2 * marks arg.chars + 1 ≤ k := by
  obtain ⟨hlookup, -⟩ := Option.filter_eq_some_iff.mp h
  exact hlight (key, arg) (lookup_eq_some_iff.mp hlookup |> fun ⟨_, _, h, _⟩ => by rw [h]; simp)

private theorem Light.rank_ql (h : args.ql key = .ok v) : v.rank ≤ k := by
  obtain ⟨arg, harg, h⟩ := of_bind h
  cases h
  unfold required at harg
  split at harg
  · next hget =>
    cases harg
    exact (rank_toQl_le arg).trans (hlight.get? hget)
  · cases harg

private theorem Light.rank_qlList : ∀ v ∈ args.qlList key, v.rank ≤ k := by
  unfold qlList
  split
  · simp
  · next items hget =>
    have hle := (rank_toQl_le _).trans (hlight.get? hget)
    rw [toQl, toQl_go, rank_array_le] at hle
    exact hle
  · next hget =>
    have hle := (rank_toQl_le _).trans (hlight.get? hget)
    simpa using hle

theorem Light.string? (h : args.string? key = .ok (some text)) :
    2 * marks text.toList + 1 ≤ k := by
  unfold FormArgs.string? at h
  split at h
  · cases h
  · next hget =>
    cases h
    have hle := hlight.get? hget
    rwa [Argument.chars, marks_textChars] at hle
  · next hget =>
    cases h
    have hle := hlight.get? hget
    rwa [Argument.chars] at hle
  · cases h

/-- A text argument is within the bound. -/
theorem Light.string (h : args.string key = .ok text) : 2 * marks text.toList + 1 ≤ k := by
  obtain ⟨found, hfound, h⟩ := of_bind h
  split at h
  · cases h
    exact hlight.string? hfound
  · cases h

private theorem Light.rank_withDelta {base : Json} {cast : CastType} (hbase : base.rank ≤ k)
    (h : args.withDelta base cast = .ok v) : v.rank ≤ k := by
  have hsum : ∀ amount : Json, amount.rank ≤ k →
      (object
        [("type", .string "operator"), ("value", .string "+"), ("operands", .array [base, amount]),
        ("cast", .string cast.name)]).rank ≤ k :=
    fun amount hamount => rank_typed_le .operator rfl (by simp [hbase, hamount])
  unfold withDelta at h
  split at h
  · cases h
    exact hbase
  · next delta hdelta =>
    have hle := (rank_toQl_le delta).trans (hlight.get? hdelta)
    dsimp only at h
    split at h
    · obtain ⟨i, -, h⟩ := of_bind h
      cases h
      exact hsum _ (rank_typed_le .primitive rfl (by simp))
    · cases h
      exact hsum _ hle
    · cases h

private theorem Light.rank_constant (h : args.constant = .ok v) : v.rank ≤ k := by
  have hvalue : ∀ w : Json, w.rank ≤ k →
    (Json.object [("type", .string "primitive"), ("value", w)]).rank ≤ k :=
    fun w hw => Json.rank_typed_le .primitive rfl (by simp [hw])
  unfold constant at h
  dsimp only at h
  split at h
  · cases h
    exact hvalue _ (Nat.zero_le _)
  · cases h
  · cases h
  · cases h
  · next hget =>
    cases h
    exact hvalue _ ((Argument.rank_toQl_le _).trans (hlight.get? hget))

private theorem Light.rank_place {type : GeometryType} (h : args.place type = .ok v) :
    v.rank ≤ k := by
  obtain ⟨w, hw, h⟩ := of_bind h
  cases h
  exact rank_typed_le .geometry rfl (by simpa using hlight.rank_ql hw)

/-- The value of a form has no higher rank than its arguments allow. -/
theorem Light.rank_expand (h : args.expand = .ok v) : v.rank ≤ k := by
  have hliteral : ∀ (text : String) (cast : CastType), (Temporal.castLiteral text cast).rank ≤ k :=
    fun text cast => rank_typed_le .primitive rfl (by simp)
  unfold expand at h
  split at h
  · obtain ⟨name, -, h⟩ := of_bind h
    cases h
    exact rank_typed_le .parameter rfl (by simp)
  · obtain ⟨name, -, h⟩ := of_bind h
    cases h
    exact rank_typed_le .view rfl (by simp)
  · obtain ⟨column, -, h⟩ := of_bind h
    obtain ⟨view, -, h⟩ := of_bind h
    cases h
    refine rank_typed_le .column rfl ?_
    cases view <;> simp
  · obtain ⟨name, -, h⟩ := of_bind h
    obtain ⟨distinct, -, h⟩ := of_bind h
    cases h
    refine rank_typed_le .function rfl ?_
    split <;> simpa using hlight.rank_qlList
  · obtain ⟨name, -, h⟩ := of_bind h
    obtain ⟨type, -, h⟩ := of_bind h
    cases h
    exact rank_typed_le .geometry rfl (by simpa using hlight.rank_qlList)
  · obtain ⟨lon, hlon, h⟩ := of_bind h
    obtain ⟨lat, hlat, h⟩ := of_bind h
    cases h
    exact rank_typed_le .geometry rfl (by simpa using ⟨hlight.rank_ql hlon, hlight.rank_ql hlat⟩)
  · obtain ⟨text, htext, h⟩ := of_bind h
    cases h
    exact rank_typed_le .geometry rfl (by simpa using hlight.rank_ql htext)
  · exact hlight.rank_place h
  · exact hlight.rank_place h
  · exact hlight.rank_place h
  · exact hlight.rank_place h
  · cases h
    exact rank_typed_le .array rfl (by simpa using hlight.rank_qlList)
  · cases h
    exact rank_typed_le .list rfl (by simpa using hlight.rank_qlList)
  · obtain ⟨w, hw, h⟩ := of_bind h
    obtain ⟨type, -, h⟩ := of_bind h
    cases h
    exact rank_typed_le .cast rfl (by simpa using hlight.rank_ql hw)
  · exact hlight.rank_constant h
  · obtain ⟨year, -, h⟩ := of_bind h
    obtain ⟨month, -, h⟩ := of_bind h
    obtain ⟨day, -, h⟩ := of_bind h
    obtain ⟨literal, -, h⟩ := of_bind h
    exact hlight.rank_withDelta (hliteral _ _) h
  · obtain ⟨year, -, h⟩ := of_bind h
    obtain ⟨month, -, h⟩ := of_bind h
    obtain ⟨day, -, h⟩ := of_bind h
    obtain ⟨hour, -, h⟩ := of_bind h
    obtain ⟨minute, -, h⟩ := of_bind h
    obtain ⟨second, -, h⟩ := of_bind h
    obtain ⟨literal, -, h⟩ := of_bind h
    exact hlight.rank_withDelta (hliteral _ _) h
  · obtain ⟨i, -, h⟩ := of_bind h
    cases h
    exact hliteral _ _
  · obtain ⟨name, -, h⟩ := of_bind h
    obtain ⟨qualifier, -, h⟩ := of_bind h
    cases h
    refine rank_typed_le .operator rfl ?_
    cases qualifier <;> simpa using hlight.rank_qlList
  · cases h
    exact rank_typed_le .and rfl (by simpa using hlight.rank_qlList)
  · cases h
    exact rank_typed_le .or rfl (by simpa using hlight.rank_qlList)
  · obtain ⟨text, htext, h⟩ := of_bind h
    cases h
    have hmarks := hlight.string htext
    have hname : ExpressionType.ofName? "sql" = some .sql := ExpressionType.ofName?_name .sql
    simpa [Fields.rank, hname] using hmarks

end FormArgs

/-- What a short expression stands for has a lower rank than its text. -/
theorem Short.rank_expand (h : s.expand = .ok v) : v.rank < 2 * marks s.text.toList := by
  have hpositive : 0 < marks s.text.toList := by
    rw [marks_text]
    omega
  unfold Short.expand at h
  split at h
  · cases h
  · obtain ⟨args, hargs, h⟩ := of_bind h
    obtain ⟨w, hw, h⟩ := of_bind h
    obtain ⟨label, -, h⟩ := of_bind h
    obtain ⟨cast, -, h⟩ := of_bind h
    cases h
    have hle := rank_tagged_le ((FormArgs.light_of_bind hargs).rank_expand hw) label cast
    omega

end AnalyticQuery
