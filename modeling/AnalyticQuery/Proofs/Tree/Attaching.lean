import AnalyticQuery.Proofs.Tree.Tagging

/-!
# An alias and a cast on the value or on the tree

An alias and a cast can be put onto a query value before it is built, or folded onto the tree that
is built of it. Both come to the same, and fail in the same way. What a fold refuses depends on the
tree below the short expressions that are kept, so a fold in two steps refuses what one fold of both
refuses.
-/

namespace AnalyticQuery

open Fields Json QlObject Result

variable {n : Node} {label : Option String} {F G : Fields} {kind : ExpressionType}

namespace Node

variable {key name : String} {v : Json}

variable {own : Option String} {cast ownCast : Option CastType}

/-- A node with an alias and a cast refuses what the node refuses with all of them: an alias that it
has been given can be given once more, and so can a cast. -/
theorem Accepts.refusal?_given (h : n.Accepts own ownCast)
    (hlabel : label = none ∨ own = none ∨ own = label)
    (hcast : cast = none ∨ ownCast = none ∨ ownCast = cast) :
    (n.given own ownCast).refusal? label cast = n.refusal? (label <|> own) (cast <|> ownCast) := by
  have hself : own.bind n.aliasRefusal? = none ∧ ownCast.bind n.castRefusal? = none := by
    simpa [refusal?] using refusal?_eq_none_iff.mpr h
  have hlabels : label.bind (n.given own ownCast).aliasRefusal? =
      (label <|> own).bind n.aliasRefusal? := by
    cases label with
    | none => exact hself.1.symm
    | some name =>
      change (n.given own ownCast).aliasRefusal? name = n.aliasRefusal? name
      rw [aliasRefusal?, aliasRefusal?, canAlias_given, description_core_given, alias?, h.tag_given]
      obtain hnone | rfl | rfl := hlabel
      · cases hnone
      · rfl
      · obtain ⟨-, -, hnone | hsame⟩ := h.label name rfl
        · simp [hnone, Option.filter_some]
        · simp [hsame]
  have hcasts : cast.bind (n.given own ownCast).castRefusal? =
      (cast <|> ownCast).bind n.castRefusal? := by
    cases cast with
    | none => exact hself.2.symm
    | some type =>
      change (n.given own ownCast).castRefusal? type = n.castRefusal? type
      rw [castRefusal?, castRefusal?, canCast_given, description_core_given, cast?, h.tag_given]
      obtain hnone | rfl | rfl := hcast
      · cases hnone
      · rfl
      · obtain ⟨-, hnone | hsame⟩ := h.cast type rfl
        · simp [hnone, Option.filter_some]
        · simp [hsame]
  rw [refusal?, refusal?, hlabels, hcasts]

/-- Two folds, one after the other, come to what one fold of all that they give comes to. -/
theorem agree_fold_fold {m : Node} (h : n.fold own ownCast = .ok m)
    (hlabel : label = none ∨ own = none ∨ own = label)
    (hcast : cast = none ∨ ownCast = none ∨ ownCast = cast) :
    Result.Agree .none Alike (n.fold (label <|> own) (cast <|> ownCast)) (m.fold label cast) := by
  obtain ⟨haccepts, rfl⟩ := fold_ok_iff.mp h
  rw [fold_eq, fold_eq, haccepts.refusal?_given hlabel hcast]
  cases n.refusal? (label <|> own) (cast <|> ownCast) with
  | some e => exact .error e
  | none => exact .ok (haccepts.given_given label cast).symm

end Node

/-! ## Fields of an alias and a cast -/

namespace QlObject

variable {own : Tag}

theorem string?_insert_self {text : String} (htext : text ≠ "") :
    string? ⟨F.insert key (.string text), kind⟩ key = .ok (some text) := by
  have hget : Fields.get? (F.insert key (.string text)) key = (some text).map .string := by
    simp [get?_insert]
  exact (string?_ok_iff hget).mpr ⟨rfl, by simpa using htext⟩

private theorem string?_insert_of_ne {key' : String} (hne : key ≠ key') (v : Json) :
    string? ⟨F.insert key v, kind⟩ key' = string? ⟨F, kind⟩ key' := by
  simp only [string?, get?, get?_insert, if_neg hne, fault]

theorem tag_insert_label (htag : tag ⟨F, kind⟩ = .ok own) (hname : name ≠ "") :
    tag ⟨F.insert "as" (.string name), kind⟩ = .ok ⟨some name, own.cast⟩ := by
  obtain ⟨label, -, h⟩ := of_bind htag
  obtain ⟨cast, hcast, h⟩ := of_bind h
  cases h
  have hother : named? ⟨F.insert "as" (.string name), kind⟩ "cast" CastType.ofName = .ok cast := by
    rw [← hcast, named?, named?, string?_insert_of_ne (by decide)]
  simp only [tag, string?_insert_self hname, hother, ok_bind, pure_eq_ok]

private theorem tag_insert_cast (htag : tag ⟨F, kind⟩ = .ok own) {type : CastType}
    (hname : CastType.ofName name = .ok type) :
    tag ⟨F.insert "cast" (.string name), kind⟩ = .ok ⟨own.label, some type⟩ := by
  obtain ⟨label, hlabel, h⟩ := of_bind htag
  obtain ⟨cast, -, h⟩ := of_bind h
  cases h
  have hne : name ≠ "" := by
    rintro rfl
    have hempty : CastType.ofName "" = .error (.invalidCast "") := by decide +kernel
    rw [hempty] at hname
    cases hname
  simp only [tag, string?_insert_of_ne (show "cast" ≠ "as" by decide), hlabel, named?,
    string?_insert_self hne, hname, ok_bind, pure_eq_ok]

/-- Where no text is read, none is in the field. -/
theorem bind_string?_of_string? {obj : QlObject} (h : obj.string? key = .ok none) :
    (Fields.get? obj.fields key).bind Json.string? = none := by
  unfold string? at h
  split at h
  · next hget =>
    refine Option.bind_eq_none_iff.mpr fun v hv => ?_
    have hnull := Option.filter_eq_none_iff.mp hget v hv
    cases v with
    | string text => exact absurd rfl hnull
    | _ => rfl
  · split at h <;> cases h
  · cases h

/-- The alias that an object has is the text in its field. -/
theorem get?_of_tag_label (htag : tag ⟨F, kind⟩ = .ok own) (hname : own.label = some name) :
    Fields.get? F "as" = some (.string name) := by
  obtain ⟨label, hlabel, h⟩ := of_bind htag
  obtain ⟨cast, -, h⟩ := of_bind h
  cases h
  rw [show label = some name from hname] at hlabel
  exact get?_of_string? hlabel

/-- An object has no cast, or the one that the text in its field spells. -/
theorem cast_of_tag (htag : tag ⟨F, kind⟩ = .ok own) :
    (own.cast = none ∧ (Fields.get? F "cast").bind Json.string? = none) ∨
      ∃ name type, Fields.get? F "cast" = some (.string name) ∧ CastType.ofName name = .ok type ∧
        own.cast = some type := by
  obtain ⟨label, -, h⟩ := of_bind htag
  obtain ⟨cast, hcast, h⟩ := of_bind h
  cases h
  obtain ⟨found, hfound, hcast⟩ := of_bind hcast
  cases found with
  | none =>
    cases hcast
    exact .inl ⟨rfl, bind_string?_of_string? hfound⟩
  | some name =>
    obtain ⟨type, htype, hcast⟩ := of_bind hcast
    cases hcast
    exact .inr ⟨name, type, get?_of_string? hfound, htype, rfl⟩

end QlObject

namespace Fields

variable {own : Tag} {cast : Option String}

/-- An alias on an object stands in its fields. -/
theorem exists_labelled (hbody : QlObject.SameBody ⟨F, kind⟩ ⟨G, kind⟩)
    (htag : tag ⟨G, kind⟩ = .ok own) (hlabel : label ≠ some "") :
    ∃ H, (object G).tagged label none = .object H ∧ QlObject.SameBody ⟨F, kind⟩ ⟨H, kind⟩ ∧
      tag ⟨H, kind⟩ = .ok ⟨label <|> own.label, own.cast⟩ := by
  cases label with
  | none => exact ⟨G, rfl, hbody, htag⟩
  | some name =>
    exact ⟨_, rfl, hbody.trans (G.sameBody_insert kind (.inl rfl) _),
      tag_insert_label htag (by simpa using hlabel)⟩

/-- A cast goes into the fields of an object that has none, or the same, and else around it. -/
theorem withCast_cases {type : CastType} (htag : QlObject.tag ⟨F, kind⟩ = .ok own)
    (hname : CastType.ofName name = .ok type) :
    (Json.withCast F name = F.insert "cast" (.string name) ∧
      (own.cast = none ∨ own.cast = some type)) ∨
      Json.withCast F name = F.castAround name := by
  unfold Json.withCast
  obtain ⟨hnone, hget⟩ | ⟨existing, found, hget, hexisting, hfound⟩ := cast_of_tag htag
  · rw [hget]
    exact .inl ⟨rfl, .inl hnone⟩
  · by_cases hsame : existing = name
    · subst hsame
      rw [hname] at hexisting
      cases hexisting
      simp [hget, Json.string?, hfound]
    · simp [hget, Json.string?, hsame, castAround]

/-- An alias and a cast on an object stand in its fields, or in those of a cast around it. -/
theorem exists_attached {type : Option CastType} (htag : tag ⟨F, kind⟩ = .ok own)
    (hlabel : label ≠ some "") (hcast : CastType.ofName? cast = .ok type) :
    ∃ G, (object F).tagged label cast = .object G ∧
      ((QlObject.SameBody ⟨F, kind⟩ ⟨G, kind⟩ ∧
          tag ⟨G, kind⟩ = .ok ⟨label <|> own.label, type <|> own.cast⟩ ∧
          (type = none ∨ own.cast = none ∨ own.cast = type)) ∨
        ∃ name, QlObject.SameBody ⟨F.castAround name, .cast⟩ ⟨G, .cast⟩ ∧
          tag ⟨G, .cast⟩ = .ok ⟨label, type⟩ ∧ type ≠ none) := by
  cases cast with
  | none =>
    cases hcast
    obtain ⟨G, hG, hbody, hown⟩ := exists_labelled (.refl ⟨F, kind⟩) htag hlabel
    exact ⟨G, hG, .inl ⟨hbody, hown, .inl rfl⟩⟩
  | some name =>
    obtain ⟨found, hname, hcast⟩ := of_bind hcast
    cases hcast
    have hsteps : (object F).tagged label (some name) =
        (object (withCast F name)).tagged label none := by
      cases label <;> rfl
    rw [hsteps]
    obtain ⟨hinsert, hown⟩ | haround := withCast_cases htag hname
    · obtain ⟨G, hG, hbody, htag'⟩ :=
        exists_labelled (F.sameBody_insert kind (.inr rfl) (.string name))
        (tag_insert_cast htag hname) hlabel
      exact ⟨G, hinsert ▸ hG, .inl ⟨hbody, htag', .inr hown⟩⟩
    · have hnone : get? (F.castAround name) "as" = (none : Option String).map .string := rfl
      have hsome : get? (F.castAround name) "cast" = (some name).map .string := rfl
      have haroundTag : tag ⟨F.castAround name, .cast⟩ = .ok ⟨none, some found⟩ :=
        (tag_ok_iff hnone hsome).mpr ⟨rfl, nofun, hcast⟩
      obtain ⟨G, hG, hbody, htag'⟩ := exists_labelled (.refl _) haroundTag hlabel
      refine ⟨G, haround ▸ hG, .inr ⟨name, hbody, ?_, nofun⟩⟩
      cases label <;> exact htag'

end Fields

namespace Build

variable {options : ParseOptions} {r : List String} {s : Scope}

/-- An object is built by the fold of its alias and cast onto what its own fields are built to, also
with another alias and cast. -/
theorem run_object_eq_fold (hr : Resolvable options r) (hF : ofJson (.object F) = .ok ⟨F, kind⟩)
    (hbody : QlObject.SameBody ⟨F, kind⟩ ⟨G, kind⟩)
    (hn : (runner options r).stem ⟨F, kind⟩ s = .ok n) {tag : Tag}
    (htag : QlObject.tag ⟨G, kind⟩ = .ok tag) (hcast : kind = .cast → tag.cast ≠ none) :
    run options r .expression (.object G) s = n.fold tag.label tag.cast := by
  rw [run_object hr (hbody.ofJson hF)]
  exact Builder.object_eq_fold ((Builder.stem_sameBody hbody).trans hn) htag hcast

/-- A constant is built as the object that it abbreviates. -/
theorem run_primitive (hr : Resolvable options r)
    (hvalue : (runner options r).value .expression v s = Primitive.ofJson v >>= fun p =>
      pure (.constant p {}))
    (hn : run options r .expression v s = .ok n) :
    run options r .expression (.object [("type", .string "primitive"), ("value", v)]) s =
      .ok n := by
  rw [run_eq_value hr, hvalue] at hn
  obtain ⟨p, hp, hn⟩ := of_bind hn
  cases hn
  have hkind : ExpressionType.ofName "primitive" = .ok .primitive :=
    ExpressionType.ofName_name .primitive
  have hobj : ofJson (.object [("type", .string "primitive"), ("value", v)]) =
      .ok ⟨[("type", .string "primitive"), ("value", v)], .primitive⟩ := by
    simp [ofJson, Fields.get?, hkind, Except.map]
  have hget :
      (QlObject.get? ⟨[("type", .string "primitive"), ("value", v)], .primitive⟩ "value").getD
      .null = v := by
    cases v <;> rfl
  have hstem : (runner options r).stem
    ⟨[("type", .string "primitive"), ("value", v)], .primitive⟩ s =
      .ok (.constant p {}) := by
    have hkeys : QlObject.checkKeys ⟨[("type", .string "primitive"), ("value", v)], .primitive⟩
      ["value"] =
        .ok () := rfl
    simp only [Builder.stem, Builder.constant, hkeys, hget, hp, ok_bind, pure_eq_ok]
  exact run_object_eq_fold hr hobj (.refl _) hstem rfl (by rintro ⟨⟩)

/-- A bare scalar or array is built as the object that it abbreviates. -/
theorem run_taggable (hr : Resolvable options r) (hn : run options r .expression v s = .ok n) :
    run options r .expression (.object v.taggable) s = .ok n := by
  cases v with
  | object F => exact hn
  | array items =>
    have hkind : ExpressionType.ofName "array" = .ok .array := ExpressionType.ofName_name .array
    have hobj : (array items).object? = .ok ⟨(array items).taggable, .array⟩ := by
      simp [Json.object?, Json.taggable, ofJson, Fields.get?, hkind, Except.map]
    rw [run_eq_value hr, Builder.value_eq_object hobj (by rintro ⟨⟩)] at hn
    rw [run_object hr hobj, hn]
  | null | bool | number | string => exact run_primitive hr rfl hn

variable {cast : Option String} {type : Option CastType}

/-- An object with an alias and a cast in its fields, or in those of a cast around it, is built as
it is without them, and takes both on. -/
theorem agree_object (hr : Resolvable options r)
    (hn : run options r .expression (.object F) s = .ok n) (hlabel : label ≠ some "")
    (hcast : CastType.ofName? cast = .ok type)
    (hown : ∀ own name, Fields.get? F "as" = some (.string own) → label = some name → own = name) :
    Result.Agree .none Node.Alike (run options r .expression ((Json.object F).tagged label cast) s)
      (n.fold label type) := by
  have hvalue : run options r .expression (.object F) s =
      ofJson (.object F) >>= fun obj => (runner options r).object obj s := run_eq_value hr _ _ _
  obtain ⟨obj, hobj, hbuilt⟩ := of_bind (hvalue.symm.trans hn)
  obtain ⟨m, own, hstem, htag, hkind, hfold⟩ := Builder.object_ok_iff.mp hbuilt
  obtain ⟨fields, kind⟩ := obj
  obtain rfl : F = fields := Json.object.inj (exists_of_ofJson hobj).1
  obtain ⟨G, hG, ⟨hbody, htag', hsame⟩ | ⟨name, hbody, htag', hsome⟩⟩ :=
    Fields.exists_attached htag hlabel hcast
  · rw [hG, run_object_eq_fold hr hobj hbody hstem htag']
    · refine Node.agree_fold_fold hfold ?_ hsame
      cases label with
      | none => exact .inl rfl
      | some name =>
        cases hlabel : own.label with
        | none => exact .inr (.inl rfl)
        | some given =>
          exact .inr (.inr (congrArg some (hown given name (get?_of_tag_label htag hlabel) rfl)))
    · intro hcastKind
      cases type with
      | none => exact hkind hcastKind
      | some type => exact nofun
  · have haround : ofJson (.object (F.castAround name)) =
        .ok ⟨F.castAround name, .cast⟩ := by
      have hkind : ExpressionType.ofName "cast" = .ok .cast := ExpressionType.ofName_name .cast
      simp [ofJson, Fields.castAround, Fields.get?, hkind, Except.map]
    rw [hG,
      run_object_eq_fold hr haround hbody ((stem_castAround F name).trans hn) htag' fun _ => hsome]
    exact (Result.Agree.refl _).imp fun _ _ _ _ heq => heq ▸ .refl _

/-- An alias and a cast that are put onto a value are folded onto the tree that is built of it. -/
theorem run_tagged_agree {v : Json} (hn : run options r .expression v s = .ok n)
    (hlabel : label ≠ some "")
    (hcast : CastType.ofName? cast = .ok type)
    (hown : ∀ F own name, v = .object F → get? F "as" = some (.string own) → label = some name →
      own = name) :
    Result.Agree .none Node.Alike (run options r .expression (v.tagged label cast) s)
      (n.fold label type) := by
  have hr := resolvable_of_run hn
  by_cases hnone : label = none ∧ cast = none
  · obtain ⟨rfl, rfl⟩ := hnone
    cases hcast
    rw [Node.fold_nothing, show v.tagged none none = v from rfl, hn]
    exact .ok (.refl n)
  · have htagged : v.tagged label cast = (object v.taggable).tagged label cast := by
      cases label <;> cases cast <;> first | rfl | exact absurd ⟨rfl, rfl⟩ hnone
    rw [htagged]
    refine agree_object hr (run_taggable hr hn) hlabel hcast fun own name hget => ?_
    cases v with
    | object F => exact hown F own name rfl hget
    | _ => cases hget

/-- A kept short expression with a cast takes on an alias and the same cast under another name, and
refuses another cast. -/
theorem run_tagged_agree_synonym :
    ∃ v n m, v = .object
      [("type", .string "short"), ("value", .string "@param(p)"), ("cast", .string "int")] ∧
      run { keepShorts := true } [] .expression v {} = .ok n ∧
        n.fold (some "a") (some .integer) = .ok m ∧
      (∃ k, run { keepShorts := true } [] .expression (v.tagged (some "a") (some "integer"))
        {} = .ok k ∧
        k.Alike m) ∧
      run { keepShorts := true } [] .expression (v.tagged none (some "text")) {} =
        .error (.illegalCasting "cannot cast to text, already cast to integer") := by
  have hn : run { keepShorts := true } [] .expression
      (.object [("type", .string "short"), ("value", .string "@param(p)"), ("cast", .string "int")])
        {} =
        .ok (.short (.mk "param" [.string "p"] [("cast", .string "integer")])
          (.parameter "p" none ⟨none, some .integer⟩)) := by
    cbv
  have hinteger : CastType.ofName? (some "integer") = .ok (some .integer) := by decide +kernel
  have htext : CastType.ofName? (some "text") = .ok (some .text) := by decide +kernel
  have hown : ∀ (label : Option String) (F : Fields) (own name : String),
    object [("type", .string "short"),
      ("value", .string "@param(p)"), ("cast", .string "int")] = .object F →
      get? F "as" = some (.string own) → label = some name → own = name := by
    rintro label F own name hF hget
    cases hF
    cases hget
  have hboth : Result.Agree .none Node.Alike _ (Node.fold _ (some "a") (some .integer)) :=
    run_tagged_agree hn (by decide) hinteger (hown _)
  have hother : Result.Agree .none Node.Alike _ (Node.fold _ none (some .text)) :=
    run_tagged_agree hn (by rintro ⟨⟩) htext (hown _)
  refine ⟨_, _,
    .short (.mk "param" [.string "p"] [("cast", .string "integer"), ("as", .string "a")])
    (.parameter "p" none ⟨some "a", some .integer⟩), rfl, hn, rfl, ?_, ?_⟩
  · revert hboth
    generalize run _ _ _ _ _ = built
    rintro (hk | _ | ⟨_, ⟨⟩⟩)
    exact ⟨_, rfl, hk⟩
  · revert hother
    generalize run _ _ _ _ _ = built
    rintro (_ | _ | ⟨_, ⟨⟩⟩ | ⟨_, ⟨⟩⟩)
    rfl

end Build

end AnalyticQuery
