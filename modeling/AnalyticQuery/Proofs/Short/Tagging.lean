import AnalyticQuery.Proofs.Short.Expansion

/-!
# Aliases and casts of short expressions

A form writes its own value whatever alias and cast its short expression has, and these go onto that
value. Hence an alias and a cast that a short expression is given later go onto the same value, in
place of those before.
-/

namespace AnalyticQuery

open Result

/-! ## Values of forms -/

namespace FormArgs

/-- Whether two lists of arguments differ in their alias and cast alone. -/
structure SameBody (a b : FormArgs) : Prop where
  form : b.form = a.form
  get? : ∀ {key}, key ≠ "as" → key ≠ "cast" → b.get? key = a.get? key

namespace SameBody

variable {a b : FormArgs} (h : a.SameBody b)

include h

theorem fault (detail : String) : b.fault detail = a.fault detail := by
  rw [FormArgs.fault, FormArgs.fault, h.form]

variable {key : String} (hlabel : key ≠ "as") (hcast : key ≠ "cast")

include hlabel hcast

theorem required : b.required key = a.required key := by
  simp only [FormArgs.required, FormArgs.missing, h.get? hlabel hcast, h.fault]

theorem ql : b.ql key = a.ql key := by
  simp only [FormArgs.ql, h.required hlabel hcast]

theorem qlList : b.qlList key = a.qlList key := by
  simp only [FormArgs.qlList, h.get? hlabel hcast]

theorem string? : b.string? key = a.string? key := by
  simp only [FormArgs.string?, h.get? hlabel hcast, h.fault]

theorem string : b.string key = a.string key := by
  simp only [FormArgs.string, FormArgs.missing, h.string? hlabel hcast, h.fault]

theorem int? : b.int? key = a.int? key := by
  simp only [FormArgs.int?, h.get? hlabel hcast, h.fault]

theorem int : b.int key = a.int key := by
  simp only [FormArgs.int, FormArgs.missing, h.int? hlabel hcast, h.fault]

theorem intOrZero : b.intOrZero key = a.intOrZero key := by
  simp only [FormArgs.intOrZero, h.int? hlabel hcast]

theorem bool? : b.bool? key = a.bool? key := by
  simp only [FormArgs.bool?, h.get? hlabel hcast, h.fault]

omit hlabel hcast

theorem withDelta (base : Json) (cast : CastType) :
    b.withDelta base cast = a.withDelta base cast := by
  have hdelta : b.get? "delta" = a.get? "delta" := h.get? (by decide) (by decide)
  simp only [FormArgs.withDelta, hdelta, h.fault]

/-- The value of a form does not hang on an alias and a cast. -/
theorem expand : b.expand = a.expand := by
  unfold FormArgs.expand
  rw [h.form]
  cases a.form <;>
    simp (disch := decide)
      only [FormArgs.place, FormArgs.constant, FormArgs.interval, h.get?, h.ql, h.qlList,
      h.string?, h.string, h.int, h.intOrZero, h.bool?, h.withDelta, h.fault]

end SameBody

end FormArgs

/-- The fields of a value that a form writes: a kind that is no select, no alias, and a cast as a
text, which a cast does not lack. -/
structure Fields.Plain (F : Fields) (kind : ExpressionType) : Prop where
  type : get? F "type" = some (.string kind.name)
  ne_select : kind ≠ .select
  label : get? F "as" = none
  cast : (get? F "cast" = none ∧ kind ≠ .cast) ∨ ∃ name, get? F "cast" = some (.string name)

theorem Fields.Plain.exists_cast {F : Fields} {kind : ExpressionType} (h : F.Plain kind) :
    ∃ cast : Option String, get? F "cast" = cast.map .string ∧ (kind = .cast → cast ≠ none) := by
  obtain ⟨hnone, hkind⟩ | ⟨name, hname⟩ := h.cast
  · exact ⟨none, hnone, fun hcast => absurd hcast hkind⟩
  · exact ⟨some name, hname, fun _ => nofun⟩

/-- Whether a value has a kind that is no select, no alias and no cast but one as a text. -/
def Json.Plain (v : Json) : Prop := ∃ F kind, v = .object F ∧ Fields.Plain F kind

private theorem Json.plain_typed (kind : ExpressionType) {F : Fields}
    (hkind : kind ≠ .cast ∧ kind ≠ .select) (hlabel : Fields.get? F "as" = none)
    (hcast : Fields.get? F "cast" = none) :
    Json.Plain (.object (("type", .string kind.name) :: F)) :=
  ⟨_, kind, rfl, by simp, hkind.2, by simpa using hlabel, .inl ⟨by simpa using hcast, hkind.1⟩⟩

namespace FormArgs

variable {args : FormArgs} {v : Json}

private theorem plain_of_withDelta {text : String} {cast cast' : CastType}
    (h : args.withDelta (Temporal.castLiteral text cast) cast' = .ok v) : v.Plain := by
  have hsum : ∀ delta : Json, Json.Plain
    (.object [("type", .string "operator"), ("value", .string "+"),
      ("operands", .array [Temporal.castLiteral text cast, delta]),
        ("cast", .string cast'.name)]) :=
    fun delta => ⟨_, .operator, rfl, rfl, by decide, by simp, .inr ⟨cast'.name, by simp⟩⟩
  unfold withDelta at h
  dsimp only at h
  split at h
  · cases h
    exact ⟨_, .primitive, rfl, rfl, by decide, by simp, .inr ⟨cast.name, by simp⟩⟩
  · split at h
    · obtain ⟨i, -, h⟩ := of_bind h
      cases h
      exact hsum _
    · cases h
      exact hsum _
    · cases h

private theorem plain_of_constant (h : args.constant = .ok v) : v.Plain := by
  unfold constant at h
  dsimp only at h
  split at h
  · cases h
    exact Json.plain_typed .primitive (by decide) (by simp) (by simp)
  · cases h
  · cases h
  · cases h
  · cases h
    exact Json.plain_typed .primitive (by decide) (by simp) (by simp)

/-- What a form writes has a kind and no alias. -/
theorem plain_of_expand (h : args.expand = .ok v) : v.Plain := by
  have hgeometry : ∀ type items, (geometry type items).Plain :=
    fun type items => Json.plain_typed .geometry (by decide) (by simp) (by simp)
  cases hform : args.form <;> simp only [expand, hform, place] at h
  case param =>
    obtain ⟨name, -, h⟩ := of_bind h
    cases h
    exact Json.plain_typed .parameter (by decide) (by simp) (by simp)
  case view =>
    obtain ⟨name, -, h⟩ := of_bind h
    cases h
    exact Json.plain_typed .view (by decide) (by simp) (by simp)
  case column =>
    obtain ⟨column, -, h⟩ := of_bind h
    obtain ⟨view, -, h⟩ := of_bind h
    cases h
    cases view <;> exact Json.plain_typed .column (by decide) (by simp) (by simp)
  case function =>
    obtain ⟨name, -, h⟩ := of_bind h
    obtain ⟨distinct, -, h⟩ := of_bind h
    cases h
    split <;> exact Json.plain_typed .function (by decide) (by simp) (by simp)
  case geo | point =>
    obtain ⟨_, -, h⟩ := of_bind h
    obtain ⟨_, -, h⟩ := of_bind h
    cases h
    exact hgeometry _ _
  case wkt | fsa | postalcode | da | ct =>
    obtain ⟨_, -, h⟩ := of_bind h
    cases h
    exact hgeometry _ _
  case array =>
    cases h
    exact Json.plain_typed .array (by decide) (by simp) (by simp)
  case list =>
    cases h
    exact Json.plain_typed .list (by decide) (by simp) (by simp)
  case cast =>
    obtain ⟨value, -, h⟩ := of_bind h
    obtain ⟨type, -, h⟩ := of_bind h
    cases h
    exact ⟨_, .cast, rfl, rfl, by decide, by simp, .inr ⟨type, by simp⟩⟩
  case primitive => exact plain_of_constant h
  case date =>
    obtain ⟨year, -, h⟩ := of_bind h
    obtain ⟨month, -, h⟩ := of_bind h
    obtain ⟨day, -, h⟩ := of_bind h
    obtain ⟨literal, -, h⟩ := of_bind h
    exact plain_of_withDelta h
  case datetime =>
    obtain ⟨year, -, h⟩ := of_bind h
    obtain ⟨month, -, h⟩ := of_bind h
    obtain ⟨day, -, h⟩ := of_bind h
    obtain ⟨hour, -, h⟩ := of_bind h
    obtain ⟨minute, -, h⟩ := of_bind h
    obtain ⟨second, -, h⟩ := of_bind h
    obtain ⟨literal, -, h⟩ := of_bind h
    exact plain_of_withDelta h
  case timedelta =>
    obtain ⟨i, -, h⟩ := of_bind h
    cases h
    exact ⟨_, .primitive, rfl, rfl, by decide, by simp, .inr ⟨CastType.interval.name, by simp⟩⟩
  case operator =>
    obtain ⟨name, -, h⟩ := of_bind h
    obtain ⟨qualifier, -, h⟩ := of_bind h
    cases h
    cases qualifier <;> exact Json.plain_typed .operator (by decide) (by simp) (by simp)
  case and =>
    cases h
    exact Json.plain_typed .and (by decide) (by simp) (by simp)
  case or =>
    cases h
    exact Json.plain_typed .or (by decide) (by simp) (by simp)
  case sql =>
    obtain ⟨text, -, h⟩ := of_bind h
    cases h
    exact Json.plain_typed .sql (by decide) (by simp) (by simp)

/-- An alias or a cast is set among the arguments and leaves the others. -/
theorem exists_bind_set {form : Form} {e : Short} {key : String} (hkey : key = "as" ∨ key = "cast")
    (h : bind form e = .ok args) (text : String) :
    ∃ args', bind form (e.set key (.string text)) = .ok args' ∧ args'.form = args.form ∧
      ∀ k, args'.get? k = if k = key then some (.string text) else args.get? k := by
  obtain ⟨hadmits, rfl⟩ := bind_ok_iff.mp h
  have hfree : ∀ entry ∈ form.template.zip e.positional, entry.1 ≠ key := by
    rintro entry hentry rfl
    have hne := (Form.key_of_mem_template (List.of_mem_zip hentry).1).2
    obtain h | h := hkey
    · exact hne.1 h
    · exact hne.2 h
  have hset : (e.set key (.string text)).named = Short.setArg e.named key (.string text) := rfl
  have hadmits' : form.Admits (e.set key (.string text)) := by
    refine ⟨hadmits.length, fun entry hentry => ?_, ?_⟩
    · obtain hentry | rfl := Short.mem_setArg hentry
      · exact hadmits.keys entry hentry
      · exact .inr hkey
    · have hnodup := hadmits.nodup
      rw [List.map_append, List.nodup_append] at hnodup ⊢
      refine ⟨hnodup.1, Short.nodup_setArg hnodup.2.1 key _, fun a ha b hb => ?_⟩
      rw [hset, Short.map_fst_setArg] at hb
      split at hb
      · exact hnodup.2.2 a ha b hb
      · obtain hb | hb := List.mem_append.mp hb
        · exact hnodup.2.2 a ha b hb
        · obtain ⟨entry, hentry, rfl⟩ := List.mem_map.mp ha
          rw [List.mem_singleton.mp hb]
          exact hfree entry hentry
  refine ⟨_, bind_ok_iff.mpr ⟨hadmits', rfl⟩, rfl, fun k => ?_⟩
  simp only [get?, List.lookup_append, hset, Short.lookup_setArg]
  split
  · next hk =>
    have hnone : (form.template.zip e.positional).lookup k = none := by
      rw [List.lookup_eq_none_iff]
      intro entry hentry
      simpa [hk] using (hfree entry hentry).symm
    have hpositional : (e.set key (.string text)).positional = e.positional := rfl
    rw [hpositional, hnone]
    rfl
  · rfl

end FormArgs

/-! ## Short expressions and their values -/

namespace Short

/-- A short expression with the value that its form writes, and the alias and the cast that go onto
it. -/
def StandsFor (e : Short) (base : Json) (label cast : Option String) : Prop :=
  ∃ form args, Form.ofName? e.name = some form ∧ FormArgs.bind form e = .ok args ∧
    args.expand = .ok base ∧ args.string? "as" = .ok label ∧ args.string? "cast" = .ok cast

variable {e : Short} {base v : Json} {label cast : Option String}

theorem expand_ok_iff :
    e.expand = .ok v ↔ ∃ base label cast, e.StandsFor base label cast ∧
      v = base.tagged label cast := by
  constructor
  · intro h
    unfold expand at h
    split at h
    · cases h
    next form hform =>
    obtain ⟨args, hargs, h⟩ := of_bind h
    obtain ⟨base, hbase, h⟩ := of_bind h
    obtain ⟨label, hlabel, h⟩ := of_bind h
    obtain ⟨cast, hcast, h⟩ := of_bind h
    cases h
    exact ⟨base, label, cast, ⟨form, args, hform, hargs, hbase, hlabel, hcast⟩, rfl⟩
  · rintro ⟨base, label, cast, ⟨form, args, hform, hargs, hbase, hlabel, hcast⟩, rfl⟩
    simp [expand, hform, hargs, hbase, hlabel, hcast]

/-- The value that a form writes has a kind and no alias. -/
theorem StandsFor.plain (h : e.StandsFor base label cast) : base.Plain := by
  obtain ⟨form, args, -, -, hbase, -, -⟩ := h
  exact FormArgs.plain_of_expand hbase

private theorem StandsFor.set_label (h : e.StandsFor base label cast) (name : String) :
    (e.set "as" (.string name)).StandsFor base (some name) cast := by
  obtain ⟨form, args, hform, hargs, hbase, -, hcast⟩ := h
  obtain ⟨args', hargs', hsame, hget⟩ := FormArgs.exists_bind_set (.inl rfl) hargs name
  have hbody : args.SameBody args' := ⟨hsame, fun hlabel _ => by rw [hget, if_neg hlabel]⟩
  refine ⟨form, args', hform, hargs', by rw [hbody.expand, hbase], ?_, ?_⟩
  · rw [FormArgs.string?, hget, if_pos rfl]
  · rw [← hcast, FormArgs.string?, FormArgs.string?, hget, if_neg (by decide)]
    simp only [hbody.fault]

private theorem StandsFor.set_cast (h : e.StandsFor base label cast) (name : String) :
    (e.set "cast" (.string name)).StandsFor base label (some name) := by
  obtain ⟨form, args, hform, hargs, hbase, hlabel, -⟩ := h
  obtain ⟨args', hargs', hsame, hget⟩ := FormArgs.exists_bind_set (.inr rfl) hargs name
  have hbody : args.SameBody args' := ⟨hsame, fun _ hcast => by rw [hget, if_neg hcast]⟩
  refine ⟨form, args', hform, hargs', by rw [hbody.expand, hbase], ?_, ?_⟩
  · rw [← hlabel, FormArgs.string?, FormArgs.string?, hget, if_neg (by decide)]
    simp only [hbody.fault]
  · rw [FormArgs.string?, hget, if_pos rfl]

/-- An alias and a cast that are given to a short expression go onto the value of its form, in place
of those that it had. -/
theorem StandsFor.tagShort (h : e.StandsFor base label cast) (label' : Option String)
    (cast' : Option CastType) :
    (Node.tagShort e label' cast').StandsFor base (label' <|> label)
    (cast'.map CastType.name <|> cast) := by
  cases label' <;> cases cast'
  · exact h
  · exact h.set_cast _
  · exact h.set_label _
  · exact (h.set_label _).set_cast _

end Short

end AnalyticQuery
