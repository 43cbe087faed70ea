import AnalyticQuery.Proofs.Tree.Points
import AnalyticQuery.Proofs.Tree.Preorder

/-!
# Bound parameters

The parameters under resolution are bound and differ from each other, so they are no more than the
bindings, and the recursion of the builder along them ends. A failure for a cyclic binding names a
chain of bound parameters, each referred to in the value bound to the one before it, that comes back
to itself. In a tree every parameter has the value that is bound to it, built in the scope of the
reference, and no reference to itself inside it.
-/

namespace AnalyticQuery

open Build Fields List QlObject Result

variable {name : String} {w v : Json} {s : Scope} {tag : Tag} {e : Error} {options : ParseOptions}
variable {r : List String}

/-! ## References in values -/

/-- Whether a value refers to a parameter: it is such a reference, or one stands inside it or in
what a text inside it stands for. -/
inductive Json.Refers : Json → String → Prop
  | parameter {F name} (type : isType (.object F) .parameter = true)
      (named : get? F "value" = some (.string name)) : Refers (.object F) name
  | item {vs v name} (mem : v ∈ vs) (inside : Refers v name) : Refers (.array vs) name
  | field {F key v name} (get : Fields.get? F key = some v) (inside : Refers v name) :
      Refers (.object F) name
  | short {F text e v name} (type : isType (.object F) .short = true)
      (holds : get? F "value" = some (.string text)) (read : Short.ofText text = .ok e)
      (expands : e.expand = .ok v) (inside : Refers v name) : Refers (.object F) name
  | sql {F text v name} (type : isType (.object F) .sql = true)
      (holds : get? F "value" = some (.string text)) (lowers : Sql.toQl text = .ok v)
      (inside : Refers v name) : Refers (.object F) name

namespace Json

variable {F : Fields}

private theorem not_refers_string (text : String) : ¬(Json.string text).Refers name := nofun

/-- An alias and a cast refer to nothing. -/
theorem refers_of_insert {key text : String} (hkey : key = "as" ∨ key = "cast")
    (h : (Json.object (F.insert key (.string text))).Refers name) :
    (Json.object F).Refers name := by
  have hother : ∀ {k}, k = "type" ∨ k = "value" →
      get? (F.insert key (.string text)) k = get? F k := by
    intro k hk
    rw [get?_insert, if_neg]
    obtain rfl | rfl := hkey <;> obtain rfl | rfl := hk <;> decide
  have htype : ∀ kind, isType (.object (F.insert key (.string text))) kind =
      isType (.object F) kind := fun kind => by
    rw [isType, isType, hother (.inl rfl)]
  cases h with
  | parameter type named => exact .parameter (htype _ ▸ type) (hother (.inr rfl) ▸ named)
  | field get inside =>
    rw [get?_insert] at get
    split at get
    · cases get
      exact absurd inside (not_refers_string text)
    · exact .field get inside
  | short type holds read expands inside =>
    exact .short (htype _ ▸ type) (hother (.inr rfl) ▸ holds) read expands inside
  | sql type holds lowers inside =>
    exact .sql (htype _ ▸ type) (hother (.inr rfl) ▸ holds) lowers inside

/-- An object of a kind that is no reference and holds no text refers to what its fields refer
to. -/
private theorem exists_of_refers (kind : ExpressionType)
    (h : (Json.object (("type", .string kind.name) :: F)).Refers name)
    (hkind : kind ≠ .parameter ∧ kind ≠ .short ∧ kind ≠ .sql) :
    ∃ field ∈ F, field.2.Refers name := by
  have hno : ∀ {type}, kind ≠ type →
      QlObject.isType (.object (("type", .string kind.name) :: F)) type ≠ true := by
    intro type htype
    simpa [QlObject.isType, ExpressionType.ofName?_name] using htype
  cases h with
  | parameter type => exact absurd type (hno hkind.1)
  | short type => exact absurd type (hno hkind.2.1)
  | sql type => exact absurd type (hno hkind.2.2)
  | field get inside =>
    obtain hmem | hmem := mem_cons.mp (Fields.get?_mem get)
    · cases hmem
      exact absurd inside (not_refers_string _)
    · exact ⟨_, hmem, inside⟩

/-- A value under an alias and a cast refers to what it refers to without them. -/
theorem refers_of_tagged {label cast : Option String} (h : (v.tagged label cast).Refers name) :
    v.Refers name := by
  have htaggable : (Json.object v.taggable).Refers name → v.Refers name := by
    intro h
    cases v with
    | object F => exact h
    | array items =>
      obtain ⟨field, hfield, h⟩ := exists_of_refers .array h (by decide)
      obtain rfl := mem_singleton.mp hfield
      exact h
    | null | bool | number | string =>
      obtain ⟨field, hfield, h⟩ := exists_of_refers .primitive h (by decide)
      obtain rfl := mem_singleton.mp hfield
      exact h
  have hcast : ∀ {text}, (Json.object (withCast v.taggable text)).Refers name → v.Refers name := by
    intro text h
    unfold withCast at h
    split at h
    · split at h
      · exact htaggable (refers_of_insert (.inr rfl) h)
      · obtain ⟨field, hfield, h⟩ := exists_of_refers .cast h (by decide)
        simp only [mem_cons, not_mem_nil, or_false] at hfield
        obtain rfl | rfl := hfield
        · exact htaggable h
        · exact absurd h (not_refers_string _)
    · exact htaggable (refers_of_insert (.inr rfl) h)
  unfold tagged at h
  split at h
  · exact h
  · cases cast <;> cases label
    · exact htaggable h
    · exact htaggable (refers_of_insert (.inl rfl) h)
    · exact hcast h
    · exact hcast (refers_of_insert (.inl rfl) h)

/-- Two closed properties are closed together. -/
theorem Closed.and {P X Q Y : Json → Prop} (h : Closed P X) (h' : Closed Q Y) :
    Closed (fun v => P v ∧ Q v) fun v => X v ∧ Y v where
  items hvs v hv := ⟨h.items hvs.1 v hv, h'.items hvs.2 v hv⟩
  object hv hobj :=
    have hyields := h.object hv.1 hobj
    have hyields' := h'.object hv.2 hobj
    ⟨fun hw => ⟨hyields.field hw, hyields'.field hw⟩,
      fun hkind htext he hw => ⟨hyields.short hkind htext he hw, hyields'.short hkind htext he hw⟩,
      fun hkind htext hw => ⟨hyields.sql hkind htext hw, hyields'.sql hkind htext hw⟩⟩

/-- What a value is built from refers to no more than the value. -/
theorem closed_refers (v : Json) :
    Closed (fun w => ∀ name, w.Refers name → v.Refers name) fun w => ∀ name, w.Refers name →
      v.Refers name := by
  refine ⟨fun hvs w hw name h => hvs name (.item hw h), fun {w obj} hw hobj => ?_⟩
  obtain ⟨rfl, kind, hkind, htype⟩ := exists_of_ofJson hobj
  have hthis : ∀ {type}, obj.type = type → isType (.object obj.fields) type = true := by
    rintro type rfl
    simp [isType, hkind, htype]
  refine ⟨fun hget name h => ?_, fun hshort htext he hu name h => ?_,
    fun hsql htext hu name h => ?_⟩
  · exact hw name (.field (Option.filter_eq_some_iff.mp hget).1 h)
  · exact hw name (.short (hthis hshort) (get?_of_string htext) he hu h)
  · exact hw name (.sql (hthis hsql) (get?_of_string htext) hu h)

end Json

/-! ## Parameters under resolution -/

namespace Build

/-- The parameters that can be under resolution, the outermost first: they are bound and differ. -/
structure Resolving (options : ParseOptions) (r : List String) : Prop where
  bound : ∀ name ∈ r, ∃ v, options.parameter? name = some v
  nodup : r.Nodup

namespace Resolving

theorem nil (options : ParseOptions) : Resolving options [] := ⟨nofun, nodup_nil⟩

theorem append (h : Resolving options r) (hv : options.parameter? name = some v)
    (hname : name ∉ r) :
    Resolving options (r ++ [name]) where
  bound := by
    simp only [mem_append, mem_singleton]
    rintro k (hk | rfl)
    exacts [h.bound k hk, ⟨v, hv⟩]
  nodup := by
    rw [nodup_append]
    refine ⟨h.nodup, nodup_singleton name, ?_⟩
    rintro a ha b hb rfl
    exact hname (mem_singleton.mp hb ▸ ha)

/-- They are no more than the bindings. -/
theorem resolvable (h : Resolving options r) : Resolvable options r := by
  have hkeys : r ⊆ (options.parameters.getD []).map Prod.fst := by
    intro name hname
    obtain ⟨v, hv⟩ := h.bound name hname
    obtain ⟨F, hF, hv⟩ := Option.bind_eq_some_iff.mp hv
    rw [hF]
    exact mem_map_of_mem (get?_mem hv)
  have hle := (h.nodup.subperm hkeys).length_le
  rwa [length_map] at hle

/-- One more that is bound and is not among them can join them. -/
theorem resolve (h : Resolving options r) {r' : List String} (hv : options.parameter? name = some v)
    (hr' : (runner options r).resolve name = .ok r') :
    Resolving options r' := by
  unfold Builder.resolve at hr'
  split at hr'
  · cases hr'
  · next hname =>
    cases hr'
    exact h.append hv (by simpa [runner] using hname)

end Resolving

/-- The recursion of the builder has one solution along the parameters that can be under
resolution. -/
theorem eq_run_of_recursion {f : BuildFn}
    (hf : ∀ r, Resolving options r → ∀ position v s,
      f r position v s = Builder.value ⟨options, r, f, f, f⟩ position v s)
    (hr : Resolving options r) (position : Position) (v : Json) (s : Scope) :
    f r position v s = run options r position v s := by
  have hsame : ∀ {r v}, (∀ position s, f r position v s = run options r position v s) →
      SameOn r f (run options) v := by
    intro r v hv position s t hs
    rw [hv]
    exact run_agree (Scope.matching_alike _)
      (Node.congruence_eq _) options.parallel_eq r position v s t hs
  induction r, v using value_induction options generalizing position s with
  | h r v ihBound ihExpansion ihPart =>
  rw [hf r hr, run_eq_value hr.resolvable]
  refine (value_sameOn
    (fun w hrank hdepth => hsame fun position s => ihPart w hrank hdepth hr position s)
    (fun w hrank => hsame fun position s => ihExpansion w hrank hr position s) ?_).eq position s
  intro name w s t hw hname hs
  exact hsame (fun position s => ihBound name w hr.resolvable (hr.append hw hname) position s)
    .expression s t hs

/-! ## Cyclic bindings -/

/-- A chain of bound parameters that comes back to itself: the value that is built, or the one bound
to the parameter before, refers to each of them, and building it fails while those before are under
resolution. -/
structure Cycle (options : ParseOptions) (e : Error) (r : List String) (v : Json)
    (names : List String) : Prop where
  refers : ∃ name ∈ names.head?, v.Refers name
  bound : ∀ name ∈ names, ∃ w, options.parameter? name = some w
  linked : names.IsChain fun p q => ∃ w, options.parameter? p = some w ∧ w.Refers q
  fails : ∀ before p after, names = before ++ p :: after → after ≠ [] →
    ∃ w t, options.parameter? p = some w ∧
      run options (r ++ before ++ [p]) .expression w t = .error e
  nodup : (r ++ names).dropLast.Nodup
  back : ∃ name ∈ names.getLast?, name ∈ (r ++ names).dropLast

namespace Cycle

variable {names : List String}

/-- A reference to a parameter under resolution. -/
theorem single (hr : Resolving options r) (hrefers : v.Refers name) (hname : name ∈ r) :
    Cycle options e r v [name] where
  refers := ⟨name, rfl, hrefers⟩
  bound := by
    simp only [mem_singleton]
    rintro k rfl
    exact hr.bound k hname
  linked := .singleton name
  fails before p after heq hafter := by
    cases before with
    | nil =>
      cases heq
      exact absurd rfl hafter
    | cons => simp at heq
  nodup := by simpa using hr.nodup
  back := ⟨name, rfl, by simpa using hname⟩

/-- A reference to a parameter whose value fails with a cyclic binding. -/
theorem cons {t : Scope} (h : Cycle options e (r ++ [name]) w names) (hrefers : v.Refers name)
    (hw : options.parameter? name = some w)
    (hrun : run options (r ++ [name]) .expression w t = .error e) :
    Cycle options e r v (name :: names) where
  refers := ⟨name, rfl, hrefers⟩
  bound := forall_mem_cons.mpr ⟨⟨w, hw⟩, h.bound⟩
  linked := by
    obtain ⟨next, hnext, hnext'⟩ := h.refers
    refine isChain_cons.mpr ⟨fun q hq => ⟨w, hw, ?_⟩, h.linked⟩
    cases hnext.symm.trans hq
    exact hnext'
  fails before p after heq hafter := by
    cases before with
    | nil =>
      cases heq
      rw [append_nil]
      exact ⟨w, t, hw, hrun⟩
    | cons k before =>
      cases heq
      obtain ⟨u, t', hu, hfails⟩ := h.fails before p after rfl hafter
      refine ⟨u, t', hu, ?_⟩
      rwa [append_assoc r [name] before] at hfails
  nodup := by simpa using h.nodup
  back := by
    obtain ⟨last, hlast, hmem⟩ := h.back
    refine ⟨last, ?_, by simpa using hmem⟩
    obtain ⟨first, hfirst, -⟩ := h.refers
    obtain ⟨rest, rfl⟩ : ∃ rest, names = first :: rest := head?_eq_some_iff.mp hfirst
    simpa using hlast

theorem mono (h : Cycle options e r w names) (hvw : ∀ name, w.Refers name → v.Refers name) :
    Cycle options e r v names :=
  { h with refers := h.refers.imp fun name hname => ⟨hname.1, hvw name hname.2⟩ }

end Cycle

/-- The failures of building a value while some parameters are being resolved: not for a bound on
the recursion, and for a cyclic binding only if there is one. -/
structure Warranted (options : ParseOptions) (r : List String) (v : Json) (e : Error) : Prop where
  bounded : e ≠ .exhausted
  cyclic : ∀ text, e = .invalidParameter s!"cyclic parameter binding: {text}" →
    ∃ names, text = " -> ".intercalate (r ++ names) ∧ Cycle options e r v names

namespace Warranted

private theorem of_plain (h : e.Plain) : Warranted options r v e where
  bounded := by
    rintro rfl
    exact h
  cyclic := by
    rintro text rfl
    exact absurd h id

theorem mono (h : Warranted options r w e) (hvw : ∀ name, w.Refers name → v.Refers name) :
    Warranted options r v e where
  bounded := h.bounded
  cyclic text htext := (h.cyclic text htext).imp fun _ hnames => ⟨hnames.1, hnames.2.mono hvw⟩

theorem reserved (name : String) :
    Warranted options r v
      (.invalidParameter s!"'{name}': names starting with '__' are reserved") where
  bounded := nofun
  cyclic text htext := by
    injection htext with htext
    have hchars := congrArg String.toList htext
    simp only [String.toList_append, toString] at hchars
    cases head_eq_of_cons_eq hchars

end Warranted

/-- The value bound to a parameter that a value refers to fails as is warranted. -/
private theorem boundValue_warranted (hr : Resolving options r) (hrefers : v.Refers name)
    (ih : ∀ w, options.parameter? name = some w → name ∉ r →
      FailsOnly (Warranted options (r ++ [name]) w) (run options (r ++ [name]) .expression w s)) :
    FailsOnly (Warranted options r v) ((runner options r).boundValue name s) := by
  unfold Builder.boundValue
  split
  · next w hw =>
    unfold Builder.resolve
    split
    · next hname =>
      have hname : name ∈ r := by simpa [runner] using hname
      refine failsOnly_error.mpr
        ⟨by rintro ⟨⟩, fun text htext => ⟨[name], ?_, .single hr hrefers hname⟩⟩
      injection htext with htext
      exact (String.append_right_inj _).mp htext.symm
    · next hname =>
      have hname : name ∉ r := by simpa [runner] using hname
      rw [ok_bind]
      refine FailsOnly.bind (fun e he => ?_) fun _ _ => failsOnly_pure _
      have hwarranted := ih w hw hname e he
      refine ⟨hwarranted.bounded, fun text htext => ?_⟩
      obtain ⟨names, hnames, hcycle⟩ := hwarranted.cyclic text htext
      rw [append_assoc] at hnames
      exact ⟨name :: names, hnames, hcycle.cons hrefers hw he⟩
  · split
    · exact failsOnly_error.mpr (.of_plain trivial)
    · exact failsOnly_pure _

/-- Building a value fails as is warranted. -/
theorem run_warranted (hr : Resolving options r) (position : Position) (v : Json) (s : Scope) :
    FailsOnly (Warranted options r v) (run options r position v s) := by
  induction r, v using value_induction options generalizing position s with
  | h r v ihBound ihExpansion ihPart =>
  have hpositive := v.depth_pos
  have hrefers := v.closed_refers
  have hrank := Json.closed_of_rank v.rank (v.depth - 1)
  have hlower := Json.closed_of_rank_lt v.rank
  have hagree : AgreeOn .none Scope.Alike Eq (run options) (run options) r :=
    run_agree (Scope.matching_alike _) (Node.congruence_eq _) options.parallel_eq r
  have hb : Builder.Parallel ⟨.none, Warranted options r v⟩ Scope.Alike Eq
      (fun w => (∀ name, w.Refers name → v.Refers name) ∧ w.rank ≤ v.rank ∧ w.depth ≤ v.depth - 1)
      (fun w => (∀ name, w.Refers name → v.Refers name) ∧ w.rank < v.rank) (runner options r)
        (runner options r) :=
    { plain := .of_plain
      reserved := .reserved
      scopes := Scope.matching_alike _
      congruence := Node.congruence_eq _
      options := options.parallel_eq
      closed := hrefers.and hrank
      closedExpanded := hrefers.and hlower
      tagged := fun {w} label cast hw => ⟨fun name h => hw.1 name (Json.refers_of_tagged h),
        lt_of_le_of_lt (Json.rank_tagged_le le_rfl label cast) hw.2⟩
      part := fun position {w s t} hw hs => (hagree position w s t hs).meets <|
        (ihPart w hw.2.1 (by omega) hr position s).imp fun e he => he.mono hw.1
      expansion := fun position {w s t} hw hs => (hagree position w s t hs).meets <|
        (ihExpansion w hw.2 hr position s).imp fun e he => he.mono hw.1 }
  rw [run_eq_value hr.resolvable]
  refine (Builder.value_agree hb (fun {vs} hvs w hw => ?_) (fun {obj} hobj => ?_)
    (fun {obj} name {s t} hobj htype hname hs => ?_)
      ((Scope.Alike.refl s).alikeAt position)).failsOnly
  · subst hvs
    have hlt := Json.depth_lt_of_mem hw
    exact ⟨fun name h => .item hw h, Json.rank_array_le.mp le_rfl w hw, by omega⟩
  · have hown := hrefers.object (fun _ h => h) hobj
    have hyields := yields_of_rank hobj
    refine ⟨fun hw => ⟨hown.field hw, ?_⟩,
      fun hkind htext he hw => ⟨hown.short hkind htext he hw, ?_⟩,
      fun hkind htext hw => ⟨hown.sql hkind htext hw, ?_⟩⟩
    · have hlt := hyields.field hw
      exact ⟨hlt.1, by omega⟩
    · exact hyields.short hkind htext he hw
    · exact hyields.sql hkind htext hw
  · obtain ⟨rfl, kind, hkind, hknown⟩ := exists_of_ofJson hobj
    have hparameter : isType (.object obj.fields) .parameter = true := by
      simp [isType, hkind, hknown, htype]
    have hbound := Builder.boundValue_agree (b := runner options r)
      (d := runner options r) options.parallel_eq rfl
      (run_sameOnBound options r) name hs
    refine hbound.meets
      (boundValue_warranted hr (.parameter hparameter (get?_of_string hname)) fun w hw hfresh => ?_)
    exact ihBound name w hr.resolvable (hr.append hw hfresh) .expression s

end Build

/-! ## Parameters in trees -/

namespace Built

variable {place : Place} {n : Node}

/-- A parameter in a tree has the value bound to it, or none where none is bound. -/
theorem parameter_cases {value : Option Node}
    (h : Built options r place s (.parameter name value tag)) :
    name.startsWith "__" = false ∧
      ((∃ v m, options.parameter? name = some v ∧ value = some m ∧ name ∉ r ∧
          run options (r ++ [name]) .expression v s = .ok m ∧
            Built options (r ++ [name]) .value s m) ∨
        (options.parameter? name = none ∧ value = none ∧
          options.paramsMustHaveValues = false)) := by
  cases h with
  | bound _ unreserved binding fresh run inner =>
    exact ⟨unreserved, .inl ⟨_, _, binding, rfl, fresh, run, inner⟩⟩
  | free _ unreserved binding allowed => exact ⟨unreserved, .inr ⟨binding, rfl, allowed⟩⟩

/-- A bound parameter in a tree is none of those that were being resolved. -/
theorem not_mem_of_encloses (h : Built options r place s n) (hr : Build.Resolvable options r)
    {value : Option Node} (hm : n.Encloses (.parameter name value tag))
    (hv : options.parameter? name = some v) :
    name ∉ r := by
  obtain ⟨t, ht⟩ := h.exists_reaches hr hm
  obtain ⟨names, place', hbuilt, -⟩ := h.of_reaches hr ht
  obtain ⟨-, ⟨_, _, -, -, hfresh, -⟩ | ⟨hfree, -⟩⟩ := hbuilt.parameter_cases
  · exact fun hname => hfresh (mem_append_left names hname)
  · cases hv.symm.trans hfree

/-- No reference to a parameter stands inside the value bound to it. -/
theorem not_encloses_itself (h : Built options r place s n) (hr : Build.Resolvable options r)
    {m : Node} (hm : n.Encloses (.parameter name (some m) tag)) {value : Option Node} {tag' : Tag} :
    ¬m.Encloses (.parameter name value tag') := by
  intro hinside
  obtain ⟨t, ht⟩ := h.exists_reaches hr hm
  obtain ⟨names, place', hbuilt, -⟩ := h.of_reaches hr ht
  obtain ⟨-, ⟨v, k, hv, hk, -, hrun, hinner⟩ | ⟨-, hnone, -⟩⟩ := hbuilt.parameter_cases
  · cases hk
    exact hinner.not_mem_of_encloses (resolvable_of_run hrun) hinside hv (by simp)
  · cases hnone

end Built

/-! ## Queries -/

namespace Query

variable {value : Json} {query : Query}

/-- The value that a query is built from: the query itself, or what its SQL text stands for. -/
def BuiltFrom (options : ParseOptions) (value v : Json) : Prop :=
  (options.queryType = .ql ∧ v = value) ∨
    (options.queryType = .sql ∧ ∃ text, value = .string text ∧ Sql.toQl text = .ok v)

/-- A failure to read a query is a failure to build its tree, or has nothing to do with
parameters. -/
theorem exists_run_of_read (h : read value options = .error e) :
    e.Plain ∨ ∃ v position, BuiltFrom options value v ∧
      Build.run options [] position v .root = .error e := by
  have hroot : ∀ {v}, BuiltFrom options value v →
      (do return (⟨← Build.root options v, options⟩ : Query) : Result Query) = .error e →
      ∃ v position, BuiltFrom options value v ∧
          Build.run options [] position v .root = .error e := by
    intro v hv h
    have hrun : Build.root options v = .error e := by
      cases hroot : Build.root options v with
      | error e' =>
        rw [hroot] at h
        injection h with h
        rw [h]
      | ok n =>
        rw [hroot] at h
        cases h
    unfold Build.root at hrun
    split at hrun
    · exact ⟨v, .select .root, hv, hrun⟩
    · exact ⟨v, .expression, hv, hrun⟩
  unfold read at h
  split at h
  · next hql => exact .inr (hroot (.inl ⟨hql, rfl⟩) h)
  · next text hsql =>
    cases hlower : Sql.toQl text with
    | error e' =>
      rw [hlower] at h
      cases h
      exact .inl (Sql.plain_toQl text e hlower)
    | ok v =>
      rw [hlower] at h
      exact .inr (hroot (.inr ⟨hsql, text, rfl, hlower⟩) h)
  · cases h
    exact .inl trivial

/-- Every tree that is read was built at its root, with no parameter under resolution. -/
theorem exists_built_of_read (h : read value options = .ok query) :
    ∃ place, Built options [] place .root query.root :=
  (read_built h).elim (⟨.root, ·⟩) (⟨.value, ·⟩)

/-- Bindings of parameters are acyclic and complete.

The parameters under resolution are bound and differ, hence are no more than the bindings; one more
that is bound joins them as such; and along them building follows its recursion, which has no other
solution. No bound on the recursion is met. A failure for a cyclic binding names a chain of bound
parameters: the query refers to the first and the value bound to each refers to the next, all but
the last differ and the last is one of them, and building each bound value but the last fails in
that way. In a tree no reference to a parameter stands inside the value bound to it, no name is
reserved, and every parameter stands in a scope; where it is bound it has the value built from its
binding in each scope where it stands, and all are bound if they have to be. -/
theorem bindings_acyclic_and_complete (options : ParseOptions) :
    (∀ r, Build.Resolving options r →
      r.length ≤ (options.parameters.getD []).length ∧
      (∀ name v r', options.parameter? name = some v → (runner options r).resolve name = .ok r' →
        Build.Resolving options r') ∧
      ∀ position v s, run options r position v s = (runner options r).value position v s) ∧
    (∀ f : BuildFn, (∀ r, Build.Resolving options r → ∀ position v s,
        f r position v s = Builder.value ⟨options, r, f, f, f⟩ position v s) →
      ∀ r, Build.Resolving options r → ∀ position v s,
        f r position v s = run options r position v s) ∧
    (∀ value, read value options ≠ .error .exhausted) ∧
    (∀ value text, read value options = .error
      (.invalidParameter s!"cyclic parameter binding: {text}") →
      ∃ v chain, BuiltFrom options value v ∧ text = " -> ".intercalate chain ∧
        (∃ p ∈ chain.head?, v.Refers p) ∧
        (∀ p ∈ chain, ∃ w, options.parameter? p = some w) ∧
        (chain.IsChain fun p q => ∃ w, options.parameter? p = some w ∧ w.Refers q) ∧
        (∀ before p after, chain = before ++ p :: after → after ≠ [] →
          ∃ w t, options.parameter? p = some w ∧
          run options (before ++ [p]) .expression w t =
            .error (.invalidParameter s!"cyclic parameter binding: {text}")) ∧
        chain.dropLast.Nodup ∧ ∃ p ∈ chain.getLast?, p ∈ chain.dropLast) ∧
    ∀ value query, read value options = .ok query →
      (∀ name n tag, .parameter name (some n) tag ∈ query.root.preorder →
        ∀ other tag', .parameter name other tag' ∉ n.preorder) ∧
      ∀ name found tag, .parameter name found tag ∈ query.root.preorder →
        name.startsWith "__" = false ∧
        (options.paramsMustHaveValues = true → (options.parameter? name).isSome ∧ found.isSome) ∧
        (∃ t, Scope.Reaches (.root, query.root) (t, .parameter name found tag)) ∧
        ∀ t, Scope.Reaches (.root, query.root) (t, .parameter name found tag) →
          ∀ v, options.parameter? name = some v → ∃ n, found = some n ∧
            expression options v t = .ok n := by
  refine ⟨fun r hr => ⟨hr.resolvable, fun name v r' => hr.resolve, run_eq_value hr.resolvable⟩,
    fun f hf r hr position v s => eq_run_of_recursion hf hr position v s, fun value hread => ?_,
    fun value text hread => ?_, fun value query hread => ?_⟩
  · obtain hplain | ⟨v, position, -, hrun⟩ := exists_run_of_read hread
    · exact hplain
    · exact (run_warranted (.nil options) position v .root _ hrun).bounded rfl
  · obtain hplain | ⟨v, position, hv, hrun⟩ := exists_run_of_read hread
    · exact absurd hplain id
    · obtain ⟨chain, htext, hcycle⟩ :=
        (run_warranted (.nil options) position v .root _ hrun).cyclic text rfl
      exact ⟨v, chain, hv, htext, hcycle.refers, hcycle.bound, hcycle.linked, hcycle.fails,
        hcycle.nodup,
        hcycle.back⟩
  · obtain ⟨place, hbuilt⟩ := exists_built_of_read hread
    have hr : Build.Resolvable options [] := resolvable_nil options
    refine ⟨fun name n tag hmem other tag' hinside => ?_, fun name found tag hmem => ?_⟩
    · exact hbuilt.not_encloses_itself hr (Node.mem_preorder_iff.mp hmem)
        (Node.mem_preorder_iff.mp hinside)
    have hcases : ∀ {t}, Scope.Reaches (.root, query.root) (t, .parameter name found tag) →
        ∃ names place', Built options ([] ++ names) place' t (.parameter name found tag) :=
            fun ht =>
      (hbuilt.of_reaches hr ht).imp fun names ⟨place', h, _⟩ => ⟨place', h⟩
    obtain ⟨t, ht⟩ := hbuilt.exists_reaches hr (Node.mem_preorder_iff.mp hmem)
    obtain ⟨names, place', hparameter⟩ := hcases ht
    obtain ⟨hunreserved, hvalue⟩ := hparameter.parameter_cases
    refine ⟨hunreserved, fun hmust => ?_, ⟨t, ht⟩, fun t ht v hv => ?_⟩
    · obtain ⟨v, m, hv, rfl, -⟩ | ⟨-, -, hallowed⟩ := hvalue
      · simp [hv]
      · cases hmust.symm.trans hallowed
    · obtain ⟨names, place', hparameter⟩ := hcases ht
      obtain ⟨-, ⟨w, m, hw, rfl, -, hrun, -⟩ | ⟨hnone, -⟩⟩ := hparameter.parameter_cases
      · cases hw.symm.trans hv
        exact ⟨m, rfl, run_of_resolving hrun⟩
      · cases hv.symm.trans hnone

/-- Two parameters that are bound to each other. -/
theorem bindings_acyclic_and_complete_pair :
    let refer (name : String) : Json :=
      .object [("type", .string "parameter"), ("value", .string name)]
    let options : ParseOptions := { parameters := some [("a", refer "b"), ("b", refer "a")] }
    ∃ v chain, BuiltFrom options (refer "a") v ∧ "a -> b -> a" = " -> ".intercalate chain ∧
      (∃ p ∈ chain.head?, v.Refers p) ∧ ∃ p ∈ chain.getLast?, p ∈ chain.dropLast := by
  intro refer options
  have hread : read (refer "a") options =
      .error (.invalidParameter ("cyclic parameter binding: " ++ "a -> b -> a")) := by
    cbv
  obtain ⟨v, chain, hv, htext, hrefers, -, -, -, -, hback⟩ :=
    (bindings_acyclic_and_complete _).2.2.2.1 _ _ hread
  exact ⟨v, chain, hv, htext, hrefers, hback⟩

end Query

end AnalyticQuery
