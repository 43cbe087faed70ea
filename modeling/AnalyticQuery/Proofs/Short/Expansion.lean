import AnalyticQuery.Proofs.Ql.Fields
import AnalyticQuery.Proofs.Short.Readable
import AnalyticQuery.Short.Form

/-!
# Expansion of short expressions

A short expression whose arguments fit the template of its form stands for a query value, and an
alias and a cast among its named arguments go onto that value.
-/

namespace AnalyticQuery

open List Result

variable {tag : Tag} {positional : List Argument} {named : List (String × Argument)} {form : Form}

variable {entry : String × Argument} {key name : String} {args : FormArgs}

/-! ## Aliases and casts as arguments -/

/-- The named arguments of an alias and a cast. -/
def Tag.arguments (tag : Tag) : List (String × Argument) :=
  (tag.label.map fun name => ("as", .string name)).toList ++
    (tag.cast.map fun type => ("cast", .string type.name)).toList

namespace Tag

private theorem key_of_mem_arguments (h : entry ∈ tag.arguments) :
    entry.1 = "as" ∨ entry.1 = "cast" := by
  obtain ⟨label, cast⟩ := tag
  cases label <;> cases cast <;> grind [arguments]

/-- The arguments of an alias and a cast are texts. -/
theorem string_of_mem_arguments (h : entry ∈ tag.arguments) :
    ∃ text, entry.2 = .string text := by
  obtain ⟨label, cast⟩ := tag
  cases label <;> cases cast <;> grind [arguments]

private theorem nodup_arguments (tag : Tag) : (tag.arguments.map (·.1)).Nodup := by
  obtain ⟨label, cast⟩ := tag
  cases label <;> cases cast <;> simp [arguments]

theorem lookup_arguments (has : key ≠ "as") (hcast : key ≠ "cast") :
    tag.arguments.lookup key = none := by
  rw [lookup_eq_none_iff]
  intro entry hentry
  obtain h | h := key_of_mem_arguments hentry <;> simp [h, has, hcast]

theorem lookup_arguments_as (tag : Tag) : tag.arguments.lookup "as" = tag.label.map .string := by
  obtain ⟨label, cast⟩ := tag
  cases label <;> cases cast <;> simp [arguments, List.lookup]

theorem lookup_arguments_cast (tag : Tag) :
    tag.arguments.lookup "cast" = tag.cast.map (.string ·.name) := by
  obtain ⟨label, cast⟩ := tag
  cases label <;> cases cast <;> simp [arguments, List.lookup]

end Tag

namespace Short

/-- An alias and a cast come after the other named arguments. -/
theorem tagShort_eq (tag : Tag) (h : ∀ entry ∈ named, entry.1 ≠ "as" ∧ entry.1 ≠ "cast") :
    Node.tagShort (mk name positional named) tag.label tag.cast =
      mk name positional (named ++ tag.arguments) := by
  obtain ⟨label, cast⟩ := tag
  have hlabel : "as" ∉ named.map (·.1) := by
    simpa using fun arg he => (h ("as", arg) he).1
  have hcast : "cast" ∉ named.map (·.1) := by
    simpa using fun arg he => (h ("cast", arg) he).2
  have hboth : ∀ arg : Argument, "cast" ∉ (named ++ [("as", arg)]).map (·.1) := by
    simpa using hcast
  cases label <;> cases cast <;>
    simp only [Node.tagShort, set, Tag.arguments, setArg_of_not_mem _ hlabel,
      setArg_of_not_mem _ hcast, setArg_of_not_mem _ (hboth _), Short.name, Short.positional,
      Short.named] <;> simp

end Short

/-! ## Arguments that fit a form -/

namespace Form

/-- The form of a name is found. -/
theorem ofName?_name (form : Form) : ofName? form.name = some form := by
  cases form <;> decide +kernel

/-- The name of a form is a name in small letters. -/
theorem isIdentifier_name (form : Form) :
    isIdentifier form.name.toList = true ∧ form.name.toLower = form.name := by
  cases form <;> decide +kernel

/-- The names in a template are names, and leave those of an alias and a cast free. -/
theorem key_of_mem_template (h : key ∈ form.template) :
    isIdentifier key.toList = true ∧ key ≠ "as" ∧ key ≠ "cast" := by
  have hall : ∀ form : Form, (form.template.all fun key =>
      isIdentifier key.toList && key != "as" && key != "cast") = true := by
    intro form
    cases form <;> decide +kernel
  have hkey := all_eq_true.mp (hall form) key h
  simpa [and_assoc] using hkey

end Form

/-- Arguments that a form takes: no more by position than its template has names, and by name each
name of the template at most once. -/
structure Form.Takes (form : Form) (positional : List Argument) (named : List (String × Argument)) :
    Prop where
  length : positional.length ≤ form.template.length
  keys : ∀ entry ∈ named, entry.1 ∈ form.template
  nodup : ((form.template.zip positional ++ named).map (·.1)).Nodup

namespace Form.Takes

/-- The names that arguments by position have are among those of the template, in its order. -/
theorem keys_zip (positional : List Argument) (names : List String) :
    ((names.zip positional).map (·.1)).Sublist names := by
  induction names generalizing positional with
  | nil => simp
  | cons name names ih =>
    cases positional with
    | nil => simp
    | cons arg positional => exact (ih positional).cons_cons name

/-- A form takes arguments by position alone. -/
theorem of_positional (h : positional.length ≤ form.template.length) :
    form.Takes positional [] := by
  have htemplate : form.template.Nodup := by cases form <;> decide +kernel
  refine ⟨h, nofun, ?_⟩
  rw [append_nil]
  exact htemplate.sublist (keys_zip positional _)

/-- The names that are bound are those of the template. -/
theorem key_of_mem (h : form.Takes positional named)
    (hentry : entry ∈ form.template.zip positional ++ named) : entry.1 ∈ form.template := by
  rcases mem_append.mp hentry with hentry | hentry
  · exact (of_mem_zip hentry).1
  · exact h.keys entry hentry

/-- An alias and a cast do not clash with the names that are bound. -/
theorem nodup_tagged (h : form.Takes positional named) (tag : Tag) :
    ((form.template.zip positional ++ (named ++ tag.arguments)).map (·.1)).Nodup := by
  rw [← append_assoc, map_append, nodup_append]
  refine ⟨h.nodup, tag.nodup_arguments, ?_⟩
  intro a ha b hb
  obtain ⟨entry, hentry, rfl⟩ := mem_map.mp ha
  obtain ⟨entry', hentry', rfl⟩ := mem_map.mp hb
  have hkey := Form.key_of_mem_template (h.key_of_mem hentry)
  obtain h' | h' := Tag.key_of_mem_arguments hentry' <;> rw [h']
  · exact hkey.2.1
  · exact hkey.2.2

/-- An alias and a cast come after the arguments of a form. -/
theorem tagShort_eq (h : form.Takes positional named) (tag : Tag) :
    Node.tagShort (.mk form.name positional named) tag.label tag.cast =
      .mk form.name positional (named ++ tag.arguments) :=
  Short.tagShort_eq tag fun entry hentry => (Form.key_of_mem_template (h.keys entry hentry)).2

/-- A short expression with arguments that its form takes is proper, with any alias and cast. -/
theorem proper (h : form.Takes positional named) (tag : Tag)
    (hpositional : itemsAll Argument.Proper positional) (hnamed : namedAll Argument.Proper named) :
    (Short.mk form.name positional (named ++ tag.arguments)).All Argument.Proper := by
  refine ⟨⟨form.isIdentifier_name, ?_, ?_⟩, hpositional, namedAll_iff.mpr ?_⟩
  · intro entry hentry
    rcases mem_append.mp hentry with hentry | hentry
    · exact (Form.key_of_mem_template (h.keys entry hentry)).1
    · obtain h | h := Tag.key_of_mem_arguments hentry <;> rw [h] <;> decide +kernel
  · have hall := h.nodup_tagged tag
    rw [map_append] at hall
    exact hall.of_append_right
  · intro entry hentry
    rcases mem_append.mp hentry with hentry | hentry
    · exact namedAll_iff.mp hnamed entry hentry
    · obtain ⟨text, htext⟩ := Tag.string_of_mem_arguments hentry
      rw [htext]
      trivial

/-- An alias and a cast are read back. -/
theorem legible (tag : Tag) (hpositional : itemsAll Argument.Legible positional)
    (hnamed : namedAll Argument.Legible named) :
    (Short.mk name positional (named ++ tag.arguments)).All Argument.Legible := by
  refine ⟨trivial, hpositional, namedAll_iff.mpr ?_⟩
  intro entry hentry
  rcases mem_append.mp hentry with hentry | hentry
  · exact namedAll_iff.mp hnamed entry hentry
  · obtain ⟨text, htext⟩ := Tag.string_of_mem_arguments hentry
    rw [htext]
    trivial

end Form.Takes

namespace FormArgs

/-- Named arguments that are known and new are added in order. -/
theorem foldlM_bindNamed
    (hkeys : ∀ entry ∈ named, entry.1 ∈ args.form.template ∨ entry.1 = "as" ∨ entry.1 = "cast")
    (hnodup : ((args.values ++ named).map (·.1)).Nodup) :
    named.foldlM bindNamed args = .ok { args with values := args.values ++ named } := by
  induction named generalizing args with
  | nil => simp
  | cons entry named ih =>
    have hknown : (args.form.template.contains entry.1 || entry.1 == "as" || entry.1 == "cast") =
        true := by
      simpa [or_assoc] using hkeys entry mem_cons_self
    have hnew : (args.values.any fun given => given.1 == entry.1) = false := by
      rw [map_append, nodup_append] at hnodup
      simp only [any_eq_false, beq_iff_eq]
      intro given hgiven
      exact hnodup.2.2 given.1 (mem_map_of_mem hgiven) entry.1 (by simp)
    have hstep : bindNamed args entry = .ok { args with values := args.values ++ [entry] } := by
      simp only [bindNamed, hknown, hnew]
      rfl
    rw [foldlM_cons, hstep, ok_bind, ih]
    · simp
    · exact fun e he => hkeys e (mem_cons_of_mem _ he)
    · simpa using hnodup

/-- Named arguments that are added are known and new. -/
theorem of_foldlM_bindNamed {bound : FormArgs} (h : named.foldlM bindNamed args = .ok bound)
    (hargs : (args.values.map (·.1)).Nodup) :
    (∀ entry ∈ named, entry.1 ∈ args.form.template ∨ entry.1 = "as" ∨ entry.1 = "cast") ∧
      ((args.values ++ named).map (·.1)).Nodup ∧
        bound = { args with values := args.values ++ named } := by
  induction named generalizing args with
  | nil =>
    cases h
    simpa using hargs
  | cons entry named ih =>
    rw [foldlM_cons] at h
    obtain ⟨next, hnext, h⟩ := of_bind h
    unfold bindNamed at hnext
    dsimp only at hnext
    split at hnext
    · cases hnext
    next hknown =>
    split at hnext
    · cases hnext
    next hnew =>
    cases hnext
    have hnew : entry.1 ∉ args.values.map (·.1) := by simpa using hnew
    have hstep : ((args.values ++ [entry]).map (·.1)).Nodup := by
      rw [map_append, map_singleton, ← concat_eq_append]
      exact hargs.concat hnew
    obtain ⟨hkeys, hnodup, rfl⟩ := ih h hstep
    have hknown : entry.1 ∈ args.form.template ∨ entry.1 = "as" ∨ entry.1 = "cast" := by
      rw [Bool.not_eq_true, Bool.not_eq_false'] at hknown
      simpa [or_assoc] using hknown
    exact ⟨forall_mem_cons.mpr ⟨hknown, hkeys⟩, by simpa using hnodup, by simp⟩

end FormArgs

/-- Short expressions whose arguments can be bound to the names of a form: no more by position than
its template has names, and by name each name of the template, an alias and a cast at most once. -/
structure Form.Admits (form : Form) (s : Short) : Prop where
  length : s.positional.length ≤ form.template.length
  keys : ∀ entry ∈ s.named, entry.1 ∈ form.template ∨ entry.1 = "as" ∨ entry.1 = "cast"
  nodup : ((form.template.zip s.positional ++ s.named).map (·.1)).Nodup

namespace FormArgs

/-- Arguments are bound exactly if they can be. -/
theorem bind_ok_iff {s : Short} :
    bind form s = .ok args ↔
      form.Admits s ∧ args = ⟨form, form.template.zip s.positional ++ s.named⟩ := by
  unfold bind
  dsimp only
  split
  · next hlength => exact ⟨nofun, fun h => absurd h.1.length (Nat.not_le.mpr hlength)⟩
  next hlength =>
  have hlength := Nat.not_lt.mp hlength
  constructor
  · intro h
    have hzip := (Form.Takes.of_positional hlength).nodup
    rw [append_nil] at hzip
    obtain ⟨hkeys, hnodup, rfl⟩ := of_foldlM_bindNamed h hzip
    exact ⟨⟨hlength, hkeys, hnodup⟩, rfl⟩
  · rintro ⟨h, rfl⟩
    exact foldlM_bindNamed h.keys h.nodup

/-- Arguments that a form takes are bound, with any alias and cast. -/
theorem bind_takes (h : form.Takes positional named) :
    bind form (.mk form.name positional (named ++ tag.arguments)) =
      .ok ⟨form, form.template.zip positional ++ (named ++ tag.arguments)⟩ := by
  refine bind_ok_iff.mpr ⟨⟨h.length, fun entry hentry => ?_, h.nodup_tagged tag⟩, rfl⟩
  rcases mem_append.mp hentry with hentry | hentry
  · exact .inl (h.keys entry hentry)
  · exact .inr (Tag.key_of_mem_arguments hentry)

/-- A text argument that may be given is read. -/
theorem string?_eq_ok {text : Option String} (h : args.values.lookup key = text.map .string) :
    args.string? key = .ok text := by
  rw [string?, get?, h]
  cases text <;> rfl

/-- A text argument that is given is read. -/
theorem string_eq_ok {text : String} (h : args.values.lookup key = some (.string text)) :
    args.string key = .ok text := by
  have hgiven : args.string? key = .ok (some text) := string?_eq_ok h
  rw [string, hgiven]
  rfl

/-- An array argument is read as the values of its items. -/
theorem qlList_eq {items : List Argument} (h : args.values.lookup key = some (.array items)) :
    args.qlList key = items.map Argument.toQl := by
  rw [qlList, get?, h]
  rfl

end FormArgs

/-- A short expression with arguments that its form takes stands for the value of its form, with its
alias and cast. -/
theorem Short.expand_eq_ok
    {v : Json} (h : form.Takes positional named)
    (hv : FormArgs.expand ⟨form, form.template.zip positional ++ (named ++ tag.arguments)⟩ =
      .ok v) :
    (mk form.name positional (named ++ tag.arguments)).expand = .ok (tag.onto v) := by
  have hlookup : ∀ key, key = "as" ∨ key = "cast" →
      (form.template.zip positional ++ (named ++ tag.arguments)).lookup key =
        tag.arguments.lookup key := by
    intro key hkey
    have hfree : (form.template.zip positional ++ named).lookup key = none := by
      rw [lookup_eq_none_iff]
      intro entry hentry
      have hentry := Form.key_of_mem_template (h.key_of_mem hentry)
      obtain rfl | rfl := hkey
      · simpa using hentry.2.1.symm
      · simpa using hentry.2.2.symm
    rw [← append_assoc, lookup_append, hfree, Option.none_or]
  have hlabel : FormArgs.string?
    ⟨form, form.template.zip positional ++ (named ++ tag.arguments)⟩ "as" =
      .ok tag.label :=
    FormArgs.string?_eq_ok ((hlookup "as" (.inl rfl)).trans tag.lookup_arguments_as)
  have hcast : FormArgs.string?
    ⟨form, form.template.zip positional ++ (named ++ tag.arguments)⟩ "cast" =
      .ok (tag.cast.map (·.name)) := by
    refine FormArgs.string?_eq_ok ((hlookup "cast" (.inr rfl)).trans ?_)
    rw [tag.lookup_arguments_cast, Option.map_map]
    rfl
  simp only [expand, Short.name, Form.ofName?_name, FormArgs.bind_takes h, ok_bind, hv, hlabel,
    hcast, pure_eq_ok]
  rfl

end AnalyticQuery
