import AnalyticQuery.Proofs.Short.Expansion
import Mathlib

/-!
# Arguments by position and by name

An argument of a short expression can be given by its position or by the name that the template of
the form has for the position, and one that is null as well be left out. Bound to the names of the
template, the arguments are the same but for their order and for nulls, and a form reads no more of
them than that.
-/

namespace AnalyticQuery

open List Result

variable {key : String} {form : Form} {s t : Short}

namespace FormArgs

variable {values others : List (String × Argument)}

private theorem lookup_eq_some_iff_mem (h : (values.map (·.1)).Nodup) {arg : Argument} :
    values.lookup key = some arg ↔ (key, arg) ∈ values := by
  induction values with
  | nil => simp
  | cons entry values ih =>
    obtain ⟨hnew, hrest⟩ := nodup_cons.mp h
    by_cases hkey : key = entry.1
    · subst hkey
      have hold : (entry.1, arg) ∉ values := fun hmem => hnew (mem_map_of_mem (f := (·.1)) hmem)
      simp [lookup, hold, Prod.ext_iff, eq_comm]
    · have hne : (key == entry.1) = false := by simpa using hkey
      simp [lookup, hne, ih hrest, Prod.ext_iff, hkey]

/-- Arguments with the same names and values, apart from nulls, are read alike. -/
theorem get?_congr (hvalues : (values.map (·.1)).Nodup) (hothers : (others.map (·.1)).Nodup)
    (h : ∀ key arg, arg.isNull = false → ((key, arg) ∈ values ↔ (key, arg) ∈ others)) :
    get? ⟨form, values⟩ = get? ⟨form, others⟩ := by
  funext key
  ext arg
  simp only [get?, Option.filter_eq_some_iff, lookup_eq_some_iff_mem hvalues,
    lookup_eq_some_iff_mem hothers]
  cases hnull : arg.isNull with
  | true => simp
  | false => simp [h key arg hnull]

/-- What a form stands for depends on the arguments that are given and not null. -/
theorem expand_congr (h : get? ⟨form, values⟩ = get? ⟨form, others⟩) :
    string? ⟨form, values⟩ = string? ⟨form, others⟩ ∧
      expand ⟨form, values⟩ = expand ⟨form, others⟩ := by
  have hstring : string? ⟨form, values⟩ = string? ⟨form, others⟩ := by
    funext key
    simp only [string?, h, fault]
  have hint : int? ⟨form, values⟩ = int? ⟨form, others⟩ := by
    funext key
    simp only [int?, h, fault]
  have hql : ql ⟨form, values⟩ = ql ⟨form, others⟩ := by
    funext key
    simp only [ql, required, h, missing, fault]
  have hlist : qlList ⟨form, values⟩ = qlList ⟨form, others⟩ := by
    funext key
    simp only [qlList, h]
  have hdelta : withDelta ⟨form, values⟩ = withDelta ⟨form, others⟩ := by
    funext base cast
    simp only [withDelta, h, fault]
  refine ⟨hstring, ?_⟩
  cases form <;> simp only [expand, string, int, intOrZero, bool?, place, constant, interval,
    missing, fault, h, hstring, hint,
    hql, hlist, hdelta]

end FormArgs

/-- Ways to write the arguments of a form otherwise. -/
inductive Form.Rewrites (form : Form) : Short → Short → Prop where
  /-- The last arguments by position are given by the names that the template has for them. -/
  | byName (name : String) (front back : List Argument) (named : List (String × Argument)) :
      form.Rewrites (.mk name (front ++ back) named)
        (.mk name front ((form.template.drop front.length).zip back ++ named))
  /-- The arguments by name are given in another order. -/
  | reorder (name : String) (positional : List Argument) {named named' : List (String × Argument)} :
      named.Perm named' → form.Rewrites (.mk name positional named) (.mk name positional named')
  /-- An argument by name that is null is left out. -/
  | dropNamed (name key : String) (positional : List Argument)
      (before after : List (String × Argument)) :
      form.Rewrites (.mk name positional (before ++ (key, .null) :: after))
        (.mk name positional (before ++ after))
  /-- The last argument by position is null, and left out. -/
  | dropLast (name : String) (positional : List Argument) (named : List (String × Argument)) :
      form.Rewrites (.mk name (positional ++ [.null]) named) (.mk name positional named)

/-- The arguments of a short expression under the names of a template. -/
def Form.slots (form : Form) (s : Short) : List (String × Argument) :=
  form.template.zip s.positional ++ s.named

private theorem Form.zip_append (template : List String) (front back : List Argument) :
    template.zip (front ++ back) = template.zip front ++ (template.drop front.length).zip back := by
  induction front generalizing template with
  | nil => simp
  | cons arg front ih =>
    cases template with
    | nil => simp
    | cons name template => simp [ih]

namespace Form.Rewrites

/-- The arguments under the names of the template stay the same but for their order and for
nulls. -/
theorem slots (h : form.Rewrites s t) (hs : s.positional.length ≤ form.template.length) :
    t.name = s.name ∧ t.positional.length ≤ form.template.length ∧
      ∃ nulls : List String, (form.slots s).Perm (form.slots t ++ nulls.map (·, .null)) := by
  cases h with
  | byName name front back named =>
    refine ⟨rfl, le_trans (by simp [Short.positional]) hs, [], ?_⟩
    simp [Form.slots, Short.positional, Short.named, Form.zip_append]
  | reorder name positional hperm =>
    refine ⟨rfl, hs, [], ?_⟩
    rw [map_nil, append_nil]
    exact hperm.append_left _
  | dropNamed name key positional before after =>
    refine ⟨rfl, hs, [key], ?_⟩
    simp only [Form.slots, Short.positional, Short.named, map_singleton, append_assoc]
    exact (perm_middle.trans (perm_append_singleton _ _).symm |>.append_left _).trans (by simp)
  | dropLast name positional named =>
    have hlength : positional.length < form.template.length := by simpa [Short.positional] using hs
    refine ⟨rfl, hlength.le, [form.template[positional.length]], ?_⟩
    simp only [Form.slots, Short.positional, Short.named, Form.zip_append,
      drop_eq_getElem_cons hlength, map_singleton, append_assoc, zip_cons_cons, zip_nil_right]
    exact perm_append_comm.append_left _

/-- A step keeps what the form admits, and what the short expression stands for. -/
theorem expand_eq (h : form.Rewrites s t) (hform : ofName? s.name = some form)
    (hs : form.Admits s) :
    form.Admits t ∧ t.expand = s.expand := by
  obtain ⟨hname, hlength, nulls, hperm⟩ := h.slots hs.length
  have hnodup : ((form.slots t).map (·.1)).Nodup := by
    have hall := (hperm.map (·.1)).nodup_iff.mp hs.nodup
    rw [map_append] at hall
    exact hall.of_append_left
  have ht : form.Admits t := by
    refine ⟨hlength, fun entry hentry => ?_, hnodup⟩
    have hmem := hperm.mem_iff.mpr (mem_append_left _ (mem_append_right _ hentry))
    rcases mem_append.mp hmem with hmem | hmem
    · exact .inl (of_mem_zip hmem).1
    · exact hs.keys entry hmem
  have hget : FormArgs.get? ⟨form, form.slots t⟩ = FormArgs.get? ⟨form, form.slots s⟩ := by
    refine FormArgs.get?_congr hnodup hs.nodup fun key arg hnull => ?_
    have harg : arg ≠ .null := by
      rintro rfl
      cases hnull
    rw [hperm.mem_iff]
    simp [harg.symm]
  obtain ⟨hstring, hexpand⟩ := FormArgs.expand_congr hget
  refine ⟨ht, ?_⟩
  rw [Short.expand, Short.expand, hname, hform]
  dsimp only
  rw [FormArgs.bind_ok_iff.mpr ⟨hs, rfl⟩, FormArgs.bind_ok_iff.mpr ⟨ht, rfl⟩, ok_bind, ok_bind]
  exact congrArg₂ (fun value string => value >>= fun value => string "as" >>= fun label =>
      string "cast" >>= fun cast =>
    pure (Json.tagged value label cast)) hexpand hstring

end Form.Rewrites

/-- Arguments mean the same by position and by name, in every order of the names, and with or
without those that are null: the outcome is the same, be it a value or a failure. -/
theorem Short.expand_rewritten (hform : Form.ofName? s.name = some form) (hs : form.Admits s)
    (h : Relation.ReflTransGen form.Rewrites s t) : form.Admits t ∧ t.expand = s.expand := by
  suffices t.name = s.name ∧ form.Admits t ∧ t.expand = s.expand from this.2
  induction h with
  | refl => exact ⟨rfl, hs, rfl⟩
  | tail _ hstep ih =>
    obtain ⟨hname, hadmits, hexpand⟩ := ih
    obtain ⟨hadmits', hexpand'⟩ := hstep.expand_eq (hname.symm ▸ hform) hadmits
    exact ⟨(hstep.slots hadmits.length).1.trans hname, hadmits', hexpand'.trans hexpand⟩

/-- A count of distinct values, with nulls left out and its arguments by name. -/
theorem Short.expand_rewritten_function :
    let s := mk "function" [.string "count", .null, .bool true]
      [("cast", .null), ("as", .string "n")]
    let t := mk "function" [.string "count"] [("as", .string "n"), ("distinct", .bool true)]
    Form.ofName? s.name = some .function ∧ Form.function.Admits s ∧ t.expand = s.expand := by
  intro s t
  have hs : Form.function.Admits s := ⟨by decide, by simp [s, Short.named], by decide⟩
  -- the last two arguments get names, the nulls go, and the names change places
  have hsteps : Relation.ReflTransGen Form.function.Rewrites s t := by
    refine .head (.byName _ [_] _ _) (.head (.dropNamed _ "args" _ [] _) ?_)
    exact .head (.dropNamed _ "cast" _ [_] _) (.single (.reorder _ _ (.swap _ _ [])))
  have hform : Form.ofName? s.name = some .function := Form.ofName?_name .function
  exact ⟨hform, hs, (expand_rewritten hform hs hsteps).2⟩

end AnalyticQuery
