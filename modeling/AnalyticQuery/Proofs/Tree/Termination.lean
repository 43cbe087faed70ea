import AnalyticQuery.Proofs.Tree.Binding

/-!
# The recursion ends

Building a value asks for other values to be built: those inside it, those that its texts stand for
and those bound to its parameters. A text can stand for a value that is longer than the text, and a
value can be bound to a parameter that is deeper than the reference to it. What gets smaller is, in
this order, the number of parameters that are still to be resolved, the rank of the value and its
depth. What reads a text takes no more steps than the bound that is set for the length of the text.
-/

namespace AnalyticQuery

namespace Build

variable {options : ParseOptions} {r : List String} {v : Json}

/-- The number of bindings of parameters that are not under resolution. -/
def unresolved (options : ParseOptions) (r : List String) : Nat :=
  (options.parameters.getD []).countP fun binding => !r.contains binding.1

/-- What gets smaller from a value that is built to one that it asks for. -/
def size (options : ParseOptions) (call : List String × Json) : Nat ×ₗ Nat ×ₗ Nat :=
  toLex (unresolved options call.1, toLex (call.2.rank, call.2.depth))

/-- The calls that may be made to build a value: the parameters under resolution and the value to be
built. -/
def Below (options : ParseOptions) (call caller : List String × Json) : Prop :=
  size options call < size options caller

/-- There is no endless chain of calls. -/
theorem below_wellFounded (options : ParseOptions) : WellFounded (Below options) :=
  InvImage.wf (size options) wellFounded_lt

/-- A parameter that is bound and not under resolution leaves fewer to be resolved. -/
theorem unresolved_append_lt {name : String} {w : Json} (hw : options.parameter? name = some w)
    (hname : name ∉ r) :
    unresolved options (r ++ [name]) < unresolved options r := by
  obtain ⟨F, hF, hw⟩ := Option.bind_eq_some_iff.mp hw
  have hmem : (name, w) ∈ F := Fields.get?_mem hw
  rw [unresolved, unresolved, hF, Option.getD_some]
  obtain ⟨before, after, rfl⟩ := List.append_of_mem hmem
  have hle : ∀ bindings : Fields, bindings.countP
    (fun binding => !(r ++ [name]).contains binding.1) ≤
      bindings.countP fun binding => !r.contains binding.1 := fun bindings =>
    List.countP_mono_left fun binding _ h => by
      simp only [List.contains_eq_mem, List.mem_append, Bool.not_eq_true',
        decide_eq_false_iff_not] at h ⊢
      exact fun hr => h (.inl hr)
  have hbefore := hle before
  have hafter := hle after
  simp only [List.countP_append, List.countP_cons]
  have hold : (!r.contains name) = true := by simpa using hname
  have hnew : (!(r ++ [name]).contains name) = false := by simp
  rw [hold, hnew]
  simp only [if_true, Bool.false_eq_true, if_false]
  omega

private theorem below_of_bound {name : String} {w : Json} (hw : options.parameter? name = some w)
    (hname : name ∉ r) :
    Below options (r ++ [name], w) (r, v) :=
  Prod.Lex.toLex_lt_toLex.mpr (.inl (unresolved_append_lt hw hname))

private theorem below_of_rank {w : Json} (h : w.rank < v.rank) : Below options (r, w) (r, v) :=
  Prod.Lex.toLex_lt_toLex.mpr (.inr ⟨rfl, Prod.Lex.toLex_lt_toLex.mpr (.inl h)⟩)

private theorem below_of_depth {w : Json} (hrank : w.rank ≤ v.rank) (hdepth : w.depth < v.depth) :
    Below options (r, w) (r, v) := by
  obtain hlt | heq := Nat.lt_or_eq_of_le hrank
  · exact below_of_rank hlt
  · exact Prod.Lex.toLex_lt_toLex.mpr (.inr ⟨rfl, Prod.Lex.toLex_lt_toLex.mpr (.inr ⟨heq, hdepth⟩)⟩)

/-- A value is built from what the calls below it give, whatever any other call would give. -/
theorem value_eq_run {f : BuildFn} (hr : Resolving options r)
    (hf : ∀ r' w, Resolving options r' → Below options (r', w) (r, v) →
      ∀ position s, f r' position w s = run options r' position w s)
    (position : Position) (s : Scope) :
    Builder.value ⟨options, r, f, f, f⟩ position v s = run options r position v s := by
  have hsame : ∀ {w}, Below options (r, w) (r, v) → SameOn r f (run options) w := by
    intro w hw position s t hs
    rw [hf r w hr hw]
    exact run_agree (Scope.matching_alike _)
      (Node.congruence_eq _) options.parallel_eq r position w s t hs
  rw [run_eq_value hr.resolvable]
  refine (value_sameOn (fun w hrank hdepth => hsame (below_of_depth hrank hdepth))
    (fun w hrank => hsame (below_of_rank hrank)) ?_).eq position s
  intro name w s t hw hname hs
  rw [hf _ w (hr.append hw hname) (below_of_bound hw hname)]
  exact run_sameOnBound options r hw hname hs

end Build

/-! ## Texts -/

namespace Short

open List Result

/-- Whether reading stops for another reason than the bound on its steps. -/
def Stop.Shallow (at_ : Stop) : Prop := at_.detail ≠ "nested too deeply"

/-- Another reason is one with another first letter. -/
theorem Stop.shallow_stop {α : Type} {detail : String} (cs : List Char)
    (h : detail.toList.head? ≠ some 'n') :
    FailsOnly Shallow (stop detail cs : Except Stop α) := by
  refine failsOnly_error.mpr ?_
  rintro rfl
  exact h rfl

private theorem shallow_expect (c : Char) (cs : List Char) :
    FailsOnly Stop.Shallow (expect c cs) := by
  unfold expect
  split
  · exact Stop.shallow_stop _ (by simp [toString])
  · exact failsOnly_ite.mpr
      ⟨fun _ => failsOnly_ok _, fun _ => Stop.shallow_stop _ (by simp [toString])⟩

private theorem shallow_readBare (cs : List Char) : FailsOnly Stop.Shallow (readBare cs) := by
  unfold readBare
  dsimp only
  split
  · exact Stop.shallow_stop _ (by simp [toString])
  · exact failsOnly_ite.mpr ⟨fun _ => Stop.shallow_stop _ (by simp), fun _ => failsOnly_ok _⟩

private theorem shallow_readJson (cs : List Char) : FailsOnly Stop.Shallow (readJson cs) := by
  unfold readJson
  repeat' split
  all_goals first | exact failsOnly_ok _ | exact Stop.shallow_stop _ (by simp)

private theorem shallow_readQuoted (quote : Char) (cs : List Char) :
    FailsOnly Stop.Shallow (readQuoted quote cs) := by
  unfold readQuoted
  split
  · exact failsOnly_ok _
  · exact Stop.shallow_stop _ (by simp)

/-- The readers do not meet a bound that is large enough for the characters left. -/
structure Enough (fuel : Nat) : Prop where
  short : ∀ {cs}, 2 * cs.length < fuel → FailsOnly Stop.Shallow (readShort fuel cs)
  arguments : ∀ {s cs}, 2 * cs.length + 2 < fuel → FailsOnly Stop.Shallow (readArguments fuel s cs)
  value : ∀ {cs}, 2 * cs.length + 1 < fuel → FailsOnly Stop.Shallow (readValue fuel cs)
  items : ∀ {cs}, 2 * cs.length + 2 < fuel → FailsOnly Stop.Shallow (readItems fuel cs)

namespace Enough

variable {fuel : Nat} {cs : List Char}

theorem short_succ (ih : Enough fuel) (h : 2 * cs.length < fuel + 1) :
    FailsOnly Stop.Shallow (readShort (fuel + 1) cs) := by
  rw [readShort]
  refine (shallow_expect _ _).bind fun tail hat => ?_
  split
  · exact Stop.shallow_stop _ (by simp)
  next name after hname =>
  refine (shallow_expect _ _).bind fun body hopen => ?_
  have hbody : body.length + 2 ≤ cs.length := by
    have hafter := (readName?_suffix hname).length_le
    have hskip := (skip_suffix after).length_le
    rw [expect_suffix hopen] at hskip
    rw [expect_suffix hat]
    simp only [length_cons] at hskip ⊢
    omega
  have hskip := (skip_suffix body).length_le
  split
  · exact failsOnly_ok _
  · exact ih.arguments (by omega)

theorem next (ih : Enough fuel) (s : Short) (h : 2 * cs.length < fuel) : FailsOnly Stop.Shallow
    (match skip cs with
    | ',' :: cs => readArguments fuel s cs
    | ')' :: cs => pure (s, cs)
    | [] => stop "unterminated argument list" []
    | c :: cs => stop s!"expected ',' or ')', got '{c}'" (c :: cs)) := by
  have hskip := (skip_suffix cs).length_le
  split
  · next hcomma =>
    rw [hcomma, length_cons] at hskip
    exact ih.arguments (by omega)
  · exact failsOnly_pure _
  · exact Stop.shallow_stop _ (by simp)
  · exact Stop.shallow_stop _ (by simp [toString])

theorem arguments_succ (ih : Enough fuel) {s : Short} (h : 2 * cs.length + 2 < fuel + 1) :
    FailsOnly Stop.Shallow (readArguments (fuel + 1) s cs) := by
  have hskip := (skip_suffix cs).length_le
  rw [readArguments]
  dsimp only
  cases hkey : readKey? (skip cs) with
  | some read =>
    obtain ⟨key, after⟩ := read
    have hafter := (readKey?_suffix hkey).length_le
    dsimp only
    split
    · exact Stop.shallow_stop _ (by simp [toString])
    · refine (ih.value (by omega)).bind fun found hread => ?_
      have hrest := (readValue_suffix hread).length_le
      exact ih.next _ (show 2 * found.2.length < fuel by omega)
  | none =>
    dsimp only
    split
    · exact Stop.shallow_stop _ (by simp)
    · refine (ih.value (by omega)).bind fun found hread => ?_
      have hrest := (readValue_suffix hread).length_le
      exact ih.next _ (show 2 * found.2.length < fuel by omega)

theorem value_succ (ih : Enough fuel) (h : 2 * cs.length + 1 < fuel + 1) :
    FailsOnly Stop.Shallow (readValue (fuel + 1) cs) := by
  have hskip := (skip_suffix cs).length_le
  unfold readValue
  split
  · next hcs =>
    rw [hcs] at hskip
    exact failsOnly_ite.mpr ⟨fun _ => (ih.short (by omega)).bind fun _ _ => failsOnly_pure _,
      fun _ => shallow_readBare _⟩
  · next hcs =>
    rw [hcs, length_cons] at hskip
    split
    · exact failsOnly_ok _
    · exact (ih.items (by omega)).bind fun _ _ => failsOnly_pure _
  · exact shallow_readJson _
  · exact shallow_readQuoted _ _
  · exact shallow_readQuoted _ _
  · exact shallow_readBare _

theorem items_succ (ih : Enough fuel) (h : 2 * cs.length + 2 < fuel + 1) :
    FailsOnly Stop.Shallow (readItems (fuel + 1) cs) := by
  rw [readItems]
  refine (ih.value (by omega)).bind fun found hread => ?_
  obtain ⟨item, rest⟩ := found
  have hrest := (readValue_suffix hread).length_le
  have hskip := (skip_suffix rest).length_le
  dsimp only
  split
  · next hcomma =>
    rw [hcomma, length_cons] at hskip
    exact (ih.items (by omega)).bind fun _ _ => failsOnly_pure _
  · exact failsOnly_pure _
  · exact Stop.shallow_stop _ (by simp)
  · exact Stop.shallow_stop _ (by simp [toString])

theorem of_fuel (fuel : Nat) : Enough fuel := by
  induction fuel with
  | zero => constructor <;> omega
  | succ fuel ih => exact ⟨ih.short_succ, ih.arguments_succ, ih.value_succ, ih.items_succ⟩

end Enough

/-- Reading a text as a short expression never fails for the bound on the steps. -/
theorem ofText_ne_nested (text : String) (offset : Nat) :
    ofText text ≠ .error (.shortSyntax "nested too deeply" offset) := by
  have hread : FailsOnly Stop.Shallow (readShort (fuelFor text.toList) (skip text.toList)) := by
    have hskip := (skip_suffix text.toList).length_le
    exact (Enough.of_fuel _).short (by rw [fuelFor]; omega)
  unfold ofText
  dsimp only
  split
  · rintro ⟨⟩
  · next at_ hat =>
    have hshallow : at_.Shallow := by
      refine FailsOnly.bind hread (fun found _ => ?_) at_ hat
      split
      · exact failsOnly_pure _
      · exact Stop.shallow_stop _ (by simp [toString])
    intro h
    exact hshallow (Error.shortSyntax.inj (Except.error.inj h)).1

/-- Nor does reading a short expression in front of a text. -/
theorem ofFront_ne_nested (cs : List Char) (offset : Nat) :
    ofFront cs ≠ .error (.shortSyntax "nested too deeply" offset) := by
  have hread : FailsOnly Stop.Shallow (readShort (fuelFor cs) cs) :=
    (Enough.of_fuel _).short (by rw [fuelFor]; omega)
  unfold ofFront
  split
  · rintro ⟨⟩
  · next at_ hat =>
    intro h
    exact hread at_ hat (Error.shortSyntax.inj (Except.error.inj h)).1

end Short

/-! ## Queries -/

namespace Query

/-- Building a tree ends, for every query and all choices.

The calls that can be made to build a value lie below it in a well-founded relation: what is built
stays the same whatever all other calls are answered with. The parameters under resolution are bound
and differ, as they do where a query is read. Reading a query gives a query or fails, and never for
the bound on the builder's recursion; nor does reading a text fail for the bound on its steps, by
`Short.ofText_ne_nested` and `Short.ofFront_ne_nested`. -/
theorem read_ends (options : ParseOptions) :
    WellFounded (Build.Below options) ∧
    Build.Resolving options [] ∧
    (∀ r v (f : BuildFn), Build.Resolving options r →
      (∀ r' w, Build.Resolving options r' → Build.Below options (r', w) (r, v) →
        ∀ position s, f r' position w s = Build.run options r' position w s) →
      ∀ position s, Builder.value ⟨options, r, f, f, f⟩ position v s =
        Build.run options r position v s) ∧
    ∀ value, (∃ query, read value options = .ok query) ∨ ∃ e, e ≠ .exhausted ∧
      read value options = .error e := by
  refine ⟨Build.below_wellFounded options, .nil options,
    fun r v f hr hf => Build.value_eq_run hr hf, fun value => ?_⟩
  cases hread : read value options with
  | ok query => exact .inl ⟨query, rfl⟩
  | error e =>
    refine .inr ⟨e, ?_, rfl⟩
    rintro rfl
    obtain hplain | ⟨v, position, -, hrun⟩ := exists_run_of_read hread
    · exact hplain
    · exact (Build.run_warranted (.nil options) position v .root _ hrun).bounded rfl

/-- A short expression for a parameter that is bound to the same short expression fails for the
cycle. -/
theorem read_ends_cycle :
    let value : Json := .object [("type", .string "short"), ("value", .string "@param(p)")]
    let options : ParseOptions := { parameters := some [("p", value)] }
    ∃ e, e ≠ .exhausted ∧ read value options = .error e ∧
      e = .invalidParameter "cyclic parameter binding: p -> p" := by
  intro value options
  have hcycle : read value options = .error
      (.invalidParameter "cyclic parameter binding: p -> p") := by
    cbv
  obtain ⟨query, hread⟩ | ⟨e, he, hread⟩ := (read_ends options).2.2.2 value
  · cases hread.symm.trans hcycle
  · cases hread.symm.trans hcycle
    exact ⟨_, he, hcycle, rfl⟩

end Query

end AnalyticQuery
