import AnalyticQuery.Proofs.Tree.Attaching
import AnalyticQuery.Proofs.Tree.Points
import AnalyticQuery.Proofs.Tree.Shortening

/-!
# Kept short expressions

A short expression that is kept beside a tree stands for it wherever it is inside a tree: what it
expands to is built to that tree in the scope where it stands, also after aliases and casts were
folded onto both. Hence a tree that is written with its short expressions is built again from what
is written.
-/

namespace AnalyticQuery

open Node Relation Result

variable {label : Option String} {n m inner : Node} {r : List String} {source : Short}
variable {options : ParseOptions} {s : Scope}

/-! ## Trees that are written with their short expressions -/

namespace Node

/-- The expressions that are written with an expression: none of those that a kept short expression
stands for. -/
def besideShorts : Node → List Node
  | .short .. => []
  | other => other.inQl

/-- In all that is written of an expression, no null stands where it would count as no value, and
the numbers and data of short expressions are read back from their own text. -/
def Rereadable (n : Node) : Prop :=
  ∀ m, ReflTransGen (fun a b => b ∈ a.besideShorts) n m →
    (∀ k ∈ m.nullable, k.isBareNull = false) ∧ ∀ e ∈ m.source?, e.All Argument.Legible

/-- Trees that are alike have the same real numbers directly inside. -/
theorem Alike.map_real?_children (h : n.Alike m) : n.children.map real? = m.children.map real? := by
  refine List.forall₂_eq_eq_eq ▸ List.forall₂_map_left_iff.mpr (List.forall₂_map_right_iff.mpr ?_)
  refine h.children.imp fun a b hab => ?_
  cases hab with
  | intro hframe =>
    have hreal : ∀ k : Node, k.frame.real? = k.real? := by
      intro k
      cases k <;> rfl
    rw [← hreal a, hframe, hreal b]

theorem Rereadable.of_mem (h : n.Rereadable) (hm : m ∈ n.besideShorts) : m.Rereadable :=
  fun k hk => h k (.head hm hk)

/-- A node can be read again if its own parts and all nodes below it can. -/
theorem Rereadable.intro (nulls : ∀ k ∈ n.nullable, k.isBareNull = false)
    (legible : ∀ e ∈ n.source?, e.All Argument.Legible)
    (below : ∀ m ∈ n.besideShorts, m.Rereadable) :
    n.Rereadable := by
  intro m hm
  obtain rfl | ⟨k, hk, hm⟩ := hm.cases_head
  · exact ⟨nulls, legible⟩
  · exact below k hk m hm

end Node

/-! ## Their texts -/

private theorem Short.proper_tagShort {e : Short} (h : e.All Argument.Proper)
    (label : Option String) (cast : Option CastType) :
    (tagShort e label cast).All Argument.Proper := by
  have hlabel : ∀ name, (e.set "as" (.string name)).All Argument.Proper := fun name =>
    proper_set h (by decide +kernel) trivial
  cases label with
  | none =>
    cases cast with
    | none => exact h
    | some type => exact proper_set h (by decide +kernel) trivial
  | some name =>
    cases cast with
    | none => exact hlabel name
    | some type => exact proper_set (hlabel name) (by decide +kernel) trivial

namespace Build

/-- The names in a kept short expression can be written. -/
theorem Unfolds.proper (h : Unfolds options r s source inner) : source.All Argument.Proper := by
  obtain ⟨text, first, v, n, htext, -, -, hfolds⟩ := h
  have hkept : ∀ m, (short first n).Folds m → ∀ e ∈ m.source?, e.All Argument.Proper := by
    intro m hm
    induction hm with
    | refl =>
      rintro e ⟨⟩
      exact Short.proper_of_ofText htext
    | @step m k label cast _ hfold ih =>
      obtain ⟨-, rfl⟩ := fold_ok_iff.mp hfold
      cases m with
      | short e i =>
        rintro _ ⟨⟩
        exact Short.proper_tagShort (ih e rfl) label cast
      | _ => exact nofun
  exact hkept _ hfolds source rfl

/-- What takes on an alias and a cast is built of the value with both. -/
theorem run_tagged_of_fold {F : Fields} {kind : ExpressionType} (hr : Resolvable options r)
    (hF : F.Plain kind) {cast : Option String} {type : Option CastType}
    (hn : run options r .expression (.object F) s = .ok n)
    (htype : CastType.ofName? cast = .ok type) (hfold : n.fold label type = .ok m) :
    ∃ k, run options r .expression ((Json.object F).tagged label cast) s = .ok k ∧ m.Alike k := by
  have hlabel : label ≠ some "" := by
    rintro rfl
    exact ((fold_ok_iff.mp hfold).1.label "" rfl).1 rfl
  have hagree := agree_object hr hn hlabel htype
    fun own name hown => by cases hF.label.symm.trans hown
  rw [hfold] at hagree
  generalize run options r .expression ((Json.object F).tagged label cast) s = x at hagree
  cases hagree with
  | ok h => exact ⟨_, rfl, h.symm⟩
  | excused _ h => exact h.elim

/-- A short expression that stands for a value of which a tree is built, up to the order of named
arguments. -/
def Explains (options : ParseOptions) (r : List String) (s : Scope) (source : Short)
    (inner : Node) : Prop :=
  ∃ base label cast m, source.StandsFor base label cast ∧
    run options r .expression (base.tagged label cast) s = .ok m ∧ m.Alike inner

/-- An alias and a cast that a tree takes on are added to its short expression. -/
theorem Explains.fold (hr : Resolvable options r) (h : Explains options r s source inner)
    {cast : Option CastType} {k : Node} (hfold : inner.fold label cast = .ok k) :
    Explains options r s (tagShort source label cast) k := by
  obtain ⟨base, label₀, cast₀, m, hstands, hrun, hm⟩ := h
  obtain ⟨F, kind, rfl, hF⟩ := hstands.plain
  obtain ⟨n, type, m₁, hn, htype, hm₁, halike⟩ := fold_of_run_tagged hr hF hrun
  -- the tree with the first tags takes on the new ones as the tree it is like does
  obtain ⟨k₁, hk₁, hk⟩ := (halike.trans hm).symm.fold hfold
  obtain ⟨l, hl, hkl⟩ := fold_join hm₁ hk₁
  have hname : CastType.ofName? (cast.map CastType.name) = .ok cast := by
    cases cast with
    | none => rfl
    | some cast => simp [CastType.ofName?, CastType.ofName_name]
  obtain ⟨m₂, hm₂, hlm⟩ := run_tagged_of_fold hr hF hn (CastType.ofName?_orElse htype hname) hl
  exact ⟨_, _, _, m₂, hstands.tagShort label cast, hm₂, ((hk.trans hkl).trans hlm).symm⟩

/-- What is kept beside a tree stands for a value of which it is built. -/
theorem Unfolds.explains (hr : Resolvable options r) (h : Unfolds options r s source inner) :
    Explains options r s source inner := by
  obtain ⟨text, first, v, n, htext, hexpand, ⟨binding, level, hbinding, hlevels⟩, hfolds⟩ := h
  have hstart : Explains options r s first n := by
    obtain ⟨base, label, cast, hstands, rfl⟩ := Short.expand_ok_iff.mp hexpand
    have hbound : SameOnBound options r binding (run options) := by
      intro name w t u hw hfresh ht
      rw [hbinding]
      exact run_sameOnBound options r hw hfresh ht
    exact ⟨base, label, cast, n, hstands, run_of_levels hr hbound hlevels, .refl n⟩
  have hkept : ∀ m, (short first n).Folds m → ∃ e i, m = .short e i ∧ Explains options r s e i := by
    intro m hm
    induction hm with
    | refl => exact ⟨first, n, rfl, hstart⟩
    | step _ hfold ih =>
      obtain ⟨e, i, rfl, hi⟩ := ih
      obtain ⟨j, hj, hfold⟩ := of_bind hfold
      cases hfold
      exact ⟨_, j, rfl, hi.fold hr hj⟩
  obtain ⟨e, i, heq, hi⟩ := hkept _ hfolds
  cases heq
  exact hi

/-- What a kept short expression expands to is built, in its own scope, to the tree that it is kept
with. -/
theorem Unfolds.expands (hr : Resolvable options r) (h : Unfolds options r s source inner) :
    ∃ v m, source.expand = .ok v ∧ run options r .expression v s = .ok m ∧ m.Alike inner := by
  obtain ⟨base, label, cast, m, hstands, hrun, hm⟩ := h.explains hr
  exact ⟨_, m, Short.expand_ok_iff.mpr ⟨base, label, cast, hstands, rfl⟩, hrun, hm⟩

/-- A kept short expression that is read back from its text is built again from it. -/
theorem exists_run_short (hr : Resolvable options r) (hkept : options.keepShorts = true)
    (h : Unfolds options r s source inner) (hlegible : source.All Argument.Legible) :
    ∃ m, run options r .expression ((short source inner).ql true) s = .ok m ∧
      (short source inner).Alike m := by
  obtain ⟨v, m, hexpand, hrun, hm⟩ := h.expands hr
  have hexpanded : (runner options r).expandShort source s = .ok (.short source m) := by
    have hinner : (runner options r).outside.expression v s = .ok m := hrun
    have hkeep : (runner options r).options.keepShorts = true := hkept
    simp [Builder.expandShort, hexpand, hinner, hkeep]
  refine ⟨.short source m, ?_, .short (.refl source) hm.symm⟩
  rw [run_eq_value hr]
  exact Builder.value_short h.proper hlegible hexpanded

/-- Trees are built again, up to the order of named arguments, from what they are written as with
their short expressions. -/
theorem rewritable_alike (options : ParseOptions) :
    Rewritable Node.Alike true options Node.Rereadable where
  congruence := congruence_alike
  refl := .refl
  keeps _ := rfl
  part {n m} h hs hm := by
    refine h.of_mem ?_
    cases n with
    | short => cases hs
    | _ => exact hm
  nulls {n} h := (h n .refl).1
  short {r s source inner} hr hbuilt h := by
    cases hbuilt with
    | short kept part unfolds => exact exists_run_short hr kept unfolds ((h _ .refl).2 source rfl)

/-! ## Points of a tree -/

end Build

namespace Built

variable {place : Place} {t : Scope}

private theorem folds (h : Built options r .value s n) (hfolds : n.Folds m) :
    Built options r .value s m := by
  induction hfolds with
  | refl => exact h
  | step _ hfold ih => exact ih.fold hfold

/-- A short expression that is kept inside a built tree expands to a value of which the tree that it
is kept with is built, in the scope where it stands. -/
theorem expands_of_reaches (h : Built options [] place s n)
    (hpoint : Scope.Reaches (s, n) (t, .short source inner)) :
    ∃ v m, source.expand = .ok v ∧ Build.expression options v t = .ok m ∧ m.Alike inner := by
  obtain ⟨names, place', hbuilt, hnames⟩ := h.of_reaches (Build.resolvable_nil options) hpoint
  cases hbuilt with
  | short kept part unfolds =>
    obtain ⟨v, m, hexpand, hrun, hm⟩ := unfolds.expands hnames
    exact ⟨v, m, hexpand, Build.run_of_resolving hrun, hm⟩

end Built

namespace Build

/-- Wherever a short expression is kept inside a tree, what it expands to is built in that scope to
the tree that it is kept with, also after folds. Hence a tree that is written with its short
expressions is built again from what is written, if that can be read again. Trees are compared up to
the order of named arguments. -/
theorem kept_standsFor_expansion {options : ParseOptions} :
    (∀ q s n n', expression options q s = .ok n → n.Folds n' →
      (∀ k, n'.Encloses k → ∃ t, Scope.Reaches (s, n') (t, k)) ∧
      (∀ t e m, Scope.Reaches (s, n') (t, .short e m) →
        ∃ v k, e.expand = .ok v ∧ expression options v t = .ok k ∧ k.Alike m) ∧
      (n'.Rereadable →
        ∃ k, expression options (n'.toQl { keepShorts := true, keepParamRefs := true }) s = .ok k ∧
          n'.Alike k)) ∧
    (∀ q n, QlObject.isType q .select = true → root options q = .ok n → n.Rereadable →
      ∃ k, root options (n.toQl { keepShorts := true, keepParamRefs := true }) = .ok k ∧
          n.Alike k) := by
  constructor
  · intro q s n n' h hfolds
    have hbuilt := (run_built .expression .value rfl h).folds hfolds
    refine ⟨fun k hk => hbuilt.exists_reaches (resolvable_nil options) hk,
      fun t e m hpoint => hbuilt.expands_of_reaches hpoint, fun hread => ?_⟩
    exact hbuilt.rebuilt_of (rewritable_alike options) (resolvable_nil options) hread
  · intro q n hselect h hread
    rw [root, if_pos hselect] at h
    have hbuilt := run_built (.select .root) .root rfl h
    obtain ⟨k, hk, halike, -⟩ :=
      hbuilt.rebuilt_of (rewritable_alike options) (resolvable_nil options) hread
    have htype : QlObject.isType (n.toQl { keepShorts := true, keepParamRefs := true })
      .select = true :=
      hbuilt.isType_ql true (.inl rfl)
    refine ⟨k, ?_, halike⟩
    rw [root, if_pos htype]
    exact hk

/-- A column that is given an alias and a cast after it was built. -/
theorem kept_standsFor_expansion_column :
    ∃ (s : Scope) (e : Short) (n n' column : Node), s.refs = [("v", .view "v")] ∧
      expression { keepShorts := true }
        (.object [("type", .string "short"), ("value", .string "@column(a)")]) s = .ok n ∧
      n.fold (some "x") (some .text) = .ok n' ∧ n'.Rereadable ∧
        Scope.Reaches (s, n') (s, .short e column) ∧
      (∃ v k, e.expand = .ok v ∧ expression { keepShorts := true } v s = .ok k ∧ k.Alike column) ∧
      ∃ k, expression { keepShorts := true }
        (n'.toQl { keepShorts := true, keepParamRefs := true }) s = .ok k ∧
        n'.Alike k := by
  have hbuild : expression { keepShorts := true }
      (.object [("type", .string "short"), ("value", .string "@column(a)")])
      { refs := [("v", .view "v")], inSelect := true } =
        .ok (.short (.mk "column" [.string "a"] [])
            (.column ⟨"a", none, some "v", some "v"⟩ {})) := by
    cbv
  let column : Node := .column ⟨"a", none, some "v", some "v"⟩ ⟨some "x", some .text⟩
  let e : Short := .mk "column" [.string "a"] [("as", .string "x"), ("cast", .string "text")]
  have hread : (short e column).Rereadable := by
    refine .intro (by rintro _ ⟨⟩) ?_ (by rintro _ ⟨⟩)
    rintro e ⟨⟩
    exact ⟨trivial, ⟨trivial, trivial⟩, trivial, trivial, trivial⟩
  have hfold :
    (short (.mk "column" [.string "a"] []) (.column ⟨"a", none, some "v", some "v"⟩ {})).fold
      (some "x") (some .text) = .ok (.short e column) := rfl
  have hkept := kept_standsFor_expansion.1 _ _ _ _ hbuild (.step .refl hfold)
  exact ⟨_, e, _, .short e column, column, rfl, hbuild, hfold, hread, .refl,
    hkept.2.1 _ e column .refl,
    hkept.2.2 hread⟩

/-- A number that is not read back from its own text: the short expression that is kept with it is
written with one number and read with another, though no null is in the way. -/
theorem kept_number_rebuilt_otherwise :
    ∃ n k, expression { keepShorts := true }
        (.object [("type", .string "short"), ("value", .string "@primitive(5e32)")]) {} = .ok n ∧
      n.NullsKept ∧
      expression { keepShorts := true } (n.toQl { keepShorts := true, keepParamRefs := true })
        {} = .ok k ∧
      ¬n.Alike k := by
  let rebuilt (n : Node) : Result Node :=
    expression { keepShorts := true } (n.toQl { keepShorts := true, keepParamRefs := true }) {}
  let reals (n : Node) : List (Option Binary64) := n.children.map real?
  have hreals : (expression { keepShorts := true }
      (.object [("type", .string "short"), ("value", .string "@primitive(5e32)")]) {}).toOption.map
        (fun n => (n.isShort, reals n, (rebuilt n).toOption.map reals)) =
      some (true, [some ⟨false, 6938893903907229, 56, by decide⟩],
        some [some ⟨false, 6938893903907228, 56, by decide⟩]) := by
    decide +kernel
  obtain ⟨n, hn, hvalues, -⟩ := exists_ok_of_map (P := fun _ => True) hreals fun _ _ _ => trivial
  simp only [Prod.mk.injEq] at hvalues
  obtain ⟨hshort, hold, hagain⟩ := hvalues
  obtain ⟨k, hk, hnew, -⟩ := exists_ok_of_map (P := fun _ => True) hagain fun _ _ _ => trivial
  refine ⟨n, k, hn, ?_, hk, fun halike => ?_⟩
  · cases n with
    | short e inner =>
      cases inner with
      | constant p tag => exact .intro nofun (by rintro m (_ | ⟨_, ⟨⟩⟩); exact .intro nofun nofun)
      | _ => cases hold
    | _ => cases hshort
  · have hsame : reals n = reals k := halike.map_real?_children
    rw [hold, hnew] at hsame
    revert hsame
    decide

end Build

end AnalyticQuery
