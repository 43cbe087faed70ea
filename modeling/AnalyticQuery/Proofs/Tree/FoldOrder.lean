import AnalyticQuery.Proofs.Tree.Alike

/-!
# Folds in any order

A node takes on aliases and casts one fold after the other. Whether it takes on all of them depends
neither on the order of the folds nor on how often each is made, and what it becomes does so only in
the order of the named arguments of the short expressions that it keeps.
-/

namespace AnalyticQuery

open List Result

/-! ## Values for one place -/

/-- Whether a place that holds one value, or none yet, takes the values that it is given: each may
stand there, and all are one and the same, also the one that it holds. -/
def Fits {α : Type} (may : α → Prop) (own : Option α) (given : List α) : Prop :=
  ∀ a ∈ given, may a ∧ ∀ b ∈ own.toList ++ given, a = b

namespace Fits

variable {α : Type} {may : α → Prop} {own : Option α} {xs ys : List α}

/-- One value is taken by a place that holds none or the same. -/
theorem eq_or (h : Fits may own xs) {a : α} (ha : a ∈ xs) : own = none ∨ own = some a := by
  cases own with
  | none => exact .inl rfl
  | some b => exact .inr (congrArg some ((h a ha).2 b mem_cons_self).symm)

/-- A value that comes before others is taken, and held when the others are given. -/
theorem append_iff (first : Option α) :
    Fits may own (first.toList ++ xs) ↔
      (∀ a ∈ first, may a ∧ (own = none ∨ own = some a)) ∧ Fits may (first <|> own) xs := by
  cases first with
  | none => simp
  | some a =>
    constructor
    · intro h
      have ha : a ∈ (some a).toList ++ xs := mem_cons_self
      refine ⟨?_, fun b hb => ?_⟩
      · rintro _ ⟨⟩
        exact ⟨(h a ha).1, h.eq_or ha⟩
      · obtain ⟨hmay, hsame⟩ := h b (mem_append_right _ hb)
        exact ⟨hmay, fun c hc => hsame c (mem_append_right _ hc)⟩
    · rintro ⟨hfirst, h⟩
      obtain ⟨hmay, hown⟩ := hfirst a rfl
      have hall : ∀ b ∈ own.toList ++ a :: xs, b = a := by
        intro b hb
        obtain hb | hb := mem_append.mp hb
        · obtain rfl | rfl := hown
          · cases hb
          · exact mem_singleton.mp hb
        · obtain rfl | hb := mem_cons.mp hb
          · rfl
          · exact (h b hb).2 a mem_cons_self
      intro b hb
      obtain rfl := hall b (mem_append_right _ hb)
      exact ⟨hmay, fun c hc => (hall c hc).symm⟩

/-- Whether values are taken depends on which they are, and so does the one that is taken. -/
theorem congr (h : Fits may own xs) (hmem : ∀ a, a ∈ ys ↔ a ∈ xs) :
    Fits may own ys ∧ ys.getLast? = xs.getLast? := by
  constructor
  · intro a ha
    obtain ⟨hmay, hsame⟩ := h a ((hmem a).mp ha)
    refine ⟨hmay, fun b hb => hsame b ?_⟩
    rw [mem_append] at hb ⊢
    exact hb.imp_right (hmem b).mp
  · cases hx : xs.getLast? with
    | none =>
      rw [getLast?_eq_none_iff] at hx ⊢
      refine eq_nil_iff_forall_not_mem.mpr fun a ha => ?_
      rw [hmem, hx] at ha
      cases ha
    | some a =>
      have ha := mem_of_getLast? hx
      obtain ⟨b, hb⟩ := getLast?_isSome.mpr
        (ne_nil_of_mem ((hmem a).mpr ha)) |> Option.isSome_iff_exists.mp
      have hsame := (h a ha).2 b (mem_append_right _ ((hmem b).mp (mem_of_getLast? hb)))
      rw [hb, hsame]

end Fits

/-! ## Runs of folds -/

namespace Node

/-- The aliases and casts of folds that are made one after the other. -/
abbrev FoldRun := List (Option String × Option CastType)

/-- A node after some folds. -/
def foldAll (n : Node) (fs : FoldRun) : Result Node := fs.foldlM (fun m f => m.fold f.1 f.2) n

/-- Whether a node takes on all that some folds give: no alias is empty, it can have an alias and a
cast where one is given, and all aliases are the same, as are all casts, together with those that it
has. -/
structure AcceptsAll (n : Node) (fs : FoldRun) : Prop where
  label : Fits (fun name => name ≠ "" ∧ n.canAlias = true) n.alias? (fs.filterMap (·.1))
  cast : Fits (fun _ => n.canCast = true) n.cast? (fs.filterMap (·.2))

/-- A node with the alias and the cast that some folds give to it. -/
def givenAll (n : Node) (fs : FoldRun) : Node :=
  n.given (fs.filterMap (·.1)).getLast? (fs.filterMap (·.2)).getLast?

variable {n m : Node} {fs gs : FoldRun} {f : Option String × Option CastType}

private theorem filterMap_cons_eq {α : Type} (g : Option String × Option CastType → Option α) :
    (f :: fs).filterMap g = (g f).toList ++ fs.filterMap g := by
  cases h : g f <;> simp [h]

/-- A node takes on what folds give exactly if it takes on what the first gives, and then what the
others give. -/
theorem acceptsAll_cons :
    n.AcceptsAll (f :: fs) ↔ n.Accepts f.1 f.2 ∧ (n.given f.1 f.2).AcceptsAll fs := by
  have hgiven : n.Accepts f.1 f.2 → ((n.given f.1 f.2).AcceptsAll fs ↔
      Fits (fun name => name ≠ "" ∧ n.canAlias = true) (f.1 <|> n.alias?) (fs.filterMap (·.1)) ∧
        Fits (fun _ => n.canCast = true) (f.2 <|> n.cast?) (fs.filterMap (·.2))) := by
    intro haccepts
    have hlabel : (n.given f.1 f.2).alias? = (f.1 <|> n.alias?) := by
      rw [alias?, haccepts.tag_given]
    have hcast : (n.given f.1 f.2).cast? = (f.2 <|> n.cast?) := by rw [cast?, haccepts.tag_given]
    rw [← hlabel, ← hcast, ← canAlias_given n f.1 f.2, ← canCast_given n f.1 f.2]
    exact ⟨fun h => ⟨h.label, h.cast⟩, fun h => ⟨h.1, h.2⟩⟩
  constructor
  · rintro ⟨hlabel, hcast⟩
    rw [filterMap_cons_eq, Fits.append_iff] at hlabel hcast
    have haccepts : n.Accepts f.1 f.2 :=
      ⟨fun name hname => and_assoc.mp (hlabel.1 name hname), hcast.1⟩
    exact ⟨haccepts, (hgiven haccepts).mpr ⟨hlabel.2, hcast.2⟩⟩
  · rintro ⟨haccepts, h⟩
    obtain ⟨hlabel, hcast⟩ := (hgiven haccepts).mp h
    constructor
    · rw [filterMap_cons_eq, Fits.append_iff]
      exact ⟨fun name hname => and_assoc.mpr (haccepts.label name hname), hlabel⟩
    · rw [filterMap_cons_eq, Fits.append_iff]
      exact ⟨haccepts.cast, hcast⟩

/-- Folds succeed exactly if the node takes on all that they give. -/
theorem exists_foldAll_iff (n : Node) (fs : FoldRun) :
    (∃ m, n.foldAll fs = .ok m) ↔ n.AcceptsAll fs := by
  induction fs generalizing n with
  | nil => exact ⟨fun _ => ⟨nofun, nofun⟩, fun _ => ⟨n, rfl⟩⟩
  | cons f fs ih =>
    rw [acceptsAll_cons, ← ih]
    constructor
    · rintro ⟨m, h⟩
      obtain ⟨k, hk, h⟩ := of_bind h
      obtain ⟨haccepts, rfl⟩ := fold_ok_iff.mp hk
      exact ⟨haccepts, m, h⟩
    · rintro ⟨haccepts, m, h⟩
      exact ⟨m, bind_eq_ok.mpr ⟨_, fold_ok_iff.mpr ⟨haccepts, rfl⟩, h⟩⟩

/-- What folds that succeed make of a node is the node with what they give. -/
theorem alike_of_foldAll (h : n.foldAll fs = .ok m) : m.Alike (n.givenAll fs) := by
  induction fs generalizing n with
  | nil =>
    cases h
    have hself : m.givenAll [] = m := (fold_ok_iff.mp (fold_nothing m)).2.symm
    rw [hself]
    exact .refl m
  | cons f fs ih =>
    obtain ⟨k, hk, h⟩ := of_bind h
    obtain ⟨haccepts, rfl⟩ := fold_ok_iff.mp hk
    have hlast : ∀ {α : Type} (g : Option String × Option CastType → Option α),
        ((f :: fs).filterMap g).getLast? = ((fs.filterMap g).getLast? <|> g f) := by
      intro α g
      rw [filterMap_cons_eq, getLast?_append]
      cases (fs.filterMap g).getLast? <;> cases g f <;> rfl
    rw [givenAll, hlast, hlast]
    exact (ih h).trans (haccepts.given_given _ _)

/-- What folds give is taken on together if it is taken on one by one. -/
theorem AcceptsAll.accepts (h : n.AcceptsAll fs) :
    n.Accepts (fs.filterMap (·.1)).getLast? (fs.filterMap (·.2)).getLast? := by
  refine ⟨fun name hname => ?_, fun type htype => ?_⟩
  · have hmem := mem_of_getLast? hname
    exact and_assoc.mp ⟨(h.label name hmem).1, h.label.eq_or hmem⟩
  · have hmem := mem_of_getLast? htype
    exact ⟨(h.cast type hmem).1, h.cast.eq_or hmem⟩

/-- Folds succeed exactly if no alias is empty, the node can have what is given, and all aliases and
all casts are the same, together with those that it has. Then it becomes the node with that alias
and cast and is otherwise as it was, and the same folds in any other order, each made any number of
times, make the same of it, up to the order of the named arguments of kept short expressions. -/
theorem foldAll_any_order (n : Node) (fs : FoldRun) :
    ((∃ m, n.foldAll fs = .ok m) ↔ n.AcceptsAll fs) ∧
    ∀ m, n.foldAll fs = .ok m →
      m.tag =
        ⟨(fs.filterMap (·.1)).getLast? <|> n.alias?, (fs.filterMap (·.2)).getLast? <|> n.cast?⟩ ∧
      m.Alike (n.givenAll fs) ∧
      ∀ gs : FoldRun, (∀ f, f ∈ gs ↔ f ∈ fs) → ∃ k, n.foldAll gs = .ok k ∧ k.Alike m := by
  refine ⟨exists_foldAll_iff n fs, fun m hm => ?_⟩
  have haccepts : n.AcceptsAll fs := (exists_foldAll_iff n fs).mp ⟨m, hm⟩
  have halike : m.Alike (n.givenAll fs) := alike_of_foldAll hm
  refine ⟨halike.tag_eq.trans haccepts.accepts.tag_given, halike, fun gs hmem => ?_⟩
  have hgiven : ∀ {α : Type} (g : Option String × Option CastType → Option α) (a : α),
      a ∈ gs.filterMap g ↔ a ∈ fs.filterMap g := by
    intro α g a
    simp only [mem_filterMap, hmem]
  obtain ⟨hlabel, hlast⟩ := haccepts.label.congr (hgiven _)
  obtain ⟨hcast, hlast'⟩ := haccepts.cast.congr (hgiven _)
  obtain ⟨k, hk⟩ := (exists_foldAll_iff n gs).mpr ⟨hlabel, hcast⟩
  have hk' : k.Alike (n.givenAll gs) := alike_of_foldAll hk
  rw [givenAll, hlast, hlast'] at hk'
  exact ⟨k, hk, hk'.trans halike.symm⟩

/-- A kept short expression has the alias and the cast of its folds in their order, which makes no
other difference. -/
theorem foldAll_any_order_short :
    ∃ n m k : Node, n = .short (.mk "column" [.string "x"] [])
      (.column ⟨"x", none, some "v", some "v"⟩ {}) ∧
      n.foldAll [(some "a", none), (none, some .text), (some "a", some .text)] = .ok m ∧
      n.foldAll [(none, some .text), (some "a", some .text), (some "a", none)] = .ok k ∧ m ≠ k ∧
        k.Alike m := by
  let n : Node := .short (.mk "column" [.string "x"] [])
    (.column ⟨"x", none, some "v", some "v"⟩ {})
  let node (named : List (String × Argument)) : Node :=
    .short (.mk "column" [.string "x"] named)
      (.column ⟨"x", none, some "v", some "v"⟩ { label := some "a", cast := some .text })
  have hm : n.foldAll [(some "a", none), (none, some .text), (some "a", some .text)] =
      .ok (node [("as", .string "a"), ("cast", .string "text")]) := rfl
  have hk : n.foldAll [(none, some .text), (some "a", some .text), (some "a", none)] =
      .ok (node [("cast", .string "text"), ("as", .string "a")]) := rfl
  obtain ⟨l, hl, halike⟩ := ((foldAll_any_order n _).2 _ hm).2.2
    [(none, some .text), (some "a", some .text), (some "a", none)] (by simp; tauto)
  cases hk.symm.trans hl
  exact ⟨n, _, _, rfl, hm, hk, by simp [node], halike⟩

end Node

end AnalyticQuery
