import AnalyticQuery.Proofs.Short.Expansion
import AnalyticQuery.Proofs.Tree.Erasure

/-!
# Trees with their named arguments in any order

The alias and the cast that are folded onto a kept short expression come after its other named
arguments, in the order of the folds. Trees that differ in this order alone are alike. Two folds,
one after the other, give a tree that is like the one that a single fold gives.
-/

namespace AnalyticQuery

open Builder List Node

variable {label : Option String} {cast : Option CastType}

/-! ## Short expressions -/

/-- Short expressions of one form, with the same arguments by position and the same argument under
every name. -/
structure Short.Alike (e f : Short) : Prop where
  name : e.name = f.name
  positional : e.positional = f.positional
  named : ∀ key, e.named.lookup key = f.named.lookup key

namespace Short

variable {e f g : Short}

theorem Alike.refl (e : Short) : e.Alike e := ⟨rfl, rfl, fun _ => rfl⟩

theorem Alike.symm (h : e.Alike f) :
    f.Alike e := ⟨h.name.symm, h.positional.symm, fun key => (h.named key).symm⟩

theorem Alike.trans (h : e.Alike f) (h' : f.Alike g) : e.Alike g :=
  ⟨h.name.trans h'.name, h.positional.trans h'.positional,
    fun key => (h.named key).trans (h'.named key)⟩

@[simp] theorem name_tagShort (e : Short) (label : Option String) (cast : Option CastType) :
    (tagShort e label cast).name = e.name := by
  cases label <;> cases cast <;> rfl

@[simp] theorem positional_tagShort (e : Short) (label : Option String) (cast : Option CastType) :
    (tagShort e label cast).positional = e.positional := by
  cases label <;> cases cast <;> rfl

/-- An alias and a cast replace those that a short expression has. -/
theorem lookup_tagShort (e : Short) (tag : Tag) (key : String) :
    (tagShort e tag.label tag.cast).named.lookup key =
      (tag.arguments.lookup key).or (e.named.lookup key) := by
  have hnamed : ∀ (e : Short) k arg, (e.set k arg).named = setArg e.named k arg := fun _ _ _ => rfl
  by_cases hlabel : key = "as"
  · subst hlabel
    obtain ⟨_ | _, _ | _⟩ := tag <;>
      simp [tagShort, hnamed, lookup_setArg, Tag.arguments, lookup_cons]
  · by_cases hcast : key = "cast"
    · subst hcast
      obtain ⟨_ | _, _ | _⟩ := tag <;>
        simp [tagShort, hnamed, lookup_setArg, Tag.arguments, lookup_cons]
    · rw [Tag.lookup_arguments hlabel hcast]
      obtain ⟨_ | _, _ | _⟩ := tag <;> simp [tagShort, hnamed, lookup_setArg, hlabel, hcast]

theorem Alike.tagShort (h : e.Alike f) (label : Option String) (cast : Option CastType) :
    (tagShort e label cast).Alike (tagShort f label cast) where
  name := by simpa using h.name
  positional := by simpa using h.positional
  named key := by
    rw [lookup_tagShort e ⟨label, cast⟩, lookup_tagShort f ⟨label, cast⟩, h.named]

/-- What is given later counts, and else what was given before. -/
theorem tagShort_tagShort (e : Short) (label label' : Option String)
    (cast cast' : Option CastType) :
    (tagShort (tagShort e label cast) label' cast').Alike
      (tagShort e (label' <|> label) (cast' <|> cast)) where
  name := by simp
  positional := by simp
  named key := by
    have harguments : (Tag.arguments ⟨label' <|> label, cast' <|> cast⟩).lookup key =
        ((Tag.arguments ⟨label', cast'⟩).lookup key).or
            ((Tag.arguments ⟨label, cast⟩).lookup key) := by
      by_cases hlabel : key = "as"
      · subst hlabel
        rw [Tag.lookup_arguments_as, Tag.lookup_arguments_as, Tag.lookup_arguments_as]
        cases label' <;> rfl
      · by_cases hcast : key = "cast"
        · subst hcast
          rw [Tag.lookup_arguments_cast, Tag.lookup_arguments_cast, Tag.lookup_arguments_cast]
          cases cast' <;> rfl
        · rw [Tag.lookup_arguments hlabel hcast, Tag.lookup_arguments hlabel hcast,
            Tag.lookup_arguments hlabel hcast]
          rfl
    rw [lookup_tagShort _ ⟨label', cast'⟩, lookup_tagShort e ⟨label, cast⟩,
      lookup_tagShort e ⟨label' <|> label, cast' <|> cast⟩, harguments, Option.or_assoc]

end Short

/-! ## Trees -/

namespace Node

/-- The short expression that a node keeps. -/
def source? : Node → Option Short
  | short source _ => some source
  | _ => none

/-- A node without those inside it and without the short expression that it keeps. -/
def frame : Node → Node
  | short _ _ => short (.ofName "") default
  | n => n.mapParts fun _ => default

/-- Trees that differ at most in the order of the named arguments of the short expressions that they
keep. -/
inductive Alike : Node → Node → Prop
  | intro {n m} (frame : n.frame = m.frame) (source : Option.Rel Short.Alike n.source? m.source?)
      (parts : ∀ (i : Nat) (a b : Node), n.children[i]? = some a → m.children[i]? = some b →
        Alike a b) : Alike n m

variable {n m k : Node}

private theorem length_children_frame (n : Node) : n.frame.children.length = n.children.length := by
  cases n with
  | short => rfl
  | _ =>
    rw [frame, children_mapParts, length_map]
    exact nofun

namespace Alike

theorem refl (n : Node) : n.Alike n := by
  refine .intro rfl ?_ fun i a b ha hb => ?_
  · cases n.source? with
    | none => exact .none
    | some e => exact .some (.refl e)
  · rw [ha] at hb
    cases hb
    have hlt := sizeOf_lt_of_mem_children (mem_of_getElem? ha)
    exact refl a
termination_by sizeOf n

theorem symm (h : n.Alike m) : m.Alike n := by
  induction h with
  | @intro n m hframe hsource hparts ih =>
    refine .intro hframe.symm ?_ fun i a b ha hb => ih i b a hb ha
    revert hsource
    generalize n.source? = e, m.source? = f
    rintro (⟨h⟩ | _)
    · exact .some h.symm
    · exact .none

theorem trans (h : n.Alike m) (h' : m.Alike k) : n.Alike k := by
  induction h generalizing k with
  | @intro n m hframe hsource hparts ih =>
    cases h' with
    | intro hframe' hsource' hparts' =>
      refine .intro (hframe.trans hframe') ?_ fun i a c ha hc => ?_
      · revert hsource hsource'
        generalize n.source? = e, m.source? = f, k.source? = g
        rintro (⟨h⟩ | _) (⟨h'⟩ | _)
        · exact .some (h.trans h')
        · exact .none
      · have hlength : n.children.length = m.children.length := by
          rw [← length_children_frame n, hframe, length_children_frame]
        have hi : i < m.children.length := hlength ▸ (List.getElem?_eq_some_iff.mp ha).1
        have hb : m.children[i]? = some m.children[i] := getElem?_eq_getElem hi
        exact ih i a _ ha hb (hparts' i _ c hb hc)

/-- The parts of trees that are alike are alike one by one. -/
theorem children (h : n.Alike m) : List.Forall₂ Alike n.children m.children := by
  cases h with
  | intro hframe _ hparts =>
    rw [forall₂_iff_get]
    refine ⟨by rw [← length_children_frame n, hframe, length_children_frame], fun i hi hi' => ?_⟩
    exact hparts i _ _ (getElem?_eq_getElem hi) (getElem?_eq_getElem hi')

theorem of_children (hframe : n.frame = m.frame) (hs : n.isShort = false) (hs' : m.isShort = false)
    (h : List.Forall₂ Alike n.children m.children) : n.Alike m := by
  have hsource : ∀ k : Node, k.isShort = false → k.source? = none := by
    intro k hk
    cases k with
    | short => cases hk
    | _ => rfl
  refine .intro hframe (by rw [hsource n hs, hsource m hs']; exact .none) fun i a b ha hb => ?_
  obtain ⟨hi, rfl⟩ := List.getElem?_eq_some_iff.mp ha
  obtain ⟨hi', rfl⟩ := List.getElem?_eq_some_iff.mp hb
  exact (forall₂_iff_get.mp h).2 i hi hi'

theorem short {e f : Short} (h : e.Alike f) (hn : n.Alike m) : (short e n).Alike (short f m) := by
  refine .intro rfl (.some h) fun i a b ha hb => ?_
  cases i with
  | zero =>
    cases ha
    cases hb
    exact hn
  | succ i => cases ha

/-- What two trees keep is kept by the one where it is kept by the other. -/
theorem isShort_eq (h : n.Alike m) : n.isShort = m.isShort := by
  cases h with
  | intro _ hsource _ =>
    cases n <;> cases m <;> first | rfl | cases hsource

/-- A property of nodes that a kept short expression has from what it stands for is the same for
trees that are alike, unless it is about the nodes inside. -/
theorem congr {α : Type} (f : Node → α) (hframe : ∀ n : Node, n.isShort = false → f n.frame = f n)
    (hshort : ∀ e n, f (Node.short e n) = f n) (h : n.Alike m) : f n = f m := by
  induction h with
  | @intro n m hsame hsource hparts ih =>
    have hboth : n.isShort = m.isShort := (Alike.intro hsame hsource hparts).isShort_eq
    cases hs : n.isShort with
    | false => rw [← hframe n hs, hsame, hframe m (hboth ▸ hs)]
    | true =>
      have hs' : m.isShort = true := hboth ▸ hs
      cases n with
      | short e a =>
        cases m with
        | short f b => rw [hshort, hshort, ih 0 a b rfl rfl]
        | _ => cases hs'
      | _ => cases hs

theorem tag_eq (h : n.Alike m) : n.tag = m.tag := by
  refine h.congr tag (fun n hs => ?_) fun e n => rfl
  cases n with
  | short => cases hs
  | _ => rfl

private theorem canAlias_eq (h : n.Alike m) : n.canAlias = m.canAlias := by
  refine h.congr canAlias (fun n hs => ?_) fun e n => rfl
  cases n with
  | short => cases hs
  | _ => rfl

private theorem canCast_eq (h : n.Alike m) : n.canCast = m.canCast := by
  refine h.congr canCast (fun n hs => ?_) fun e n => rfl
  cases n with
  | short => cases hs
  | _ => rfl

/-! ### Folds -/

theorem retag (h : n.Alike m) (hs : n.isShort = false) (tag : Tag) :
    (n.retag tag).Alike (m.retag tag) := by
  have hframe : ∀ k : Node, k.isShort = false → (k.retag tag).frame = k.frame.retag tag := by
    intro k hk
    cases k with
    | short => cases hk
    | _ => rfl
  have hshort : ∀ k : Node, (k.retag tag).isShort = k.isShort := by
    intro k
    cases k <;> rfl
  have hs' : m.isShort = false := h.isShort_eq ▸ hs
  refine of_children ?_ (by rw [hshort, hs]) (by rw [hshort, hs']) ?_
  · rw [hframe n hs, hframe m hs']
    cases h with
    | intro hsame => rw [hsame]
  · rw [children_retag, children_retag]
    exact h.children

/-- An alias and a cast are given to trees that are alike in the same way. -/
theorem given (h : n.Alike m) (label : Option String) (cast : Option CastType) :
    (n.given label cast).Alike (m.given label cast) := by
  induction h with
  | @intro n m hsame hsource hparts ih =>
    have hnm : n.Alike m := .intro hsame hsource hparts
    cases hs : n.isShort with
    | false =>
      rw [given_eq_retag hs, given_eq_retag (hnm.isShort_eq ▸ hs), alias?, alias?, cast?, cast?,
        hnm.tag_eq]
      exact hnm.retag hs _
    | true =>
      have hs' : m.isShort = true := hnm.isShort_eq ▸ hs
      cases n with
      | short e a =>
        cases m with
        | short f b =>
          cases hsource with
          | some hsource => exact .short (hsource.tagShort label cast) (ih 0 a b rfl rfl)
        | _ => cases hs'
      | _ => cases hs

theorem accepts (h : n.Alike m) (hn : n.Accepts label cast) :
    m.Accepts label cast := by
  obtain ⟨hlabel, hcast⟩ := hn
  simp only [h.canAlias_eq, alias?, h.tag_eq] at hlabel
  simp only [h.canCast_eq, cast?, h.tag_eq] at hcast
  exact ⟨hlabel, hcast⟩

/-- A fold onto one of two trees that are alike is a fold onto the other. -/
theorem fold (h : n.Alike m) (hn : n.fold label cast = .ok k) :
    ∃ l, m.fold label cast = .ok l ∧ k.Alike l := by
  obtain ⟨haccepts, rfl⟩ := fold_ok_iff.mp hn
  exact ⟨_, fold_ok_iff.mpr ⟨h.accepts haccepts, rfl⟩, h.given label cast⟩

end Alike

/-! ## Folds one after the other -/

theorem Accepts.given_given {n : Node} (h : n.Accepts label cast) (label' : Option String)
    (cast' : Option CastType) :
    ((n.given label cast).given label' cast').Alike
    (n.given (label' <|> label) (cast' <|> cast)) := by
  cases hs : n.isShort with
  | true =>
    cases n with
    | short e inner =>
      have hinner : inner.Accepts label cast := ⟨h.label, h.cast⟩
      exact .short (e.tagShort_tagShort label label' cast cast') (hinner.given_given label' cast')
    | _ => cases hs
  | false =>
    have hs' : (n.given label cast).isShort = false := by
      rw [given_eq_retag hs]
      cases n <;> first | rfl | exact hs
    have htag :
      (⟨label' <|> (n.given label cast).alias?, cast' <|> (n.given label cast).cast?⟩ : Tag) =
        ⟨(label' <|> label) <|> n.alias?, (cast' <|> cast) <|> n.cast?⟩ := by
      rw [alias?, cast?, h.tag_given]
      cases label' <;> cases cast' <;> rfl
    rw [given_eq_retag hs', htag, given_eq_retag hs, retag_retag, given_eq_retag hs]
    exact .refl _

/-- Two folds, one after the other, are a fold of all that they give. -/
theorem fold_join {label' : Option String} {cast' : Option CastType} (h : n.fold label cast = .ok m)
    (h' : m.fold label' cast' = .ok k) :
    ∃ l, n.fold (label' <|> label) (cast' <|> cast) = .ok l ∧ k.Alike l := by
  obtain ⟨hn, rfl⟩ := fold_ok_iff.mp h
  obtain ⟨hm, rfl⟩ := fold_ok_iff.mp h'
  refine ⟨_, fold_ok_iff.mpr ⟨⟨fun name hname => ?_, fun type htype => ?_⟩, rfl⟩,
    hn.given_given _ _⟩
  · cases label' with
    | none => exact hn.label name hname
    | some name' =>
      cases hname
      obtain ⟨hne, hcan, hsame⟩ := hm.label name rfl
      rw [canAlias_given] at hcan
      rw [alias?, hn.tag_given] at hsame
      refine ⟨hne, hcan, ?_⟩
      cases label with
      | none => exact hsame
      | some first =>
        have hfirst : first = name := by simpa using hsame
        exact hfirst ▸ (hn.label first rfl).2.2
  · cases cast' with
    | none => exact hn.cast type htype
    | some type' =>
      cases htype
      obtain ⟨hcan, hsame⟩ := hm.cast type rfl
      rw [canCast_given] at hcan
      rw [cast?, hn.tag_given] at hsame
      refine ⟨hcan, ?_⟩
      cases cast with
      | none => exact hsame
      | some first =>
        have hfirst : first = type := by simpa using hsame
        exact hfirst ▸ (hn.cast first rfl).2

/-- A fold can be made in two: first the cast, or nothing, and then the alias, with the cast unless
it was given already. -/
theorem fold_split {first second : Option CastType} (h : n.fold label cast = .ok m)
    (hfirst : first = none ∨ first = cast) (hsecond : second = none ∨ second = cast)
    (hboth : (second <|> first) = cast) :
    ∃ k l, n.fold none first = .ok k ∧ k.fold label second = .ok l ∧ l.Alike m := by
  obtain ⟨hn, rfl⟩ := fold_ok_iff.mp h
  have hstart : n.Accepts none first := by
    refine ⟨nofun, fun type htype => ?_⟩
    obtain rfl | rfl := hfirst
    · cases htype
    · exact hn.cast type htype
  have hgiven := hstart.given_given label second
  rw [hboth] at hgiven
  refine ⟨_, _, fold_ok_iff.mpr ⟨hstart, rfl⟩,
    fold_ok_iff.mpr ⟨⟨fun name hname => ?_, fun type htype => ?_⟩, rfl⟩,
    ?_⟩
  · rw [canAlias_given, alias?, hstart.tag_given]
    exact hn.label name hname
  · obtain rfl | rfl := hsecond
    · cases htype
    · rw [canCast_given, cast?, hstart.tag_given]
      obtain ⟨hcan, hsame⟩ := hn.cast type htype
      refine ⟨hcan, ?_⟩
      obtain rfl | rfl := hfirst
      · exact hsame
      · cases htype
        exact .inr rfl
  · cases label <;> exact hgiven

/-! ## Rules of the builder -/

private theorem frame_list {ns ms : List Node} (h : List.Forall₂ Alike ns ms) :
    ns.map (fun _ => (default : Node)) = ms.map fun _ => default := by
  simp [map_const', h.length_eq]

private theorem frame_option {n m : Option Node} (h : Option.Rel Alike n m) :
    n.map (fun _ => (default : Node)) = m.map fun _ => default := by
  cases h <;> rfl

private theorem forall₂_toList {n m : Option Node} (h : Option.Rel Alike n m) :
    List.Forall₂ Alike n.toList m.toList := by
  cases h with
  | some h => exact .cons h .nil
  | none => exact .nil

/-- Operands of the same operator are taken up alike. -/
theorem Alike.absorbed? (h : n.Alike m) (op : Operator) :
    Option.Rel (List.Forall₂ Alike) (absorbed? op n) (absorbed? op m) := by
  have hchildren := h.children
  cases h with
  | intro hframe hsource =>
    cases n with
    | operation inner operands qualifier tag =>
      cases m with
      | operation inner' operands' qualifier' tag' =>
        obtain ⟨rfl, -, -, rfl⟩ := operation.inj hframe
        simp only [absorbed?]
        split
        · exact .some hchildren
        · exact .none
      | short => cases hsource
      | _ => cases hframe
    | short =>
      cases m with
      | short => exact .none
      | _ => cases hsource
    | _ =>
      cases m with
      | operation => cases hframe
      | _ => exact .none

/-- Operands are flattened alike. -/
theorem Alike.flatten {ns ms : List Node} (h : List.Forall₂ Alike ns ms) (op : Operator) :
    List.Forall₂ Alike (Builder.flatten op ns) (Builder.flatten op ms) := by
  unfold Builder.flatten
  refine rel_flatMap h fun n m hnm => ?_
  have habsorbed := hnm.absorbed? op
  revert habsorbed
  generalize Builder.absorbed? op n = o, Builder.absorbed? op m = p
  rintro (⟨hop⟩ | _)
  · exact hop
  · exact .cons hnm .nil

/-- The rules of the builder keep trees alike, where failures are excused. -/
theorem congruence_alike : Congruence (.ofFirst fun _ => True) Alike where
  constant p := .refl _
  column c := .refl _
  view name isCte := .refl _
  parameter h := .of_children (by simp only [frame, mapParts, frame_option h]) rfl rfl
    (forall₂_toList h)
  call h := .of_children (by simp only [frame, mapParts, frame_list h]) rfl rfl h
  geometry h := .of_children (by simp only [frame, mapParts, frame_list h]) rfl rfl h
  array h := .of_children (by simp only [frame, mapParts, frame_list h]) rfl rfl h
  list h := .of_children (by simp only [frame, mapParts, frame_list h]) rfl rfl h
  operation {op ns ms qualifier} h := by
    have hoperands : List.Forall₂ Alike (if op.isLogical then flatten op ns else ns)
        (if op.isLogical then flatten op ms else ms) := by
      split
      · exact Alike.flatten h op
      · exact h
    unfold Builder.operation
    dsimp only
    rw [hoperands.length_eq]
    refine .same fun _ _ => ?_
    split
    · exact .error _
    · exact .ok
        (.of_children (by simp only [frame, mapParts, frame_list hoperands]) rfl rfl hoperands)
  case {bs ds o p} hbs ho := by
    refine .of_children ?_ rfl rfl (rel_append ?_ (forall₂_toList ho))
    · have hbranches : bs.map (fun _ => ((default, default) : Node × Node)) = ds.map fun _ =>
          (default, default) := by
        simp [map_const', hbs.length_eq]
      simp only [frame, mapParts, frame_option ho, hbranches]
    · exact rel_flatMap hbs fun b d hbd => .cons hbd.1 (.cons hbd.2 .nil)
  sort h := .of_children rfl rfl rfl (.cons h .nil)
  select {role c d} h := by
    refine .of_children ?_ rfl rfl ?_
    · simp only [frame, mapParts, mapClauses, frame_list h.withs, frame_option h.source,
        frame_list h.joins, h.distinct, frame_list h.columns, frame_option h.filter,
        frame_list h.groupBy, frame_option h.having, frame_list h.orderBy, h.limit, h.offset]
    · have hparts := rel_append (rel_append (rel_append h.withs (forall₂_toList h.source)) h.joins)
        (rel_append (rel_append (rel_append (rel_append h.columns (forall₂_toList h.filter))
          h.groupBy) (forall₂_toList h.having)) h.orderBy)
      simpa only [children, Clauses.parts_eq, Clauses.values] using hparts
  compound h k := .of_children rfl rfl rfl (.cons h (.cons k .nil))
  join h k := .of_children (by simp only [frame, mapParts, frame_option k]) rfl rfl
    (.cons h (forall₂_toList k))
  fold {n m} h label cast := by
    cases hn : n.fold label cast with
    | error e => exact .excused _ trivial
    | ok k =>
      obtain ⟨l, hl, hkl⟩ := h.fold hn
      rw [hl]
      exact .ok hkl
  alias? h := by rw [alias?, alias?, h.tag_eq]
  declaration {n m} h hs hs' := by
    have hframe : ∀ k : Node, k.isShort = false → declaration k.frame = declaration k := by
      intro k hk
      cases k with
      | short => cases hk
      | _ => rfl
    cases h with
    | intro hsame => rw [← hframe n hs, hsame, hframe m hs']

end Node

end AnalyticQuery
