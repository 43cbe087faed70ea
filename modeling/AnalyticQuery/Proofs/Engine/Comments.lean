import AnalyticQuery.Proofs.Engine.Quoting

/-!
# Comments in SQL text

Two dashes, or a slash and a star, open a comment outside quotes. Parts of a text with fixed texts
between them that keep them apart open a comment exactly if one of the parts does. Where the parts
have single spaces only, so has the text.
-/

namespace AnalyticQuery

open List

variable {p start a b : String} {fixed parts : List String} {o : Opener}

namespace Quoting

/-- The pairs of characters that open a comment. -/
inductive Opener where
  | dashes
  | slashStar
  deriving DecidableEq, Repr

namespace Opener

/-- The first character of the pair. -/
def first : Opener → Char
  | dashes => '-'
  | slashStar => '/'

/-- The second character of the pair. -/
def second : Opener → Char
  | dashes => '-'
  | slashStar => '*'

/-- The pair as it stands in a skeleton. -/
def marks (o : Opener) : List Mark := [.plain o.first, .plain o.second]

end Opener

/-- Whether a text opens a comment outside quotes. -/
def Opens (o : Opener) (sql : String) : Prop := o.marks <:+: skeleton sql

instance (o : Opener) (sql : String) : Decidable (Opens o sql) :=
  inferInstanceAs (Decidable (_ <:+: _))

/-! ## Pairs in lists -/

section Pair

variable {α : Type} {u v : α} {xs ys : List α}

/-- A pair stands in a list with one more item in front if it stands there or is the first two
items. -/
theorem pair_infix_cons {x : α} :
    [u, v] <:+: x :: xs ↔ (u = x ∧ xs.head? = some v) ∨ [u, v] <:+: xs := by
  rw [infix_cons_iff, cons_prefix_cons]
  cases xs with
  | nil => simp
  | cons y ys => simp [eq_comm]

/-- A pair stands in one of two lists, or across the place where they meet. -/
theorem pair_infix_append : [u, v] <:+: xs ++ ys ↔
    [u, v] <:+: xs ∨ [u, v] <:+: ys ∨ (xs.getLast? = some u ∧ ys.head? = some v) := by
  induction xs with
  | nil => simp
  | cons x xs ih =>
    rw [cons_append, pair_infix_cons, pair_infix_cons, ih]
    cases xs with
    | nil =>
      simp only [nil_append, head?_nil, getLast?_singleton, getLast?_nil, Option.some.injEq]
      grind
    | cons y zs =>
      simp only [cons_append, head?_cons, getLast?_cons_cons]
      tauto

/-- The second item of a pair is not the first of the list. -/
theorem mem_tail_of_pair_infix (h : [u, v] <:+: xs) : v ∈ xs.tail := by
  obtain ⟨before, after, rfl⟩ := h
  cases before <;> simp

end Pair

/-! ## Texts one after the other -/

section Append

variable {c : Char}

/-- After a text that leaves the scan outside, the next text is scanned as by itself. -/
theorem scan_append_outside (h : (scan outside a.toList).1 = outside) :
    (scan outside (a ++ b).toList).1 = (scan outside b.toList).1 ∧
      skeleton (a ++ b) = skeleton a ++ skeleton b := by
  rw [skeleton, String.toList_append, scan_append, h]
  exact ⟨rfl, rfl⟩

/-- A text that begins with no quote is scanned as by itself after a closed text. -/
theorem scan_append_closed (ha : endsOutside a = true) (hb : b.toList.head? = some c)
    (hc : Quote.ofChar? c = none) :
    (scan outside (a ++ b).toList).1 = (scan outside b.toList).1 ∧
      skeleton (a ++ b) = skeleton a ++ skeleton b := by
  obtain ⟨cs, hcs⟩ := head?_eq_some_iff.mp hb
  rw [skeleton, skeleton, skeleton, String.toList_append, scan_append, hcs, scan_of_isOutside ha hc]
  exact ⟨rfl, rfl⟩

/-- The skeleton of a text begins with its first character, unless that is a quote. -/
theorem head?_skeleton (ha : a.toList.head? = some c) (hc : Quote.ofChar? c = none) :
    (skeleton a).head? = some (.plain c) := by
  obtain ⟨cs, hcs⟩ := head?_eq_some_iff.mp ha
  rw [skeleton, hcs, scan, step_of_isOutside rfl hc]
  rfl

/-- A character begins a text, if it is no quote, exactly if it begins the skeleton. -/
theorem head?_skeleton_iff (hc : Quote.ofChar? c = none) :
    (skeleton a).head? = some (.plain c) ↔ a.toList.head? = some c := by
  refine ⟨fun h => ?_, fun h => head?_skeleton h hc⟩
  unfold skeleton at h
  cases hcs : a.toList with
  | nil =>
    rw [hcs] at h
    cases h
  | cons d cs =>
    rw [hcs, scan, step, enter] at h
    split at h <;> simp_all

/-- Whether a fixed text may stand before and after parts: no comment is opened in it, and none
together with what is before or after it, and its blanks are single spaces. -/
def isFence (p : String) : Bool :=
  isFixed p && (spaced false (skeleton p)).isSome && [Opener.dashes, .slashStar].all fun o =>
    !decide (Opens o p) &&
    (skeleton p).head? != some (.plain o.second) && (skeleton p).getLast? != some (.plain o.first)

private theorem isFence_iff : isFence p = true ↔
    (isFixed p = true ∧ (spaced false (skeleton p)).isSome = true) ∧ ∀ o, ¬Opens o p ∧
      (skeleton p).head? ≠ some (.plain o.second) ∧
      (skeleton p).getLast? ≠ some (.plain o.first) := by
  have hall : ∀ P : Opener → Prop, (∀ o ∈ [Opener.dashes, .slashStar], P o) ↔ ∀ o, P o :=
    fun P => ⟨fun h o => h o (by cases o <;> simp), fun h o _ => h o⟩
  simp only [isFence, Bool.and_eq_true, all_eq_true, hall, Bool.not_eq_true',
    decide_eq_false_iff_not, bne_iff_ne, and_assoc]

/-- A text after which a part may stand: the scan is outside, and no comment is half open. -/
structure Ready (a : String) : Prop where
  outside : (scan outside a.toList).1 = outside
  last : ∀ o : Opener, (skeleton a).getLast? ≠ some (.plain o.first)

private theorem ready_of_isFence (h : isFence p = true) : Ready p :=
  ⟨(settled_of_isFixed (isFence_iff.mp h).1.1).left, fun o => ((isFence_iff.mp h).2 o).2.2⟩

/-- A closed text may follow where a part may stand. -/
theorem Ready.append (ha : Ready a) (hb : endsOutside b = true) :
    endsOutside (a ++ b) = true ∧ ∀ o, Opens o (a ++ b) ↔ Opens o a ∨ Opens o b := by
  obtain ⟨hscan, hskeleton⟩ := scan_append_outside ha.outside
  refine ⟨by rw [endsOutside, hscan]; exact hb, fun o => ?_⟩
  rw [Opens, Opens, Opens, hskeleton, Opener.marks, pair_infix_append]
  simp [ha.last o]

/-- A text may follow a closed one if its first character closes no pair. -/
theorem opens_append (ha : endsOutside a = true) (hb : b.toList.head? = some c)
    (hc : Quote.ofChar? c = none) (hpair : ∀ o : Opener, c ≠ o.second) (o : Opener) :
    Opens o (a ++ b) ↔ Opens o a ∨ Opens o b := by
  rw [Opens, Opens, Opens, (scan_append_closed ha hb hc).2, Opener.marks, pair_infix_append,
    head?_skeleton hb hc]
  simp [hpair o]

/-- A fence that is not empty begins with a character that is no quote and closes no pair. -/
theorem exists_head_of_isFence (hp : isFence p = true) (hne : p ≠ "") :
    ∃ c, p.toList.head? = some c ∧ Quote.ofChar? c = none ∧ ∀ o : Opener, c ≠ o.second := by
  obtain ⟨⟨hfixed, -⟩, hfence⟩ := isFence_iff.mp hp
  obtain ⟨c, cs, hcs⟩ := exists_cons_of_ne_nil (mt String.toList_eq_nil_iff.mp hne)
  have hhead : p.toList.head? = some c := by rw [hcs]; rfl
  have hc : Quote.ofChar? c = none := by simpa [hcs] using (Bool.and_eq_true_iff.mp hfixed).2
  refine ⟨c, hhead, hc, ?_⟩
  rintro o rfl
  exact (hfence o).2.1 (head?_skeleton hhead hc)

/-- A fence makes a closed text one after which a part may stand. -/
theorem ready_append_fence (ha : endsOutside a = true) (hp : isFence p = true) (hne : p ≠ "") :
    Ready (a ++ p) ∧ ∀ o, Opens o (a ++ p) ↔ Opens o a := by
  obtain ⟨c, hhead, hc, hpair⟩ := exists_head_of_isFence hp hne
  obtain ⟨hscan, hskeleton⟩ := scan_append_closed ha hhead hc
  have hready := ready_of_isFence hp
  refine ⟨⟨hscan.trans hready.outside, fun o => ?_⟩, fun o => ?_⟩
  · have hmark := head?_skeleton hhead hc
    have hlast := hready.last o
    rw [hskeleton]
    cases hs : skeleton p with
    | nil => simp [hs] at hmark
    | cons mark marks => simpa [hs] using hlast
  · rw [opens_append ha hhead hc hpair o, or_iff_left ((isFence_iff.mp hp).2 o).1]

/-- The skeleton of a part and a fence after a text are those of the two. -/
theorem skeleton_append_fence (ha : endsOutside a = true) (hp : isFence p = true) :
    skeleton (a ++ p) = skeleton a ++ skeleton p := by
  by_cases hne : p = ""
  · subst hne
    rw [String.append_empty, show skeleton "" = [] from rfl, append_nil]
  · obtain ⟨c, hhead, hc, -⟩ := exists_head_of_isFence hp hne
    exact (scan_append_closed ha hhead hc).2

end Append

/-! ## Parts between fences -/

/-- A text, and after it parts with fixed texts behind them. -/
def weave : String → List String → List String → String
  | text, part :: parts, p :: fixed => weave (text ++ part ++ p) parts fixed
  | text, _, _ => text

/-- Whether fixed texts keep the parts between them apart and have no blank at the end. -/
def isWeft : List String → Bool
  | [] => true
  | [p] => isFence p && spaced false (skeleton p) == some false
  | p :: fixed => isFence p && p != "" && isWeft fixed

private theorem isWeft_cons_iff :
    isWeft (p :: fixed) = true ↔ isFence p = true ∧ (p = "" → fixed = []) ∧
      (fixed = [] → spaced false (skeleton p) = some false) ∧ isWeft fixed = true := by
  cases fixed <;> simp [isWeft, and_assoc]

/-- Parts between fences keep the comments that they open, and no other is opened. -/
theorem Ready.opens_weave (hstart : Ready start) (hfixed : isWeft fixed = true)
    (hlength : parts.length = fixed.length) (hparts : ∀ a ∈ parts, endsOutside a = true)
    (o : Opener) :
    Opens o (weave start parts fixed) ↔ Opens o start ∨ ∃ a ∈ parts, Opens o a := by
  induction parts generalizing start fixed with
  | nil => simp [weave]
  | cons a parts ih =>
    cases fixed with
    | nil => cases hlength
    | cons p fixed =>
      obtain ⟨hfence, hlast, -, hrest⟩ := isWeft_cons_iff.mp hfixed
      obtain ⟨hclosed, hopens⟩ := hstart.append (hparts a mem_cons_self)
      simp only [exists_mem_cons_iff, ← or_assoc, ← hopens, weave]
      by_cases hne : p = ""
      · -- Only the last fixed text may be empty.
        obtain rfl := hlast hne
        obtain rfl := length_eq_zero_iff.mp (Nat.succ_injective hlength)
        simp [weave, hne]
      · obtain ⟨hready, hsame⟩ := ready_append_fence hclosed hfence hne
        rw [ih hready hrest (Nat.succ_injective hlength) fun b hb =>
          hparts b (mem_cons_of_mem a hb), hsame o]

/-- Solid parts between fences make a solid text. -/
theorem Ready.solid_weave {blank : Bool} (hstart : Ready start)
    (hspaced : spaced true (skeleton start) = some blank) (hfixed : isWeft fixed = true)
    (hempty : fixed = [] → blank = false) (hlength : parts.length = fixed.length)
    (hparts : ∀ a ∈ parts, endsOutside a = true) (hsolid : ∀ a ∈ parts, Solid a) :
    Solid (weave start parts fixed) := by
  induction parts generalizing start fixed blank with
  | nil =>
    obtain rfl := length_eq_zero_iff.mp hlength.symm
    obtain rfl := hempty rfl
    exact hspaced
  | cons a parts ih =>
    cases fixed with
    | nil => cases hlength
    | cons p fixed =>
      obtain ⟨hfence, hlast, hend, hrest⟩ := isWeft_cons_iff.mp hfixed
      obtain ⟨hclosed, -⟩ := hstart.append (hparts a mem_cons_self)
      have hpart : spaced true (skeleton (start ++ a ++ p)) = spaced false (skeleton p) := by
        rw [skeleton_append_fence hclosed hfence, (scan_append_outside hstart.outside).2,
          spaced_append, spaced_append, hspaced, Option.bind_some,
          spaced_of_solid (hsolid a mem_cons_self), Option.bind_some]
      rw [weave]
      by_cases hne : p = ""
      · obtain rfl := hlast hne
        obtain rfl := length_eq_zero_iff.mp (Nat.succ_injective hlength)
        exact hpart.trans (hend rfl)
      · obtain ⟨blank, hblank⟩ := Option.isSome_iff_exists.mp (isFence_iff.mp hfence).1.2
        refine ih (ready_append_fence hclosed hfence hne).1 (hpart.trans hblank) hrest ?_
          (Nat.succ_injective hlength) (fun b hb => hparts b (mem_cons_of_mem a hb))
          fun b hb => hsolid b (mem_cons_of_mem a hb)
        intro hnil
        exact Option.some.inj (hblank.symm.trans (hend hnil))

/-- Parts between fences have skeletons that follow from those of the parts. -/
theorem Settled.weave {start' : String} {xs ys : List String} (hstart : Settled start start')
    (hfixed : isWeft fixed = true) (hlength : xs.length = fixed.length) (h : Forall₂ Alike xs ys) :
    Alike (weave start xs fixed) (Quoting.weave start' ys fixed) := by
  induction h generalizing start start' fixed with
  | nil => simpa [Quoting.weave] using hstart.alike
  | @cons a b xs ys hab h ih =>
    cases fixed with
    | nil => cases hlength
    | cons p fixed =>
      obtain ⟨hfence, hne, -, hrest⟩ := isWeft_cons_iff.mp hfixed
      have hfixed : isFixed p = true := (isFence_iff.mp hfence).1.1
      rw [Quoting.weave, Quoting.weave]
      by_cases hp : p = ""
      · obtain rfl := hne hp
        obtain rfl := length_eq_zero_iff.mp (Nat.succ_injective hlength)
        cases h
        simpa [Quoting.weave, hp] using hstart.append hab
      · exact ih ((hstart.append hab).text hfixed hp) hrest (Nat.succ_injective hlength)

/-- Solid texts and others that have their skeletons, one by one. The first ones open the comments
of a set. -/
structure Passes (D : Set Opener) (xs ys : List String) : Prop where
  alike : Forall₂ Alike xs ys
  opens : ∀ o, (∃ x ∈ xs, Opens o x) ↔ o ∈ D
  solid : ∀ x ∈ xs, Solid x

/-- A text that opens the comments of its parts and does not begin with a minus sign, and another
with its skeleton. -/
structure Frames (D : Set Opener) (a b : String) : Prop where
  passes : Passes D [a] [b]
  unsigned : a.toList.head? ≠ some '-'

/-- Whether fixed texts keep the parts between them apart and have no blank at the ends. -/
def isLoom (start : String) (fixed : List String) : Bool :=
  isFence start && isWeft fixed && (spaced true (skeleton start)).any fun blank =>
    !(blank && fixed.isEmpty)

variable {D E : Set Opener} {c d sep : String} {xs ys us vs : List String}

theorem passes_singleton : Passes D [a] [b] ↔ Alike a b ∧ (∀ o, Opens o a ↔ o ∈ D) ∧ Solid a := by
  constructor
  · rintro ⟨_ | ⟨halike, _⟩, hopens, hsolid⟩
    exact ⟨halike, by simpa using hopens, hsolid a mem_cons_self⟩
  · rintro ⟨halike, hopens, hsolid⟩
    exact ⟨.cons halike .nil, by simpa using hopens, by simpa using hsolid⟩

namespace Passes

theorem nil : Passes ∅ [] [] := ⟨.nil, by simp, by simp⟩

theorem closed (h : Passes D xs ys) : ∀ x ∈ xs, endsOutside x = true := by
  intro x hx
  obtain ⟨i, hi, rfl⟩ := getElem_of_mem hx
  exact (h.alike.get hi (h.alike.length_eq ▸ hi)).left

/-- Each text is like itself. -/
theorem refl (h : Passes D xs ys) : Passes D xs xs :=
  ⟨forall₂_same.mpr fun x hx => ⟨h.closed x hx, h.closed x hx, rfl⟩, h.opens, h.solid⟩

theorem append (h : Passes D xs ys) (h' : Passes E us vs) :
    Passes (D ∪ E) (xs ++ us) (ys ++ vs) := by
  refine ⟨rel_append h.alike h'.alike, fun o => ?_,
    fun x hx => (mem_append.mp hx).elim (h.solid x) (h'.solid x)⟩
  simp only [mem_append, or_and_right, exists_or, h.opens, h'.opens, Set.mem_union]

/-- Texts that open no comment may be added. -/
theorem add (h : Passes ∅ us vs) (h' : Passes D xs ys) : Passes D (us ++ xs) (vs ++ ys) := by
  simpa using h.append h'

/-- The texts after the first may be replaced by what opens the same comments. -/
theorem cons_replace (h : Passes D (a :: xs) (b :: ys))
    (hf : ∀ {E}, Passes E xs ys → Passes E us vs) :
    Passes D (a :: us) (b :: vs) := by
  obtain ⟨_ | ⟨hab, hrest⟩, hopens, hsolid⟩ := h
  obtain ⟨ha, hxs⟩ := forall_mem_cons.mp hsolid
  have hself : Passes {o | ∃ x ∈ xs, Opens o x} xs ys := ⟨hrest, fun _ => Iff.rfl, hxs⟩
  obtain ⟨halike, hsame, hus⟩ := hf hself
  refine ⟨.cons hab halike, fun o => ?_, forall_mem_cons.mpr ⟨ha, hus⟩⟩
  rw [← hopens o, exists_mem_cons_iff, exists_mem_cons_iff, hsame o, ← hself.opens]

/-- The order of two texts does not matter. -/
theorem swap (h : Passes D [a, c] [b, d]) : Passes D [c, a] [d, b] := by
  obtain ⟨_ | ⟨hab, _ | ⟨hcd, _⟩⟩, hopens, hsolid⟩ := h
  exact ⟨.cons hcd (.cons hab .nil),
    fun o => by simp [← hopens, or_comm], by simpa [and_comm] using hsolid⟩

/-- Each text may be replaced by one that opens the same comments. -/
theorem map {f : String → String} (hf : ∀ {E a b}, Passes E [a] [b] → Passes E [f a] [f b])
    (h : Passes D xs ys) :
    Passes D (xs.map f) (ys.map f) := by
  have hstep : ∀ {a b}, Alike a b → Solid a → Alike (f a) (f b) ∧ (∀ o, Opens o (f a) ↔ Opens o a) ∧
    Solid (f a) :=
    fun {a} _ hab ha => passes_singleton.mp
      (hf (passes_singleton.mpr ⟨hab, fun _ => Iff.rfl, ha⟩ : Passes {o | Opens o a} _ _))
  have hself : ∀ x ∈ xs, (∀ o, Opens o (f x) ↔ Opens o x) ∧ Solid (f x) :=
    fun x hx => (hstep ⟨h.closed x hx, h.closed x hx, rfl⟩ (h.solid x hx)).2
  refine ⟨?_, fun o => ?_, forall_mem_map.mpr fun x hx => (hself x hx).2⟩
  · rw [forall₂_map_left_iff, forall₂_map_right_iff]
    exact ((forall₂_and_left xs ys).mpr ⟨h.solid, h.alike⟩).imp fun _ _ hab => (hstep hab.2 hab.1).1
  · simp only [← h.opens o, mem_map, exists_exists_and_eq_and]
    exact exists_congr fun x => and_congr_right fun hx => (hself x hx).1 o

/-- Texts between fences open the comments that they open alone. -/
theorem weave (h : Passes D xs ys) (hloom : isLoom start fixed = true)
    (hlength : xs.length = fixed.length) :
    Passes D [weave start xs fixed] [Quoting.weave start ys fixed] := by
  simp only [isLoom, Bool.and_eq_true, Option.any_eq_true] at hloom
  obtain ⟨⟨hstart, hweft⟩, blank, hspaced, hempty⟩ := hloom
  obtain ⟨⟨hfixed, -⟩, hfence⟩ := isFence_iff.mp hstart
  refine passes_singleton.mpr
    ⟨(settled_of_isFixed hfixed).weave hweft hlength h.alike, fun o => ?_, ?_⟩
  · rw [(ready_of_isFence hstart).opens_weave hweft hlength h.closed, or_iff_right (hfence o).1,
      h.opens]
  · refine (ready_of_isFence hstart).solid_weave hspaced hweft ?_ hlength h.closed h.solid
    rintro rfl
    simpa using hempty

end Passes

/-- Whether fixed texts keep the parts between them apart and begin with a character of their
own. -/
def isFrame (start : String) (fixed : List String) : Bool := isLoom start fixed && start != ""

theorem isFrame_cons {q : String} (hp : isFence p = true) (hne : p ≠ "")
    (h : isFrame start (q :: fixed) = true) :
    isFrame start (p :: q :: fixed) = true := by
  unfold isFrame isLoom at h ⊢
  simp_all [isWeft]

/-- A text begins with what its parts stand after. -/
theorem head?_weave {c : Char} (h : start.toList.head? = some c) :
    (weave start xs fixed).toList.head? = some c := by
  fun_induction weave start xs fixed with
  | case1 text part parts p fixed ih =>
    refine ih ?_
    rw [String.toList_append, String.toList_append, append_assoc, head?_append, h]
    rfl
  | case2 => exact h

theorem Passes.frames (h : Passes D xs ys) (start : String) (fixed : List String)
    (hframe : isFrame start fixed = true) (hlength : xs.length = fixed.length)
    (ha : a = Quoting.weave start xs fixed) (hb : b = Quoting.weave start ys fixed) :
    Frames D a b := by
  obtain ⟨hloom, hne⟩ := Bool.and_eq_true_iff.mp hframe
  have hstart := (Bool.and_eq_true_iff.mp (Bool.and_eq_true_iff.mp hloom).1).1
  obtain ⟨c, hhead, -, hpair⟩ := exists_head_of_isFence hstart (bne_iff_ne.mp hne)
  subst ha hb
  refine ⟨h.weave hloom hlength, ?_⟩
  rw [head?_weave hhead]
  rintro ⟨rfl⟩
  exact hpair .dashes rfl

/-- A fixed text opens no comment. -/
theorem frames_fixed (h : isFrame a [] = true) :
    Frames ∅ a a := Passes.nil.frames a [] h rfl rfl rfl

theorem Passes.intercalate (hsep : isFence sep = true) (hne : sep ≠ "") (h : Passes D xs ys)
    (hxs : xs ≠ []) :
    Passes D [sep.intercalate xs] [sep.intercalate ys] := by
  have hloom : isLoom "" [sep, ""] = true := by
    have hempty : isLoom "" [""] = true := by decide
    simp_all [isLoom, isWeft]
  induction xs generalizing D ys with
  | nil => exact absurd rfl hxs
  | cons x xs ih =>
    obtain _ | ⟨_, hrest⟩ := h.alike
    cases hrest with
    | nil => simpa using h
    | cons =>
      have hweave := (h.cons_replace fun h => ih h (cons_ne_nil _ _)).weave hloom rfl
      simpa [Quoting.weave, String.intercalate_cons_cons] using hweave

theorem Passes.commaList (h : Passes D xs ys) (hxs : xs ≠ []) :
    Passes D [commaList xs] [AnalyticQuery.commaList ys] :=
  h.intercalate (by decide) (by decide) hxs

/-- A text that is one quoted token opens no comment. -/
theorem not_opens_of_skeleton {mark : Mark} (h : skeleton a = [mark]) : ¬Opens o a := by
  intro hopens
  have hmem := mem_tail_of_pair_infix hopens
  rw [h] at hmem
  cases hmem

theorem frames_quoteLiteral (s t : String) : Frames ∅ (quoteLiteral s) (quoteLiteral t) := by
  have hmark : skeleton (quoteLiteral s) = [.token .single] :=
    (alike_quoteLiteral s "").skeleton.trans (by decide)
  refine ⟨passes_singleton.mpr ⟨alike_quoteLiteral s t, fun o => ?_, ?_⟩, by simp [quoteLiteral]⟩
  · simpa using not_opens_of_skeleton hmark
  · rw [Solid, hmark]
    rfl

theorem frames_quoteIdent (s t : String) : Frames ∅ (quoteIdent s) (quoteIdent t) := by
  have hmark : skeleton (quoteIdent s) = [.token .double] :=
    (alike_quoteIdent s "").skeleton.trans (by decide)
  refine ⟨passes_singleton.mpr ⟨alike_quoteIdent s t, fun o => ?_, ?_⟩, by simp [quoteIdent]⟩
  · simpa using not_opens_of_skeleton hmark
  · rw [Solid, hmark]
    rfl

end Quoting

end AnalyticQuery
