import AnalyticQuery.Proofs.Engine.Quoting

/-!
# Texts with single spaces

A text is laid out as a row of items, each with the blanks before it. An item is a character outside
quotes or a quoted segment. Making single spaces keeps every item and the order of the items.
Between two of them it leaves one space where there were blanks and none where there were none, and
nothing before the first or after the last.
-/

namespace AnalyticQuery.Text

open List Quoting

/-- The items of a text, each with the blanks before it, and the blanks after the last. A quoted
segment ends at the next quote of its kind, or with the text. -/
inductive Layout : List Char → List (List Char × List Char) → List Char → Prop
  | tail {gap : List Char} (blank : ∀ c ∈ gap, isBlank c = true) : Layout gap [] gap
  | plain {gap : List Char} {c : Char} {cs items tail} (blank : ∀ c ∈ gap, isBlank c = true)
      (solid : isBlank c = false) (unquoted : Quote.ofChar? c = none)
      (rest : Layout cs items tail) :
      Layout (gap ++ [c] ++ cs) ((gap, [c]) :: items) tail
  | segment {gap inner : List Char} {q : Quote} {cs items tail}
      (blank : ∀ c ∈ gap, isBlank c = true)
      (inside : q.char ∉ inner) (rest : Layout cs items tail) :
      Layout (gap ++ (q.char :: inner ++ [q.char]) ++ cs)
        ((gap, q.char :: inner ++ [q.char]) :: items) tail
  | unclosed {gap inner : List Char} {q : Quote} (blank : ∀ c ∈ gap, isBlank c = true)
      (inside : q.char ∉ inner) :
      Layout (gap ++ (q.char :: inner)) [(gap, q.char :: inner)] []

/-- Items with single spaces for the blanks between them, and no blanks before the first. -/
def spaceItems (started : Bool) : List (List Char × List Char) → List (List Char × List Char)
  | [] => []
  | (gap, item) :: items =>
    (if started && !gap.isEmpty then [' '] else [], item) :: spaceItems true items

variable {cs gap inner tail : List Char} {items : List (List Char × List Char)} {q : Quote}
  {started pending : Bool}

/-- A text is its items with the blanks before them, and the blanks at its end. -/
theorem Layout.eq_append (h : Layout cs items tail) :
    cs = items.flatMap (fun (gap, item) => gap ++ item) ++ tail := by
  induction h with
  | tail => rfl
  | plain _ _ _ _ ih | segment _ _ _ ih => simp [← ih]
  | unclosed => simp

/-- Every text can be laid out. -/
theorem Layout.exists (cs : List Char) : ∃ items tail, Layout cs items tail := by
  induction hlength : cs.length using Nat.strong_induction_on generalizing cs with
  | _ n ih =>
    have hblank : ∀ c ∈ cs.takeWhile isBlank, isBlank c = true := fun c hc => mem_takeWhile_imp hc
    have hsplit := (takeWhile_append_dropWhile (p := isBlank) (l := cs)).symm
    generalize cs.takeWhile isBlank = gap at hblank hsplit
    cases hrest : cs.dropWhile isBlank with
    | nil =>
      rw [hrest, append_nil] at hsplit
      exact ⟨[], cs, hsplit ▸ .tail hblank⟩
    | cons c rest =>
      have hsolid : isBlank c = false := by
        simpa [hrest] using head?_dropWhile_not isBlank cs
      rw [hrest] at hsplit
      subst hsplit
      cases hq : Quote.ofChar? c with
      | none =>
        obtain ⟨items, tail, h⟩ := ih rest.length (by simp [← hlength]; omega) rest rfl
        exact ⟨_, tail, by simpa using Layout.plain hblank hsolid hq h⟩
      | some q =>
        obtain rfl := Quote.ofChar?_eq_some.mp hq
        by_cases hclosed : q.char ∈ rest
        · obtain ⟨inner, after, rfl, hinner⟩ := eq_append_cons_of_mem hclosed
          obtain ⟨items, tail, h⟩ := ih after.length (by simp [← hlength]; omega) after rfl
          exact ⟨_, tail, by simpa using Layout.segment hblank hinner h⟩
        · exact ⟨_, [], .unclosed hblank hclosed⟩

/-! ## Single spaces -/

private theorem squeezeFrom_gap (h : ∀ c ∈ gap, isBlank c = true) :
    squeezeFrom { quote := none, started, pending := false } (gap ++ cs) =
      squeezeFrom { quote := none, started, pending := started && !gap.isEmpty } cs := by
  have hpending : ∀ {pending}, squeezeFrom { quote := none, started, pending } (gap ++ cs) =
      squeezeFrom { quote := none, started, pending := if gap.isEmpty then pending else started }
          cs := by
    induction gap with
    | nil => simp
    | cons c gap ih =>
      intro pending
      rw [cons_append, squeezeFrom_blank (h c mem_cons_self),
        ih fun d hd => h d (mem_cons_of_mem c hd)]
      simp
  rw [hpending]
  cases gap <;> simp

/-- A quoted segment stays as it is. -/
theorem squeezeFrom_segment (h : q.char ∉ inner) (cs : List Char) :
    squeezeFrom { quote := some q.char, started, pending } inner = inner ∧
    squeezeFrom { quote := some q.char, started, pending } (inner ++ [q.char] ++ cs) =
      inner ++ [q.char] ++ squeezeFrom { quote := none, started, pending } cs := by
  induction inner with
  | nil => exact ⟨rfl, by simp [squeezeFrom_inside]⟩
  | cons c inner ih =>
    obtain ⟨hne, hinner⟩ := not_or.mp (mt mem_cons.mpr h)
    obtain ⟨hopen, hclosed⟩ := ih hinner
    rw [cons_append, cons_append, squeezeFrom_inside, squeezeFrom_inside, if_neg (Ne.symm hne),
      hopen, hclosed]
    exact ⟨rfl, rfl⟩

/-- A text with single spaces has the items of the text. -/
theorem Layout.squeezeFrom (h : Layout cs items tail) (started : Bool) :
    Layout (squeezeFrom { quote := none, started, pending := false } cs)
      (spaceItems started items) [] := by
  have hspace : ∀ space : Bool, ∀ c ∈ if space then [' '] else [], isBlank c = true := by
    intro space c hc
    cases space with
    | false => cases hc
    | true =>
      rw [mem_singleton.mp hc]
      decide
  induction h generalizing started with
  | @tail gap blank =>
    rw [← append_nil gap, squeezeFrom_gap blank]
    exact .tail (forall_mem_nil _)
  | @plain gap c cs _ _ blank solid unquoted _ ih =>
    rw [append_assoc, squeezeFrom_gap blank, singleton_append, squeezeFrom_plain solid unquoted,
      append_cons]
    exact .plain (hspace _) solid unquoted (ih true)
  | @segment gap inner q cs _ _ blank inside _ ih =>
    rw [append_assoc, squeezeFrom_gap blank, cons_append, cons_append, squeezeFrom_quote,
      (squeezeFrom_segment inside cs).2, ← cons_append, ← append_assoc]
    exact .segment (hspace _) inside (ih true)
  | unclosed blank inside =>
    rw [squeezeFrom_gap blank, squeezeFrom_quote, (squeezeFrom_segment inside []).1]
    exact .unclosed (hspace _) inside

private theorem spaceItems_spaceItems (started : Bool) (items : List (List Char × List Char)) :
    spaceItems started (spaceItems started items) = spaceItems started items := by
  induction items generalizing started with
  | nil => rfl
  | cons piece items ih =>
    rw [spaceItems, spaceItems, ih]
    cases started <;> cases piece.1.isEmpty <;> simp

theorem Layout.squeeze {s : String} (h : Layout s.toList items tail) :
    Layout (squeeze s).toList (spaceItems false items) [] := by
  rw [Text.squeeze, String.toList_ofList]
  exact h.squeezeFrom false

/-- A text with single spaces stays as it is. -/
theorem squeeze_squeeze (s : String) : squeeze (squeeze s) = squeeze s := by
  obtain ⟨items, tail, h⟩ := Layout.exists s.toList
  rw [← String.toList_inj, h.squeeze.squeeze.eq_append, spaceItems_spaceItems]
  exact h.squeeze.eq_append.symm

end AnalyticQuery.Text
