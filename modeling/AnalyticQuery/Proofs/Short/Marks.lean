import AnalyticQuery.Proofs.Json.Marks
import AnalyticQuery.Proofs.Short.Locality

/-!
# Marks in short expressions

A short expression is written with one mark more than its arguments have, and it has no more marks
than the text that it is read from.
-/

namespace AnalyticQuery

open Argument List Result

variable {done : List Char} {quote : Char} {arg : Argument} {s t : Short}

/-! ## Writing -/

theorem marks_textChars (s : String) : marks (textChars s) = marks s.toList := by
  have hescape : ∀ c, marks (escapeQuoted c) = marks [c] := by
    intro c
    unfold escapeQuoted
    split <;> simp [isMark]
  unfold textChars
  split
  · rfl
  · simp [marks_flatMap hescape, isMark]

private theorem marks_joinCommas (parts : List (List Char)) :
    marks (joinCommas parts) = (parts.map marks).sum := by
  induction parts with
  | nil => rfl
  | cons x xs ih => cases xs <;> simp_all [joinCommas, isMark]

/-- The marks of arguments. -/
def argumentMarks (args : List Argument) : Nat := (args.map fun arg => marks arg.chars).sum

/-- The marks of named arguments and their names. -/
def namedMarks (named : List (String × Argument)) : Nat :=
  (named.map fun entry => marks entry.1.toList + marks entry.2.chars).sum

private theorem marks_itemsChars (args : List Argument) :
    ((itemsChars args).map marks).sum = argumentMarks args := by
  induction args with
  | nil => rfl
  | cons arg args ih => simp [itemsChars, argumentMarks, ih]

private theorem marks_namedChars (named : List (String × Argument)) :
    ((namedChars named).map marks).sum = namedMarks named := by
  induction named with
  | nil => rfl
  | cons entry named ih => simp [namedChars, namedMarks, ih, isMark]

theorem Argument.marks_array (items : List Argument) :
    marks (array items).chars = argumentMarks items := by
  simp [chars, marks_joinCommas, marks_itemsChars, isMark]

namespace Short

/-- A short expression has an at sign, its name, and its arguments. -/
theorem marks_text (s : Short) :
    marks s.text.toList = 1 + marks s.name.toList + argumentMarks s.positional +
      namedMarks s.named := by
  obtain ⟨label, positional, named⟩ := s
  have hat : isMark '@' = true := by decide
  have hopen : isMark '(' = false := by decide
  have hclose : isMark ')' = false := by decide
  simp only [Short.text, String.toList_ofList, shortChars, cons_append, marks_cons, marks_append,
    marks_nil, marks_joinCommas, map_append, sum_append, marks_itemsChars, marks_namedChars, hat,
    hopen, hclose, if_true, Bool.false_eq_true, if_false, Short.name, Short.positional, Short.named]
  omega

private theorem marks_push (s : Short) (arg : Argument) :
    marks (s.push arg).text.toList = marks s.text.toList + marks arg.chars := by
  simp only [marks_text, push, Short.name, Short.positional, Short.named, argumentMarks, map_append,
    sum_append, map_cons, map_nil, sum_cons, sum_nil]
  omega

private theorem marks_set (s : Short) (key : String) (arg : Argument) :
    marks (s.set key arg).text.toList ≤ marks s.text.toList +
      (marks key.toList + marks arg.chars) := by
  have hnamed : ∀ named : List (String × Argument),
      namedMarks (setArg named key arg) ≤ namedMarks named +
          (marks key.toList + marks arg.chars) := by
    intro named
    induction named with
    | nil => simp [setArg, namedMarks]
    | cons entry named ih =>
      rw [setArg]
      split
      · simp only [namedMarks, map_cons, sum_cons]
        omega
      · simp only [namedMarks, map_cons, sum_cons] at ih ⊢
        omega
  have hset := hnamed s.named
  simp only [marks_text, set, Short.name, Short.positional, Short.named] at hset ⊢
  omega

private theorem marks_ofName (name : String) :
    marks (ofName name).text.toList = 1 + marks name.toList := by
  rw [marks_text, ofName, Short.name, marks_toLower]
  rfl

/-! ## Reading -/

variable {cs rest : List Char}

private theorem marks_skip (cs : List Char) :
    marks (skip cs) ≤ marks cs := marks_le_of_suffix (skip_suffix cs)

private theorem marks_of_readName? {name : String} (h : readName? cs = some (name, rest)) :
    marks name.toList + marks rest = marks cs := by
  rw [(readName?_local h).1, marks_append]

private theorem marks_of_readKey? {key : String} (h : readKey? cs = some (key, rest)) :
    marks key.toList + marks rest ≤ marks cs := by
  unfold readKey? at h
  split at h
  · cases h
  · next after hname =>
    have hread := marks_of_readName? hname
    have hskip := marks_skip after
    split at h
    · cases h
    · next value _ hafter =>
      cases h
      have hvalue := marks_skip value
      rw [hafter, marks_cons] at hskip
      omega
    · cases h

private theorem marks_of_spanBraces {depth : Nat} {quoted : Bool} {text : List Char}
    (h : spanBraces depth quoted done cs = some (text, rest)) :
    marks text + marks rest = marks done + marks cs := by
  fun_induction spanBraces depth quoted done cs with
  | case1 => cases h
  | case2 => cases h
  | case5 | case6 =>
    cases h
    rw [marks_reverse, marks_cons, marks_cons]
    omega
  | case3 depth done c cs ih | case4 depth done c cs _ _ ih | case7 done c cs _ depth ih
  | case8 depth done c cs _ _ ih | case9 depth done c cs _ _ ih =>
    have hread := ih h
    simp only [marks_cons] at hread ⊢
    omega

private theorem marks_of_spanQuoted {text : List Char}
    (h : spanQuoted quote done cs = some (text, rest)) :
    marks text + marks rest ≤ marks done + marks cs := by
  fun_induction spanQuoted quote done cs with
  | case1 => cases h
  | case2 => cases h
  | case4 =>
    cases h
    rw [marks_reverse, marks_cons]
    omega
  | case3 done c cs ih | case5 done c cs _ _ _ ih =>
    have hread := ih h
    simp only [marks_cons] at hread ⊢
    omega

private theorem marks_bareValue (token : String) :
    marks (bareValue token).chars ≤ marks token.toList := by
  have hlower := marks_toLower token
  unfold bareValue
  split
  · next hnull =>
    rw [← hlower, hnull]
    decide
  · next htrue =>
    rw [← hlower, htrue]
    decide
  · next hfalse =>
    rw [← hlower, hfalse]
    decide
  · split
    · rw [chars, Number.marks_text]
      exact Nat.zero_le _
    · rw [chars, marks_textChars]

private theorem marks_of_readBare (h : readBare cs = .ok (arg, rest)) :
    marks arg.chars + marks rest ≤ marks cs := by
  unfold readBare at h
  dsimp only at h
  split at h
  · cases h
  split at h
  · cases h
  cases h
  set token := cs.takeWhile fun c => !endsBare c && !breaksBare c
  have hvalue := marks_bareValue (Text.trim (String.ofList token))
  have htrim := marks_trim (String.ofList token)
  have hparts : token ++ cs.drop token.length = cs :=
    (prefix_append_drop ( takeWhile_prefix _)).symm
  have hmarks := congrArg marks hparts
  rw [marks_append] at hmarks
  rw [String.toList_ofList] at htrim
  omega

private theorem marks_of_readJson (h : readJson cs = .ok (arg, rest)) :
    marks arg.chars + marks rest ≤ marks cs := by
  unfold readJson at h
  split at h
  · cases h
  · next hspan =>
    split at h
    · next hvalue =>
      cases h
      have hparts := marks_of_spanBraces hspan
      have hread := Json.marks_of_ofText? hvalue
      rw [String.toList_ofList] at hread
      rw [marks_nil] at hparts
      rw [chars]
      omega
    · cases h

private theorem marks_of_readQuoted (h : readQuoted quote cs = .ok (arg, rest)) :
    marks arg.chars + marks rest ≤ marks cs := by
  unfold readQuoted at h
  split at h
  · next hspan =>
    cases h
    have hparts := marks_of_spanQuoted hspan
    rw [marks_nil] at hparts
    rw [chars, marks_textChars, String.toList_ofList]
    omega
  · cases h

/-- Nothing that is read has more marks than the characters that it is read from. -/
structure Sheds (fuel : Nat) : Prop where
  short {cs rest : List Char} {s : Short} :
    readShort fuel cs = .ok (s, rest) → marks s.text.toList + marks rest ≤ marks cs
  arguments {cs rest : List Char} {s t : Short} :
    readArguments fuel s cs = .ok (t, rest) →
      marks t.text.toList + marks rest ≤ marks s.text.toList + marks cs
  value {cs rest : List Char} {arg : Argument} :
    readValue fuel cs = .ok (arg, rest) → marks arg.chars + marks rest ≤ marks cs
  items {cs rest : List Char} {items : List Argument} :
    readItems fuel cs = .ok (items, rest) → argumentMarks items + marks rest ≤ marks cs

namespace Sheds

variable {fuel : Nat}

theorem short_succ (ih : Sheds fuel) (h : readShort (fuel + 1) cs = .ok (s, rest)) :
    marks s.text.toList + marks rest ≤ marks cs := by
  rw [readShort] at h
  obtain ⟨after, hat, h⟩ := of_bind h
  have hcs := congrArg marks (expect_suffix hat)
  rw [marks_cons, show isMark '@' = true by decide, if_pos rfl] at hcs
  split at h
  · cases h
  next name tail hname =>
  have hreadName := marks_of_readName? hname
  have hskip := marks_skip tail
  obtain ⟨body, hopen, h⟩ := of_bind h
  have hbody := congrArg marks (expect_suffix hopen)
  rw [marks_cons] at hbody
  have hskipBody := marks_skip body
  have hempty := marks_ofName name
  split at h
  · next hclose =>
    cases h
    rw [hclose, marks_cons] at hskipBody
    omega
  · have hread := ih.arguments h
    omega

/-- What follows an argument: the end of the list, or more arguments. -/
theorem next (ih : Sheds fuel)
    (h : (match skip cs with
      | ',' :: cs => readArguments fuel s cs
      | ')' :: cs => pure (s, cs)
      | [] => stop "unterminated argument list" []
      | c :: cs => stop s!"expected ',' or ')', got '{c}'" (c :: cs)) = Except.ok (t, rest)) :
    marks t.text.toList + marks rest ≤ marks s.text.toList + marks cs := by
  have hskip := marks_skip cs
  split at h
  · next hcomma =>
    have hread := ih.arguments h
    rw [hcomma, marks_cons] at hskip
    omega
  · next hclose =>
    cases h
    rw [hclose, marks_cons] at hskip
    omega
  · cases h
  · cases h

theorem arguments_succ (ih : Sheds fuel) (h : readArguments (fuel + 1) s cs = .ok (t, rest)) :
    marks t.text.toList + marks rest ≤ marks s.text.toList + marks cs := by
  have hskip := marks_skip cs
  rw [readArguments] at h
  dsimp only at h
  split at h
  · next key after hkey =>
    have hreadKey := marks_of_readKey? hkey
    split at h
    · cases h
    obtain ⟨⟨arg, tail⟩, hvalue, hrest⟩ := of_bind h
    have hreadValue := ih.value hvalue
    have hset := marks_set s key arg
    dsimp only [pure_eq_ok, ok_bind] at hrest
    have hnext := ih.next hrest
    omega
  · split at h
    · cases h
    obtain ⟨⟨arg, tail⟩, hvalue, hrest⟩ := of_bind h
    have hreadValue := ih.value hvalue
    have hpush := marks_push s arg
    dsimp only [pure_eq_ok, ok_bind] at hrest
    have hnext := ih.next hrest
    omega

theorem value_succ (ih : Sheds fuel) (h : readValue (fuel + 1) cs = .ok (arg, rest)) :
    marks arg.chars + marks rest ≤ marks cs := by
  have hskip := marks_skip cs
  rw [readValue] at h
  split at h
  · next hcs =>
    rw [hcs] at hskip
    split at h
    · obtain ⟨⟨s, tail⟩, hs, h⟩ := of_bind h
      cases h
      have hread := ih.short hs
      rw [Short.text, String.toList_ofList] at hread
      rw [chars]
      omega
    · have hread := marks_of_readBare h
      omega
  · next tail hcs =>
    rw [hcs, marks_cons] at hskip
    have htail := marks_skip tail
    split at h
    · next hclose =>
      cases h
      rw [hclose, marks_cons] at htail
      rw [marks_array]
      simp only [argumentMarks, map_nil, sum_nil]
      omega
    · obtain ⟨⟨items, after⟩, hitems, h⟩ := of_bind h
      cases h
      have hread := ih.items hitems
      rw [marks_array]
      omega
  · next hcs =>
    rw [hcs] at hskip
    have hread := marks_of_readJson h
    omega
  · next hcs =>
    rw [hcs, marks_cons] at hskip
    have hread := marks_of_readQuoted h
    omega
  · next hcs =>
    rw [hcs, marks_cons] at hskip
    have hread := marks_of_readQuoted h
    omega
  · have hread := marks_of_readBare h
    omega

theorem items_succ (ih : Sheds fuel) {items : List Argument}
    (h : readItems (fuel + 1) cs = .ok (items, rest)) :
    argumentMarks items + marks rest ≤ marks cs := by
  rw [readItems] at h
  obtain ⟨⟨item, tail⟩, hitem, h⟩ := of_bind h
  have hread := ih.value hitem
  have hskip := marks_skip tail
  dsimp only at h
  split at h
  · next hcomma =>
    obtain ⟨⟨others, after⟩, hothers, h⟩ := of_bind h
    cases h
    have hmore := ih.items hothers
    rw [hcomma, marks_cons] at hskip
    simp only [argumentMarks, map_cons, sum_cons] at hmore ⊢
    omega
  · next hclose =>
    cases h
    rw [hclose, marks_cons] at hskip
    simp only [argumentMarks, map_cons, map_nil, sum_cons, sum_nil]
    omega
  · cases h
  · cases h

end Sheds

theorem sheds (fuel : Nat) : Sheds fuel := by
  induction fuel with
  | zero =>
    refine ⟨fun h => ?_, fun h => ?_, fun h => ?_, fun h => ?_⟩
    · rw [readShort] at h
      cases h
    · rw [readArguments] at h
      cases h
    · rw [readValue] at h
      cases h
    · rw [readItems] at h
      cases h
  | succ fuel ih => exact ⟨ih.short_succ, ih.arguments_succ, ih.value_succ, ih.items_succ⟩

/-- A short expression is not written with more marks than it is read from. -/
theorem marks_of_ofText {text : String} (h : ofText text = .ok s) :
    marks s.text.toList ≤ marks text.toList := by
  simp only [ofText] at h
  split at h
  · next hread =>
    cases h
    obtain ⟨⟨s, rest⟩, hshort, hrest⟩ := of_bind hread
    have hmarks := (sheds _).short hshort
    have hskip := marks_skip text.toList
    dsimp only at hrest
    split at hrest
    · cases hrest
      omega
    · cases hrest
  · cases h

/-- A short expression in front of other text has no more marks than the characters that it
takes. -/
theorem marks_of_ofFront {source : List Char}
    (h : ofFront (source ++ rest) = .ok (s, source.length)) :
    marks s.text.toList ≤ marks source := by
  unfold ofFront at h
  split at h
  · next tail hread =>
    obtain ⟨hs, hlength⟩ := Prod.mk.inj (Except.ok.inj h)
    subst hs
    obtain ⟨after, hafter, hsuffix⟩ := readShort_suffix hread
    have htail : tail <:+ source ++ rest := hafter ▸ hsuffix.trans (suffix_cons _ _)
    have hle := htail.length_le
    rw [length_append] at hlength hle
    have heq : tail = rest := by
      refine List.IsSuffix.eq_of_length (suffix_of_suffix_length_le htail (suffix_append _ _) ?_) ?_
      all_goals omega
    have hmarks := (sheds _).short hread
    rw [heq, marks_append] at hmarks
    omega
  · cases h

end Short

end AnalyticQuery
