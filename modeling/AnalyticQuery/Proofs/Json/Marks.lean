import AnalyticQuery.Proofs.Short.Braces
import Mathlib

/-!
# Marks in data

Each expansion of a short expression takes an at sign off a text. Data inside a short expression may
hold further ones as escapes, so the letter of an escape counts, too, and so do the characters that
are written with one. Reading data makes nothing whose text has more marks than what was read.
-/

namespace AnalyticQuery

open List

variable {power : Option (Bool × List Char)} {v : Json} {cs rest : List Char}

/-- Whether a character is an at sign, the letter of an escape, or written with that letter. -/
def isMark (c : Char) : Bool :=
  c == '@' || c == 'u' || c == 'U' ||
    (c.toNat < 32 && c != '\n' && c != '\r' && c != '\t' && c != '\x08' && c != '\x0c')

/-- The number of marks among characters. -/
def marks (cs : List Char) : Nat := cs.countP isMark

section

@[simp]
theorem marks_nil : marks [] = 0 := rfl

@[simp]
theorem marks_cons (c : Char) (cs : List Char) :
    marks (c :: cs) = marks cs + if isMark c then 1 else 0 :=
  countP_cons

@[simp]
theorem marks_append (xs ys : List Char) : marks (xs ++ ys) = marks xs + marks ys := countP_append

private theorem marks_cons_le (c : Char) (cs : List Char) : marks (c :: cs) ≤ marks cs + 1 := by
  rw [marks_cons]
  split <;> omega

theorem marks_le_length (cs : List Char) : marks cs ≤ cs.length := countP_le_length

/-- What is left of a text has no more marks than the text. -/
theorem marks_le_of_suffix (h : rest <:+ cs) : marks rest ≤ marks cs := h.sublist.countP_le

theorem marks_reverse (cs : List Char) : marks cs.reverse = marks cs := countP_reverse

/-- Characters that are written with as many marks as they have keep their number. -/
theorem marks_flatMap {f : Char → List Char} (h : ∀ c, marks (f c) = marks [c]) (cs : List Char) :
    marks (cs.flatMap f) = marks cs := by
  induction cs with
  | nil => rfl
  | cons c cs ih =>
    rw [flatMap_cons, marks_append, ih, h, ← marks_append]
    rfl

/-- Letters keep their marks in lower case. -/
theorem marks_toLower (s : String) : marks s.toLower.toList = marks s.toList := by
  have hchar : ∀ c : Char, isMark c.toLower = isMark c := by
    intro c
    by_cases hascii : c.toNat < 128
    · have hall : ∀ n < 128, isMark (Char.ofNat n).toLower = isMark (Char.ofNat n) := by decide
      simpa using hall c.toNat hascii
    · have hlower : c.toLower = c := by
        grind [Char.toLower, Char.toNat, UInt32.le_iff_toNat_le]
      rw [hlower]
  rw [String.toLower, String.toList_map, marks, countP_map]
  congr 1
  exact funext hchar

/-- Trimming adds no marks. -/
theorem marks_trim (s : String) : marks (Text.trim s).toList ≤ marks s.toList := by
  rw [Text.trim, String.toList_ofList, Text.trimEnd, marks_reverse]
  calc marks ((Text.trimStart s.toList).reverse.dropWhile Text.isBlank)
      ≤ marks (Text.trimStart s.toList).reverse := marks_le_of_suffix (dropWhile_suffix _)
    _ = marks (Text.trimStart s.toList) := marks_reverse _
    _ ≤ marks s.toList := marks_le_of_suffix (dropWhile_suffix _)

/-- A number is written without marks. -/
theorem Number.marks_text (n : Number) : marks n.text.toList = 0 := by
  refine countP_eq_zero.mpr fun c hc => ?_
  have hnumber := Number.isNumberChar_of_mem_text hc
  simp only [isNumberChar, Bool.or_eq_true, beq_iff_eq] at hnumber
  rcases hnumber with (((hdigit | rfl) | rfl) | rfl) | rfl
  · have hascii : c.toNat < 128 := by
      simp only [Char.isDigit, Bool.and_eq_true, decide_eq_true_eq,
        UInt32.le_iff_toNat_le] at hdigit
      exact lt_of_le_of_lt hdigit.2 (by decide)
    have hall : ∀ n < 128, (Char.ofNat n).isDigit = true →
        ¬isMark (Char.ofNat n) = true := by decide
    simpa using hall c.toNat hascii (by simpa using hdigit)
  all_goals decide

end

namespace Number

private theorem spanDigits_suffix (cs : List Char) : (spanDigits cs).2 <:+ cs := by
  rw [spanDigits, span_eq_takeWhile_dropWhile]
  exact dropWhile_suffix _

private theorem wholePart?_suffix {whole : List Char} (h : wholePart? cs = some (whole, rest)) :
    rest <:+ cs := by
  have hspan := spanDigits_suffix cs
  unfold wholePart? at h
  split at h
  · cases h
  · cases h
  · next hdigits =>
    cases h
    rwa [hdigits] at hspan

private theorem fractionPart?_suffix {fraction : Option (List Char)}
    (h : fractionPart? cs = some (fraction, rest)) :
    rest <:+ cs := by
  unfold fractionPart? at h
  split at h
  · next digits =>
    have hspan := spanDigits_suffix digits
    split at h
    · cases h
    · next hdigits =>
      cases h
      rw [hdigits] at hspan
      exact hspan.trans (suffix_cons _ _)
  · cases h
    exact suffix_rfl

private theorem powerDigits?_suffix {negative : Bool}
    (h : powerDigits? negative cs = some (power, rest)) : rest <:+ cs := by
  have hspan := spanDigits_suffix cs
  unfold powerDigits? at h
  split at h
  · cases h
  · next hdigits =>
    cases h
    rwa [hdigits] at hspan

private theorem powerPart?_suffix (h : powerPart? cs = some (power, rest)) :
    rest <:+ cs := by
  unfold powerPart? at h
  split at h
  · next c cs =>
    have hcons := suffix_cons c cs
    split at h
    · split at h
      · exact ((powerDigits?_suffix h).trans (suffix_cons _ _)).trans hcons
      · exact ((powerDigits?_suffix h).trans (suffix_cons _ _)).trans hcons
      · exact (powerDigits?_suffix h).trans hcons
    · cases h
      exact suffix_rfl
  · cases h
    exact suffix_rfl

private theorem read?_suffix {n : Number} (h : read? cs = some (n, rest)) : rest <:+ cs := by
  obtain ⟨⟨parts, after⟩, hparts, h⟩ := Option.bind_eq_some_iff.mp h
  obtain ⟨_, -, h⟩ := Option.bind_eq_some_iff.mp h
  cases h
  obtain ⟨⟨whole, afterWhole⟩, hwhole, h⟩ := Option.bind_eq_some_iff.mp hparts
  obtain ⟨⟨fraction, afterFraction⟩, hfraction, h⟩ := Option.bind_eq_some_iff.mp h
  obtain ⟨⟨power, afterPower⟩, hpower, h⟩ := Option.bind_eq_some_iff.mp h
  cases h
  have htail := ((powerPart?_suffix hpower).trans (fractionPart?_suffix hfraction)).trans
    (wholePart?_suffix hwhole)
  split at htail
  · exact htail.trans (suffix_cons _ _)
  · exact htail

end Number

/-! ## Data -/

namespace Json

private theorem marks_escapeChar (c : Char) : marks (escapeChar c) = marks [c] := by
  by_cases hnamed : c = '"' ∨ c = '\\' ∨ c = '\n' ∨ c = '\r' ∨ c = '\t' ∨ c = '\x08' ∨ c = '\x0c'
  · rcases hnamed with rfl | rfl | rfl | rfl | rfl | rfl | rfl <;> decide
  · simp only [not_or] at hnamed
    simp only [escapeChar, beq_iff_eq, hnamed, if_false]
    split
    · next hcontrol =>
      have hdigit : ∀ n < 16, isMark (hexDigit n) = false := by decide
      have hhigh := hdigit (c.toNat / 16) (by omega)
      have hlow := hdigit (c.toNat % 16) (by omega)
      have hc : isMark c = true := by simp [isMark, hcontrol, hnamed]
      simp [hhigh, hlow, hc, show isMark 'u' = true by decide, show isMark '\\' = false by decide,
        show isMark '0' = false by decide]
    · rfl

/-- A quoted text has the marks of the text. -/
@[simp]
theorem marks_quotedChars (s : String) : marks (quotedChars s) = marks s.toList := by
  simp [quotedChars, marks_flatMap marks_escapeChar, isMark]

theorem marks_itemChars_cons (v : Json) (vs : List Json) :
    marks (itemChars (v :: vs)) = marks v.chars + marks (itemChars vs) := by
  cases vs <;> simp [itemChars, isMark]

theorem marks_fieldChars_cons (key : String) (v : Json) (F : Fields) :
    marks (fieldChars ((key, v) :: F)) = marks key.toList + marks v.chars +
      marks (fieldChars F) := by
  cases F <;> simp [fieldChars, isMark, Nat.add_assoc]

theorem marks_array (vs : List Json) : marks (Json.array vs).chars = marks (itemChars vs) := by
  simp [chars, isMark]

theorem marks_object (F : Fields) : marks (Json.object F).chars = marks (fieldChars F) := by
  simp [chars, isMark]

private theorem marks_skipSpace (cs : List Char) : marks (skipSpace cs) ≤ marks cs :=
  marks_le_of_suffix (dropWhile_suffix _)

private theorem isMark_of_shortEscape? {c d : Char} (h : shortEscape? c = some d) :
    isMark d = false := by
  unfold shortEscape? at h
  split at h <;> cases h <;> decide

private theorem marks_of_readString? {done : List Char} {s : String}
    (h : readString? done cs = some (s, rest)) :
    marks s.toList + marks rest ≤ marks done + marks cs := by
  have hu : isMark 'u' = true := by decide
  fun_induction readString? done cs with
  | case1 => cases h
  | case2 done cs =>
    cases h
    simp only [String.toList_ofList, marks_reverse, marks_cons]
    omega
  | case3 => cases h
  | case4 done a b c d e f g h' cs unit _ _ low _ _ ih =>
    -- An escape has a letter for the one character that it stands for.
    have hdone :=
      marks_cons_le (Char.ofNat (0x10000 + (unit - 0xD800) * 0x400 + (low - 0xDC00))) done
    have hread := ih h
    simp only [marks_cons, hu, if_true] at hread hdone ⊢
    omega
  | case5 => cases h
  | case6 => cases h
  | case7 => cases h
  | case8 done a b c d e f g h' cs unit _ _ _ ih =>
    have hdone := marks_cons_le (Char.ofNat unit) done
    have hread := ih h
    simp only [marks_cons, hu, if_true] at hread hdone ⊢
    omega
  | case9 => cases h
  | case10 => cases h
  | case11 done a b c d cs _ unit _ _ ih =>
    have hdone := marks_cons_le (Char.ofNat unit) done
    have hread := ih h
    simp only [marks_cons, hu, if_true] at hread hdone ⊢
    omega
  | case12 done c cs _ _ d hd ih =>
    have hread := ih h
    simp only [marks_cons, isMark_of_shortEscape? hd, Bool.false_eq_true, if_false] at hread ⊢
    omega
  | case13 => cases h
  | case14 => cases h
  | case15 done c cs _ _ _ _ _ ih =>
    have hread := ih h
    simp only [marks_cons] at hread ⊢
    omega

private theorem readWord?_eq_some {word : List Char} {w : Json}
    (h : readWord? word v cs = some (w, rest)) :
    w = v ∧ cs = word ++ rest := by
  fun_induction readWord? word v cs with
  | case1 v cs =>
    cases h
    exact ⟨rfl, rfl⟩
  | case2 word v c cs d hd ih =>
    obtain ⟨hw, hcs⟩ := ih h
    rw [beq_iff_eq] at hd
    exact ⟨hw, by rw [hcs, hd]; rfl⟩
  | case3 => cases h
  | case4 => cases h

private theorem marks_insert (F : Fields) (key : String) (v : Json) :
    marks (fieldChars (F.insert key v)) ≤ marks (fieldChars F) +
      (marks key.toList + marks v.chars) := by
  induction F with
  | nil =>
    rw [Fields.insert, marks_fieldChars_cons]
    omega
  | cons field F ih =>
    rw [Fields.insert]
    split
    · rw [marks_fieldChars_cons, marks_fieldChars_cons]
      omega
    · rw [marks_fieldChars_cons, marks_fieldChars_cons]
      omega

/-- Nothing that is read has more marks than the characters that it is read from. -/
structure Sheds (fuel : Nat) : Prop where
  value {depth : Nat} {cs rest : List Char} {v : Json} :
    readValue? fuel depth cs = some (v, rest) → marks v.chars + marks rest ≤ marks cs
  items {depth : Nat} {cs rest : List Char} {vs : List Json} :
    readItems? fuel depth cs = some (vs, rest) → marks (itemChars vs) + marks rest ≤ marks cs
  fields {depth : Nat} {cs rest : List Char} {done F : Fields} :
    readFields? fuel depth done cs = some (F, rest) →
      marks (fieldChars F) + marks rest ≤ marks (fieldChars done) + marks cs

namespace Sheds

variable {fuel depth : Nat}

theorem value_succ (ih : Sheds fuel) (h : readValue? (fuel + 1) depth cs = some (v, rest)) :
    marks v.chars + marks rest ≤ marks cs := by
  have hskip := marks_skipSpace cs
  rw [readValue?] at h
  split at h
  · next hcs =>
    obtain ⟨rfl, rfl⟩ := readWord?_eq_some h
    simpa [hcs, chars, isMark, Nat.add_comm] using hskip
  · next hcs =>
    obtain ⟨rfl, rfl⟩ := readWord?_eq_some h
    simpa [hcs, chars, isMark, Nat.add_comm] using hskip
  · next hcs =>
    obtain ⟨rfl, rfl⟩ := readWord?_eq_some h
    simpa [hcs, chars, isMark, Nat.add_comm] using hskip
  · next hcs =>
    obtain ⟨⟨s, after⟩, hs, h⟩ := Option.map_eq_some_iff.mp h
    cases h
    have hread := marks_of_readString? hs
    rw [hcs, marks_cons] at hskip
    rw [chars, marks_quotedChars]
    rw [marks_nil] at hread
    omega
  · next tail hcs =>
    have htail := marks_skipSpace tail
    rw [hcs, marks_cons] at hskip
    split at h
    · cases h
    split at h
    · next hclose =>
      cases h
      rw [hclose, marks_cons] at htail
      rw [marks_array, itemChars, marks_nil]
      omega
    · obtain ⟨⟨items, after⟩, hitems, h⟩ := Option.map_eq_some_iff.mp h
      cases h
      have hread := ih.items hitems
      rw [marks_array]
      omega
  · next tail hcs =>
    have htail := marks_skipSpace tail
    rw [hcs, marks_cons] at hskip
    split at h
    · cases h
    split at h
    · next hclose =>
      cases h
      rw [hclose, marks_cons] at htail
      rw [marks_object, fieldChars, marks_nil]
      omega
    · obtain ⟨⟨F, after⟩, hF, h⟩ := Option.map_eq_some_iff.mp h
      cases h
      have hread := ih.fields hF
      rw [fieldChars, marks_nil] at hread
      rw [marks_object]
      omega
  · obtain ⟨⟨n, after⟩, hn, h⟩ := Option.map_eq_some_iff.mp h
    cases h
    have hread := marks_le_of_suffix (Number.read?_suffix hn)
    rw [chars, Number.marks_text]
    omega

theorem items_succ (ih : Sheds fuel) {vs : List Json}
    (h : readItems? (fuel + 1) depth cs = some (vs, rest)) :
    marks (itemChars vs) + marks rest ≤ marks cs := by
  rw [readItems?] at h
  split at h
  · cases h
  next item after hitem =>
  have hread := ih.value hitem
  have hskip := marks_skipSpace after
  split at h
  · next hafter =>
    obtain ⟨⟨items, tail⟩, hitems, h⟩ := Option.map_eq_some_iff.mp h
    cases h
    have hmore := ih.items hitems
    rw [hafter, marks_cons] at hskip
    rw [marks_itemChars_cons]
    omega
  · next hafter =>
    cases h
    rw [hafter, marks_cons] at hskip
    rw [itemChars]
    omega
  · cases h

private theorem fields_succ (ih : Sheds fuel) {done F : Fields}
    (h : readFields? (fuel + 1) depth done cs = some (F, rest)) :
    marks (fieldChars F) + marks rest ≤ marks (fieldChars done) + marks cs := by
  have hskip := marks_skipSpace cs
  rw [readFields?] at h
  split at h
  case h_2 => cases h
  next tail hcs =>
  rw [hcs, marks_cons] at hskip
  split at h
  · cases h
  next key afterKey hkey =>
  have hreadKey := marks_of_readString? hkey
  have hskipKey := marks_skipSpace afterKey
  rw [marks_nil] at hreadKey
  split at h
  case h_2 => cases h
  next beforeValue hcolon =>
  rw [hcolon, marks_cons] at hskipKey
  split at h
  · cases h
  next v afterValue hv =>
  have hreadValue := ih.value hv
  have hskipValue := marks_skipSpace afterValue
  have hinsert := marks_insert done key v
  dsimp only at h
  split at h
  · next more hcomma =>
    have hmore := ih.fields h
    rw [hcomma, marks_cons] at hskipValue
    omega
  · next hclose =>
    cases h
    rw [hclose, marks_cons] at hskipValue
    omega
  · cases h

end Sheds

/-- Reading with any fuel adds no marks. -/
theorem sheds (fuel : Nat) : Sheds fuel := by
  induction fuel with
  | zero =>
    refine ⟨fun h => ?_, fun h => ?_, fun h => ?_⟩
    · rw [readValue?] at h
      cases h
    · rw [readItems?] at h
      cases h
    · rw [readFields?] at h
      cases h
  | succ fuel ih => exact ⟨ih.value_succ, ih.items_succ, ih.fields_succ⟩

theorem marks_of_ofText? {text : String} (h : ofText? text = some v) :
    marks v.chars ≤ marks text.toList := by
  unfold ofText? at h
  dsimp only at h
  split at h
  · next hread =>
    split at h
    · cases h
      have hvalue := (sheds _).value hread
      omega
    · cases h
  · cases h

end Json

end AnalyticQuery
