import AnalyticQuery.Short.Printer
import Mathlib

/-!
# Data values inside short expressions

A data value stands in a short expression between braces. The reader looks for the closing brace
without reading the value: it counts braces and passes over texts in quotes. The compact text of
every value is balanced in this sense, so the reader finds the value's own end.
-/

namespace AnalyticQuery

open List

variable {c : Char} {cs : List Char}

/-! ## The characters of numbers -/

/-- The characters that a number's text is made of. -/
def isNumberChar (c : Char) : Bool :=
  c.isDigit || c == '-' || c == '+' || c == '.' || c == 'e'

theorem isNumberChar_of_isDigit (h : c.isDigit = true) : isNumberChar c = true := by
  simp [isNumberChar, h]

/-- Letters and digits are no blanks. -/
theorem isBlank_of_isAlphanum (h : c.isAlphanum = true) : Text.isBlank c = false := by
  have hcode : 48 ≤ c.toNat ∧ c.toNat ≤ 122 := by
    simp only [Char.isAlphanum, Char.isAlpha, Char.isUpper, Char.isLower, Char.isDigit, ge_iff_le,
      UInt32.le_iff_toNat_le, Bool.or_eq_true, Bool.and_eq_true, decide_eq_true_eq, Char.reduceVal,
      UInt32.reduceToNat] at h
    rw [Char.toNat]
    omega
  rw [Text.isBlank, Text.inRanges]
  simp [Text.blankRanges]
  omega

theorem isBlank_of_isNumberChar (h : isNumberChar c = true) : Text.isBlank c = false := by
  simp only [isNumberChar, Bool.or_eq_true, beq_iff_eq] at h
  rcases h with (((h | rfl) | rfl) | rfl) | rfl
  · exact isBlank_of_isAlphanum (by simp [Char.isAlphanum, h])
  all_goals decide

theorem isDigit_of_mem_digitText {n : Nat} (h : c ∈ Decimal.digitText n) :
    c.isDigit = true :=
  Nat.isDigit_of_mem_toDigits (by decide) (by decide) h

/-- Both sides of the point are digits. -/
theorem isDigit_of_mem_positional {d : Decimal} (h : c ∈ d.positional.1 ∨ c ∈ d.positional.2) :
    c.isDigit = true := by
  have hdigits : ∀ c ∈ Decimal.digitText d.digits, c.isDigit = true :=
    fun c hc => isDigit_of_mem_digitText hc
  have hzeros : ∀ {n : Nat} {c : Char}, c ∈ List.replicate n '0' → c.isDigit = true := by
    intro n c hc
    rw [eq_of_mem_replicate hc]
    decide
  unfold Decimal.positional at h
  dsimp only at h
  split at h
  · rcases h with h | h
    · exact (mem_append.mp h).elim (hdigits c) hzeros
    · cases h
  · split at h
    · rw [splitAt_eq] at h
      rcases h with h | h
      · exact hdigits c (mem_of_mem_take h)
      · exact hdigits c (mem_of_mem_drop h)
    · rcases h with h | h
      · rw [mem_singleton.mp h]
        decide
      · exact (mem_append.mp h).elim hzeros (hdigits c)

/-- There is a digit before the point. -/
theorem Decimal.positional_ne_nil (d : Decimal) : d.positional.1 ≠ [] := by
  have hdigits : Decimal.digitText d.digits ≠ [] := Nat.toDigits_ne_nil
  unfold Decimal.positional
  dsimp only
  split
  · simp [hdigits]
  · split
    · rw [splitAt_eq]
      exact ne_nil_of_length_pos (by rw [length_take]; omega)
    · exact cons_ne_nil _ _

/-- The text of a floating-point number has characters of numbers only. -/
private theorem isNumberChar_of_mem_dataText {x : Binary64} (h : c ∈ x.dataText.toList) :
    isNumberChar c = true := by
  have hsign : ∀ {b : Bool}, c ∈ (if b then ['-'] else []) → isNumberChar c = true := by
    intro b hc
    cases b <;> simp_all [isNumberChar]
  have hdigits : c ∈ Decimal.digitText x.shortest.digits → isNumberChar c = true :=
    fun hc => isNumberChar_of_isDigit (isDigit_of_mem_digitText hc)
  unfold Binary64.dataText at h
  dsimp only at h
  split at h
  · simp only [String.toList_ofList, mem_append, mem_cons, not_mem_nil, or_false] at h
    rcases h with h | rfl | rfl | rfl
    · exact hsign h
    all_goals decide
  · split at h
    · simp only [String.toList_ofList, mem_append, mem_cons] at h
      rcases h with (h | h) | rfl | h
      · exact hsign h
      · exact isNumberChar_of_isDigit (isDigit_of_mem_positional (.inl h))
      · decide
      · split at h
        · rw [mem_singleton.mp h]
          decide
        · exact isNumberChar_of_isDigit (isDigit_of_mem_positional (.inr h))
    · simp only [String.toList_ofList, mem_append] at h
      rcases h with (((h | h) | h) | h) | h
      · exact hsign h
      · exact hdigits (mem_of_mem_take h)
      · split at h
        · cases h
        · rcases mem_cons.mp h with rfl | h
          · decide
          · exact hdigits (mem_of_mem_drop h)
      · split at h <;> simp only [mem_cons, not_mem_nil, or_false] at h <;>
          rcases h with rfl | rfl <;> decide
      · exact isNumberChar_of_isDigit (isDigit_of_mem_digitText h)

/-- The text of an integer has characters of numbers only. -/
theorem isNumberChar_of_mem_toString {i : Int} (h : c ∈ (toString i).toList) :
    isNumberChar c = true := by
  rw [Int.toString_eq_repr, Int.repr_eq_if] at h
  split at h
  · rw [Nat.toList_repr] at h
    exact isNumberChar_of_isDigit (isDigit_of_mem_digitText h)
  · rw [String.toList_append, Nat.toList_repr] at h
    rcases mem_append.mp h with h | h
    · rw [mem_singleton.mp h]
      decide
    · exact isNumberChar_of_isDigit (isDigit_of_mem_digitText h)

/-- The text of a number has characters of numbers only. -/
theorem Number.isNumberChar_of_mem_text {n : Number} (h : c ∈ n.text.toList) :
    isNumberChar c = true := by
  cases n with
  | integer => exact isNumberChar_of_mem_toString h
  | real => exact isNumberChar_of_mem_dataText h

/-! ## Balanced texts -/

namespace Short

/-- Characters inside an object that the search for its closing brace passes over. -/
def Balanced (cs : List Char) : Prop :=
  ∀ depth done rest, spanBraces (depth + 1) false done (cs ++ rest) =
    spanBraces (depth + 1) false (cs.reverse ++ done) rest

/-- A character with a meaning to the search for a closing brace. -/
def isBraceMark (c : Char) : Bool := c == '\x7b' || c == '\x7d' || c == '"'

private theorem isBraceMark_of_isNumberChar (h : isNumberChar c = true) :
    isBraceMark c = false := by
  apply Bool.eq_false_iff.mpr
  intro hmark
  simp only [isBraceMark, Bool.or_eq_true, beq_iff_eq] at hmark
  rcases hmark with (rfl | rfl) | rfl <;> exact absurd h (by decide)

namespace Balanced

theorem nil : Balanced [] := fun _ _ _ => rfl

theorem append {xs ys : List Char} (hx : Balanced xs) (hy : Balanced ys) : Balanced (xs ++ ys) := by
  intro depth done rest
  rw [append_assoc, hx, hy, reverse_append, append_assoc]

/-- A character without a meaning to the search is passed over. -/
theorem cons (hc : isBraceMark c = false) (hcs : Balanced cs) :
    Balanced (c :: cs) := by
  intro depth done rest
  simp only [isBraceMark, Bool.or_eq_false_iff] at hc
  obtain ⟨⟨hopen, hclose⟩, hquote⟩ := hc
  have hstep : spanBraces (depth + 1) false done (c :: (cs ++ rest)) =
      spanBraces (depth + 1) false (c :: done) (cs ++ rest) := by
    rw [spanBraces.eq_def]
    simp [hclose, hopen, hquote]
  rw [cons_append, hstep, hcs, reverse_cons, append_assoc, singleton_append]

private theorem of_any (h : cs.any isBraceMark = false) : Balanced cs := by
  induction cs with
  | nil => exact nil
  | cons c cs ih =>
    rw [any_cons, Bool.or_eq_false_iff] at h
    exact cons h.1 (ih h.2)

/-- A pair of braces around a balanced text is passed over. -/
theorem braces (h : Balanced cs) : Balanced ('\x7b' :: cs ++ ['\x7d']) := by
  intro depth done rest
  have hopen : ∀ rest, spanBraces (depth + 1) false done ('\x7b' :: rest) =
      spanBraces (depth + 1 + 1) false ('\x7b' :: done) rest := fun _ => rfl
  have hclose : ∀ done, spanBraces (depth + 1 + 1) false done ('\x7d' :: rest) =
      spanBraces (depth + 1) false ('\x7d' :: done) rest := fun _ => rfl
  rw [cons_append, cons_append, append_assoc, hopen, h, singleton_append, hclose]
  simp

end Balanced

private theorem hexDigit_ne {n : Nat} (h : n < 16) :
    Json.hexDigit n ≠ '"' ∧ Json.hexDigit n ≠ '\\' := by
  revert n
  decide

/-- Inside quotes a character that is neither a quote nor a backslash is passed over. -/
private theorem spanBraces_plain (depth : Nat) (done rest : List Char) (hquote : c ≠ '"')
    (hslash : c ≠ '\\') :
    spanBraces depth true done (c :: rest) = spanBraces depth true (c :: done) rest := by
  have hopen : (c != '"') = true := by simpa using hquote
  cases rest <;> simp [spanBraces, hopen, hslash]

/-- Inside quotes the written form of a character is passed over. -/
private theorem spanBraces_escapeChar (c : Char) (depth : Nat) (done rest : List Char) :
    spanBraces depth true done (Json.escapeChar c ++ rest) =
      spanBraces depth true ((Json.escapeChar c).reverse ++ done) rest := by
  unfold Json.escapeChar
  -- Two characters, the first a backslash, in all cases but the last two.
  iterate 7 (split; · rfl)
  rename_i hquote hslash _ _ _ _ _
  split
  · rename_i hcontrol
    obtain ⟨hne, hne'⟩ := hexDigit_ne (show c.toNat / 16 < 16 by omega)
    obtain ⟨hlow, hlow'⟩ := hexDigit_ne (show c.toNat % 16 < 16 by omega)
    have hescape : ∀ cs, spanBraces depth true done ('\\' :: 'u' :: cs) =
        spanBraces depth true ('u' :: '\\' :: done) cs := fun _ => rfl
    simp only [cons_append, nil_append, hescape]
    rw [spanBraces_plain _ _ _ (by decide) (by decide),
      spanBraces_plain _ _ _ (by decide) (by decide), spanBraces_plain _ _ _ hne hne',
      spanBraces_plain _ _ _ hlow hlow']
    rfl
  · exact spanBraces_plain depth done rest (by simpa using hquote) (by simpa using hslash)

/-- Inside quotes the written form of a text is passed over, up to its closing quote. -/
private theorem spanBraces_escapeChars (cs : List Char) (depth : Nat) (done rest : List Char) :
    spanBraces depth true done (cs.flatMap Json.escapeChar ++ '"' :: rest) =
      spanBraces depth false ('"' :: (cs.flatMap Json.escapeChar).reverse ++ done) rest := by
  induction cs generalizing done with
  | nil => cases rest <;> rfl
  | cons c cs ih =>
    rw [flatMap_cons, append_assoc, spanBraces_escapeChar, ih]
    simp

/-- A text in quotes is balanced, whatever it holds. -/
theorem balanced_quotedChars (s : String) : Balanced (Json.quotedChars s) := by
  intro depth done rest
  have hopen : ∀ rest, spanBraces (depth + 1) false done ('"' :: rest) =
      spanBraces (depth + 1) true ('"' :: done) rest := fun _ => rfl
  rw [Json.quotedChars, append_assoc, cons_append, hopen, singleton_append, spanBraces_escapeChars]
  simp

mutual

/-- The compact text of a value is balanced. -/
theorem balanced_chars : ∀ value : Json, Balanced value.chars
  | .null => .of_any (by decide)
  | .bool true => .of_any (by decide)
  | .bool false => .of_any (by decide)
  | .number n => by
    refine .of_any (any_eq_false.mpr fun c hc => Bool.eq_false_iff.mp ?_)
    exact isBraceMark_of_isNumberChar (Number.isNumberChar_of_mem_text hc)
  | .string s => balanced_quotedChars s
  | .array items => .cons (by decide) ((balanced_itemChars items).append (.of_any (by decide)))
  | .object fields => (balanced_fieldChars fields).braces

private theorem balanced_itemChars : ∀ items : List Json, Balanced (Json.itemChars items)
  | [] => .nil
  | [item] => balanced_chars item
  | item :: next :: items =>
    (balanced_chars item).append (.cons (by decide) (balanced_itemChars (next :: items)))

private theorem balanced_fieldChars :
    ∀ fields : List (String × Json), Balanced (Json.fieldChars fields)
  | [] => .nil
  | [(key, value)] => (balanced_quotedChars key).append (.cons (by decide) (balanced_chars value))
  | (key, value) :: next :: fields =>
    ((balanced_quotedChars key).append (.cons (by decide) (balanced_chars value))).append
      (.cons (by decide) (balanced_fieldChars (next :: fields)))

end

/-- The reader finds the end of an object. -/
theorem spanBraces_object (fields : Fields) (rest : List Char) :
    spanBraces 0 false [] ((Json.object fields).chars ++ rest) =
      some ((Json.object fields).chars, rest) := by
  have hclose : ∀ done, spanBraces 1 false done ('\x7d' :: rest) =
      some (('\x7d' :: done).reverse, rest) := fun _ => rfl
  have hopen : ∀ rest, spanBraces 0 false [] ('\x7b' :: rest) =
      spanBraces 1 false ['\x7b'] rest := fun _ => rfl
  have h := balanced_fieldChars fields 0 ['\x7b'] ('\x7d' :: rest)
  rw [Json.chars, cons_append, cons_append, append_assoc, hopen, singleton_append, h, hclose]
  simp

/-- An object is read back where it stands. -/
theorem readJson_object {fields : Fields} (rest : List Char)
    (h : Json.ofText? (Json.object fields).text = some (.object fields)) :
    readJson ((Json.object fields).chars ++ rest) = .ok (.json (.object fields), rest) := by
  rw [Json.text] at h
  rw [readJson, spanBraces_object]
  dsimp only
  rw [h]

end Short

end AnalyticQuery
