import AnalyticQuery.Proofs.Short.Layout
import AnalyticQuery.Proofs.Short.Braces
import Mathlib

/-!
# Reading the pieces of a short expression

Each piece that is written without blanks inside, a name, a value without quotes, a text in quotes,
is read back where it stands, before any blanks and a character that ends it.
-/

namespace AnalyticQuery.Short

open List

variable {cs rest : List Char}

variable {blanks token after name : List Char} {d : Char}

variable {c : Char}

/-! ## Characters -/

/-- The characters of the values that are written without quotes. -/
def isTokenChar (c : Char) : Bool := isBareChar c || c == '+'

theorem isTokenChar_of_isNumberChar (h : isNumberChar c = true) : isTokenChar c = true := by
  simp only [isNumberChar, Bool.or_eq_true, beq_iff_eq] at h
  rcases h with (((h | rfl) | rfl) | rfl) | rfl
  · simp [isTokenChar, isBareChar, Char.isAlphanum, h]
  all_goals decide

theorem isBlank_of_isTokenChar (h : isTokenChar c = true) : Text.isBlank c = false := by
  simp only [isTokenChar, isBareChar, Bool.or_eq_true, beq_iff_eq] at h
  rcases h with ((((((h | rfl) | rfl) | rfl) | rfl) | rfl) | rfl) | rfl
  · exact isBlank_of_isAlphanum h
  all_goals decide

theorem endsBare_of_isTokenChar (h : isTokenChar c = true) : endsBare c = false := by
  apply Bool.eq_false_iff.mpr
  intro hends
  simp only [endsBare, Bool.or_eq_true, beq_iff_eq] at hends
  rcases hends with (rfl | rfl) | rfl <;> exact absurd h (by decide)

private theorem breaksBare_of_isTokenChar (h : isTokenChar c = true) : breaksBare c = false := by
  apply Bool.eq_false_iff.mpr
  intro hbreaks
  simp only [breaksBare, Bool.or_eq_true, beq_iff_eq] at hbreaks
  rcases hbreaks with (((rfl | rfl) | rfl) | rfl) | rfl <;> exact absurd h (by decide)

/-- The characters that end a value have no other meaning. -/
theorem of_endsBare (h : endsBare c = true) :
    Text.isBlank c = false ∧ breaksBare c = false ∧ isNameChar c = false ∧ c ≠ '=' := by
  simp only [endsBare, Bool.or_eq_true, beq_iff_eq] at h
  rcases h with (rfl | rfl) | rfl <;> decide

/-- Blanks have no other meaning. -/
theorem of_isBlank (h : Text.isBlank c = true) :
    endsBare c = false ∧ breaksBare c = false ∧ isNameChar c = false ∧ c ≠ '=' := by
  refine ⟨Bool.eq_false_iff.mpr fun hends => ?_, Bool.eq_false_iff.mpr fun hbreaks => ?_,
    Bool.eq_false_iff.mpr fun hname => ?_, ?_⟩
  · rw [(of_endsBare hends).1] at h
    cases h
  · simp only [breaksBare, Bool.or_eq_true, beq_iff_eq] at hbreaks
    rcases hbreaks with (((rfl | rfl) | rfl) | rfl) | rfl <;> exact absurd h (by decide)
  · simp only [isNameChar, Bool.or_eq_true, beq_iff_eq] at hname
    rcases hname with hname | rfl
    · rw [isBlank_of_isAlphanum hname] at h
      cases h
    · exact absurd h (by decide)
  · rintro rfl
    exact absurd h (by decide)

/-! ## Blanks -/

theorem skip_append (h : ∀ c ∈ blanks, Text.isBlank c = true) :
    skip (blanks ++ cs) = skip cs :=
  dropWhile_append_of_pos h

theorem skip_cons (h : Text.isBlank c = false) :
    skip (c :: cs) = c :: cs :=
  dropWhile_cons_of_neg (by simp [h])

private theorem dropWhile_isBlank (h : ∀ c ∈ cs, isTokenChar c = true) :
    cs.dropWhile Text.isBlank = cs := by
  cases cs with
  | nil => rfl
  | cons c cs => exact skip_cons (isBlank_of_isTokenChar (h c mem_cons_self))

/-- The blanks after a token are trimmed, and nothing else. -/
theorem trim_append (hne : token ≠ []) (htoken : ∀ c ∈ token, isTokenChar c = true)
    (hblanks : ∀ c ∈ blanks, Text.isBlank c = true) :
    Text.trim (String.ofList (token ++ blanks)) = String.ofList token := by
  have hfront : Text.trimStart (token ++ blanks) = token ++ blanks := by
    rw [Text.trimStart, dropWhile_append, dropWhile_isBlank htoken, if_neg (by simpa using hne)]
  have hback : Text.trimEnd (token ++ blanks) = token := by
    rw [Text.trimEnd, reverse_append,
      dropWhile_append_of_pos (fun c hc => hblanks c (mem_reverse.mp hc)),
      dropWhile_isBlank fun c hc => htoken c (mem_reverse.mp hc), reverse_reverse]
  rw [Text.trim, String.toList_ofList, hfront, hback]

/-! ## Values without quotes -/

/-- Whether only blanks stand before a character that ends a value. -/
def Ends (rest : List Char) : Prop :=
  ∃ blanks d after, (∀ c ∈ blanks, Text.isBlank c = true) ∧ endsBare d = true ∧
    rest = blanks ++ d :: after

/-- A value without quotes is read up to the character that ends it. -/
theorem readBare_token (hne : token ≠ []) (htoken : ∀ c ∈ token, isTokenChar c = true)
    (hrest : Ends rest) :
    readBare (token ++ rest) = .ok (bareValue (String.ofList token), skip rest) := by
  obtain ⟨blanks, d, after, hblanks, hd, rfl⟩ := hrest
  obtain ⟨hblank, hbreaks, -, -⟩ := of_endsBare hd
  have hinside : ∀ c ∈ token ++ blanks, (!endsBare c && !breaksBare c) = true := by
    intro c hc
    rcases mem_append.mp hc with hc | hc
    · simp [endsBare_of_isTokenChar (htoken c hc), breaksBare_of_isTokenChar (htoken c hc)]
    · simp [of_isBlank (hblanks c hc)]
  have htake : (token ++ (blanks ++ d :: after)).takeWhile (fun c => !endsBare c && !breaksBare c) =
      token ++ blanks := by
    rw [← append_assoc, takeWhile_append_of_pos hinside, takeWhile_cons_of_neg, append_nil]
    simp [hd]
  have hdrop : (token ++ (blanks ++ d :: after)).drop (token ++ blanks).length = d :: after := by
    rw [← append_assoc, drop_left]
  have hfull : (String.ofList token).isEmpty = false := by
    simpa [String.isEmpty_eq_false_iff] using hne
  simp only [readBare, htake, hdrop, head?_cons, Option.filter_some, hbreaks,
    trim_append hne htoken hblanks, hfull, Bool.false_eq_true, if_false]
  rw [skip_append hblanks, skip_cons hblank]

private theorem dropWhile_append_cons {p : Char → Bool} (cs after : List Char) (hd : p d = false) :
    (cs ++ d :: after).dropWhile p = cs.dropWhile p ++ d :: after := by
  rw [dropWhile_append]
  split
  · rename_i hempty
    rw [isEmpty_iff.mp hempty, nil_append, dropWhile_cons_of_neg (by simp [hd])]
  · rfl

/-- No name of an argument is seen in front of a value that has no equals sign before its end. -/
theorem readKey?_eq_none (hcs : ∀ c ∈ cs, c ≠ '=') (hd : endsBare d = true) :
    readKey? (cs ++ d :: after) = none := by
  obtain ⟨hblank, -, hname, hne⟩ := of_endsBare hd
  rw [readKey?]
  split
  · rfl
  · rename_i key rest hread
    -- What follows the name is the end of the value, or a character inside it.
    have hrest : ∃ tail, (∀ c ∈ tail, c ≠ '=') ∧ rest = tail ++ d :: after := by
      cases cs with
      | nil =>
        have hstart : isNameStart d = false := by
          simp only [isNameChar, Char.isAlphanum, Bool.or_eq_false_iff] at hname
          simp [isNameStart, hname]
        simp [readName?, hstart] at hread
      | cons c cs =>
        rw [cons_append, readName?] at hread
        split at hread
        · cases hread
          refine ⟨cs.dropWhile isNameChar, fun x hx => ?_, dropWhile_append_cons cs after hname⟩
          exact hcs x (mem_cons_of_mem c (dropWhile_subset isNameChar hx))
        · cases hread
    obtain ⟨tail, htail, rfl⟩ := hrest
    have hskip : skip (tail ++ d :: after) = skip tail ++ d :: after :=
      dropWhile_append_cons tail after hblank
    have hskipped : ∀ c ∈ skip tail, c ≠ '=' := fun c hc => htail c (dropWhile_subset _ hc)
    rw [hskip]
    cases hcase : skip tail with
    | nil => simp [hne]
    | cons c cs =>
      have hc : c ≠ '=' := hskipped c (hcase ▸ mem_cons_self)
      simp [hc]

/-- No name of an argument is seen in a value without quotes. -/
theorem readKey?_token (htoken : ∀ c ∈ token, isTokenChar c = true) (hrest : Ends rest) :
    readKey? (token ++ rest) = none := by
  obtain ⟨blanks, d, after, hblanks, hd, rfl⟩ := hrest
  rw [← append_assoc]
  refine readKey?_eq_none (fun c hc => ?_) hd
  rcases mem_append.mp hc with hc | hc
  · rintro rfl
    exact absurd (htoken _ hc) (by decide)
  · exact (of_isBlank (hblanks c hc)).2.2.2

/-- No name of an argument is seen where none begins. -/
theorem readKey?_of_isNameStart (h : isNameStart c = false) :
    readKey? (c :: cs) = none := by
  simp [readKey?, readName?, h]

/-! ## Names -/

theorem isNameChar_of_isNameStart (h : isNameStart c = true) : isNameChar c = true := by
  simp only [isNameStart, Bool.or_eq_true] at h
  rcases h with h | h <;> simp [isNameChar, Char.isAlphanum, h]

/-- A name begins with a character that is no blank and ends no value. -/
theorem exists_of_isIdentifier (h : isIdentifier name = true) :
    ∃ c tail, name = c :: tail ∧ Text.isBlank c = false ∧ endsBare c = false := by
  cases name with
  | nil => cases h
  | cons c name =>
    simp only [isIdentifier, Bool.and_eq_true] at h
    have hc := isNameChar_of_isNameStart h.1
    refine ⟨c, name, rfl, Bool.eq_false_iff.mpr fun hblank => ?_,
      Bool.eq_false_iff.mpr fun hends => ?_⟩
    · rw [(of_isBlank hblank).2.2.1] at hc
      cases hc
    · rw [(of_endsBare hends).2.2.1] at hc
      cases hc

/-- No blanks stand before a name. -/
theorem skip_identifier (h : isIdentifier name = true) :
    skip (name ++ rest) = name ++ rest := by
  obtain ⟨c, tail, rfl, hblank, -⟩ := exists_of_isIdentifier h
  exact skip_cons hblank

/-- A name is read up to a character that cannot stand in it. -/
theorem readName?_identifier (h : isIdentifier name = true) (hc : isNameChar c = false) :
    readName? (name ++ c :: rest) = some (String.ofList name, c :: rest) := by
  cases name with
  | nil => cases h
  | cons first name =>
    simp only [isIdentifier, Bool.and_eq_true, all_eq_true] at h
    rw [cons_append, readName?, if_pos h.1, takeWhile_append_of_pos h.2,
      dropWhile_append_of_pos h.2, takeWhile_cons_of_neg (by simp [hc]),
      dropWhile_cons_of_neg (by simp [hc]), append_nil]

/-- The name of an argument is read with the equals sign, with any blanks around it. -/
theorem readKey?_identifier {key before : List Char} (hkey : isIdentifier key = true)
    (hbefore : ∀ c ∈ before, Text.isBlank c = true) (hafter : ∀ c ∈ after, Text.isBlank c = true)
    (hblank : Text.isBlank c = false) (hc : c ≠ '=') :
    readKey? (key ++ (before ++ '=' :: (after ++ c :: rest))) =
      some (String.ofList key, c :: rest) := by
  have hname : readName? (key ++ (before ++ '=' :: (after ++ c :: rest))) =
      some (String.ofList key, before ++ '=' :: (after ++ c :: rest)) := by
    cases before with
    | nil => exact readName?_identifier hkey (by decide)
    | cons b before =>
      exact readName?_identifier hkey (of_isBlank (hbefore b mem_cons_self)).2.2.1
  have hvalue : skip (after ++ c :: rest) = c :: rest := by
    rw [skip_append hafter, skip_cons hblank]
  rw [readKey?, hname]
  dsimp only
  rw [skip_append hbefore, skip_cons (by decide)]
  cases after with
  | nil => simp [hc, skip_cons hblank]
  | cons b after =>
    have hb : b ≠ '=' := (of_isBlank (hafter b mem_cons_self)).2.2.2
    rw [cons_append] at hvalue
    simp [hb, hvalue]

/-! ## Texts in quotes -/

/-- A text in quotes is read back without the backslashes, up to the quote that ends it. -/
theorem spanQuoted_escaped (cs done rest : List Char) :
    spanQuoted '\'' done (cs.flatMap escapeQuoted ++ '\'' :: rest) =
      some (done.reverse ++ cs, rest) := by
  induction cs generalizing done with
  | nil => cases rest <;> simp [spanQuoted]
  | cons c cs ih =>
    rw [flatMap_cons, append_assoc, escapeQuoted]
    split
    · rw [cons_append, singleton_append, spanQuoted, ih]
      simp
    · rename_i hplain
      have hslash : c ≠ '\\' := by simp_all
      have hquote : (c == '\'') = false := by simp_all
      rw [singleton_append, spanQuoted.eq_4, hquote, if_neg (by decide), ih]
      all_goals simp_all

end AnalyticQuery.Short
