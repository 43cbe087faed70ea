import AnalyticQuery.Proofs.Short.Locality
import AnalyticQuery.Sql.Embedded

/-!
# Short expressions cut out of SQL text

SQL text falls into segments: quoted text and comments, single characters, and short expressions.
All but the last are copied, and the last are numbered and written as placeholders. A placeholder
leads back to its short expression.
-/

namespace AnalyticQuery.Sql

open List

variable {state : ScanState} {cs : List Char} {x : Extracted}

/-- A part of SQL text. -/
inductive Segment where
  | copied (source : List Char)
  | short (source : List Char) (expression : Short)

namespace Segment

/-- The short expression that a segment is. -/
def short? : Segment → Option Short
  | copied _ => none
  | short _ expression => some expression

end Segment

/-- What opens text that is copied up to its end, and what ends it. -/
def openings : List (List Char × List Char) :=
  [(['\''], ['\'']), (['"'], ['"']), (['-', '-'], ['\n']), (['/', '*'], ['*', '/']),
    (['$', '$'], ['$', '$'])]

/-- SQL text in segments. Quoted text and comments are copied up to their end. Outside them no short
expression and no numbered parameter is copied. -/
inductive Segmented : List Char → List Segment → Prop
  | nil : Segmented [] []
  | quoted {opening ending rest segments} : (opening, ending) ∈ openings →
      Segmented (spanPast ending rest).2 segments →
      Segmented (opening ++ rest) (.copied (opening ++ (spanPast ending rest).1) :: segments)
  | char {c rest segments} : (∀ pair ∈ openings, ¬pair.1 <+: c :: rest) →
      Short.startsAt (c :: rest) = false →
      (c == '$' && rest.head?.any Char.isDigit) = false → Segmented rest segments →
      Segmented (c :: rest) (.copied [c] :: segments)
  | short {source rest s segments} : Short.ofFront (source ++ rest) = .ok (s, source.length) →
      Segmented rest segments → Segmented (source ++ rest) (.short source s :: segments)

/-- The name of a placeholder. -/
def placeholderName (k : Nat) : String := "$" ++ toString k

/-- A placeholder as it is written: where a relation is expected it is quoted. -/
def placeholderText (k : Nat) (quoted : Bool) : List Char :=
  if quoted then '"' :: (placeholderName k).toList ++ ['"'] else (placeholderName k).toList

/-- Segments after a text, with placeholders for the short expressions after the first `k`. -/
def writtenFrom : List Char → Nat → List Segment → List Char
  | text, _, [] => text
  | text, k, .copied source :: segments => writtenFrom (text ++ source) k segments
  | text, k, .short _ _ :: segments =>
    writtenFrom (text ++ placeholderText (k + 1) (expectsRelation text.reverse)) (k + 1) segments

/-- What is replaced in segments after a text, from a position of the source on, where the first `k`
short expressions are numbered. -/
def replacementsFrom : List Char → Nat → Nat → List Segment → List Replacement
  | _, _, _, [] => []
  | text, k, position, .copied source :: segments =>
    replacementsFrom (text ++ source) k (position + source.length) segments
  | text, k, position, .short source _ :: segments =>
    let placeholder := placeholderText (k + 1) (expectsRelation text.reverse)
    ⟨text.length, placeholder.length, position, source.length⟩ ::
      replacementsFrom (text ++ placeholder) (k + 1) (position + source.length) segments

/-- What is cut off at its end is all of a text. -/
theorem spanPast_append (terminator cs : List Char) :
    (spanPast terminator cs).1 ++ (spanPast terminator cs).2 = cs := by
  induction cs with
  | nil => rfl
  | cons c cs ih =>
    rw [spanPast]
    split
    · next hprefix => exact prefix_iff_eq_append.mp ( isPrefixOf_iff_prefix.mp hprefix)
    · exact congrArg (c :: ·) ih

/-- A scan that stands in a state and has characters left comes to a result: it writes their
segments. -/
def ScanState.Reaches (state : ScanState) (cs : List Char) (x : Extracted) : Prop :=
  ∃ segments, Segmented cs segments ∧
    x.text = writtenFrom state.written.reverse state.shorts.length segments ∧
    x.shorts = state.shorts.reverse ++ segments.filterMap Segment.short? ∧
    x.replacements = state.replacements.reverse ++
      replacementsFrom state.written.reverse state.shorts.length state.position segments

namespace ScanState

variable {rest source : List Char}

theorem Reaches.copy (h : (state.copy source).Reaches rest x)
    (hsegment : ∀ segments, Segmented rest segments → Segmented cs (.copied source :: segments)) :
    state.Reaches cs x := by
  obtain ⟨segments, hsegments, htext, hshorts, hreplacements⟩ := h
  refine ⟨.copied source :: segments, hsegment segments hsegments, ?_, ?_, ?_⟩
  · rw [htext]
    simp [ScanState.copy, writtenFrom]
  · rw [hshorts, filterMap_cons_none (show Segment.short? (.copied source) = none from rfl)]
    rfl
  · rw [hreplacements]
    simp [ScanState.copy, replacementsFrom]

theorem Reaches.replace {s : Short} (h : (state.replace s source.length).Reaches rest x)
    (hfront : Short.ofFront (source ++ rest) = .ok (s, source.length)) :
    state.Reaches (source ++ rest) x := by
  obtain ⟨segments, hsegments, htext, hshorts, hreplacements⟩ := h
  have hname : ∀ k, (placeholderName k).toList = '$' :: (toString k).toList := by
    intro k
    simp [placeholderName]
  refine ⟨.short source s :: segments, .short hfront hsegments, ?_, ?_, ?_⟩
  · rw [htext]
    simp only [ScanState.replace, writtenFrom, placeholderText, hname, reverse_append,
      reverse_reverse, length_cons]
  · rw [hshorts, filterMap_cons_some (show Segment.short? (.short source s) = some s from rfl)]
    simp [ScanState.replace]
  · rw [hreplacements]
    simp only [ScanState.replace, replacementsFrom, placeholderText, hname, reverse_append,
      reverse_reverse, length_cons, length_reverse, reverse_cons, append_assoc, singleton_append]

end ScanState

/-- A scan copies or numbers one segment after the other. -/
theorem reaches_of_scan {fuel : Nat} (hfuel : cs.length < fuel) (h : scan fuel state cs = .ok x) :
    state.Reaches cs x := by
  induction fuel generalizing state cs with
  | zero => omega
  | succ fuel ih =>
    cases cs with
    | nil =>
      rw [scan] at h
      · cases h
        exact ⟨[], .nil, rfl,
          by simp [ScanState.finish], by simp [ScanState.finish, replacementsFrom]⟩
      · intro hzero
        cases hzero
    | cons c cs =>
      have hlength : cs.length < fuel := by simpa using hfuel
      have hquoted : ∀ (opening : List Char) {ending rest : List Char},
        (opening, ending) ∈ openings →
          c :: cs = opening ++ rest →
          scan fuel (state.copy (opening ++ (spanPast ending rest).1)) (spanPast ending rest).2 =
            .ok x → state.Reaches (c :: cs) x := by
        intro opening ending rest hopening hcs h
        have hshorter : (spanPast ending rest).2.length < fuel := by
          have hrest := congrArg List.length (spanPast_append ending rest)
          have hall := congrArg List.length hcs
          have hpositive : 0 < opening.length := by
            revert hopening
            simp only [openings, mem_cons, not_mem_nil, or_false]
            rintro (⟨rfl, -⟩ | ⟨rfl, -⟩ | ⟨rfl, -⟩ | ⟨rfl, -⟩ | ⟨rfl, -⟩) <;> decide
          simp only [length_append, length_cons] at hrest hall
          omega
        refine (ih hshorter h).copy fun segments hsegments => ?_
        rw [hcs]
        exact .quoted hopening hsegments
      rw [scan.eq_def] at h
      dsimp only at h
      split at h
      · next hquote =>
        refine hquoted [c] ?_ rfl h
        simpa [openings] using hquote
      · next hquote =>
        split at h
        · exact hquoted ['-', '-'] (by decide) rfl h
        · exact hquoted ['/', '*'] (by decide) rfl h
        · exact hquoted ['$', '$'] (by decide) rfl h
        next hdashes hslash hdollars =>
        have hplain : ∀ pair ∈ openings, ¬pair.1 <+: c :: cs := by
          rintro pair hpair ⟨rest, hrest⟩
          simp only [openings, mem_cons, not_mem_nil, or_false] at hpair
          obtain rfl | rfl | rfl | rfl | rfl := hpair <;> cases hrest
          · exact hquote (by decide)
          · exact hquote (by decide)
          · exact hdashes _ rfl rfl
          · exact hslash _ rfl rfl
          · exact hdollars _ rfl rfl
        split at h
        · cases h
        next hparameter =>
        split at h
        · split at h
          · cases h
          next s length hfront =>
          obtain ⟨source, rest, hcs, rfl, hne⟩ := Short.exists_of_ofFront hfront
          have hshorter : rest.length < fuel := by
            have hall := congrArg List.length hcs
            have hpositive := length_pos_of_ne_nil hne
            simp only [length_append, length_cons] at hall
            omega
          rw [hcs] at h hfront ⊢
          rw [drop_left] at h
          exact (ih hshorter h).replace hfront
        · next hstart =>
          refine (ih hlength h).copy fun segments hsegments => ?_
          exact .char hplain (by simpa using hstart) (by simpa using hparameter) hsegments

/-- Extraction writes the segments of a text, and collects its short expressions. -/
theorem exists_segmented {sql : String} (h : extract sql = .ok x) :
    ∃ segments, Segmented sql.toList segments ∧ x.text = writtenFrom [] 0 segments ∧
      x.shorts = segments.filterMap Segment.short? := by
  obtain ⟨segments, hsegments, htext, hshorts, -⟩ := reaches_of_scan (Nat.lt_succ_self _) h
  exact ⟨segments, hsegments, htext, hshorts⟩

/-! ## From placeholders to short expressions -/

/-- The digits of a number that a word holds are read back. -/
theorem nat64OfChars?_toString {n : Nat} (hn : n < 1 <<< 64) :
    Text.nat64OfChars? (toString n).toList = some n := by
  have hdigits : (toString n).toList = Nat.toDigits 10 n := by
    simp
  have hall : ∀ c ∈ Nat.toDigits 10 n, c.isDigit = true :=
    fun c hc => Nat.isDigit_of_mem_toDigits (by decide) (by decide) hc
  have hvalue : Text.natOfDigits? (Nat.toDigits 10 n) = some n := by
    have hfold : (Nat.toDigits 10 n).foldl (fun m c => m * 10 + (c.toNat - '0'.toNat)) 0 = n := by
      simp only [Nat.mul_comm _ 10]
      exact Nat.ofDigitChars_ten_toDigits
    have hsome : ((Nat.toDigits 10 n).isEmpty || !(Nat.toDigits 10 n).all Char.isDigit) =
        false := by
      simp [all_eq_true.mpr hall, Nat.toDigits_ne_nil]
    rw [Text.natOfDigits?, hsome, hfold]
    rfl
  rw [hdigits]
  unfold Text.nat64OfChars?
  split
  · next digits hplus =>
    have hdigit : '+'.isDigit = true := hall '+' (by rw [hplus]; exact mem_cons_self)
    exact absurd hdigit (by decide)
  · rw [hvalue]
    simpa using hn

/-- The placeholder of a short expression stands for it. -/
theorem short?_placeholderName (x : Extracted) {k : Nat} (hk : k + 1 < 1 <<< 64) :
    x.short? (placeholderName (k + 1)) = x.shorts[k]? := by
  have hname : (placeholderName (k + 1)).toList = '$' :: (toString (k + 1)).toList := by
    simp [placeholderName]
  unfold Extracted.short?
  rw [hname]
  simp only [nat64OfChars?_toString hk]

end AnalyticQuery.Sql
