import AnalyticQuery.Proofs.Sql.Extraction
import AnalyticQuery.Sql.Position

/-!
# From the new text to the source

The text with placeholders and the source agree but for the replacements: before, between and after
them the same characters stand in both. An offset is mapped back by the difference of what was read
and what was written up to it, and this difference is the one between two positions that correspond.
-/

namespace AnalyticQuery.Sql

open List

variable {r : Replacement} {n k p q : Nat} {text source cs : List Char} {shorts : List Short}
variable {replacements : List Replacement}

/-- Whether an offset of the new text lies in the placeholder. -/
def Replacement.Covers (r : Replacement) (offset : Nat) : Prop :=
  r.start ≤ offset ∧ offset < r.start + r.length

/-- A text from a position `p` on and a source from a position `q` on that agree but for
replacements. The first `k` short expressions stand before. -/
inductive Aligned : Nat → Nat → Nat → List Char → List Char → List Short → List Replacement → Prop
  | same {k p q : Nat} (cs : List Char) : Aligned k p q cs cs [] []
  | replaced {k p q : Nat} {source text rest : List Char} {s : Short} {shorts : List Short}
      {replacements : List Replacement} (same : List Char) (quoted : Bool) :
      Short.ofFront (source ++ rest) = .ok (s, source.length) →
      Aligned (k + 1) (p + same.length + (placeholderText (k + 1) quoted).length)
        (q + same.length + source.length) text rest shorts replacements →
      Aligned k p q (same ++ (placeholderText (k + 1) quoted ++ text)) (same ++ (source ++ rest))
        (s :: shorts)
        (⟨p + same.length, (placeholderText (k + 1) quoted).length, q + same.length,
          source.length⟩ :: replacements)

namespace Aligned

variable {offset : Nat}

theorem copied (cs : List Char)
    (h : Aligned k (p + cs.length) (q + cs.length) text source shorts replacements) :
    Aligned k p q (cs ++ text) (cs ++ source) shorts replacements := by
  cases h with
  | same => exact .same _
  | replaced same quoted hfront hrest =>
    simp only [Nat.add_assoc, ← length_append, ← append_assoc cs] at hrest ⊢
    exact .replaced (cs ++ same) quoted hfront
      (by simpa only [Nat.add_assoc, ← length_append] using hrest)

/-- What is written for the segments of a source agrees with it but for the replacements. -/
theorem of_segmented {segments : List Segment} (h : Segmented source segments) (front : List Char)
    (k q : Nat) :
    ∃ text, writtenFrom front k segments = front ++ text ∧
      Aligned k front.length q text source (segments.filterMap Segment.short?)
        (replacementsFrom front k q segments) := by
  induction h generalizing front k q with
  | nil => exact ⟨[], by simp [writtenFrom], .same []⟩
  | @quoted opening ending rest segments _ _ ih =>
    generalize hinside : opening ++ (spanPast ending rest).1 = inside
    obtain ⟨text, htext, haligned⟩ := ih (front ++ inside) k (q + inside.length)
    rw [length_append] at haligned
    have hrest : opening ++ rest = inside ++ (spanPast ending rest).2 := by
      rw [← hinside, append_assoc, spanPast_append]
    exact ⟨inside ++ text, by rw [writtenFrom, htext, append_assoc], hrest ▸ haligned.copied _⟩
  | @char c rest segments _ _ _ _ ih =>
    obtain ⟨text, htext, haligned⟩ := ih (front ++ [c]) k (q + [c].length)
    rw [length_append] at haligned
    exact ⟨[c] ++ text, by rw [writtenFrom, htext, append_assoc front], haligned.copied _⟩
  | @short source rest s segments hfront _ ih =>
    obtain ⟨text, htext, haligned⟩ :=
      ih (front ++ placeholderText (k + 1) (expectsRelation front.reverse)) (k + 1)
        (q + source.length)
    rw [length_append] at haligned
    exact ⟨_, by rw [writtenFrom, htext, append_assoc front]; rfl, .replaced [] _ hfront haligned⟩

theorem length_eq (h : Aligned k p q text source shorts replacements) :
    replacements.length = shorts.length := by
  induction h with
  | same => rfl
  | replaced _ _ _ _ ih => rw [length_cons, length_cons, ih]

/-! ## Offsets -/

open Extracted (sourceOffsetFrom)

/-- Before the next replacement an offset is as far from the one position as the offset in the
source from the other. -/
theorem sourceOffsetFrom_before (hp : p ≤ offset) (h : ∀ r ∈ replacements.head?, offset < r.start) :
    sourceOffsetFrom offset ((q : Int) - p) replacements = q + (offset - p) := by
  cases replacements with
  | nil =>
    rw [sourceOffsetFrom]
    omega
  | cons r replacements =>
    rw [sourceOffsetFrom, if_pos (h r rfl)]
    omega

private theorem sourceOffsetFrom_covers (h : r.Covers offset) (shift : Int) :
    sourceOffsetFrom offset shift (r :: replacements) = r.sourceStart := by
  rw [sourceOffsetFrom, if_neg (by have := h.1; omega), if_pos h.2]

/-- After a replacement the difference is the one of the positions after it. -/
theorem sourceOffsetFrom_after {m l : Nat} (h : p + n + m ≤ offset) :
    sourceOffsetFrom offset ((q : Int) - p) (⟨p + n, m, q + n, l⟩ :: replacements) =
      sourceOffsetFrom offset (((q + n + l : Nat) : Int) - (p + n + m : Nat)) replacements := by
  rw [sourceOffsetFrom, if_neg (by dsimp only; omega), if_neg (by dsimp only; omega)]
  congr 1
  dsimp only
  omega

/-- Outside the placeholders the same character stands in the source. -/
theorem getElem?_sourceOffsetFrom (h : Aligned k p q text source shorts replacements) {i : Nat}
    {c : Char} (hc : text[i]? = some c) (houtside : ∀ r ∈ replacements, ¬r.Covers (p + i)) :
    ∃ j, sourceOffsetFrom (p + i) ((q : Int) - p) replacements = q + j ∧ source[j]? = some c := by
  induction h generalizing i with
  | same cs => exact ⟨i, by rw [sourceOffsetFrom_before (by omega) (by simp)]; omega, hc⟩
  | @replaced k p q source text rest s shorts replacements same quoted _ _ ih =>
    obtain ⟨houtside, hothers⟩ := forall_mem_cons.mp houtside
    by_cases hbefore : i < same.length
    · refine ⟨i, ?_, ?_⟩
      · rw [sourceOffsetFrom_before (by omega)]
        · omega
        · intro r hr
          cases hr
          dsimp only
          omega
      · rw [getElem?_append_left hbefore] at hc ⊢
        exact hc
    · have hbeyond : same.length + (placeholderText (k + 1) quoted).length ≤ i := by
        by_contra hin
        exact houtside ⟨by dsimp only; omega, by dsimp only; omega⟩
      obtain ⟨i, rfl⟩ : ∃ i', i = same.length + (placeholderText (k + 1) quoted).length + i' :=
        ⟨_, (Nat.add_sub_cancel' hbeyond).symm⟩
      rw [Nat.add_assoc same.length, getElem?_append_right (Nat.le_add_right _ _),
        Nat.add_sub_cancel_left, getElem?_append_right (Nat.le_add_right _ _),
        Nat.add_sub_cancel_left] at hc
      simp only [← Nat.add_assoc] at hothers ⊢
      obtain ⟨j, hj, hcj⟩ := ih hc hothers
      refine ⟨same.length + (source.length + j), ?_, ?_⟩
      · rw [sourceOffsetFrom_after (Nat.le_add_right _ _), hj]
        omega
      · rw [getElem?_append_right (Nat.le_add_right _ _), Nat.add_sub_cancel_left,
          getElem?_append_right (Nat.le_add_right _ _), Nat.add_sub_cancel_left, hcj]

/-- A replacement is where the placeholder of its number stands, and is mapped to the start of its
short expression. -/
theorem of_getElem? (h : Aligned k p q text source shorts replacements)
    (hr : replacements[n]? = some r) :
    ∃ i j quoted s, r.start = p + i ∧ r.sourceStart = q + j ∧
      (text.drop i).take r.length = placeholderText (k + n + 1) quoted ∧ shorts[n]? = some s ∧
      Short.ofFront (source.drop j) = .ok (s, r.sourceLength) ∧
      ∀ offset, r.Covers offset → sourceOffsetFrom offset ((q : Int) - p) replacements =
        r.sourceStart := by
  induction h generalizing n with
  | same => cases hr
  | @replaced k p q source text rest s shorts replacements same quoted hfront _ ih =>
    cases n with
    | zero =>
      cases hr
      refine ⟨same.length, same.length, quoted, s, rfl, rfl, ?_, rfl, ?_,
        fun offset h => sourceOffsetFrom_covers h _⟩
      · rw [drop_left, take_left]
      · rwa [drop_left]
    | succ n =>
      obtain ⟨i, j, quoted', s', hstart, hsource, htext, hshort, hread, hoffset⟩ := ih hr
      refine ⟨same.length + ((placeholderText (k + 1) quoted).length + i),
        same.length + (source.length + j),
        quoted', s', by omega, by omega, ?_, hshort, ?_, fun offset h => ?_⟩
      · rw [drop_length_add_append, drop_length_add_append, htext, Nat.add_right_comm k,
          Nat.add_assoc k]
      · rwa [drop_length_add_append, drop_length_add_append]
      · rw [sourceOffsetFrom_after (by have := h.1; omega), hoffset offset h]

/-- An offset lies before the next placeholder, in it, or after it. -/
theorem sourceOffsetFrom_cases (q n m l : Nat) (replacements : List Replacement) (hp : p ≤ offset) :
    offset < p + n ∧
        sourceOffsetFrom offset ((q : Int) - p) (⟨p + n, m, q + n, l⟩ :: replacements) = q +
          (offset - p) ∨
      (p + n ≤ offset ∧ offset < p + n + m ∧
        sourceOffsetFrom offset ((q : Int) - p) (⟨p + n, m, q + n, l⟩ :: replacements) = q + n) ∨
      p + n + m ≤ offset ∧ sourceOffsetFrom offset ((q : Int) - p)
        (⟨p + n, m, q + n, l⟩ :: replacements) =
        sourceOffsetFrom offset (((q + n + l : Nat) : Int) - (p + n + m : Nat)) replacements := by
  by_cases hbefore : offset < p + n
  · exact .inl ⟨hbefore, sourceOffsetFrom_before hp (by simpa using hbefore)⟩
  by_cases hin : offset < p + n + m
  · exact .inr (.inl ⟨by omega, hin, sourceOffsetFrom_covers ⟨by simpa using hbefore, hin⟩ _⟩)
  · exact .inr (.inr ⟨by omega, sourceOffsetFrom_after (by omega)⟩)

/-- An offset is mapped behind what corresponds to the position before it. -/
theorem le_sourceOffsetFrom (h : Aligned k p q text source shorts replacements) (hp : p ≤ offset) :
    q ≤ sourceOffsetFrom offset ((q : Int) - p) replacements := by
  induction h with
  | @same k p q =>
    rw [sourceOffsetFrom_before hp (by simp)]
    exact Nat.le_add_right q _
  | @replaced k p q source text rest s shorts replacements same quoted _ _ ih =>
    obtain ⟨-, h⟩ | ⟨-, -, h⟩ | ⟨hafter, h⟩ := sourceOffsetFrom_cases q same.length
      (placeholderText (k + 1) quoted).length source.length replacements hp
    · omega
    · omega
    · have := ih hafter
      omega

/-- Later offsets are mapped to later ones. -/
theorem sourceOffsetFrom_mono (h : Aligned k p q text source shorts replacements) {offset' : Nat}
    (hp : p ≤ offset) (hle : offset ≤ offset') :
    sourceOffsetFrom offset ((q : Int) - p) replacements ≤
      sourceOffsetFrom offset' ((q : Int) - p) replacements := by
  induction h with
  | same =>
    rw [sourceOffsetFrom_before hp (by simp), sourceOffsetFrom_before (hp.trans hle) (by simp)]
    omega
  | @replaced k p q source text rest s shorts replacements same quoted _ hrest ih =>
    have hbehind := sourceOffsetFrom_cases q same.length
      (placeholderText (k + 1) quoted).length source.length
      replacements (hp.trans hle)
    obtain ⟨hbefore, h⟩ | ⟨hin, -, h⟩ | ⟨hafter, h⟩ := sourceOffsetFrom_cases q same.length
      (placeholderText (k + 1) quoted).length source.length replacements hp
    · obtain ⟨-, h'⟩ | ⟨-, -, h'⟩ | ⟨hafter', h'⟩ := hbehind
      · omega
      · omega
      · have := hrest.le_sourceOffsetFrom hafter'
        omega
    · obtain ⟨hbefore, -⟩ | ⟨-, -, h'⟩ | ⟨hafter', h'⟩ := hbehind
      · omega
      · omega
      · have := hrest.le_sourceOffsetFrom hafter'
        omega
    · rw [h, sourceOffsetFrom_after (hafter.trans hle)]
      exact ih hafter

/-- The end is mapped to the end. -/
theorem sourceOffsetFrom_length (h : Aligned k p q text source shorts replacements) :
    sourceOffsetFrom (p + text.length) ((q : Int) - p) replacements = q + source.length := by
  induction h with
  | same =>
    rw [sourceOffsetFrom_before (Nat.le_add_right _ _) (by simp), Nat.add_sub_cancel_left]
  | @replaced k p q source text rest s shorts replacements same quoted _ _ ih =>
    simp only [length_append, ← Nat.add_assoc]
    rw [sourceOffsetFrom_after (Nat.le_add_right _ _), ih]

end Aligned

/-! ## Putting the source back -/

/-- A text from an offset on, with each placeholder replaced by what it stands for in a source. -/
def restoredFrom (source text : List Char) : Nat → List Replacement → List Char
  | offset, [] => text.drop offset
  | offset, r :: replacements =>
    (text.drop offset).take (r.start - offset) ++
    ((source.drop r.sourceStart).take r.sourceLength ++
      restoredFrom source text (r.start + r.length) replacements)

/-- The text with each placeholder replaced by what it stands for in a source. -/
def Extracted.restored (x : Extracted) (source : List Char) : List Char :=
  restoredFrom source x.text 0 x.replacements

private theorem Aligned.restoredFrom_eq {whole written : List Char}
    (h : Aligned k p q text source shorts replacements) (htext : written.drop p = text)
    (hsource : whole.drop q = source) :
    restoredFrom whole written p replacements = source := by
  induction h with
  | same => rw [restoredFrom, htext]
  | @replaced k p q source text rest s shorts replacements same quoted _ _ ih =>
    have htext' : written.drop (p + same.length + (placeholderText (k + 1) quoted).length) =
        text := by
      rw [← drop_drop, ← drop_drop, htext, drop_left, drop_left]
    have hstart : whole.drop (q + same.length) = source ++ rest := by
      rw [← drop_drop, hsource, drop_left]
    have hrest : whole.drop (q + same.length + source.length) = rest := by
      rw [← drop_drop, hstart, drop_left]
    rw [restoredFrom, ih htext' hrest]
    dsimp only
    rw [htext, hstart, Nat.add_sub_cancel_left, take_left, take_left]

/-! ## Lines and columns -/

namespace Position

/-- The place of an offset: one more line than line ends before it, one more column than characters
after the last of them. -/
def ofOffset (cs : List Char) (offset : Nat) : Position :=
  ⟨(cs.take offset).count '\n' + 1, ((cs.take offset).reverse.takeWhile (· != '\n')).length + 1⟩

private theorem splitOn_cons (c : Char) (cs : List Char) :
    (c :: cs).splitOn '\n' =
      if c == '\n' then [] :: cs.splitOn '\n' else (cs.splitOn '\n').modifyHead (c :: ·) := by
  rw [splitOn_eq_splitOnP, splitOn_eq_splitOnP, splitOnP_cons_eq_if_modifyHead]

/-- A line end in front does not change the column. -/
theorem takeWhile_reverse_newline (cs : List Char) :
    ('\n' :: cs).reverse.takeWhile (· != '\n') = cs.reverse.takeWhile (· != '\n') := by
  rw [reverse_cons, takeWhile_append]
  split
  · next hall => simp [( takeWhile_prefix _).eq_of_length hall]
  · rfl

/-- Nor does any character before a line end. -/
theorem takeWhile_reverse_cons (c : Char) (h : '\n' ∈ cs) :
    (c :: cs).reverse.takeWhile (· != '\n') = cs.reverse.takeWhile (· != '\n') := by
  rw [reverse_cons, takeWhile_append, if_neg]
  intro hlength
  have hall := ( takeWhile_prefix _).eq_of_length hlength
  have hnewline := mem_takeWhile_imp (hall ▸ mem_reverse.mpr h)
  exact absurd hnewline (by decide)

private theorem fromLine_splitOn (cs : List Char) (o number : Nat) (h : o ≤ cs.length) :
    offset.fromLine ⟨(cs.take o).count '\n' + number,
      ((cs.take o).reverse.takeWhile (· != '\n')).length + 1⟩ number
      (cs.splitOn '\n') = o := by
  induction cs generalizing o number with
  | nil =>
    obtain rfl : o = 0 := by simpa using h
    simp [offset.fromLine]
  | cons c cs ih =>
    cases o with
    | zero =>
      obtain ⟨line, lines, hlines⟩ := exists_cons_of_ne_nil (splitOn_ne_nil '\n' (c :: cs))
      simp [hlines, offset.fromLine]
    | succ o =>
      have ho : o ≤ cs.length := by simpa using h
      rw [take_succ_cons, splitOn_cons]
      by_cases hc : c = '\n'
      · subst hc
        have hrest := ih o (number + 1) ho
        have hline : (cs.take o).count '\n' + 1 + number =
            (cs.take o).count '\n' + (number + 1) := by
          omega
        rw [if_pos (beq_self_eq_true _), offset.fromLine, if_neg (by simp),
          takeWhile_reverse_newline, count_cons_self, hline, hrest, length_nil]
        omega
      · have hrest := ih o number ho
        obtain ⟨line, lines, hlines⟩ := exists_cons_of_ne_nil (splitOn_ne_nil '\n' cs)
        rw [if_neg (by simpa using hc), count_cons_of_ne hc, hlines, modifyHead_cons,
          offset.fromLine]
        rw [hlines, offset.fromLine] at hrest
        by_cases hnewline : '\n' ∈ cs.take o
        · have hlater : ¬(number == (cs.take o).count '\n' + number) = true := by
            have := count_pos_iff.mpr hnewline
            simp only [beq_iff_eq]
            omega
          rw [if_neg hlater] at hrest ⊢
          rw [takeWhile_reverse_cons c hnewline, length_cons]
          omega
        · have hall : (c :: cs.take o).reverse.takeWhile (· != '\n') =
              (c :: cs.take o).reverse := by
            refine takeWhile_eq_self_iff.mpr fun d hd => ?_
            obtain rfl | hd := mem_cons.mp (mem_reverse.mp hd)
            · simpa using hc
            · exact bne_iff_ne.mpr fun heq => hnewline (heq ▸ hd)
          rw [count_eq_zero_of_not_mem hnewline, if_pos (by simp), hall]
          simpa using ho

private theorem offset_ofOffset {o : Nat} (h : o ≤ cs.length) : (ofOffset cs o).offset cs = o :=
  fromLine_splitOn cs o 1 h

end Position

private theorem aligned_of_extract {sql : String} {x : Extracted} (h : extract sql = .ok x) :
    Aligned 0 0 0 x.text sql.toList x.shorts x.replacements := by
  obtain ⟨segments, hsegments, htext, hshorts, hreplacements⟩ :=
    reaches_of_scan (Nat.lt_succ_self _) h
  obtain ⟨text, hwritten, haligned⟩ := Aligned.of_segmented hsegments [] 0 0
  have hx : x.text = text := htext.trans hwritten
  rw [hx, hshorts, hreplacements]
  exact haligned

/-- The new text leads back to the source. Outside the placeholders the same characters stand in
both, and each placeholder is mapped to its short expression in the source, which is read again
there. Offsets keep their order, the end goes to the end, and with the placeholders replaced the
source is back. A line and a column lead to their offset. -/
theorem extract_sourceOffset {sql : String} {x : Extracted} (h : extract sql = .ok x) :
    x.replacements.length = x.shorts.length ∧
    (∀ offset c, x.text[offset]? = some c → (∀ r ∈ x.replacements, ¬r.Covers offset) →
      sql.toList[x.sourceOffset offset]? = some c) ∧
    (∀ (k : Nat) (r : Replacement), x.replacements[k]? = some r →
      (∃ quoted, (x.text.drop r.start).take r.length = placeholderText (k + 1) quoted) ∧
      (∀ offset, r.Covers offset → x.sourceOffset offset = r.sourceStart) ∧
      ∃ s, x.shorts[k]? = some s ∧ Short.ofFront (sql.toList.drop r.sourceStart) =
        .ok (s, r.sourceLength)) ∧
    Monotone x.sourceOffset ∧ x.sourceOffset x.text.length = sql.toList.length ∧
    x.restored sql.toList = sql.toList ∧
    ∀ offset ≤ x.text.length, (Position.ofOffset x.text offset).offset x.text = offset := by
  have haligned := aligned_of_extract h
  refine ⟨haligned.length_eq, fun offset c hc houtside => ?_, fun k r hr => ?_,
    fun offset offset' hle => ?_, ?_, ?_,
    fun offset hoffset => Position.offset_ofOffset hoffset⟩
  · obtain ⟨j, hj, hcj⟩ := haligned.getElem?_sourceOffsetFrom hc (by simpa using houtside)
    simp only [Nat.zero_add] at hj
    rwa [show x.sourceOffset offset = j from hj]
  · obtain ⟨i, j, quoted, s, hstart, hsource, htext, hshort, hread, hoffset⟩ :=
      haligned.of_getElem? hr
    simp only [Nat.zero_add] at hstart hsource htext
    subst hstart hsource
    exact ⟨⟨quoted, htext⟩, hoffset, s, hshort, hread⟩
  · exact haligned.sourceOffsetFrom_mono (Nat.zero_le _) hle
  · simpa [Extracted.sourceOffset] using haligned.sourceOffsetFrom_length
  · exact haligned.restoredFrom_eq rfl rfl

/-- Two short expressions, the second where a relation is expected and on a line of its own. -/
theorem extract_sourceOffset_join : ∃ x, extract "SELECT @a(t) FROM\n@view(v) x" = .ok x ∧
    x.text = "SELECT $1 FROM\n\"$2\" x".toList ∧ x.replacements = [⟨7, 2, 7, 5⟩, ⟨15, 4, 18, 8⟩] ∧
    x.sourceOffset 8 = 7 ∧ x.sourceOffset 17 = 18 ∧ x.sourceOffset x.text.length = 28 ∧
    x.restored "SELECT @a(t) FROM\n@view(v) x".toList = "SELECT @a(t) FROM\n@view(v) x".toList ∧
    (Position.mk 2 3).offset x.text = 17 := by
  have hx : extract "SELECT @a(t) FROM\n@view(v) x" = .ok ⟨"SELECT $1 FROM\n\"$2\" x".toList,
      [.mk "a" [.string "t"] [], .mk "view" [.string "v"] []], [⟨7, 2, 7, 5⟩, ⟨15, 4, 18, 8⟩]⟩ := by
        cbv
  obtain ⟨-, -, hcovers, -, hend, hrestored, hplaces⟩ := extract_sourceOffset hx
  exact ⟨_, hx, rfl, rfl, (hcovers 0 _ rfl).2.1 8 ⟨by decide, by decide⟩,
    (hcovers 1 _ rfl).2.1 17 ⟨by decide, by decide⟩, hend, hrestored, hplaces 17 (by decide)⟩

end AnalyticQuery.Sql
