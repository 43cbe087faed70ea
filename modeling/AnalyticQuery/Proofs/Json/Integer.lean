import AnalyticQuery.Json.Number
import Mathlib

/-!
# Integers are read back

The text of an integer that a word holds is read back as the same integer: its digits have no zero
in front, and all of them fit into the significand.
-/

namespace AnalyticQuery.Number

/-- Digits are absorbed as long as the number they write fits into a word. -/
theorem absorb_eq {ds : List Char} {m : Nat} (h : Nat.ofDigitChars 10 ds m < 1 <<< 64) :
    absorb m ds = (Nat.ofDigitChars 10 ds m, []) := by
  induction ds generalizing m with
  | nil => rfl
  | cons c ds ih =>
    have hnext : 10 * m + (c.toNat - '0'.toNat) = m * 10 + digitValue c := by
      rw [digitValue, Nat.mul_comm]
    rw [Nat.ofDigitChars_cons, hnext] at h ⊢
    have hle : m * 10 + digitValue c ≤ Nat.ofDigitChars 10 ds (m * 10 + digitValue c) := by
      rw [Nat.ofDigitChars_eq_ofDigitChars_zero]
      have hpow : 1 ≤ 10 ^ ds.length := Nat.one_le_pow _ _ (by decide)
      have hmul := Nat.mul_le_mul_right (m * 10 + digitValue c) hpow
      omega
    rw [absorb, if_pos (Nat.lt_of_le_of_lt hle h), ih h]

/-- The first digit of a number that is not zero is not zero. -/
theorem toDigits_ne_zero_cons {n : Nat} (hn : n ≠ 0) (ds : List Char) :
    Nat.toDigits 10 n ≠ '0' :: ds := by
  induction n using Nat.strongRecOn generalizing ds with
  | ind n ih =>
    intro h
    rw [Nat.toDigits_eq_if (by decide)] at h
    split at h
    · next hlt =>
      have hzero : n.digitChar = '0' := (List.cons.inj h).1
      interval_cases n <;> simp_all
    · next hge =>
      obtain ⟨c, cs, hcs⟩ := List.exists_cons_of_ne_nil
        (Nat.toDigits_ne_nil (n := n / 10) (b := 10))
      rw [hcs, List.cons_append] at h
      obtain ⟨rfl, -⟩ := List.cons.inj h
      exact ih (n / 10) (by omega) (by omega) cs hcs

/-- The digits of a number are the digits before the point of its text. -/
theorem wholePart?_toDigits (n : Nat) :
    wholePart? (Nat.toDigits 10 n) = some (Nat.toDigits 10 n, []) := by
  have hspan : spanDigits (Nat.toDigits 10 n) = (Nat.toDigits 10 n, []) := by
    have hdigits : ∀ c ∈ Nat.toDigits 10 n, c.isDigit = true :=
      fun c hc => Nat.isDigit_of_mem_toDigits (by decide) (by decide) hc
    rw [spanDigits, List.span_eq_takeWhile_dropWhile, List.takeWhile_eq_self_iff.mpr hdigits,
      List.dropWhile_eq_nil_iff.mpr hdigits]
  unfold wholePart?
  rw [hspan]
  split
  · next hnil => exact absurd (Prod.mk.inj hnil).1 Nat.toDigits_ne_nil
  · next c cs rest hzero =>
    have hzero := (Prod.mk.inj hzero).1
    by_cases hn : n = 0
    · subst hn
      simp at hzero
    · exact absurd hzero (toDigits_ne_zero_cons hn _)
  · next hpair =>
    cases hpair
    rfl

/-- The digits of a number without a sign are its parts. -/
theorem parts?_toDigits (n : Nat) :
    parts? (Nat.toDigits 10 n) = some (⟨false, Nat.toDigits 10 n, none, none⟩, []) := by
  have hwhole := wholePart?_toDigits n
  obtain ⟨c, cs, hcs⟩ := List.exists_cons_of_ne_nil (Nat.toDigits_ne_nil (n := n) (b := 10))
  have hc : c ≠ '-' := by
    rintro rfl
    have hdigit : '-'.isDigit = true :=
      Nat.isDigit_of_mem_toDigits (b := 10) (n := n) (by decide) (by decide) (by simp [hcs])
    exact absurd hdigit (by decide)
  rw [hcs] at hwhole ⊢
  simp [parts?, hc, hwhole, fractionPart?, powerPart?]

/-- The digits of a number after a minus sign are its parts. -/
theorem parts?_neg_toDigits (n : Nat) :
    parts? ('-' :: Nat.toDigits 10 n) = some (⟨true, Nat.toDigits 10 n, none, none⟩, []) := by
  simp [parts?, wholePart?_toDigits, fractionPart?, powerPart?]

/-- An integer is read back from its text. -/
theorem ofText?_text_integer {i : Int} (h : InWord i) :
    ofText? (integer i h).text = some (.integer i h) := by
  have habsorb : ∀ {n : Nat}, n < 1 <<< 64 → absorb 0 (Nat.toDigits 10 n) = (n, []) := by
    intro n hn
    have hvalue : Nat.ofDigitChars 10 (Nat.toDigits 10 n) 0 = n := Nat.ofDigitChars_ten_toDigits
    rw [absorb_eq (by rwa [hvalue]), hvalue]
  have hbounds := h
  unfold InWord at hbounds
  have hread : read? (toString i).toList = some (.integer i h, []) := by
    rw [Int.toString_eq_repr, Int.repr_eq_if]
    split
    · next hi =>
      have hword : i.toNat < 1 <<< 64 := by omega
      have hself : (i.toNat : Int) = i := Int.toNat_of_nonneg hi
      simp [read?, Nat.toList_repr, parts?_toDigits, ofParts?, habsorb hword, hself, h]
    · next hi =>
      have hword : (-i).toNat < 1 <<< 64 := by omega
      have hself : -max (-i) 0 = i := by omega
      have hzero : (-i).toNat ≠ 0 := by omega
      simp [read?, Nat.toList_repr, parts?_neg_toDigits, ofParts?, habsorb hword, hself, h, hzero]
  rw [ofText?, text, hread]

end AnalyticQuery.Number
