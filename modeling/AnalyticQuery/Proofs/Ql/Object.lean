import AnalyticQuery.Proofs.Result
import AnalyticQuery.Ql.Object

/-!
# Fields of query objects

What is known of a field that was read.
-/

namespace AnalyticQuery.QlObject

open Result

variable {obj : QlObject} {key : String}

/-- An object is of the kind under which it was taken. -/
theorem type_of_isType {value : Json} {type : ExpressionType} (h : ofJson value = .ok obj)
    (ht : isType value type = true) : obj.type = type := by
  unfold ofJson at h
  unfold isType at ht
  split at h
  · split at h
    · next name hname =>
      simp only [hname] at ht
      rw [ExpressionType.ofName, eq_of_beq ht] at h
      cases h
      rfl
    · cases h
  · cases h

/-- A required field that was read is there. -/
theorem get?_of_required {v : Json} (h : obj.required key = .ok v) : obj.get? key = some v := by
  unfold required at h
  split at h
  · next hkey =>
    cases h
    exact hkey
  · cases h

/-- A text that was read is not empty. -/
theorem ne_empty_of_string? {s : Option String} (h : obj.string? key = .ok s) : s ≠ some "" := by
  unfold string? at h
  split at h
  · cases h
    exact nofun
  · split at h
    · cases h
    · next hs =>
      cases h
      intro he
      cases he
      exact hs rfl
  · cases h

/-- A required text that was read is not empty. -/
theorem ne_empty_of_string {s : String} (h : obj.string key = .ok s) : s ≠ "" := by
  obtain ⟨found, hfound, h⟩ := of_bind h
  have hne := ne_empty_of_string? hfound
  split at h
  · cases h
    intro he
    rw [he] at hne
    exact hne rfl
  · cases h

/-- An alias that was read is not empty. -/
theorem ne_empty_of_tag {tag : Tag} (h : obj.tag = .ok tag) : tag.label ≠ some "" := by
  obtain ⟨label, hlabel, h⟩ := of_bind h
  obtain ⟨cast, -, h⟩ := of_bind h
  cases h
  exact ne_empty_of_string? hlabel

end AnalyticQuery.QlObject
