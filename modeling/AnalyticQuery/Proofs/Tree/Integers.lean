import AnalyticQuery.Proofs.Tree.Shortening
import Mathlib

/-!
# Integer constants

An integer that a signed word holds is written exactly, however it was given. A larger one is
rounded to the nearest floating-point number first, and the shortest text of that number is written.
-/

namespace AnalyticQuery

open List Result

/-! ## Integers beyond the signed word -/

namespace Binary64

/-- A ratio is rounded by half of its denominator at most. -/
theorem roundDiv_bounds (num : Nat) {den : Nat} (hden : 0 < den) :
    2 * num ≤ 2 * (den * roundDiv num den) + den ∧
      2 * (den * roundDiv num den) ≤ 2 * num + den := by
  have hdiv := Nat.div_add_mod num den
  have hmod := Nat.mod_lt num hden
  unfold roundDiv
  dsimp only
  split
  · omega
  · split
    · rw [Nat.mul_add]
      omega
    · obtain heven | hodd := Nat.mod_two_eq_zero_or_one (num / den)
      · rw [heven, Nat.add_zero]
        omega
      · rw [hodd, Nat.mul_add]
        omega

/-- An integer beyond the signed word is rounded to a multiple of `2 ^ 11`, the nearest one. -/
theorem exists_ofRatio_word {n : Nat} (hlow : 1 <<< 63 ≤ n) (hhigh : n < 1 <<< 64) :
    ∃ x, ofRatio false n 1 = some x ∧ x.negative = false ∧ x.den = 1 ∧ 1 <<< 11 ∣ x.num ∧
      n ≤ x.num + 1 <<< 10 ∧ x.num ≤ n + 1 <<< 10 := by
  have hlog : n.log2 = 63 := (Nat.log2_eq_iff (by omega)).mpr ⟨hlow, hhigh⟩
  have hnormal : normalExponent n 1 = 11 := by
    have hlog' : Nat.log2 1 = 0 := by decide
    simp [normalExponent, hlog, hlog', scaled]
    omega
  obtain ⟨hbelow, habove⟩ := roundDiv_bounds n (show 0 < 2048 by decide)
  have hscaled : scaled n 1 11 = (n, 2048) := by
    simp [scaled]
  generalize hm : roundDiv n 2048 = m at hbelow habove
  have hzero : n ≠ 0 := by omega
  by_cases hfull : m = 9007199254740992
  · refine ⟨⟨false, 1 <<< 52, 12, by decide⟩, ?_, rfl, rfl, by decide, ?_, ?_⟩
    · simp [ofRatio, hzero, hnormal, hscaled, hm, hfull]
      decide
    · rw [show num ⟨false, 1 <<< 52, 12, by decide⟩ = 1 <<< 64 by decide]
      omega
    · rw [show num ⟨false, 1 <<< 52, 12, by decide⟩ = 1 <<< 64 by decide]
      omega
  · have hcanonical : Canonical m 11 := by
      unfold Canonical
      omega
    have hnum : num ⟨false, m, 11, hcanonical⟩ = m * 2048 := Nat.shiftLeft_eq m 11
    refine ⟨⟨false, m, 11, hcanonical⟩, ?_, rfl, rfl, Dvd.intro_left m hnum.symm, ?_⟩
    · simp [ofRatio, hzero, hnormal, hscaled, hm, hfull, hcanonical]
    · rw [hnum]
      omega

end Binary64

/-- The text of an integer constant: the integer if a signed word holds it, and otherwise the
shortest text of the number that it is rounded to. -/
structure Primitive.WritesInteger (text : String) (n : Int) : Prop where
  signed : n < (1 <<< 63 : Nat) → text = toString n
  rounded : (1 <<< 63 : Nat) ≤ n → ∃ x : Binary64, text = x.plainText ∧
    x.negative = false ∧ x.den = 1 ∧
    1 <<< 11 ∣ x.num ∧ |(x.num : Int) - n| ≤ (1 <<< 10 : Nat)

private theorem Primitive.writesInteger_ofNumber {n : Int} (h : InWord n) :
    WritesInteger (ofNumber (.integer n h)).sql n := by
  constructor
  · intro hsigned
    rw [ofNumber, Number.int64?, if_pos hsigned]
    rfl
  · intro hlarge
    have hhigh := h.2
    obtain ⟨m, rfl⟩ := Int.eq_ofNat_of_zero_le (show 0 ≤ n by omega)
    obtain ⟨x, hx, hsign, hden, hnum, hbelow, habove⟩ :=
      Binary64.exists_ofRatio_word (n := m) (by omega) (by omega)
    have hreal : ofNumber (.integer m h) = .real x := by
      rw [ofNumber, Number.int64?, if_neg (by omega)]
      simp [Number.toBinary64, decide_eq_false (show ¬(m : Int) < 0 by omega), hx]
    refine ⟨x, congrArg sql hreal, hsign, hden, hnum, ?_⟩
    rw [abs_le]
    omega

/-! ## Three ways to give an integer -/

/-- The short expression of an integer. -/
def Short.ofInteger (n : Int) (h : InWord n) : Short := .mk "primitive" [.number (.integer n h)] []

private theorem Short.text_ofInteger {n : Int} (h : InWord n) :
    (ofInteger n h).text = s!"@primitive({n})" := by
  rw [← String.toList_inj]
  simp [text, ofInteger, shortChars, itemsChars, namedChars, joinCommas, Argument.chars,
    Number.text, toString]

/-- A negative integer of an SQL text is a sign and a number. -/
def Sql.Expr.ofInteger (n : Int) (long : Bool) : Sql.Expr :=
  if n < 0 then .unary "-" (.literal (.number (toString (-n)) long)) else .literal
    (.number (toString n) long)

private theorem Sql.Expr.lower_ofInteger {n : Int} (h : InWord n) (x : Sql.Extracted)
    (long : Bool) :
    (ofInteger n long).lower x = .ok (.number (.integer n h)) := by
  have hread : Number.ofText? (toString n) = some (.integer n h) := Number.ofText?_text_integer h
  unfold ofInteger
  split
  · next hn =>
    have hsign : "-" ++ toString (-n) = toString n := by
      rw [Int.toString_eq_repr, Int.toString_eq_repr, Int.repr_eq_if, if_pos (by omega),
        Int.repr_eq_if, if_neg (by omega)]
    rw [Sql.Expr.lower, hsign, Sql.numberValue, hread]
  · rw [Sql.Expr.lower, Sql.Literal.lower, Sql.numberValue, hread]

private theorem Build.expression_integer {n : Int} (h : InWord n) (options : ParseOptions)
    (s : Scope) :
    expression options (.number (.integer n h)) s =
      .ok (.constant (.ofNumber (.integer n h)) {}) := by
  rw [expression, run_eq_value (resolvable_nil options)]
  rfl

private theorem Build.expression_shortInteger {n : Int} (h : InWord n) (options : ParseOptions)
    (s : Scope) :
    ∃ node, expression options (Argument.short (.ofInteger n h)).toQl s = .ok node ∧
      ∀ t, node.sql t = .ok (Primitive.ofNumber (.integer n h)).sql := by
  let value : Json := .object [("type", .string "primitive"), ("value", .number (.integer n h))]
  obtain ⟨constant, hconstant, rfl⟩ :=
    Builder.value_constantObject (b := runner options []) (s := s)
    (Node.congruence_eq (.ofFirst fun _ => True)) (v := .number (.integer n h)) rfl
    (show Tag.label {} ≠ some "" by simp)
  have htakes : Form.primitive.Takes [.number (.integer n h)] [] :=
    .of_positional (by simp [Form.template])
  have hform :
    (Short.mk Form.primitive.name [.number (.integer n h)] ([] ++ Tag.arguments {})).expand =
      .ok (Tag.onto {} value) := Short.expand_eq_ok htakes rfl
  have hexpand : (Short.ofInteger n h).expand = .ok (Tag.onto {} value) := hform
  have hproper : (Short.ofInteger n h).All Argument.Proper :=
    htakes.proper {} ⟨trivial, trivial⟩ trivial
  have hlegible : (Short.ofInteger n h).All Argument.Legible :=
    ⟨trivial, ⟨Number.ofText?_text_integer h, trivial⟩, trivial⟩
  rw [← run_eq_value (resolvable_nil options)] at hconstant
  have hinner : (runner options []).outside.expression (Tag.onto {} value) s = _ := hconstant
  rw [expression, run_eq_value (resolvable_nil options)]
  refine ⟨if options.keepShorts then .short (.ofInteger n h)
    (.constant (.ofNumber (.integer n h)) {})
      else .constant (.ofNumber (.integer n h)) {}, Builder.value_short hproper hlegible ?_,
        fun t => ?_⟩
  · simp only [Builder.expandShort, hexpand, hinner, ok_bind]
    rfl
  · split <;> rfl

/-- An integer is the same constant whether it is given as data, in a short expression or in SQL
text. Its SQL is the integer itself, which is read back as such, if a signed word holds it.
Otherwise the integer is rounded to the nearest floating-point number, and the SQL is the shortest
text of that number. -/
theorem Build.integer_sql {n : Int} (h : InWord n) (options : ParseOptions) (s : Scope) (t : Target)
    (x : Sql.Extracted) (long : Bool) :
    (Sql.Expr.ofInteger n long).lower x = .ok (.number (.integer n h)) ∧
    Number.ofText? (toString n) = some (.integer n h) ∧
    ∃ text, Primitive.WritesInteger text n ∧ ∀ value ∈ [Json.number (.integer n h),
        .object [("type", .string "short"), ("value", .string s!"@primitive({n})")]],
      ∃ node, expression options value s = .ok node ∧ node.sql t = .ok text := by
  refine ⟨Sql.Expr.lower_ofInteger h x long, Number.ofText?_text_integer h, _,
    Primitive.writesInteger_ofNumber h, ?_⟩
  have hshort : Json.object [("type", .string "short"), ("value", .string s!"@primitive({n})")] =
      (Argument.short (.ofInteger n h)).toQl := by
    rw [Argument.toQl, Short.text_ofInteger]
  rw [forall_mem_cons, forall_mem_singleton, hshort]
  refine ⟨⟨_, expression_integer h options s, rfl⟩, ?_⟩
  obtain ⟨node, hnode, hsql⟩ := expression_shortInteger h options s
  exact ⟨node, hnode, hsql t⟩

/-- The least integer of a signed word is written exactly. -/
theorem Build.integer_sql_least :
    ∃ h : InWord (-(1 <<< 63 : Nat)), ∃ node,
      expression {} (.number (.integer _ h)) .root = .ok node ∧
      node.sql ⟨.pg, {}⟩ = .ok (toString (-(1 <<< 63 : Nat) : Int)) := by
  have hword : InWord (-(1 <<< 63 : Nat)) := by decide
  obtain ⟨-, -, text, htext, hvalues⟩ := integer_sql hword {} .root ⟨.pg, {}⟩ ⟨[], [], []⟩ false
  obtain ⟨node, hnode, hsql⟩ := hvalues _ mem_cons_self
  exact ⟨hword, node, hnode, htext.signed (by decide) ▸ hsql⟩

/-- The least integer beyond the signed word is written with other digits. -/
theorem Primitive.sql_beyond_word :
    (ofNumber (.integer (1 <<< 63 : Nat) (by decide))).sql = "9223372036854776000" ∧
      toString (1 <<< 63 : Nat) = "9223372036854775808" := by
  decide +kernel

end AnalyticQuery
