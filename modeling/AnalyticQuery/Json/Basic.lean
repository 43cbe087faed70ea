import AnalyticQuery.Json.Number

/-!
# Data values

The values that queries are written in. An object is a list of fields in the order in which their
keys were first written; a key stands in it once.
-/

namespace AnalyticQuery

/-- A data value. -/
inductive Json where
  | null
  | bool (value : Bool)
  | number (value : Number)
  | string (value : String)
  | array (items : List Json)
  | object (fields : List (String × Json))

instance : Inhabited Json := ⟨.null⟩

/-- The fields of an object, in order. -/
abbrev Fields := List (String × Json)

namespace Fields

/-- The value of a key. -/
def get? (fields : Fields) (key : String) : Option Json :=
  (fields.find? fun field => field.1 == key).map (·.2)

/-- Whether a key is present. -/
def contains (fields : Fields) (key : String) : Bool :=
  fields.any fun field => field.1 == key

/-- Sets the value of a key: in its place where it is present, otherwise at the end. -/
def insert : Fields → String → Json → Fields
  | [], key, value => [(key, value)]
  | field :: fields, key, value =>
    if field.1 == key then (key, value) :: fields else field :: insert fields key value

/-- The keys of the fields after an insertion: a new key comes last. -/
theorem map_fst_insert (fields : Fields) (key : String) (value : Json) :
    (fields.insert key value).map (·.1) =
      if key ∈ fields.map (·.1) then fields.map (·.1) else fields.map (·.1) ++ [key] := by
  induction fields with
  | nil => simp [insert]
  | cons field fields ih =>
    by_cases h : field.1 = key
    · simp [insert, h]
    · have h' : ¬key = field.1 := fun e => h e.symm
      simp only [insert, beq_iff_eq, h, if_false, List.map_cons, ih, List.mem_cons, h', false_or]
      split <;> simp

end Fields

namespace Json

/-- An integer as a value. -/
def int (n : Int) : Json := .number (.ofInt n)

/-- A natural number as a value. -/
def nat (n : Nat) : Json := .number (.ofNat n)

/-- Whether a value is null. -/
def isNull : Json → Bool
  | .null => true
  | _ => false

/-- The text of a value that is a text. -/
def string? : Json → Option String
  | .string s => some s
  | _ => none

mutual

/-- Equality of values: fields may stand in any order, and the two zeros are equal. -/
def sameValue : Json → Json → Bool
  | .null, .null => true
  | .bool a, .bool b => a == b
  | .number m, .number n => m.sameValue n
  | .string s, .string t => s == t
  | .array xs, .array ys => sameItems xs ys
  | .object fs, .object gs => fs.length == gs.length && sameFields fs gs
  | _, _ => false

/-- Equality of two lists of values, item by item. -/
def sameItems : List Json → List Json → Bool
  | [], [] => true
  | x :: xs, y :: ys => sameValue x y && sameItems xs ys
  | _, _ => false

/-- Whether each field's key has an equal value among other fields. -/
def sameFields : List (String × Json) → List (String × Json) → Bool
  | [], _ => true
  | (key, value) :: fs, gs =>
    (match Fields.get? gs key with
      | some other => sameValue value other
      | none => false) && sameFields fs gs

end

instance : BEq Json := ⟨sameValue⟩

mutual

/-- The number of nested values on the longest path down, the value itself counted. -/
def depth : Json → Nat
  | .array items => depthItems items + 1
  | .object fields => depthFields fields + 1
  | _ => 1

/-- The greatest depth of a list of values. -/
def depthItems : List Json → Nat
  | [] => 0
  | item :: items => max (depth item) (depthItems items)

/-- The greatest depth of the values of fields. -/
def depthFields : List (String × Json) → Nat
  | [] => 0
  | (_, value) :: fields => max (depth value) (depthFields fields)

end

mutual

/-- The number of characters in the texts of a value, each value counted once more. -/
def textSize : Json → Nat
  | .string s => s.length + 1
  | .array items => textSizeItems items + 1
  | .object fields => textSizeFields fields + 1
  | _ => 1

/-- The number of characters in the texts of a list of values. -/
def textSizeItems : List Json → Nat
  | [] => 0
  | item :: items => textSize item + textSizeItems items

/-- The number of characters in the texts of the values of fields. -/
def textSizeFields : List (String × Json) → Nat
  | [] => 0
  | (_, value) :: fields => textSize value + textSizeFields fields

end

end Json

end AnalyticQuery
