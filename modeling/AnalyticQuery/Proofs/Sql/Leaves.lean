import AnalyticQuery.Proofs.Sql.Select

/-!
# Leaves of values

The short expressions and columns of a query value with the paths that lead to them. An alias or a
cast on a value does not move them. The leaves of the value of an SQL construct are those of its
parts, each below the key and the index that the part has.
-/

namespace AnalyticQuery

open Json

/-- A step of a path into a value. -/
inductive Step where
  | key (name : String)
  | item (index : Nat)
  deriving DecidableEq, Repr

/-- A path into a value. -/
abbrev Path := List Step

/-- What stands at the end of a path: a short expression or a column, maybe with its view. -/
inductive Leaf where
  | short (text : String)
  | column (name : String) (view : Option String)
  deriving DecidableEq, Repr

/-- Moves things below a path. -/
def below {α : Type} (path : Path) (xs : List (Path × α)) : List (Path × α) :=
  xs.map fun p => (path ++ p.1, p.2)

section Below

variable {α : Type} (path path' : Path) (xs ys : List (Path × α))

@[simp] theorem below_nil : below path ([] : List (Path × α)) = [] := rfl

@[simp] theorem below_cons (p : Path × α) :
    below path (p :: xs) = (path ++ p.1, p.2) :: below path xs := rfl

@[simp] theorem below_append :
    below path (xs ++ ys) = below path xs ++ below path ys := List.map_append

@[simp] theorem below_root : below [] xs = xs := by
  induction xs with
  | nil => rfl
  | cons p xs ih => rw [below_cons, ih]; rfl

@[simp] theorem below_below : below path (below path' xs) = below (path ++ path') xs := by
  simp [below]

end Below

/-- Leaves below a key. An alias or a cast is no expression, and the key of a single value or of the
values of a list adds no step. -/
def underKey (key : String) (leaves : List (Path × Leaf)) : List (Path × Leaf) :=
  if key = "as" ∨ key = "cast" then []
  else if key = "value" ∨ key = "values" then leaves
  else below [.key key] leaves

@[simp] theorem underKey_nil (key : String) : underKey key [] = [] := by
  simp [underKey]

namespace Json

/-- The name of the kind of an object. -/
def kind? (F : Fields) : Option String := (F.get? "type").bind string?

/-- The leaf that an object is. -/
def ownLeaf? (F : Fields) : Option Leaf :=
  if kind? F = some "short" then ((F.get? "value").bind string?).map .short
  else if kind? F = some "column" then
    ((F.get? "column").bind string?).map (.column · ((F.get? "view").bind string?))
  else none

/-- The index of the first item of a list inside an object: the type of a geometry counts as its
first argument. -/
def firstItem (F : Fields) : Nat := if kind? F = some "geometry" then 1 else 0

mutual

/-- The leaves of a value whose items, if it is a list, are counted from a number on. -/
def leavesFrom (start : Nat) : Json → List (Path × Leaf)
  | .object F => (ownLeaf? F).toList.map (([], ·)) ++ leavesFields (firstItem F) F
  | .array items => leavesItems start items
  | _ => []

/-- The leaves of items that are counted from a number on. -/
def leavesItems (start : Nat) : List Json → List (Path × Leaf)
  | [] => []
  | item :: items => below [.item start] (leavesFrom 0 item) ++ leavesItems (start + 1) items

/-- The leaves of the values of fields. -/
def leavesFields (start : Nat) : List (String × Json) → List (Path × Leaf)
  | [] => []
  | (key, value) :: F => underKey key (leavesFrom start value) ++ leavesFields start F

end

/-- The leaves of a value. -/
def leaves (v : Json) : List (Path × Leaf) := leavesFrom 0 v

attribute [simp] leavesFrom leavesFields

section

variable (start : Nat)

@[simp] theorem leavesItems_nil : leavesItems start [] = [] := by
  rw [leavesItems]

@[simp] theorem leavesItems_cons (v : Json) (vs : List Json) : leavesItems start (v :: vs) =
    below [.item start] v.leaves ++ leavesItems (start + 1) vs := by
  rw [leavesItems, leaves]

@[simp] theorem leavesFields_append (F G : Fields) :
    leavesFields start (F ++ G) = leavesFields start F ++ leavesFields start G := by
  induction F with
  | nil => simp
  | cons field F ih =>
    obtain ⟨key, v⟩ := field
    rw [List.cons_append, leavesFields, ih, leavesFields, List.append_assoc]

end

section Scalars

@[simp] theorem leaves_array (items : List Json) : (array items).leaves = leavesItems 0 items := by
  rw [leaves, leavesFrom]

@[simp] theorem leaves_string (s : String) : (string s).leaves = [] := by
  simp [leaves]

@[simp] theorem leaves_bool (b : Bool) : (bool b).leaves = [] := by
  simp [leaves]

@[simp] theorem leaves_number (n : Number) : (number n).leaves = [] := by
  simp [leaves]

@[simp] theorem leaves_null : null.leaves = [] := by
  simp [leaves]

end Scalars

/-! ## Values with an alias or a cast -/

/-- An alias or a cast adds no leaf and takes none away. -/
theorem leaves_insert {F : Fields} {key : String} (hkey : key = "as" ∨ key = "cast") (w : Json) :
    (object (F.insert key w)).leaves = (object F).leaves := by
  have hget : ∀ k, k ≠ "as" → k ≠ "cast" → Fields.get? (F.insert key w) k = Fields.get? F k := by
    intro k halias hcast
    rw [Fields.get?_insert, if_neg]
    rintro rfl
    exact hkey.elim halias hcast
  have hkind : kind? (F.insert key w) = kind? F := by
    rw [kind?, kind?, hget _ (by decide) (by decide)]
  have hown : ownLeaf? (F.insert key w) = ownLeaf? F := by
    rw [ownLeaf?, ownLeaf?, hkind, hget "value" (by decide) (by decide),
      hget "column" (by decide) (by decide), hget "view" (by decide) (by decide)]
  have hfirst : firstItem (F.insert key w) = firstItem F := by
    rw [firstItem, firstItem, hkind]
  have hnone : ∀ leaves, underKey key leaves = [] := fun leaves => if_pos hkey
  have hfields : ∀ start, leavesFields start (F.insert key w) = leavesFields start F := by
    intro start
    clear hget hkind hown hfirst
    induction F with
    | nil => simp [Fields.insert, hnone]
    | cons field F ih =>
      obtain ⟨k, v⟩ := field
      by_cases hk : k = key
      · subst hk
        simp [Fields.insert, hnone]
      · have hbeq : (k == key) = false := by simpa using hk
        simp only [Fields.insert, hbeq, Bool.false_eq_true, if_false, leavesFields, ih]
  rw [leaves, leaves, leavesFrom, leavesFrom, hown, hfirst, hfields]

-- The leaves of an object are computed from its fields.
attribute [simp] ownLeaf? kind? firstItem underKey

private theorem leaves_taggable (v : Json) : (object v.taggable).leaves = v.leaves := by
  cases v with
  | object F => rfl
  | _ => simp [leaves, taggable, string?]

private theorem leaves_withCast (F : Fields) (cast : String) :
    (object (withCast F cast)).leaves = (object F).leaves := by
  unfold withCast
  split
  · split
    · exact leaves_insert (.inr rfl) _
    · simp [leaves, string?]
  · exact leaves_insert (.inr rfl) _

/-- A value has the same leaves under an alias and a cast. -/
@[simp] theorem leaves_tagged (v : Json) (label cast : Option String) :
    (v.tagged label cast).leaves = v.leaves := by
  unfold tagged
  split
  · rfl
  · cases label <;> cases cast <;>
      simp only [leaves_insert (.inl rfl), leaves_withCast, leaves_taggable]

end Json

namespace Sql

open Json

/-! ## Values of constructs -/

section Values

variable (vs : List Json) (name : String)

/-- The leaves of an operation are those of its operands. -/
@[simp] theorem leaves_operation :
    (operation name vs).leaves = below [.key "operands"] (leavesItems 0 vs) := by
  simp [leaves, operation, string?]

theorem leaves_junction {op name : String}
    (h : (op = "AND" ∧ name = "and") ∨ (op = "OR" ∧ name = "or")) :
    (junction name vs).leaves = below [.key "operands"] (leavesItems 0 vs) := by
  obtain ⟨-, rfl⟩ | ⟨-, rfl⟩ := h <;>
    simp [leaves, junction, string?]

/-- The leaves of a function are those of its arguments. -/
@[simp] theorem leaves_application :
    (application name vs).leaves = below [.key "args"] (leavesItems 0 vs) := by
  simp [leaves, application, string?]

@[simp] theorem leaves_listOf : (listOf vs).leaves = leavesItems 0 vs := by
  simp [leaves, listOf, string?]

/-- A column is a leaf. -/
@[simp] theorem leaves_columnValue (view : Option String) :
    (columnValue name view).leaves = [([], .column name view)] := by
  cases view <;> simp [leaves, columnValue, string?]

/-- The arguments of a call are counted with the one that names a geometry type. -/
@[simp] theorem leaves_callValue (distinct : Bool) :
    (callValue name vs distinct).leaves = below [.key "args"] (leavesItems 0 vs) := by
  unfold callValue
  split
  · simp [leaves, string?]
  · cases distinct <;> simp [leaves, string?]

/-- A short expression is a leaf. -/
@[simp] theorem leaves_shortValue (s : Short) : (shortValue s).leaves = [([], .short s.text)] := by
  simp [leaves, shortValue, string?]

end Values

@[simp] theorem leavesFields_field? (start : Nat) (key : String) (v : Option Json) :
    leavesFields start (field? key v) = underKey key ((v.map (leavesFrom start)).getD []) := by
  cases v <;> simp [field?]

@[simp] theorem leavesFields_listField? (start : Nat) (key : String) (vs : List Json) :
    leavesFields start (listField? key vs) = underKey key (leavesItems start vs) := by
  cases vs <;> simp [listField?]

/-- The leaves of a join are those of its relation and its condition. -/
theorem leaves_joinValue (type : String) (view : Json) (on : Option Json) :
    (joinValue type view on).leaves =
      below [.key "view"] view.leaves ++ below [.key "on"] ((on.map leaves).getD []) := by
  cases on <;> simp [leaves, joinValue, string?, field?]

/-- A sort key has the leaves of its value. -/
theorem leaves_sortValue (v : Json) (ascending nullsFirst : Option Bool) :
    (sortValue v ascending nullsFirst).leaves = v.leaves := by
  cases ascending <;> cases nullsFirst <;>
    simp [leaves, sortValue, string?, field?]

/-- The leaves of an optional value, whose items are counted from zero. -/
theorem leavesFrom_getD (o : Option Json) :
    (o.map (leavesFrom 0)).getD [] = (o.map leaves).getD [] := rfl

/-- The leaves of a select are those of its clauses. -/
theorem leaves_bodyFields (k : Clauses Json) :
    (object (bodyFields k)).leaves =
      below [.key "from"] ((k.source.map leaves).getD []) ++ below [.key "joins"]
        (leavesItems 0 k.joins)
        ++ below [.key "columns"] (leavesItems 0 k.columns)
        ++ below [.key "where"] ((k.filter.map leaves).getD [])
        ++ below [.key "groupBy"] (leavesItems 0 k.groupBy)
        ++ below [.key "having"] ((k.having.map leaves).getD []) := by
  have hown : ownLeaf? (bodyFields k) = none := by
    simp [bodyFields, string?]
  have hfirst : firstItem (bodyFields k) = 0 := by
    simp [bodyFields, string?]
  have hmarks : leavesFields 0 (if k.distinct then [("distinct", .bool true)] else []) = [] := by
    cases k.distinct <;> simp
  rw [leaves, leavesFrom, hown, hfirst]
  simp [bodyFields, hmarks, leavesFrom_getD]

/-- What is added to a select adds its leaves. -/
theorem leaves_extended {v : Json} (h : IsSelect v) (more : Fields) :
    (extended v more).leaves = v.leaves ++ leavesFields 0 more := by
  obtain ⟨F, rfl, htype⟩ := h
  have hown : ∀ G : Fields, ownLeaf? (F ++ G) = none := by
    intro G
    simp [htype, string?]
  have hfirst : ∀ G : Fields, firstItem (F ++ G) = 0 := by
    intro G
    simp [htype, string?]
  have hnone := hown []
  have hzero := hfirst []
  rw [List.append_nil] at hnone hzero
  rw [extended, leaves, leaves, leavesFrom, leavesFrom, hown, hfirst, hnone, hzero]
  simp

end Sql

end AnalyticQuery
