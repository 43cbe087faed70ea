import AnalyticQuery.Proofs.Engine.Rendering

/-!
# Trees without the texts of their users

A tree holds texts of its user: strings, the names of columns and views, qualifiers and aliases.
Without them the tree keeps its shape, its words and its numbers. Trino looks into two kinds of
strings, the field of `date_part` and intervals, so these may be kept.
-/

namespace AnalyticQuery

open List

/-- A tag without the text of its alias. -/
def Tag.masked (tag : Tag) : Tag := { tag with label := tag.label.map fun _ => "" }

/-- A column without its names, but for the one that stands for all columns. -/
def Column.masked (c : Column) : Column where
  name := if c.isWildcard then "*" else ""
  view := none
  qualifier := c.qualifier.map fun _ => ""
  origin := none

namespace Node

/-- Whether Trino reads a text of the user: the field in `date_part`, and what is cast to an
interval. -/
def readByTrino : Node → Bool
  | call f _ _ _ => f.name == "date_part"
  | constant (.string _) tag => tag.cast == some .interval
  | _ => false

mutual

/-- A tree without the texts of its user, except in the calls and constants that are kept. -/
def mask (keep : Node → Bool) : Node → Node
  | select role ⟨withs, source, joins, distinct, columns, filter, groupBy, having, orderBy, limit,
      offset⟩ tag =>
    select role ⟨maskAll keep withs, maskOption keep source, maskAll keep joins, distinct,
      maskAll keep columns, maskOption keep filter, maskAll keep groupBy, maskOption keep having,
      maskAll keep orderBy, limit, offset⟩ tag.masked
  | compound role op all left right tag =>
    compound role op all (mask keep left) (mask keep right) tag.masked
  | join type relation on => join type (mask keep relation) (maskOption keep on)
  | view _ _ label => view "" false (label.map fun _ => "")
  | column c tag => column c.masked tag.masked
  | parameter name value tag => parameter name (maskOption keep value) tag.masked
  | call f args distinct tag =>
    if keep (call f args distinct tag) then call f args distinct tag.masked
    else call f (maskAll keep args) distinct tag.masked
  | geometry type args tag => geometry type (maskAll keep args) tag.masked
  | operation op operands qualifier tag => operation op (maskAll keep operands) qualifier tag.masked
  | case branches otherwise tag =>
    case (maskBranches keep branches) (maskOption keep otherwise) tag.masked
  | array items tag => array (maskAll keep items) tag.masked
  | list items => list (maskAll keep items)
  | sort value direction nulls => sort (mask keep value) direction nulls
  | constant value tag =>
    if keep (constant value tag) then constant value tag.masked else constant
      value.masked tag.masked
  | short _ inner => short (.mk "" [] []) (mask keep inner)

/-- The expressions of a list without the texts of their user. -/
def maskAll (keep : Node → Bool) : List Node → List Node
  | [] => []
  | n :: ns => mask keep n :: maskAll keep ns

/-- An expression that may be there without the texts of its user. -/
def maskOption (keep : Node → Bool) : Option Node → Option Node
  | none => none
  | some n => some (mask keep n)

/-- The branches of a case without the texts of their user. -/
def maskBranches (keep : Node → Bool) : List (Node × Node) → List (Node × Node)
  | [] => []
  | (c, r) :: rest => (mask keep c, mask keep r) :: maskBranches keep rest

end

/-- A tree without the texts of its user. -/
def masked (n : Node) : Node := n.mask fun _ => false

variable {keep : Node → Bool} {n : Node}

/-! ## Where nothing is kept -/

mutual

/-- What is to be kept and is not there does not matter. -/
theorem mask_eq_masked : ∀ n : Node, (∀ m ∈ n.preorder, keep m = false) → n.mask keep = n.masked
  | select role ⟨withs, source, joins, distinct, columns, filter, groupBy, having, orderBy, limit,
      offset⟩ tag, h => by
    simp only [preorder, mem_cons, mem_append] at h
    simp only [masked, mask]
    rw [maskAll_eq_masked withs fun m hm => h m (by simp [hm]),
      maskOption_eq_masked source fun m hm => h m (by simp [hm]),
      maskAll_eq_masked joins fun m hm => h m (by simp [hm]),
      maskAll_eq_masked columns fun m hm => h m (by simp [hm]),
      maskOption_eq_masked filter fun m hm => h m (by simp [hm]),
      maskAll_eq_masked groupBy fun m hm => h m (by simp [hm]),
      maskOption_eq_masked having fun m hm => h m (by simp [hm]),
      maskAll_eq_masked orderBy fun m hm => h m (by simp [hm])]
  | compound role op all left right tag, h => by
    simp only [preorder, mem_cons, mem_append] at h
    have hleft := mask_eq_masked left fun m hm => h m (by simp [hm])
    have hright := mask_eq_masked right fun m hm => h m (by simp [hm])
    simp only [masked] at hleft hright
    simp only [masked, mask, hleft, hright]
  | join type relation on, h => by
    simp only [preorder, mem_cons, mem_append] at h
    have hrelation := mask_eq_masked relation fun m hm => h m (by simp [hm])
    simp only [masked] at hrelation
    simp only [masked, mask, hrelation, maskOption_eq_masked on fun m hm => h m (by simp [hm])]
  | view _ _ _, _ => rfl
  | column _ _, _ => rfl
  | parameter _ value _, h => by
    simp only [preorder, mem_cons] at h
    simp only [masked, mask, maskOption_eq_masked value fun m hm => h m (by simp [hm])]
  | call f args distinct tag, h => by
    simp only [preorder, mem_cons] at h
    simp only [masked, mask, h _ (.inl rfl), maskAll_eq_masked args fun m hm => h m (by simp [hm])]
  | geometry _ args _, h => by
    simp only [preorder, mem_cons] at h
    simp only [masked, mask, maskAll_eq_masked args fun m hm => h m (by simp [hm])]
  | operation _ operands _ _, h => by
    simp only [preorder, mem_cons] at h
    simp only [masked, mask, maskAll_eq_masked operands fun m hm => h m (by simp [hm])]
  | case branches otherwise tag, h => by
    simp only [preorder, mem_cons, mem_append] at h
    simp only [masked, mask, maskBranches_eq_masked branches fun m hm => h m (by simp [hm]),
      maskOption_eq_masked otherwise fun m hm => h m (by simp [hm])]
  | array items _, h => by
    simp only [preorder, mem_cons] at h
    simp only [masked, mask, maskAll_eq_masked items fun m hm => h m (by simp [hm])]
  | list items, h => by
    simp only [preorder, mem_cons] at h
    simp only [masked, mask, maskAll_eq_masked items fun m hm => h m (by simp [hm])]
  | sort value _ _, h => by
    simp only [preorder, mem_cons] at h
    have hvalue := mask_eq_masked value fun m hm => h m (by simp [hm])
    simp only [masked] at hvalue
    simp only [masked, mask, hvalue]
  | constant _ _, h => by
    simp only [preorder, mem_cons] at h
    simp only [masked, mask, h _ (.inl rfl)]
  | short _ inner, h => by
    simp only [preorder, mem_cons] at h
    have hinner := mask_eq_masked inner fun m hm => h m (by simp [hm])
    simp only [masked] at hinner
    simp only [masked, mask, hinner]

private theorem maskAll_eq_masked : ∀ ns : List Node, (∀ m ∈ preorderAll ns, keep m = false) →
    maskAll keep ns = maskAll (fun _ => false) ns
  | [], _ => rfl
  | n :: ns, h => by
    simp only [preorderAll, mem_append] at h
    rw [maskAll, maskAll, mask_eq_masked n fun m hm => h m (.inl hm),
      maskAll_eq_masked ns fun m hm => h m (.inr hm), masked]

private theorem maskOption_eq_masked : ∀ n : Option Node, (∀ m ∈ preorderOption n, keep m = false) →
    maskOption keep n = maskOption (fun _ => false) n
  | none, _ => rfl
  | some n, h => by rw [maskOption, maskOption, mask_eq_masked n h, masked]

private theorem maskBranches_eq_masked :
    ∀ bs : List (Node × Node), (∀ m ∈ preorderBranches bs, keep m = false) →
    maskBranches keep bs = maskBranches (fun _ => false) bs
  | [], _ => rfl
  | (c, r) :: rest, h => by
    simp only [preorderBranches, mem_append] at h
    rw [maskBranches, maskBranches, mask_eq_masked c fun m hm => h m (.inl (.inl hm)),
      mask_eq_masked r fun m hm => h m (.inl (.inr hm)),
      maskBranches_eq_masked rest fun m hm => h m (.inr hm), masked, masked]

end

/-! ## Lists of parts -/

/-- The SQL of a common table under its name. -/
def cteSql (t : Target) (n : Node) : Result String :=
  match n.alias? with
  | none => throw (.invalidExpression "a cte must be aliased")
  | some name => do
    let sql ← n.sql t
    return s!"{quoteIdent name} AS ({sql})"

/-- The SQL of a branch of a case, without the blank before it. -/
def branchSql (t : Target) (b : Node × Node) : Result String := do
  let condition ← b.1.sql t
  let result ← b.2.sql t
  return s!"WHEN {condition} THEN {result}"

variable (t : Target)

/-- A kept short expression has the SQL of its expansion. -/
theorem sql_short (source : Short) (inner : Node) : sql t (short source inner) = sql t inner := by
  rw [sql]

theorem sqlAll_eq (ns : List Node) : sqlAll t ns = ns.mapM (sql t) := by
  induction ns with
  | nil => rfl
  | cons n ns ih => rw [sqlAll, ih, mapM_cons]

theorem sqlAliasedAll_eq (ns : List Node) : sqlAliasedAll t ns = ns.mapM (sqlAliased t) := by
  induction ns with
  | nil => rfl
  | cons n ns ih =>
    rw [sqlAliasedAll, ih, mapM_cons, sqlAliased]
    cases n.sql t <;> rfl

theorem sqlCtes_eq (ns : List Node) : sqlCtes t ns = ns.mapM (cteSql t) := by
  induction ns with
  | nil => rfl
  | cons n ns ih =>
    rw [sqlCtes, ih, mapM_cons, cteSql]
    cases n.alias? with
    | none => rfl
    | some name => cases n.sql t <;> rfl

/-- The branches of a case are rendered one by one, with a blank before each. -/
theorem sqlBranches_eq (bs : List (Node × Node)) :
    sqlBranches t bs = bs.mapM (branchSql t) >>= fun xs => .ok (xs.map (" " ++ ·)) := by
  have hblank : ∀ c r : String, s!" WHEN {c} THEN {r}" = " " ++ s!"WHEN {c} THEN {r}" := by
    simp [← String.toList_inj, toString]
  induction bs with
  | nil => rfl
  | cons b bs ih =>
    obtain ⟨c, r⟩ := b
    rw [sqlBranches, ih, mapM_cons, branchSql]
    simp only [bind_assoc, hblank, pure_bind]
    rfl

theorem maskAll_eq (ns : List Node) : maskAll keep ns = ns.map (mask keep) := by
  induction ns with
  | nil => rfl
  | cons n ns ih => rw [maskAll, ih, map_cons]

theorem maskBranches_eq (bs : List (Node × Node)) :
    maskBranches keep bs = bs.map fun b => (b.1.mask keep, b.2.mask keep) := by
  induction bs with
  | nil => rfl
  | cons b bs ih => rw [maskBranches, ih, map_cons]

/-- An alias stays where it is. -/
theorem isSome_alias?_mask (keep : Node → Bool) :
    ∀ n : Node, n.alias?.isSome = (n.mask keep).alias?.isSome
  | select .. | compound .. | view .. | column .. | parameter .. | geometry .. | operation
      .. | case ..
  | array .. => by simp only [mask, alias?, tag, Tag.masked, Option.isSome_map]
  | join .. | list .. | sort .. => rfl
  | call .. | constant .. => by
    simp only [mask]
    split <;> simp only [alias?, tag, Tag.masked, Option.isSome_map]
  | short _ inner => isSome_alias?_mask keep inner

end Node

end AnalyticQuery
