import AnalyticQuery.Tree.Node
import Mathlib

/-!
# Bags of joined rows

A table is a bag of rows under the names of its relations; in a row each relation has a tuple, or is
filled up with nulls. Inner, left and cross joins extend the rows of their left side one by one, so
they can be taken before or after a product with other relations as long as their condition does not
depend on these. A right join keeps the rows of its right side as well, and cannot.
-/

namespace AnalyticQuery

open List

/-- A row: under the name of each relation its tuple, or none where the relation is filled up with
nulls. -/
abbrev Row (τ : Type) := List (String × Option τ)

/-- A bag of rows, each with an entry for each name. -/
@[ext]
structure Table (τ : Type) where
  names : List String
  rows : Multiset (Row τ)
  shape : ∀ row ∈ rows, row.map (·.1) = names

namespace Table

variable {τ : Type} {A B C : Table τ} {holds : Row τ → Bool}

/-- The table of one relation. -/
def single (name : String) (tuples : Multiset τ) : Table τ where
  names := [name]
  rows := tuples.map fun t => [(name, some t)]
  shape := by
    intro row hrow
    obtain ⟨t, -, rfl⟩ := Multiset.mem_map.mp hrow
    rfl

/-- The row of a table that is filled up with nulls. -/
def nulls (A : Table τ) : Row τ := A.names.map (·, none)

private theorem map_fst_nulls (A : Table τ) : A.nulls.map (·.1) = A.names := by
  simp [nulls, Function.comp_def]

/-! ## Products and joins -/

/-- Some rows, or one row in their place where there are none. -/
def orElse (rows : Multiset (Row τ)) (row : Row τ) : Multiset (Row τ) :=
  if rows.card = 0 then {row} else rows

private theorem mem_or_eq_of_mem_orElse {rows : Multiset (Row τ)} {row row' : Row τ}
    (h : row' ∈ orElse rows row) :
    row' ∈ rows ∨ row' = row := by
  unfold orElse at h
  split at h
  · exact .inr (Multiset.mem_singleton.mp h)
  · exact .inl h

private theorem map_orElse (f : Row τ → Row τ) (rows : Multiset (Row τ)) (row : Row τ) :
    (orElse rows row).map f = orElse (rows.map f) (f row) := by
  unfold orElse
  rw [Multiset.card_map]
  split
  · exact Multiset.map_singleton f row
  · rfl

/-- All rows of a table after a row. -/
def after (C : Table τ) (a : Row τ) : Multiset (Row τ) := C.rows.map (a ++ ·)

/-- The rows that a row of the left side becomes in a join that keeps no other rows. -/
def extend (type : JoinType) (holds : Row τ → Bool) (C : Table τ) (a : Row τ) : Multiset (Row τ) :=
  match type with
  | .inner => (C.after a).filter (holds · = true)
  | .left => orElse ((C.after a).filter (holds · = true)) (a ++ C.nulls)
  | _ => C.after a

private theorem map_fst_of_mem_extend {type : JoinType} {a row : Row τ}
    (h : row ∈ extend type holds C a) :
    row.map (·.1) = a.map (·.1) ++ C.names := by
  have hafter : ∀ {row}, row ∈ C.after a → row.map (·.1) = a.map (·.1) ++ C.names := by
    intro row hrow
    obtain ⟨c, hc, rfl⟩ := Multiset.mem_map.mp hrow
    rw [map_append, C.shape c hc]
  unfold extend at h
  split at h
  · exact hafter (Multiset.mem_of_mem_filter h)
  · obtain h | rfl := mem_or_eq_of_mem_orElse h
    · exact hafter (Multiset.mem_of_mem_filter h)
    · rw [map_append, map_fst_nulls]
  · exact hafter h

/-- The rows that a row of the right side becomes in a right join. -/
def precede (holds : Row τ → Bool) (A : Table τ) (c : Row τ) : Multiset (Row τ) :=
  orElse ((A.rows.map (· ++ c)).filter (holds · = true)) (A.nulls ++ c)

/-- A join of two tables. -/
def join (type : JoinType) (holds : Row τ → Bool) (A C : Table τ) : Table τ where
  names := A.names ++ C.names
  rows := if type = .right then C.rows.bind (A.precede holds) else A.rows.bind (C.extend type holds)
  shape := by
    intro row hrow
    split at hrow
    · obtain ⟨c, hc, hrow⟩ := Multiset.mem_bind.mp hrow
      obtain hrow | rfl := mem_or_eq_of_mem_orElse hrow
      · obtain ⟨a, ha, rfl⟩ := Multiset.mem_map.mp (Multiset.mem_of_mem_filter hrow)
        rw [map_append, A.shape a ha, C.shape c hc]
      · rw [map_append, map_fst_nulls, C.shape c hc]
    · obtain ⟨a, ha, hrow⟩ := Multiset.mem_bind.mp hrow
      rw [map_fst_of_mem_extend hrow, A.shape a ha]

/-- All pairs of rows of two tables. -/
def product (A B : Table τ) : Table τ := A.join .cross (fun _ => true) B

/-! ## Conditions that depend on some relations -/

/-- Whether a condition depends on the relations with some names alone. -/
def DependsOn (names : List String) (holds : Row τ → Bool) : Prop :=
  ∀ row row', row.filter (·.1 ∈ names) = row'.filter (·.1 ∈ names) → holds row = holds row'

theorem DependsOn.append {names : List String} {a : Row τ} (h : DependsOn names holds)
    (ha : (a.map (·.1)).Disjoint names) (row : Row τ) : holds (a ++ row) = holds row := by
  refine h _ _ ?_
  have hnone : a.filter (·.1 ∈ names) = [] := by
    refine filter_eq_nil_iff.mpr fun entry hentry hname => ?_
    exact ha (mem_map_of_mem hentry) (by simpa using hname)
  rw [filter_append, hnone, nil_append]

/-- A condition that reads the tuples of two relations depends on these. -/
theorem dependsOn_lookup {names : List String} {n m : String} (hn : n ∈ names) (hm : m ∈ names)
    (f : Option (Option τ) → Option (Option τ) → Bool) :
    DependsOn names fun row => f (row.lookup n) (row.lookup m) := by
  have hlookup : ∀ {name}, name ∈ names →
      ∀ row : Row τ, (row.filter (·.1 ∈ names)).lookup name = row.lookup name := by
    intro name hname row
    induction row with
    | nil => rfl
    | cons entry row ih =>
      obtain ⟨other, value⟩ := entry
      by_cases hother : other ∈ names
      · rw [filter_cons_of_pos (by simpa using hother), lookup_cons, lookup_cons, ih]
      · have hne : (name == other) = false := by
          rw [beq_eq_false_iff_ne]
          rintro rfl
          exact hother hname
        rw [filter_cons_of_neg (by simpa using hother), ih, lookup_cons, hne]
  intro row row' hrow
  dsimp only
  rw [← hlookup hn row, ← hlookup hm row, hrow, hlookup hn row', hlookup hm row']

/-- A row that stands before does not matter to how rows are extended. -/
theorem extend_append {type : JoinType} {a : Row τ} (h : ∀ row, holds (a ++ row) = holds row)
    (b : Row τ) :
    C.extend type holds (a ++ b) = (C.extend type holds b).map (a ++ ·) := by
  have hafter : C.after (a ++ b) = (C.after b).map (a ++ ·) := by
    simp only [after, Multiset.map_map, Function.comp_def, append_assoc]
  have hfound : (C.after (a ++ b)).filter (holds · = true) =
      ((C.after b).filter (holds · = true)).map (a ++ ·) := by
    rw [hafter, Multiset.filter_map]
    simp only [Function.comp_def, h]
  unfold extend
  split
  · exact hfound
  · rw [hfound, map_orElse, append_assoc]
  · exact hafter

/-- A join other than a right join can be taken before or after a product. -/
theorem product_join {type : JoinType} {names : List String} (hright : type ≠ .right)
    (h : DependsOn names holds) (hnames : A.names.Disjoint names) :
    (A.product B).join type holds C = A.product (B.join type holds C) := by
  refine Table.ext (append_assoc ..) ?_
  have hrow : ∀ a ∈ A.rows, ∀ row, holds (a ++ row) = holds row := fun a ha =>
    h.append (by rwa [A.shape a ha])
  simp only [join, product, if_neg hright, reduceCtorEq, if_false]
  change (A.rows.bind B.after).bind (C.extend type holds) =
    A.rows.bind fun a => (B.rows.bind (C.extend type holds)).map (a ++ ·)
  rw [Multiset.bind_assoc]
  refine Multiset.bind_congr fun a ha => ?_
  rw [after, Multiset.bind_map, Multiset.map_bind]
  exact Multiset.bind_congr fun b _ => extend_append (hrow a ha) b

end Table

/-! ## Chains of joins -/

/-- A table that is joined to those before it. -/
structure Link (τ : Type) where
  type : JoinType
  holds : Row τ → Bool
  table : Table τ

/-- A cross join of a table. -/
def Link.cross {τ : Type} (table : Table τ) : Link τ := ⟨.cross, fun _ => true, table⟩

/-- A table with those joined to it. -/
structure Chain (τ : Type) where
  first : Table τ
  links : List (Link τ) := []

namespace Chain

variable {τ : Type} {A B : Table τ} {links : List (Link τ)}

/-- A table with joins taken from left to right. -/
def run (A : Table τ) (links : List (Link τ)) : Table τ :=
  links.foldl (fun t l => t.join l.type l.holds l.table) A

/-- The rows of a chain. -/
def table (c : Chain τ) : Table τ := run c.first c.links

/-- The names of the relations of a chain. -/
def names (c : Chain τ) : List String := c.first.names ++ c.links.flatMap (·.table.names)

/-- The links of a chain that is joined to others, its first table by a cross join. -/
def appended (c : Chain τ) : List (Link τ) := .cross c.first :: c.links

theorem run_append (A : Table τ) (links links' : List (Link τ)) :
    run A (links ++ links') = run (run A links) links' :=
  foldl_append

theorem names_run (A : Table τ) (links : List (Link τ)) :
    (run A links).names = A.names ++ links.flatMap (·.table.names) := by
  induction links generalizing A with
  | nil => exact (append_nil _).symm
  | cons l links ih =>
    rw [run, foldl_cons, ← run, ih, flatMap_cons, ← append_assoc]
    rfl

/-- Joins can be taken before or after a product, unless one is a right join. -/
theorem run_product {names : List String} (hright : ∀ l ∈ links, l.type ≠ .right)
    (h : ∀ l ∈ links, Table.DependsOn names l.holds) (hnames : A.names.Disjoint names) :
    run (A.product B) links = A.product (run B links) := by
  induction links generalizing B with
  | nil => rfl
  | cons l links ih =>
    rw [run, foldl_cons, ← run,
      Table.product_join (hright l mem_cons_self) (h l mem_cons_self) hnames,
      ih (fun k hk => hright k (mem_cons_of_mem _ hk)) fun k hk => h k (mem_cons_of_mem _ hk)]
    rfl

/-- Chains without right joins can be appended to a table one after another: the rows are those of
the product of the table with each chain. -/
theorem run_flatMap_appended {chains : List (Chain τ)}
    (hright : ∀ c ∈ chains, ∀ l ∈ c.links, l.type ≠ .right)
    (h : ∀ c ∈ chains, ∀ l ∈ c.links, Table.DependsOn c.names l.holds)
    (hnames : (A.names ++ chains.flatMap names).Nodup) :
    run A (chains.flatMap appended) = chains.foldl (fun t c => t.product c.table) A := by
  induction chains generalizing A with
  | nil => rfl
  | cons c chains ih =>
    rw [flatMap_cons, ← append_assoc] at hnames
    have hdisjoint : A.names.Disjoint c.names := by
      have hfirst := (nodup_append.mp hnames).1
      exact fun name hA hc => (nodup_append.mp hfirst).2.2 name hA name hc rfl
    have hfirst : run A c.appended = A.product c.table :=
      run_product (hright c mem_cons_self) (h c mem_cons_self) hdisjoint
    have hnext : (A.product c.table).names = A.names ++ c.names :=
      congrArg (A.names ++ ·) (names_run c.first c.links)
    rw [flatMap_cons, run_append, hfirst, foldl_cons,
      ih (fun k hk => hright k (mem_cons_of_mem _ hk)) (fun k hk => h k (mem_cons_of_mem _ hk))
        (by rwa [hnext])]

end Chain

end AnalyticQuery
