import AnalyticQuery.Proofs.Tree.Comments

/-!
# Texts of the user in SQL

The texts of the user reach SQL inside quotes only. The SQL of a tree is closed, and it has the
skeleton of the SQL of the tree without these texts, so two trees that differ in them alone have SQL
with the same skeleton. For Trino the strings that it looks into are kept.
-/

namespace AnalyticQuery

open Quoting Result

namespace Query

/-- The texts of the user stay inside their quotes. The SQL of a query that was read ends outside
quotes. Two queries that differ in the texts of their users alone have SQL with the same skeleton;
for Trino they must not hold a text that it reads. -/
theorem skeleton_sql (engine : String) (options : SqlOptions) :
    (∀ value parse query sql, read value parse = .ok query → query.sql engine options = .ok sql →
      endsOutside sql = true) ∧
    (∀ value value' parse parse' query query' sql sql',
      read value parse = .ok query → read value' parse' = .ok query' →
      query.root.masked = query'.root.masked →
      (EngineRegistry.standard.get? engine = some .trino →
        ∀ n ∈ query.root.preorder ++ query'.root.preorder, n.readByTrino = false) →
      query.sql engine options = .ok sql → query'.sql engine options = .ok sql' →
      skeleton sql = skeleton sql') := by
  constructor
  · intro value parse query sql hread hsql
    obtain ⟨e, -, htext⟩ := sql_eq_ok hread hsql
    exact ((tells_of_read hread ⟨e, options⟩).aliased htext).closed sql List.mem_cons_self
  · intro value value' parse parse' query query' sql sql' hread hread' hmasked hreads hsql hsql'
    obtain ⟨e, he, htext⟩ := sql_eq_ok hread hsql
    obtain ⟨e', he', htext'⟩ := sql_eq_ok hread' hsql'
    obtain rfl : e = e' := Option.some.inj (he.symm.trans he')
    have hkeep : ∀ n ∈ query.root.preorder ++ query'.root.preorder, e.keeps n = false := by
      intro n hn
      cases e with
      | pg => rfl
      | trino => exact hreads he n hn
    have hmask := query.root.mask_eq_masked fun n hn => hkeep n (List.mem_append_left _ hn)
    have hmask' := query'.root.mask_eq_masked fun n hn => hkeep n (List.mem_append_right _ hn)
    obtain ⟨common, hcommon, hpasses⟩ := (tells_of_read hread ⟨e, options⟩).sqlAliased htext
    obtain ⟨common', hcommon', hpasses'⟩ := (tells_of_read hread' ⟨e, options⟩).sqlAliased htext'
    -- Both are like the SQL of the one tree that is left without the texts.
    rw [hmask, hmasked] at hcommon
    rw [hmask', hcommon] at hcommon'
    cases hcommon'
    exact (passes_singleton.mp hpasses).1.skeleton.trans
      (passes_singleton.mp hpasses').1.skeleton.symm

/-- Quotes in a string and in names change no more of the SQL than other characters do. -/
theorem skeleton_sql_quotes :
    ∃ query query',
      read (.object [("type", .string "select"), ("from", .string "v\""), ("columns", .array
        [.object [("type", .string "column"), ("column", .string "a'"), ("as", .string "x\"")],
          .string "' OR ''='"])]) {} = .ok query ∧
      read (.object [("type", .string "select"), ("from", .string "w"), ("columns", .array
        [.object [("type", .string "column"), ("column", .string "c"), ("as", .string "y")],
          .string ""])]) {} = .ok query' ∧
      query.sql "trino" {} =
        .ok "SELECT \"v\"\"\".\"a'\" AS \"x\"\"\", ''' OR ''''=''' FROM \"v\"\"\"" ∧
      query'.sql "trino" {} = .ok "SELECT \"w\".\"c\" AS \"y\", '' FROM \"w\"" ∧
      skeleton "SELECT \"v\"\"\".\"a'\" AS \"x\"\"\", ''' OR ''''=''' FROM \"v\"\"\"" =
        skeleton "SELECT \"w\".\"c\" AS \"y\", '' FROM \"w\"" := by
  let tree (view column label text : String) : Node :=
    .select .root
      { source := some (.view view false none)
        columns := [.column ⟨column, none, some view, some view⟩ { label := some label },
          .constant (.string text) {}] } {}
  have hread :
    read (.object [("type", .string "select"), ("from", .string "v\""), ("columns", .array
      [.object [("type", .string "column"), ("column", .string "a'"), ("as", .string "x\"")],
        .string "' OR ''='"])]) {} = .ok ⟨tree "v\"" "a'" "x\"" "' OR ''='", {}⟩ := by
    cbv
  have hread' : read (.object [("type", .string "select"), ("from", .string "w"), ("columns", .array
      [.object [("type", .string "column"), ("column", .string "c"), ("as", .string "y")],
        .string ""])]) {} = .ok ⟨tree "w" "c" "y" "", {}⟩ := by
    cbv
  have hsql : Query.sql ⟨tree "v\"" "a'" "x\"" "' OR ''='", {}⟩ "trino" {} =
      .ok "SELECT \"v\"\"\".\"a'\" AS \"x\"\"\", ''' OR ''''=''' FROM \"v\"\"\"" := by
    cbv
  have hsql' : Query.sql ⟨tree "w" "c" "y" "", {}⟩ "trino" {} =
      .ok "SELECT \"w\".\"c\" AS \"y\", '' FROM \"w\"" := by
    cbv
  refine ⟨_, _, hread, hread', hsql, hsql', ?_⟩
  refine (skeleton_sql "trino" {}).2 _ _ _ _ _ _ _ _ hread hread' ?_ ?_ hsql hsql'
  · cbv
  · intro _ n hn
    have hnone : ∀ view column label text, ∀ n ∈ (tree view column label text).preorder,
        n.readByTrino = false := by
      simp [tree, Node.preorder, Node.preorderAll, Node.preorderOption, Node.readByTrino]
    exact (List.mem_append.mp hn).elim (hnone _ _ _ _ n) (hnone _ _ _ _ n)

end Query

end AnalyticQuery
