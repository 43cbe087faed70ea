import AnalyticQuery.Proofs.Engine.Failures
import AnalyticQuery.Proofs.Tree.Masking
import AnalyticQuery.Proofs.Tree.Selecting

/-!
# Trees that an engine cannot render

A built tree is rendered unless one of its nodes cannot be: a value of the context that is not
given, and for Trino a field that it cannot extract and a text that is no interval. Every other
check that rendering makes was made when the tree was built.
-/

namespace AnalyticQuery

open Node Relation Result

namespace FunctionRegistry

/-- What the rendering of a function takes for granted of its specification. -/
structure Renderable (f : FunctionSpec) : Prop where
  context : f.category = .context ↔ f.name = "whitelabel_id" ∨ f.name = "customer_id"
  contextArity : f.category = .context → f.arity = .exact 0
  contextCast : f.category = .context → f.defaultCast = none
  datePartArity : f.name = "date_part" → f.arity = .exact 2

-- The functions of the registry are finitely many, so each is looked at once.
private theorem renderable_specs : ∀ f ∈ specs,
    (f.category = .context ↔ f.name = "whitelabel_id" ∨ f.name = "customer_id") ∧
      (f.category = .context → f.arity = .exact 0) ∧
      (f.category = .context → f.defaultCast = none) ∧
      (f.name = "date_part" → f.arity = .exact 2) := by
  decide +kernel

theorem renderable_of_get? {name : String} {f : FunctionSpec} (h : standard.get? name = some f) :
    Renderable f := by
  obtain ⟨hcontext, hnone, hcast, htwo⟩ := renderable_specs f (mem_specs_of_get? h).1
  exact ⟨hcontext, hnone, hcast, htwo⟩

end FunctionRegistry

namespace Node

/-- The expressions directly inside an expression that are rendered with it: all of them, but the
value of a parameter only if references to parameters are not kept. -/
def renderedParts (options : SqlOptions) : Node → List Node
  | parameter _ value _ => if options.keepParamRefs then [] else value.toList
  | n => n.children

/-- Whether an expression is a tree, or is inside it and rendered with it. -/
def Renders (options : SqlOptions) (n m : Node) : Prop :=
  ReflTransGen (fun a b => b ∈ a.renderedParts options) n m

/-- The expressions that cannot be rendered though their parts can, with the failures that say
so. -/
inductive Obstacle (t : Target) : Node → Error → Prop
  | context {f args distinct tag} (lacks : t.options.Lacks f.name) :
      Obstacle t (.call f args distinct tag) (.missingContext f.name)
  | field {f first rest distinct tag text} (trino : t.engine = .trino)
      (datePart : f.name = "date_part")
      (rendered : first.sql t = .ok text) (unknown : ¬Engine.NamesField text) :
      Obstacle t (.call f (first :: rest) distinct tag) (Engine.badField text)
  | interval {text tag e} (trino : t.engine = .trino) (interval : tag.cast = some .interval)
      (unread : Interval.ofText text = .error e) :
      Obstacle t (.constant (.string text) tag) e

/-- The reasons not to render a tree: an expression rendered with it that cannot be. -/
def Breaks (t : Target) (n : Node) (e : Error) : Prop := ∃ m, n.Renders t.options m ∧ m.Obstacle t e

/-- The reasons not to render some trees. -/
def BreakAmong (t : Target) (ns : List Node) (e : Error) : Prop := ∃ n ∈ ns, n.Breaks t e

variable {t : Target} {n : Node} {ns : List Node} {e : Error}

/-- An expression rendered with a tree is its root or is rendered with a part of it. -/
theorem exists_renders_iff {options : SqlOptions} {P : Node → Prop} :
    (∃ m, n.Renders options m ∧ P m) ↔
    P n ∨ ∃ k ∈ n.renderedParts options, ∃ m, k.Renders options m ∧ P m := by
  constructor
  · rintro ⟨m, hm, hP⟩
    obtain rfl | ⟨k, hk, hm⟩ := ReflTransGen.cases_head hm
    · exact .inl hP
    · exact .inr ⟨k, hk, m, hm, hP⟩
  · rintro (hP | ⟨k, hk, m, hm, hP⟩)
    · exact ⟨n, .refl, hP⟩
    · exact ⟨m, .head hk hm, hP⟩

/-- A tree breaks at its root or in a rendered part. -/
theorem breaks_iff : n.Breaks t e ↔ n.Obstacle t e ∨ BreakAmong t (n.renderedParts t.options) e :=
  exists_renders_iff

/-- Whether an expression can be an obstacle. -/
def mayBlock : Node → Bool
  | call .. | constant .. => true
  | _ => false

/-- An expression that is no obstacle is rendered unless a rendered part breaks. -/
theorem failsBy_of_parts (hn : n.mayBlock = false)
    (h : FailsBy (n.sql t) (BreakAmong t (n.renderedParts t.options))) :
    FailsBy (n.sql t) (n.Breaks t) := by
  refine h.congr fun e => ?_
  rw [breaks_iff, or_iff_right]
  intro he
  cases he <;> cases hn

private theorem breakAmong_append (ms ns : List Node) :
    BreakAmong t (ms ++ ns) e ↔ BreakAmong t ms e ∨ BreakAmong t ns e := by
  simp only [BreakAmong, List.mem_append, or_and_right, exists_or]

@[simp]
private theorem breakAmong_nil : ¬BreakAmong t [] e := by simp [BreakAmong]

private theorem breakAmong_cons : BreakAmong t (n :: ns) e ↔ n.Breaks t e ∨ BreakAmong t ns e := by
  simp [BreakAmong]

private theorem breakAmong_singleton : BreakAmong t [n] e ↔ n.Breaks t e := by simp [BreakAmong]

/-- A constant breaks where Trino reads its text as an interval, and it is none. -/
theorem breaks_constant_iff {p : Primitive} {tag : Tag} :
    Breaks t (.constant p tag) e ↔ t.engine.BadInterval tag.cast p.string? e := by
  have hparts : ¬BreakAmong t (renderedParts t.options (.constant p tag)) e := breakAmong_nil
  rw [breaks_iff, or_iff_left hparts]
  constructor
  · intro he
    cases he with
    | interval htrino hcast hunread => exact ⟨htrino, hcast, _, rfl, hunread⟩
  · rintro ⟨htrino, hcast, text, htext, hunread⟩
    cases p with
    | string s =>
      cases htext
      exact .interval htrino hcast hunread
    | _ => cases htext

/-! ## Lists of parts -/

private theorem sqlAll_failsBy (h : ∀ n ∈ ns, FailsBy (n.sql t) (n.Breaks t)) :
    FailsBy (sqlAll t ns) (BreakAmong t ns) := by
  rw [sqlAll_eq]
  exact FailsBy.mapM h

theorem length_of_sqlAll {texts : List String} (h : sqlAll t ns = .ok texts) :
    ns.length = texts.length := by
  rw [sqlAll_eq, mapM_eq_ok_iff] at h
  exact h.length_eq

private theorem sqlAliased_failsBy (h : FailsBy (n.sql t) (n.Breaks t)) :
    FailsBy (n.sqlAliased t) (n.Breaks t) :=
  h.bind_ok fun _ _ => failsBy_ok _

private theorem sqlAliasedAll_failsBy (h : ∀ n ∈ ns, FailsBy (n.sql t) (n.Breaks t)) :
    FailsBy (sqlAliasedAll t ns) (BreakAmong t ns) := by
  rw [sqlAliasedAll_eq]
  exact FailsBy.mapM fun n hn => sqlAliased_failsBy (h n hn)

private theorem sqlOption_failsBy {n : Option Node} (h : ∀ m ∈ n, FailsBy (m.sql t) (m.Breaks t)) :
    FailsBy (sqlOption t n) (BreakAmong t n.toList) := by
  cases n with
  | none => exact fun e => breakAmong_nil
  | some n =>
    refine ((h n rfl).bind_ok fun sql _ => failsBy_ok _).congr fun e => ?_
    simp [BreakAmong]

private theorem sqlAliasedOption_failsBy {n : Option Node}
    (h : ∀ m ∈ n, FailsBy (m.sql t) (m.Breaks t)) :
    FailsBy (sqlAliasedOption t n) (BreakAmong t n.toList) := by
  have heq : sqlAliasedOption t n =
      sqlOption t n >>= fun x => .ok (x.map (aliasedSql (n.bind (·.alias?)))) := by
    cases n <;> simp [sqlAliasedOption, sqlOption]
  rw [heq]
  exact (sqlOption_failsBy h).bind_ok fun _ _ => failsBy_ok _

/-- Common tables that are named are rendered unless one of them breaks. -/
theorem sqlCtes_failsBy (h : ∀ n ∈ ns, FailsBy (n.sql t) (n.Breaks t))
    (hnames : ∀ n ∈ ns, ∃ name, n.alias? = some name) :
    FailsBy (sqlCtes t ns) (BreakAmong t ns) := by
  rw [sqlCtes_eq]
  refine FailsBy.mapM fun n hn => ?_
  obtain ⟨name, hname⟩ := hnames n hn
  rw [cteSql, hname]
  exact (h n hn).bind_ok fun _ _ => failsBy_ok _

private theorem sqlBranches_failsBy {branches : List (Node × Node)}
    (hconditions : ∀ b ∈ branches, FailsBy (b.1.sql t) (b.1.Breaks t))
    (hresults : ∀ b ∈ branches, FailsBy (b.2.sql t) (b.2.Breaks t)) :
    FailsBy (sqlBranches t branches) (BreakAmong t (branches.flatMap fun (c, r) => [c, r])) := by
  rw [sqlBranches_eq]
  refine ((FailsBy.mapM fun b hb => (hconditions b hb).bind fun _ _ =>
    (hresults b hb).bind_ok fun _ _ => failsBy_ok _).bind_ok fun _ _ => failsBy_ok _).congr
      fun e => ?_
  simp only [BreakAmong, List.mem_flatMap, List.mem_cons, List.not_mem_nil, or_false]
  constructor
  · rintro ⟨b, hb, he | he⟩
    · exact ⟨b.1, ⟨b, hb, .inl rfl⟩, he⟩
    · exact ⟨b.2, ⟨b, hb, .inr rfl⟩, he⟩
  · rintro ⟨m, ⟨b, hb, rfl | rfl⟩, he⟩
    · exact ⟨b, hb, .inl he⟩
    · exact ⟨b, hb, .inr he⟩

/-! ## Calls -/

/-- A call is rendered unless an argument breaks, or the call itself does. -/
theorem call_failsBy {f : FunctionSpec} {args : List Node} {distinct : Bool} {tag : Tag}
    (known : FunctionRegistry.standard.get? f.name = some f)
    (arity : f.arity.accepts args.length = true) (h : ∀ n ∈ args, FailsBy (n.sql t) (n.Breaks t)) :
    FailsBy (sql t (.call f args distinct tag)) (Breaks t (.call f args distinct tag)) := by
  have hf := FunctionRegistry.renderable_of_get? known
  rw [sql]
  split
  · next hcontext =>
    -- A value of the context has no arguments.
    have hcategory : f.category = .context := eq_of_beq hcontext
    rw [hf.contextArity hcategory] at arity
    obtain rfl := List.length_eq_zero_iff.mp (by simpa [Arity.accepts] using arity)
    refine ((contextValue_failsBy t.options (hf.context.mp hcategory)).bind_ok fun body _ =>
      t.withCast_ok _ body).congr fun e => ?_
    rw [breaks_iff]
    constructor
    · rintro ⟨hlacks, rfl⟩
      exact .inl (.context hlacks)
    · rintro (he | he)
      · cases he with
        | context hlacks => exact ⟨hlacks, rfl⟩
      · exact absurd he breakAmong_nil
  · next hcontext =>
    have hlacks : ¬t.options.Lacks f.name := by
      rintro (⟨hname, -⟩ | ⟨hname, -⟩)
      · exact hcontext (beq_iff_eq.mpr (hf.context.mpr (.inl hname)))
      · exact hcontext (beq_iff_eq.mpr (hf.context.mpr (.inr hname)))
    have hown : ∀ texts, sqlAll t args = .ok texts →
        FailsBy (t.engine.call f texts distinct) (Obstacle t (.call f args distinct tag)) := by
      intro texts htexts
      rw [sqlAll_eq, mapM_eq_ok_iff] at htexts
      refine (t.engine.call_failsBy f texts distinct).congr fun e => ?_
      constructor
      · rintro ⟨htrino, hdate, field, value, rfl, hunknown, rfl⟩
        cases htexts with
        | cons hfield _ => exact .field htrino hdate hfield hunknown
      · intro he
        cases he with
        | context hlacks' => exact absurd hlacks' hlacks
        | field htrino hdate hfield hunknown =>
          rw [hf.datePartArity hdate] at arity
          have hlength : texts.length = 2 := by
            rw [← htexts.length_eq]
            simpa [Arity.accepts] using arity
          obtain ⟨_, value, rfl⟩ := List.length_eq_two.mp hlength
          cases htexts with
          | cons hfirst _ =>
            cases hfirst.symm.trans hfield
            exact ⟨htrino, hdate, _, value, rfl, hunknown, rfl⟩
    refine ((sqlAll_failsBy h).bind fun texts htexts => (hown texts htexts).bind_ok fun body _ =>
      t.withCast_ok _ body).congr fun e => ?_
    rw [breaks_iff, or_comm]
    rfl

end Node

namespace Built

variable {options : ParseOptions} {r : List String} {place : Place} {s : Scope} {n : Node}

/-- A built tree is rendered unless one of its nodes breaks. -/
theorem failsBy (t : Target) (h : Built options r place s n) : FailsBy (n.sql t) (n.Breaks t) := by
  induction h with
  | constant value read named =>
    rename_i p tag
    rw [sql]
    exact (t.withCast_failsBy tag.cast (some p) p.sql).congr fun e => (breaks_constant_iff).symm
  | column hasName hasView found named =>
    refine failsBy_of_parts rfl ?_
    rw [sql]
    exact (t.withCast_ok _ _).congr fun e => (iff_false_intro breakAmong_nil).symm
  | bound hasName unreserved binding fresh run inner named ih =>
    rename_i name value n tag
    refine failsBy_of_parts rfl ?_
    rw [sql]
    cases hkeep : t.options.keepParamRefs with
    | true =>
      exact (t.withCast_ok _ _).congr fun e => by simp [renderedParts, hkeep]
    | false =>
      refine ((sqlOption_failsBy fun m hm => ?_).bind_ok fun _ _ => t.withCast_ok _ _).congr
        fun e => ?_
      · cases hm
        exact ih
      · simp [renderedParts, hkeep]
  | free hasName unreserved binding allowed named =>
    refine failsBy_of_parts rfl ?_
    rw [sql]
    cases hkeep : t.options.keepParamRefs with
    | true =>
      exact (t.withCast_ok _ _).congr fun e => by simp [renderedParts, hkeep]
    | false =>
      exact (t.withCast_ok _ _).congr fun e => by simp [renderedParts]
  | call known parts arity aggregate named ih => exact call_failsBy known.1 arity ih
  | geometry parts arity named ih =>
    refine failsBy_of_parts rfl ?_
    rw [sql]
    refine (sqlAll_failsBy ih).bind_ok fun texts htexts => ?_
    rw [length_of_sqlAll htexts] at arity
    exact (t.engine.geometry_failsBy arity).bind_ok fun _ _ => t.withCast_ok _ _
  | operation parts arity qualified flat named ih =>
    refine failsBy_of_parts rfl ?_
    rw [sql]
    refine (sqlAll_failsBy ih).bind_ok fun texts htexts => ?_
    rw [length_of_sqlAll htexts] at arity
    exact (t.engine.comparison_failsBy arity qualified).bind_ok fun _ _ => t.withCast_ok _ _
  | case nonempty conditions results other named ihconditions ihresults ihother =>
    refine failsBy_of_parts rfl ?_
    rw [sql]
    refine ((sqlBranches_failsBy ihconditions ihresults).bind fun _ _ =>
      (sqlOption_failsBy ihother).bind_ok fun _ _ => t.withCast_ok _ _).congr fun e => ?_
    exact (breakAmong_append _ _).symm
  | array parts named ih =>
    refine failsBy_of_parts rfl ?_
    rw [sql]
    exact (sqlAll_failsBy ih).bind_ok fun _ _ => t.withCast_ok _ _
  | list nonempty parts ih =>
    refine failsBy_of_parts rfl ?_
    rw [sql]
    exact (sqlAll_failsBy ih).bind_ok fun _ _ => failsBy_ok _
  | sort part ih =>
    refine failsBy_of_parts rfl ?_
    rw [sql]
    exact (ih.bind_ok fun _ _ => failsBy_ok _).congr fun e => breakAmong_singleton.symm
  | short kept part unfolds ih =>
    refine failsBy_of_parts rfl ?_
    rw [sql]
    exact ih.congr fun e => breakAmong_singleton.symm
  | select fits takes afterWiths afterSource afterJoins withs source joins nonempty values
      limit offset
      ihwiths ihsource ihjoins ihvalues =>
    rename_i s₁ s₂ s₃ role c tag
    obtain ⟨ctes, relation, joined, distinct, columns, filter, groupBy, having, orderBy, rows,
      skipped⟩ := c
    have hctes : ∀ n ∈ ctes, FailsBy (n.sql t) (n.Breaks t) := by
      intro n hn
      obtain ⟨before, after, u, hsplit, hu⟩ := exists_split_of_mem afterWiths hn
      exact ihwiths before n after u hsplit hu
    have hnames : ∀ n ∈ ctes, ∃ name, n.alias? = some name := by
      intro n hn
      obtain ⟨before, after, u, hsplit, hu⟩ := exists_split_of_mem afterWiths hn
      exact (withs before n after u hsplit hu).exists_alias
    have hjoins : ∀ n ∈ joined, FailsBy (n.sql t) (n.Breaks t) := by
      intro n hn
      obtain ⟨before, after, u, hsplit, hu⟩ := exists_split_of_mem afterJoins hn
      exact ihjoins before n after u hsplit hu
    simp only [Clauses.values, List.mem_append, Option.mem_toList] at ihvalues
    refine failsBy_of_parts rfl ?_
    rw [sql]
    refine ((sqlCtes_failsBy hctes hnames).bind fun _ _ =>
      (sqlAliasedAll_failsBy fun n hn => ihvalues n (by simp [hn])).bind fun _ _ =>
      (sqlAliasedOption_failsBy ihsource).bind fun _ _ =>
      (sqlAll_failsBy hjoins).bind fun _ _ =>
      (sqlOption_failsBy fun n hn => ihvalues n (by simp_all)).bind fun _ _ =>
      (sqlAll_failsBy fun n hn => ihvalues n (by simp [hn])).bind fun _ _ =>
      (sqlOption_failsBy fun n hn => ihvalues n (by simp_all)).bind fun _ _ =>
      (sqlAll_failsBy fun n hn => ihvalues n (by simp [hn])).bind_ok fun _ _ =>
      t.withCast_ok _ _).congr fun e => ?_
    simp only [renderedParts, children, Clauses.parts, breakAmong_append]
    tauto
  | compound fits takes leftSide rightSide ihleft ihright =>
    refine failsBy_of_parts rfl ?_
    rw [sql]
    refine (ihleft.bind fun _ _ => ihright.bind_ok fun _ _ => t.withCast_ok _ _).congr fun e => ?_
    exact (breakAmong_cons.trans (or_congr_right breakAmong_singleton)).symm
  | view fits hasName named =>
    refine failsBy_of_parts rfl ?_
    rw [sql]
    exact (failsBy_ok _).congr fun e => (iff_false_intro breakAmong_nil).symm
  | join part declared condition onPart ih ihon =>
    rename_i type relation on
    refine failsBy_of_parts rfl ?_
    rw [sql]
    refine (ih.bind fun sql _ => (?_ : FailsBy _ (Node.BreakAmong t on.toList))).congr fun e =>
      breakAmong_cons.symm
    cases type with
    | cross | lateral =>
      -- A join without a condition renders none, and has none to leave out.
      cases on with
      | none => exact fun e => breakAmong_nil
      | some on => cases condition
    | inner | left | right => exact (sqlOption_failsBy ihon).bind_ok fun _ _ => failsBy_ok _

end Built

namespace Query

/-- The SQL of a query fails exactly if an expression that is rendered is an obstacle for the
engine, and then with the failure of such an obstacle. -/
theorem sql_error_iff {value : Json} {options : ParseOptions} {query : Query}
    (h : read value options = .ok query) {name : String} {engine : Engine}
    (hengine : EngineRegistry.standard.get? name = some engine) (sqlOptions : SqlOptions) :
    ((∃ e, query.sql name sqlOptions = .error e) ↔
      ∃ n e, query.root.Renders sqlOptions n ∧ n.Obstacle ⟨engine, sqlOptions⟩ e) ∧
    ∀ e, query.sql name sqlOptions = .error e →
      ∃ n, query.root.Renders sqlOptions n ∧ n.Obstacle ⟨engine, sqlOptions⟩ e := by
  have hroot : FailsBy (query.root.sql ⟨engine, sqlOptions⟩)
      (query.root.Breaks ⟨engine, sqlOptions⟩) := by
    obtain hbuilt | hbuilt := read_built h
    · exact hbuilt.failsBy _
    · exact hbuilt.failsBy _
  have hsql : FailsBy (query.sql name sqlOptions) (query.root.Breaks ⟨engine, sqlOptions⟩) := by
    rw [sql, hengine]
    exact (sqlAliased_failsBy hroot).bind_ok fun _ _ => failsBy_ok _
  refine ⟨?_, fun e he => hsql.reason he⟩
  rw [hsql.error_iff, exists_comm]
  rfl

/-- The epoch is a field of one engine only, so the other one meets an obstacle. -/
theorem sql_error_iff_epoch :
    ∃ query,
      read (.object [("type", .string "function"), ("value", .string "date_part"),
        ("args",
          .array [.string "epoch", .object [("type", .string "column"), ("column", .string "d")]])])
        {} = .ok query ∧
      ((query.sql "pg" {}).toOption, (query.sql "trino" {}).toOption) =
        (some "date_part('epoch', \"d\")", none) ∧
      ∃ n e, query.root.Renders {} n ∧ n.Obstacle ⟨.trino, {}⟩ e := by
  refine exists_ok_of_map (by decide +kernel) fun query hread hquery => ?_
  have htrino : EngineRegistry.standard.get? "trino" = some .trino := by decide +kernel
  refine (sql_error_iff hread htrino {}).1.mp ?_
  cases hsql : query.sql "trino" {} with
  | error e => exact ⟨e, rfl⟩
  | ok sql =>
    have hnone := congrArg Prod.snd hquery
    rw [hsql] at hnone
    cases hnone

end Query

end AnalyticQuery
