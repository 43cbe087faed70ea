import AnalyticQuery.Proofs.Short.Rank
import AnalyticQuery.Proofs.Sql.Shorts

/-!
# Ranks of SQL text

The value of SQL text has no text to expand but the short expressions of the SQL text, so its rank
is lower than that of an object with the SQL text.
-/

namespace AnalyticQuery.Sql

open Json List Result

variable {o : Option Json} {x : Extracted}

variable {name key sql : String} {e : Option Expr} {path : Path}

variable {k : Nat} {vs : List Json} {v w : Json}

/-! ## Values -/

private theorem rank_operation_le (name : String) (h : ∀ v ∈ vs, v.rank ≤ k) :
    (operation name vs).rank ≤ k :=
  rank_typed_le .operator rfl (by simpa using h)

private theorem rank_junction_le {op : String}
    (hname : (op = "AND" ∧ name = "and") ∨ (op = "OR" ∧ name = "or")) (h : ∀ v ∈ vs, v.rank ≤ k) :
    (junction name vs).rank ≤ k := by
  obtain ⟨-, rfl⟩ | ⟨-, rfl⟩ := hname
  · exact rank_typed_le .and rfl (by simpa using h)
  · exact rank_typed_le .or rfl (by simpa using h)

private theorem rank_application_le (name : String) (h : ∀ v ∈ vs, v.rank ≤ k) :
    (application name vs).rank ≤ k :=
  rank_typed_le .function rfl (by simpa using h)

private theorem rank_listOf_le (h : ∀ v ∈ vs, v.rank ≤ k) : (listOf vs).rank ≤ k :=
  rank_typed_le .list rfl (by simpa using h)

private theorem rank_columnValue_le (column : String) (view : Option String) :
    (columnValue column view).rank ≤ k :=
  rank_typed_le .column rfl (by cases view <;> simp)

private theorem rank_field?_le (h : ∀ v ∈ o, v.rank ≤ k) :
    ∀ field ∈ field? key o, field.2.rank ≤ k := by
  cases o with
  | none => simp [field?]
  | some v => simpa [field?] using h

private theorem rank_listField?_le (h : ∀ v ∈ vs, v.rank ≤ k) :
    ∀ field ∈ listField? key vs, field.2.rank ≤ k := by
  unfold listField?
  split
  · simp
  · simpa using h

private theorem rank_callValue_le (name : String) (distinct : Bool) (h : ∀ v ∈ vs, v.rank ≤ k) :
    (callValue name vs distinct).rank ≤ k := by
  unfold callValue
  split
  · exact rank_typed_le .geometry rfl (by simpa using (forall_mem_cons.mp h).2)
  · refine rank_typed_le .function rfl ?_
    cases distinct <;> simpa using h

private theorem TypedLiteral.rank_le (h : TypedLiteral v) : v.rank ≤ k := by
  cases h with
  | text text cast => exact rank_typed_le .primitive rfl (by simp)
  | geometry text => exact rank_typed_le .geometry rfl (by simp)

private theorem rank_countValue?_le {clause : String} (h : countValue? x clause e = .ok o) :
    ∀ v ∈ o, v.rank ≤ k := by
  obtain rfl | ⟨n, rfl⟩ := exists_of_countValue? h <;> simp [Json.nat]

namespace Construct

variable {start : Nat}

/-! ## Constructs -/

/-- Whether short expressions behind placeholders are light enough for a rank. -/
def Light (x : Extracted) (k : Nat) : Prop := ∀ s ∈ x.shorts, 2 * marks s.text.toList ≤ k

/-- Whether the values of some constructs have at most a rank. -/
def Ranked (x : Extracted) (k : Nat) (cs : List (Path × Construct)) : Prop :=
  ∀ c ∈ cs, ∀ v, c.2.lower x = .ok v → v.rank ≤ k

variable {cs ds : List (Path × Construct)}

/-- The rank of a short expression of the text is within the bound. -/
theorem Light.shortValue (h : Light x k) {text : String} {s : Short} (hs : x.short? text = some s) :
    (shortValue s).rank ≤ k := by
  have hmem : s ∈ x.shorts := by
    unfold Extracted.short? at hs
    split at hs
    · split at hs
      · exact mem_of_getElem? hs
      · cases hs
    · cases hs
  exact (rank_shortObject s).le.trans (h s hmem)

@[simp] theorem ranked_cons (c : Path × Construct) :
    Ranked x k (c :: cs) ↔ (∀ v, c.2.lower x = .ok v → v.rank ≤ k) ∧ Ranked x k cs := by
  simp [Ranked]

@[simp] theorem ranked_append : Ranked x k (cs ++ ds) ↔ Ranked x k cs ∧ Ranked x k ds := by
  simp only [Ranked, forall_mem_append]

@[simp] theorem ranked_below (path : Path) :
    Ranked x k (AnalyticQuery.below path cs) ↔ Ranked x k cs := by
  simp only [Ranked, AnalyticQuery.below, forall_mem_map]

/-- The values of ranked items are within the bound. -/
theorem Ranked.items {cs : List Construct} (h : Ranked x k (itemsFrom start cs))
    (hvs : List.Forall₂ (fun c v => c.lower x = .ok v) cs vs) : ∀ v ∈ vs, v.rank ≤ k := by
  induction hvs generalizing start with
  | nil => simp
  | cons hv _ ih =>
    rw [itemsFrom, ranked_cons] at h
    exact forall_mem_cons.mpr ⟨h.1 _ hv, ih h.2⟩

theorem Ranked.operands {cs : List Construct} (h : Ranked x k (operands cs))
    (hvs : List.Forall₂ (fun c v => c.lower x = .ok v) cs vs) : ∀ v ∈ vs, v.rank ≤ k :=
  Ranked.items ((ranked_below _).mp h) hvs

theorem Ranked.exprs {es : List Expr} (h : Ranked x k (itemsFrom start (es.map expr)))
    (hvs : lowerExprs x es = .ok vs) : ∀ v ∈ vs, v.rank ≤ k :=
  h.items (forall₂_map_left_iff.mpr (forall₂_of_lowerExprs hvs))

theorem Ranked.optional (h : Ranked x k (optional path e)) (ho : lowerExpr? x e = .ok o) :
    ∀ v ∈ o, v.rank ≤ k := by
  cases e with
  | none =>
    rw [lowerExpr?] at ho
    cases ho
    simp
  | some e =>
    obtain ⟨v, hv, rfl⟩ := exists_of_lowerExpr? ho rfl
    simpa using h _ (mem_singleton.mpr rfl) v hv

/-- The values of ranked branches are within the bound. -/
theorem Ranked.branches {operand : Option Expr} {branches : List (Expr × Expr)}
    (h : Ranked x k (branchesFrom operand start branches)) (ho : lowerExpr? x operand = .ok o)
    (hvs : lowerBranches x o branches = .ok vs) : ∀ v ∈ vs, v.rank ≤ k := by
  induction branches generalizing start vs with
  | nil =>
    rw [lowerBranches] at hvs
    cases hvs
    simp
  | cons branch branches ih =>
    obtain ⟨condition, result⟩ := branch
    rw [lowerBranches] at hvs
    obtain ⟨c, hc, hvs⟩ := of_bind hvs
    obtain ⟨r, hr, hvs⟩ := of_bind hvs
    obtain ⟨others, hothers, hvs⟩ := of_bind hvs
    cases hvs
    simp only [branchesFrom, ranked_append, ranked_cons] at h
    obtain ⟨htest, hresult, hrest⟩ := h
    refine forall_mem_cons.mpr ⟨?_, ih hrest hothers⟩
    have hr := hresult r hr
    cases operand with
    | none =>
      rw [lowerExpr?] at ho
      cases ho
      have hc := htest _ (mem_singleton.mpr rfl) c hc
      simp [hc, hr]
    | some e =>
      obtain ⟨w, hw, rfl⟩ := exists_of_lowerExpr? ho rfl
      have hboth := Ranked.operands ((ranked_below _).mp htest) (.cons hw (.cons hc .nil))
      simpa [hr] using rank_operation_le "=" hboth

/-- The values of ranked arguments are within the bound. -/
theorem Ranked.arguments {single : Bool} {args : List (CallArgument Expr)}
    {multiplicity : Option Multiplicity} {clauses : List String}
    (h : Ranked x k
      (itemsFrom start ((CallArguments.list multiplicity args clauses).exprs.map expr)))
    (hvs : lowerArguments x name single args = .ok vs) : ∀ v ∈ vs, v.rank ≤ k := by
  induction args generalizing start vs with
  | nil =>
    rw [lowerArguments] at hvs
    cases hvs
    simp
  | cons arg args ih =>
    cases arg with
    | expr e =>
      rw [lowerArguments] at hvs
      obtain ⟨v, hv, hvs⟩ := of_bind hvs
      obtain ⟨rest, hrest, hvs⟩ := of_bind hvs
      cases hvs
      simp only [CallArguments.exprs, filterMap_cons, map_cons, itemsFrom, ranked_cons] at h
      exact forall_mem_cons.mpr ⟨h.1 v hv, ih h.2 hrest⟩
    | wildcard =>
      rw [lowerArguments] at hvs
      split at hvs
      · exact ih h hvs
      · cases hvs
    | «foreign» text =>
      rw [lowerArguments] at hvs
      cases hvs

/-- The values of ranked joins are within the bound. -/
theorem Ranked.joins {js : List (Join Expr Relation)} (h : Ranked x k (joinsFrom start js))
    (hvs : List.Forall₂ (fun j v => j.Lowered x v) js vs) : ∀ v ∈ vs, v.rank ≤ k := by
  induction hvs generalizing start with
  | nil => simp
  | @cons j v js vs hj _ ih =>
    obtain @⟨view, lateral, on, type, hview, hon, -⟩ := hj
    simp only [joinsFrom, cons_append, ranked_cons, ranked_append] at h
    obtain ⟨hrelation, hcondition, hrest⟩ := h
    have hview : view.rank ≤ k := hrelation view (by rw [lower, hview]; rfl)
    refine forall_mem_cons.mpr ⟨?_, ih hrest⟩
    refine rank_typed_le (F := ("joinType", _) :: ("view", view) :: field? "on" on) .join rfl ?_
    simp only [forall_mem_cons]
    exact ⟨Nat.zero_le _, hview, rank_field?_le (hcondition.optional hon)⟩

private theorem rank_literal_le (hx : Light x k) {l : Literal} (h : l.lower x = .ok v) :
    v.rank ≤ k := by
  cases Literal.lowered h with
  | placeholder found => exact hx.shortValue found
  | _ => exact Nat.zero_le _

/-- The value of an expression has at most the rank that the values of what is inside it have. -/
theorem rank_expr_le (hx : Light x k) {e : Expr} (h : e.Lowered x v)
    (hparts : Ranked x k (ofExpr e)) :
    v.rank ≤ k := by
  have hone : ∀ {c : Construct} {path : Path} {v : Json}, Ranked x k [(path, c)] →
    c.lower x = .ok v → v.rank ≤ k :=
    fun h hv => h _ (mem_singleton.mpr rfl) _ hv
  cases h with
  | column | qualified => exact rank_columnValue_le _ _
  | literal hl => exact rank_literal_le hx hl
  | nested ha => exact hone hparts ha
  | plus ha =>
    rw [ofExpr, if_pos rfl] at hparts
    exact hone hparts ha
  | subquery hq => exact hone (c := query _) hparts hq
  | junction hname ha hb =>
    exact rank_junction_le hname (hparts.operands (.cons ha (.cons hb .nil)))
  | binary name ha hb | like name ha hb =>
    exact rank_operation_le _ (hparts.operands (.cons ha (.cons hb .nil)))
  | negative hv =>
    obtain ⟨n, rfl⟩ := exists_of_numberValue hv
    exact Nat.zero_le _
  | castText hv | typed hv => exact (typedLiteral_of_typedValue hv).rank_le
  | interval hv => exact (typedLiteral_of_intervalValue hv).rank_le
  | unary name hop ha =>
    rw [ofExpr, if_neg hop] at hparts
    exact rank_operation_le _ (hparts.operands (.cons ha .nil))
  | @is e a negated value name ha =>
    have ha := hparts.operands (.cons ha .nil) a mem_cons_self
    refine rank_operation_le _ ?_
    cases value <;> simpa using ha
  | between name ha hb hc =>
    exact rank_operation_le _ (hparts.operands (.cons ha (.cons hb (.cons hc .nil))))
  | inList name hvalues ha =>
    simp only [ofExpr, ranked_below, ranked_cons] at hparts
    have hlist := rank_listOf_le (hparts.2.exprs hvalues)
    exact rank_operation_le _ (by simpa [hlist] using hparts.1 _ ha)
  | @inQuery e a q v negated name ha hq =>
    have hq : (query q).lower x = .ok v := hq
    exact rank_operation_le _ (hparts.operands (.cons ha (.cons hq .nil)))
  | @«exists» q v negated name hq =>
    have hq : (query q).lower x = .ok v := hq
    exact rank_operation_le _ (hparts.operands (.cons hq .nil))
  | @quantified left right a b op word name qualifier ha hb =>
    exact rank_typed_le .operator rfl (by simpa using hparts.operands (.cons ha (.cons hb .nil)))
  | @case operand branches otherwise o cases d ho hcases hd =>
    rw [ofExpr, ranked_append, ranked_below] at hparts
    refine rank_typed_le (F := ("cases", .array cases) :: field? "defaultCase" d) .case rfl ?_
    simp only [forall_mem_cons, rank_array_le]
    exact ⟨hparts.1.branches ho hcases, rank_field?_le (hparts.2.optional hd)⟩
  | cast name ha => exact rank_tagged_le (hone hparts ha) _ _
  | call name hvalues =>
    refine rank_callValue_le _ _ ?_
    cases hvalues with
    | absent => simp
    | list hvalues => exact ((ranked_below _).mp hparts).arguments hvalues
  | extract field name ha => exact rank_application_le _ (by simpa using hone hparts ha)
  | rounding name ha => exact rank_application_le _ (by simpa using hone hparts ha)
  | @substring e start length a b c commas ha hb hc =>
    simp only [ofExpr, ranked_below, cons_append, ranked_cons, ranked_append] at hparts
    obtain ⟨hparts, hstart, hlength⟩ := hparts
    refine rank_application_le _ (forall_mem_cons.mpr ⟨hparts _ ha, forall_mem_cons.mpr ⟨?_, ?_⟩⟩)
    · cases b with
      | none => exact Nat.zero_le _
      | some b => exact hstart.optional hb b rfl
    · intro v hv
      exact hlength.optional hc v (Option.mem_toList.mp hv)
  | array hvalues => exact rank_array_le.mpr (Ranked.exprs hparts hvalues)
  | row hvalues => exact rank_listOf_le (Ranked.exprs hparts hvalues)

private theorem rank_item_le {i : Item Expr} (h : lowerItem x i = .ok v)
    (hparts : Ranked x k (item i).parts) :
    v.rank ≤ k := by
  cases Item.lowered h with
  | expr hv => exact hparts _ (mem_singleton.mpr rfl) v hv
  | aliased hv => exact rank_tagged_le (hparts _ (mem_singleton.mpr rfl) _ hv) _ _
  | wildcard | wildcardOf => exact rank_columnValue_le _ _

private theorem rank_relation_le (hx : Light x k) {r : Relation} (h : (relation r).lower x = .ok v)
    (hparts : Ranked x k (relation r).parts) : v.rank ≤ k := by
  rw [lower, map_eq_pure_bind] at h
  obtain ⟨⟨w, lateral⟩, hw, h⟩ := of_bind h
  cases h
  cases Relation.lowered hw with
  | short name hquote hs => exact rank_tagged_le (hx.shortValue hs) _ _
  | view => exact Nat.zero_le _
  | labelledView => exact rank_typed_le .view rfl (by simp)
  | derived name hu => exact rank_tagged_le (hparts _ (mem_singleton.mpr rfl) _ hu) _ _

theorem Ranked.source {r : Option Relation} (h : Ranked x k (r.toList.map ((path, relation ·))))
    (ho : Option.Rel (fun r v => Relation.lower x r = .ok (v, false)) r o) :
    ∀ v ∈ o, v.rank ≤ k := by
  cases ho with
  | none => simp
  | some hv =>
    intro v hmem
    cases hmem
    exact h _ (mem_singleton.mpr rfl) _ (by rw [lower, hv]; rfl)

private theorem rank_body_le {b : Body} (h : b.lower x = .ok v)
    (hparts : Ranked x k (body b).parts) : v.rank ≤ k := by
  cases Body.lowered h with
  | select hF =>
    obtain ⟨c, rfl, hsource, hjoins, hcolumns, hfilter, hgroups, hhaving⟩ :=
      exists_of_lowerSelect hF
    simp only [parts, ofSelect, ranked_append, ranked_below] at hparts
    obtain ⟨⟨⟨⟨⟨hpsource, hpjoins⟩, hpcolumns⟩, hpfilter⟩, hpgroups⟩, hphaving⟩ := hparts
    have hview : ∀ w ∈ c.source, w.rank ≤ k := hpsource.source hsource
    have htype : Fields.get? (bodyFields c) "type" = some (.string ExpressionType.select.name) := by
      simp [bodyFields, ExpressionType.name]
    refine rank_le_of_type .select htype rfl ?_
    have hdistinct : ∀ field ∈ (if c.distinct then [("distinct", Json.bool true)] else []),
        field.2.rank ≤ k := by
      split <;> simp
    simp only [bodyFields, forall_mem_append, forall_mem_singleton, rank_array_le]
    exact ⟨⟨⟨⟨⟨⟨Nat.zero_le _, hdistinct⟩, rank_field?_le hview,
      rank_listField?_le (hpjoins.joins hjoins)⟩,
      hpcolumns.items (forall₂_of_lowerItems hcolumns)⟩,
        rank_field?_le (hpfilter.optional hfilter)⟩,
      rank_listField?_le (hpgroups.exprs hgroups)⟩, rank_field?_le (hphaving.optional hhaving)⟩
  | nested hq => exact hparts _ (mem_singleton.mpr rfl) v hq
  | @compound op quantifier left right a b all ha hb =>
    have hvalues : List.Forall₂ (fun c v => c.lower x = .ok v) [body left, body right] [a, b] :=
      .cons ha (.cons hb .nil)
    have hboth := Ranked.items ((ranked_below _).mp hparts) hvalues
    refine rank_typed_le .select rfl ?_
    cases all <;> simpa using hboth

theorem Ranked.ctes {ctes : List (Cte Query)}
    (h : Ranked x k (itemsFrom start (ctes.map (query ·.query))))
    (hvs : lowerCtes x ctes = .ok vs) :
    ∀ v ∈ vs, v.rank ≤ k := by
  replace hvs := tagged_of_lowerCtes hvs
  induction hvs generalizing start with
  | nil => simp
  | cons hv _ ih =>
    obtain ⟨u, hu, rfl⟩ := hv
    rw [map_cons, itemsFrom, ranked_cons] at h
    exact forall_mem_cons.mpr ⟨rank_tagged_le (h.1 u hu) _ _, ih h.2⟩

theorem Ranked.sorts {keys : List (SortKey Expr)}
    (h : Ranked x k (itemsFrom start (keys.map (expr ·.value))))
    (hvs : lowerSorts x keys = .ok vs) :
    ∀ v ∈ vs, v.rank ≤ k := by
  replace hvs := sortValue_of_lowerSorts hvs
  induction hvs generalizing start with
  | nil => simp
  | @cons key _ _ _ hv _ ih =>
    obtain ⟨u, hu, rfl⟩ := hv
    rw [map_cons, itemsFrom, ranked_cons] at h
    have hsort : (sortValue u key.ascending key.nullsFirst).rank ≤ k := by
      refine rank_le_of_type .sort ?_ rfl ?_
      · simp [ExpressionType.name]
      · simp only [forall_mem_append, forall_mem_cons]
        refine ⟨⟨⟨Nat.zero_le _, h.1 u hu, by simp⟩, rank_field?_le ?_⟩, rank_field?_le ?_⟩
        · cases key.ascending <;> simp
        · cases key.nullsFirst <;> simp
    exact forall_mem_cons.mpr ⟨hsort, ih h.2⟩

private theorem rank_query_le {q : Query} (h : q.lower x = .ok v)
    (hparts : Ranked x k (query q).parts) :
    v.rank ≤ k := by
  obtain ⟨c⟩ := q
  obtain ⟨w, withs, orders, limit, offset, hw, hwiths, horders, hlimit, hoffset, -, rfl⟩ :=
    exists_of_lower h
  simp only [parts, cons_append, ranked_cons, ranked_append, ranked_below] at hparts
  obtain ⟨hbody, hctes, hsorts⟩ := hparts
  obtain ⟨F, rfl, htype⟩ := Body.isSelect_lower c.body hw
  have hF := rank_object_le.mp (hbody _ hw)
  refine rank_le_of_type .select ?_ rfl ?_
  · rw [Fields.get?_append, htype]
    rfl
  · simp only [forall_mem_append]
    exact ⟨hF.2,
      ⟨⟨rank_listField?_le (hctes.ctes hwiths), rank_listField?_le (hsorts.sorts horders)⟩,
      rank_field?_le (rank_countValue?_le hlimit)⟩, rank_field?_le (rank_countValue?_le hoffset)⟩

/-- The value of a construct has no texts but its short expressions. -/
theorem rank_lower_le (hx : Light x k) {c : Construct} (h : c.lower x = .ok v) : v.rank ≤ k := by
  induction hn : sizeOf c using Nat.strong_induction_on generalizing c v with
  | _ n ih =>
    have hparts : Ranked x k c.parts := fun d hd w hw => ih _ (hn ▸ smaller_parts c d hd) hw rfl
    cases c with
    | expr e => exact rank_expr_le hx (Expr.lowered h) hparts
    | item i => exact rank_item_le h hparts
    | query q => exact rank_query_le h hparts
    | body b => exact rank_body_le h hparts
    | relation r => exact rank_relation_le hx h hparts

end Construct

/-! ## Texts -/

/-- The short expressions of SQL text have no more marks than the text. -/
theorem light_of_extract (h : extract sql = .ok x) :
    Construct.Light x (2 * marks sql.toList) := by
  obtain ⟨segments, hsegments, -, hshorts⟩ := exists_segmented h
  intro s hs
  rw [hshorts] at hs
  suffices hmarks : marks s.text.toList ≤ marks sql.toList by omega
  clear h hshorts
  generalize sql.toList = cs at hsegments
  induction hsegments with
  | nil => cases hs
  | @quoted opening ending rest segments _ _ ih =>
    have hle := ih hs
    have hspan := congrArg marks (spanPast_append ending rest)
    rw [marks_append] at hspan ⊢
    omega
  | char _ _ _ _ ih =>
    have hle := ih hs
    rw [marks_cons]
    omega
  | @short source rest t segments hfront _ ih =>
    rw [filterMap_cons_some (show Segment.short? (.short source t) = some t from rfl)] at hs
    rw [marks_append]
    obtain rfl | hs := mem_cons.mp hs
    · have hle := Short.marks_of_ofFront hfront
      omega
    · have hle := ih hs
      omega

/-- The value of SQL text has a lower rank than an object with the text. -/
theorem rank_toQl_le (h : toQl sql = .ok v) : v.rank ≤ 2 * marks sql.toList := by
  obtain ⟨x, c, hx, -, hv⟩ := exists_parses h
  exact Construct.rank_lower_le (light_of_extract hx) hv

end AnalyticQuery.Sql
