import AnalyticQuery.Proofs.Tree.Attaching

/-!
# Relations that texts stand for

A relation can be a short expression or SQL text with an alias. The alias goes onto the value that
the text stands for, before a node is built of it, and there it takes the place of an alias that the
value has; a second alias is refused only where it is folded onto a node. SQL text has no alias of
its own, so the alias that is lost is the one that a short expression gives to a view.
-/

namespace AnalyticQuery

open Builder Fields QlObject Result

variable {kind : ExpressionType} {obj : QlObject} {own : String} {G : Fields} {s : Scope}
variable {lateral : Bool}

/-! ## Values without an alias -/

/-- Whether a value has no alias. -/
def Json.Unlabelled (v : Json) : Prop := get? v.taggable "as" = none

theorem Json.Unlabelled.tagged {v : Json} (h : v.Unlabelled) (cast : String) :
    (v.tagged none (some cast)).Unlabelled := by
  have hinsert : get? (insert v.taggable "cast" (.string cast)) "as" = none := by
    rw [get?_insert, if_neg (by decide)]
    exact h
  change get? (withCast v.taggable cast) "as" = none
  unfold withCast
  split
  · split
    · exact hinsert
    · rfl
  · exact hinsert

namespace Sql

variable {x : Extracted} {v : Json}

private theorem unlabelled_callValue (name : String) (args : List Json) (distinct : Bool) :
    (callValue name args distinct).Unlabelled := by
  unfold callValue
  split
  · rfl
  · cases distinct <;> rfl

/-- The value of a query has no alias. -/
theorem Query.unlabelled_lower {q : Query} (h : q.lower x = .ok v) : v.Unlabelled := by
  cases Query.lowered h with
  | @select c s k limit offset =>
    have hmark : get? (if k.distinct then [("distinct", .bool true)] else []) "as" = none := by
      cases k.distinct <;> rfl
    change get? (selectFields k limit offset) "as" = none
    simp [selectFields, bodyFields, hmark]
  | @nested c inner _ hbody _ hinner =>
    have hsmaller : sizeOf inner < sizeOf (Query.mk c) := by
      obtain ⟨⟩ := c
      cases hbody
      simp
      omega
    exact Query.unlabelled_lower hinner
  | @compound c op quantifier left right v w all =>
    change get? (_ ++ _) "as" = none
    cases op <;> cases all <;> rfl
termination_by sizeOf q

/-- The value of an expression has no alias. -/
theorem Expr.unlabelled_lower (e : Expr) {v : Json} (h : e.lower x = .ok v) : v.Unlabelled := by
  cases Expr.lowered h with
  | literal hv => cases Literal.lowered hv <;> rfl
  | nested hv => exact Expr.unlabelled_lower _ hv
  | plus hv => exact Expr.unlabelled_lower _ hv
  | @cast _ _ a _ _ name hv =>
    have ha : a.Unlabelled := Expr.unlabelled_lower _ hv
    exact ha.tagged name
  | subquery hv => exact Query.unlabelled_lower hv
  | negative hv =>
    obtain ⟨n, rfl⟩ := exists_of_numberValue hv
    rfl
  | castText hv | typed hv => cases typedLiteral_of_typedValue hv <;> rfl
  | interval hv => cases typedLiteral_of_intervalValue hv <;> rfl
  | call name => exact unlabelled_callValue _ _ _
  | @case _ _ _ _ _ d =>
    change get? (_ ++ _) "as" = none
    cases d <;> rfl
  | _ => rfl
termination_by sizeOf e

/-- SQL text gives no alias to what it stands for. -/
theorem unlabelled_toQl {text : String} (h : toQl text = .ok v) : v.Unlabelled := by
  obtain ⟨x, c, -, hparses, hv⟩ := exists_parses h
  cases hparses with
  | query => exact Query.unlabelled_lower hv
  | expression => exact Expr.unlabelled_lower _ hv

end Sql

/-! ## Relations that are written out -/

/-- Whether a value is a relation that is written out, a view or a select. -/
def Json.isRelation (v : Json) : Bool := isType v .view || isType v .select

namespace QlObject

private theorem exists_of_isType {v : Json} (h : isType v kind = true) :
    ∃ F : Fields, v = .object F ∧ ofJson (.object F) = .ok ⟨F, kind⟩ := by
  unfold isType at h
  split at h
  · next F =>
    split at h
    · next name hname =>
      refine ⟨F, rfl, ?_⟩
      simp [ofJson, hname, ExpressionType.ofName, eq_of_beq h, Except.map]
    · cases h
  · cases h

/-- A value that is no object of a known kind is refused as an expression. -/
theorem exists_detail_of_ofJson {v : Json} {e : Error} (h : ofJson v = .error e) :
    ∃ detail, e = .invalidExpression detail := by
  unfold ofJson at h
  split at h
  · split at h
    · unfold ExpressionType.ofName at h
      split at h <;> cases h
      exact ⟨_, rfl⟩
    · cases h
      exact ⟨_, rfl⟩
  · cases h
    exact ⟨_, rfl⟩

private theorem string?_of_tag {tag : Tag} (h : obj.tag = .ok tag) :
    obj.string? "as" = .ok tag.label := by
  obtain ⟨label, hlabel, h⟩ := of_bind h
  obtain ⟨cast, -, h⟩ := of_bind h
  cases h
  exact hlabel

end QlObject

/-- A short expression stands for no select. -/
theorem Short.isType_expand {e : Short} {v : Json} (h : e.expand = .ok v) :
    isType v .select = false := by
  obtain ⟨base, label, cast, hstands, rfl⟩ := expand_ok_iff.mp h
  obtain ⟨F, kind, rfl, hF⟩ := hstands.plain
  obtain ⟨own, hown, -⟩ := hF.exists_cast
  have hread : ∀ {B G : Fields} {kind : ExpressionType}, get? B "type" = some (.string kind.name) →
      QlObject.SameBody ⟨B, kind⟩ ⟨G, kind⟩ → kind ≠ .select →
          isType (.object G) .select = false := by
    intro B G kind htype hbody hne
    have hB : ofJson (.object B) = .ok ⟨B, kind⟩ := by
      simp [ofJson, htype, ExpressionType.ofName_name, Except.map]
    by_contra hselect
    exact hne (type_of_isType (hbody.ofJson hB) (by simpa using hselect))
  obtain ⟨G, hG, ⟨htags, -⟩ | ⟨name, -, htags⟩⟩ := exists_tags kind hF.label hown label cast
  · rw [hG]
    exact hread hF.type htags.body hF.ne_select
  · rw [hG]
    exact hread rfl htags.body (by rintro ⟨⟩)

/-- A view with an alias refuses another. -/
theorem Node.fold_view_of_ne {view name : String} {isCte : Bool} (hname : name ≠ "")
    (hne : own ≠ name) :
    (Node.view view isCte (some own)).fold (some name) none =
      .error (.illegalAliasing s!"cannot alias as '{name}', already aliased as '{own}'") := by
  have hempty : name.isEmpty = false := by simpa using hname
  rw [fold_eq]
  simp [refusal?, aliasRefusal?, canAlias, alias?, tag, Option.filter_some, hempty, hne]

namespace Builder

variable {b : Builder} {n : Node}

/-- A view is named and has the alias of its object, which has no cast. -/
theorem view_ok_iff : view obj s = .ok n ↔
    ∃ name label, obj.checkKeys ["view"] = .ok () ∧ obj.string "view" = .ok name ∧ name ≠ "" ∧
      obj.tag = .ok ⟨label, none⟩ ∧ n = .view name (s.isCte name) label := by
  constructor
  · intro h
    obtain ⟨⟨⟩, hkeys, -⟩ := of_bind h
    obtain ⟨name, tag, hname, hne, htag, hfold⟩ := view_shape h
    obtain ⟨haccepts, rfl⟩ := Node.fold_ok_iff.mp hfold
    obtain ⟨label, _ | cast⟩ := tag
    · exact ⟨name, label, hkeys, hname, hne, htag, by cases label <;> rfl⟩
    · cases (haccepts.cast cast rfl).1
  · rintro ⟨name, label, hkeys, hname, hne, htag, rfl⟩
    have hview : viewOfName name s = .ok (.view name (s.isCte name) none) := by
      simp [viewOfName, hne]
    have haccepts : (Node.view name (s.isCte name) none).Accepts label none :=
      ⟨fun text htext => ⟨fun hempty => ne_empty_of_tag htag (hempty ▸ htext), rfl, .inl rfl⟩,
        by rintro _ ⟨⟩⟩
    have hfold := Node.fold_ok_iff.mpr ⟨haccepts, rfl⟩
    unfold view
    rw [hkeys, ok_bind, hname, ok_bind, hview, ok_bind, htag, ok_bind, hfold]
    cases label <;> rfl

/-- What is built and declared as a relation. -/
def declared (s : Scope) (node : Result Node) : Result (Node × Scope) := do
  let n ← node
  return (n, ← declare s n)

/-- A relation with an alias declares the alias. -/
theorem declare_of_alias? {name : String} (h : n.alias? = some name) :
    ∃ target, declare s n = s.withRef name target := by
  cases n with
  | view view isCte label =>
    cases h
    exact ⟨_, rfl⟩
  | _ =>
    refine ⟨.subquery, ?_⟩
    simp only [declare, declaration, h, ok_bind]

end Builder

/-! ## Texts with an alias -/

/-- A text and the value that it stands for, as a short expression or as SQL. -/
inductive Denotes : ExpressionType → String → Json → Prop
  | short {text e v} (parsed : Short.ofText text = .ok e) (expanded : e.expand = .ok v) :
      Denotes .short text v
  | sql {text v} (lowered : Sql.toQl text = .ok v) : Denotes .sql text v

/-- The fields of an object with a text and an alias, and without a cast. -/
structure Fields.LabelledText (F : Fields) (kind : ExpressionType) (text name : String) : Prop where
  type : ofJson (.object F) = .ok ⟨F, kind⟩
  keys : checkKeys ⟨F, kind⟩ ["value"] = .ok ()
  value : string ⟨F, kind⟩ "value" = .ok text
  label : string? ⟨F, kind⟩ "as" = .ok (some name)
  cast : string? ⟨F, kind⟩ "cast" = .ok none

namespace Build

open Builder (declared)

variable {options : ParseOptions} {t : Scope} {F : Fields} {v : Json}
  {n m : Node} {text name : String}

/-- A relation is what its expanded value is built to, declared. -/
theorem relation_of_normal {w : Json} {expanded : Bool}
    (h : normalizeRelation v = .ok (w, expanded)) :
    relation options v s lateral = declared s ((runner options []).relationNode w s lateral) := by
  unfold relation Builder.relation
  rw [h, ok_bind]
  cases expanded <;> rfl

private theorem relation_object (hF : ofJson (.object F) = .ok ⟨F, kind⟩)
    (hkind : kind = .view ∨ kind = .select) :
    relation options (.object F) s lateral =
      declared s ((runner options []).relationNode (.object F) s lateral) := by
  refine relation_of_normal (normalizeRelation_object hF ?_ ?_)
  all_goals
    obtain rfl | rfl := hkind <;> nofun

/-- The alias of a text goes onto the value that the text stands for. -/
theorem relation_labelled (hF : F.LabelledText kind text name) (hv : Denotes kind text v) :
    relation options (.object F) s lateral =
      declared s ((runner options []).relationNode (v.tagged (some name) none) s lateral) := by
  have hnormal : normalizeRelation (.object F) = .ok (v.tagged (some name) none, true) := by
    unfold normalizeRelation
    dsimp only
    rw [hF.type, ok_bind]
    cases hv with
    | short parsed expanded => simp [hF.keys, hF.value, parsed, expanded, hF.label, hF.cast]
    | sql lowered => simp [hF.keys, hF.value, lowered, hF.label, hF.cast]
  exact relation_of_normal hnormal

/-- What a relation is built to has the alias of its object. -/
theorem exists_tag_of_relationNode (hF : ofJson (.object F) = .ok ⟨F, kind⟩)
    (h : (runner options []).relationNode (.object F) s lateral = .ok n) :
    ∃ tag, QlObject.tag ⟨F, kind⟩ = .ok tag ∧ n.alias? = tag.label := by
  unfold relationNode at h
  dsimp only at h
  rw [hF, ok_bind] at h
  split at h
  · obtain ⟨view, label, -, -, -, htag, rfl⟩ := view_ok_iff.mp h
    exact ⟨_, htag, rfl⟩
  · change run options [] (.select (.range lateral)) (.object F) s = .ok n at h
    rw [run_eq_value (resolvable_nil options)] at h
    obtain ⟨obj, hobj, h⟩ := of_bind h
    rw [hF] at hobj
    cases hobj
    exact ⟨_, (select_tag h).2, rfl⟩
  · cases h

/-- A value that is no relation is none with an alias either. -/
theorem relationNode_tagged_of_not_isRelation (h : v.isRelation = false) (b : Builder) :
    ∃ detail, b.relationNode (v.tagged (some name) none) s lateral =
      .error (.invalidExpression detail) := by
  have hrelation : ∀ kind, kind = .view ∨ kind = .select →
      isType (.object v.taggable) kind = false := by
    intro kind hkind
    cases v with
    | object F =>
      obtain ⟨hview, hselect⟩ := Bool.or_eq_false_iff.mp h
      obtain rfl | rfl := hkind
      · exact hview
      · exact hselect
    | _ => obtain rfl | rfl := hkind <;> cbv
  change ∃ detail, b.relationNode (.object (insert v.taggable "as" (.string name))) s lateral = _
  unfold relationNode
  dsimp only
  cases hobj : ofJson (.object (insert v.taggable "as" (.string name))) with
  | error e =>
    obtain ⟨detail, rfl⟩ := exists_detail_of_ofJson hobj
    exact ⟨detail, rfl⟩
  | ok obj =>
    obtain ⟨hfields, word, hword, hkind⟩ := exists_of_ofJson hobj
    have htype : isType (.object v.taggable) obj.type = true := by
      rw [← Json.object.inj hfields, get?_insert, if_neg (by decide)] at hword
      simp [isType, hword, hkind]
    rw [ok_bind]
    split
    · next hview =>
      rw [hrelation obj.type (.inl hview)] at htype
      cases htype
    · next hselect =>
      rw [hrelation obj.type (.inr hselect)] at htype
      cases htype
    · exact ⟨_, rfl⟩

/-- A view keeps its name under another alias, and what it declares is a name for the same. -/
theorem relation_view_tagged (hF : ofJson (.object F) = .ok ⟨F, .view⟩)
    (h : relation options (.object F) s lateral = .ok (m, t)) (hname : name ≠ "") :
    ∃ view isCte label, m = .view view isCte label ∧
      relation options ((Json.object F).tagged (some name) none) s lateral =
        (s.withRef name (if isCte then .cte view else .view view)).map
        (.view view isCte (some name), ·) := by
  have hG : ofJson (.object (F.insert "as" (.string name))) =
    .ok ⟨F.insert "as" (.string name), .view⟩ :=
    (F.sameBody_insert .view (.inl rfl) _).ofJson hF
  have hnode : ∀ {G : Fields}, ofJson (.object G) = .ok ⟨G, .view⟩ →
      (runner options []).relationNode (.object G) s lateral = Builder.view ⟨G, .view⟩ s := by
    intro G hG
    unfold Builder.relationNode
    dsimp only
    rw [hG, ok_bind]
  rw [relation_object hF (.inl rfl), hnode hF] at h
  obtain ⟨k, hk, h⟩ := of_bind h
  obtain ⟨u, -, h⟩ := of_bind h
  cases h
  obtain ⟨view, label, hkeys, hview, hne, htag, rfl⟩ := Builder.view_ok_iff.mp hk
  have hbody := F.sameBody_insert .view (.inl rfl) (.string name)
  have hrelabelled : Builder.view ⟨F.insert "as" (.string name), .view⟩ s =
      .ok (.view view (s.isCte view) (some name)) :=
    Builder.view_ok_iff.mpr ⟨view, some name, (hbody.checkKeys _).trans hkeys,
      (hbody.string (by decide) (by decide)).trans hview, hne, tag_insert_label htag hname, rfl⟩
  refine ⟨view, s.isCte view, label, rfl, ?_⟩
  change relation options (.object (F.insert "as" (.string name))) s lateral = _
  rw [relation_object hG (.inl rfl), hnode hG, hrelabelled]
  change (s.withRef name _ >>= fun t => pure (_, t)) = _
  cases s.withRef name _ <;> rfl

/-- A relation that is built has the alias that its value is given, and declares it. -/
theorem alias?_of_relation_tagged (hG : ofJson (.object G) = .ok ⟨G, kind⟩)
    (hkind : kind = .view ∨ kind = .select) (hname : name ≠ "")
    (h : relation options ((Json.object G).tagged (some name) none) s lateral = .ok (n, t)) :
    n.alias? = some name ∧ ∃ target, s.withRef name target = .ok t := by
  have hinsert : ofJson (.object (G.insert "as" (.string name))) =
    .ok ⟨G.insert "as" (.string name), kind⟩ :=
    (G.sameBody_insert kind (.inl rfl) _).ofJson hG
  rw [show (Json.object G).tagged (some name) none =
    .object (G.insert "as" (.string name)) from rfl,
    relation_object hinsert hkind] at h
  obtain ⟨k, hk, h⟩ := of_bind h
  obtain ⟨u, hu, h⟩ := of_bind h
  cases h
  obtain ⟨tag, htag, hlabel⟩ := exists_tag_of_relationNode hinsert hk
  have hread : Except.ok (some name) = Except.ok tag.label :=
    (string?_insert_self hname).symm.trans (string?_of_tag htag)
  have halias : n.alias? = some name := hlabel.trans (Except.ok.inj hread).symm
  obtain ⟨target, htarget⟩ : ∃ target, Builder.declare s n = s.withRef name target :=
    Builder.declare_of_alias? halias
  exact ⟨halias, target, htarget.symm.trans hu⟩

/-- A relation that a text stands for has an alias of its own only if the text is a short
expression, and then it is a view. -/
theorem short_view_of_alias (hv : Denotes kind text (.object G)) {type : ExpressionType}
    (hG : ofJson (.object G) = .ok ⟨G, type⟩) (htype : type = .view ∨ type = .select)
    (h : relation options (.object G) s lateral = .ok (m, t)) (halias : m.alias? = some own) :
    kind = .short ∧ type = .view := by
  cases hv with
  | short parsed expanded =>
    refine ⟨rfl, htype.resolve_right fun hselect => ?_⟩
    have hno := Short.isType_expand expanded
    obtain ⟨-, word, hword, hkind⟩ := exists_of_ofJson hG
    simp [isType, hword, hkind, hselect] at hno
  | sql lowered =>
    rw [relation_object hG htype] at h
    obtain ⟨k, hk, h⟩ := of_bind h
    obtain ⟨u, -, h⟩ := of_bind h
    cases h
    obtain ⟨tag, htag, hlabel⟩ := exists_tag_of_relationNode hG hk
    have hget : Fields.get? G "as" = (none : Option String).map .string :=
      Sql.unlabelled_toQl lowered
    have hnone := ((string?_ok_iff hget).mp (string?_of_tag htag)).1
    rw [halias, hnone] at hlabel
    cases hlabel

/-- A text with an alias that stands for a relation becomes that relation under the alias, whatever
alias the relation has of its own. Another alias of its own can only be the one that a short
expression gives to a view; it is lost, where a fold of the second alias onto the view would be
refused. -/
theorem relation_relabels (hF : F.LabelledText kind text name) (hv : Denotes kind text v) :
    (v.isRelation = false → ∃ detail, relation options (.object F) s lateral =
      .error (.invalidExpression detail)) ∧
    (v.isRelation = true →
      relation options (.object F) s lateral =
        relation options (v.tagged (some name) none) s lateral ∧
      (∀ n t, relation options (.object F) s lateral = .ok (n, t) →
        n.alias? = some name ∧ ∃ target, s.withRef name target = .ok t) ∧
      ∀ m t own, relation options v s lateral = .ok (m, t) → m.alias? = some own → own ≠ name →
        kind = .short ∧ ∃ view isCte, m = .view view isCte (some own) ∧
          relation options (.object F) s lateral =
            (s.withRef name (if isCte then .cte view else .view view)).map
            (.view view isCte (some name), ·) ∧
          m.fold (some name) none =
            .error
              (.illegalAliasing s!"cannot alias as '{name}', already aliased as '{own}'")) := by
  have hname : name ≠ "" := fun hempty => ne_empty_of_string? hF.label (congrArg some hempty)
  have hlabelled : relation options (.object F) s lateral =
      declared s ((runner options []).relationNode (v.tagged (some name) none) s lateral) :=
        relation_labelled hF hv
  refine ⟨fun hnone => ?_, fun hrelation => ?_⟩
  · obtain ⟨detail, hdetail⟩ := relationNode_tagged_of_not_isRelation hnone (runner options [])
    exact ⟨detail, by rw [hlabelled, hdetail]; rfl⟩
  obtain ⟨type, htype, G, rfl, hG⟩ : ∃ type, (type = .view ∨ type = .select) ∧
      ∃ G : Fields, v = .object G ∧ ofJson (.object G) = .ok ⟨G, type⟩ := by
    obtain hview | hselect := Bool.or_eq_true_iff.mp hrelation
    · exact ⟨_, .inl rfl, exists_of_isType hview⟩
    · exact ⟨_, .inr rfl, exists_of_isType hselect⟩
  have hsame : relation options (.object F) s lateral =
      relation options ((Json.object G).tagged (some name) none) s lateral :=
    hlabelled.trans (relation_object ((G.sameBody_insert type (.inl rfl) _).ofJson hG) htype).symm
  rw [hsame]
  refine ⟨rfl, fun n t => alias?_of_relation_tagged hG htype hname, fun m t own h halias hne => ?_⟩
  obtain ⟨hkind, rfl⟩ := short_view_of_alias hv hG htype h halias
  obtain ⟨view, isCte, label, rfl, hview⟩ := relation_view_tagged hG h hname
  obtain rfl : label = some own := halias
  exact ⟨hkind, view, isCte, rfl, hview, Node.fold_view_of_ne hname hne⟩

/-- A common table under the alias of its short expression is given another one. -/
theorem relation_relabels_cte :
    ∃ F v s,
      F = [("type", .string "short"), ("value", .string "@view(c, as=b)"), ("as", .string "a")] ∧
      s = { ctes := ["c"], localCtes := ["c"], inSelect := true } ∧
      Fields.LabelledText F .short "@view(c, as=b)" "a" ∧ Denotes .short "@view(c, as=b)" v ∧
        v.isRelation = true ∧
      relation {} v s false = .ok
        (.view "c" true (some "b"), { s with refs := [("b", .cte "c")] }) ∧
      relation {} (.object F) s false = .ok
          (.view "c" true (some "a"), { s with refs := [("a", .cte "c")] }) := by
  have hF : Fields.LabelledText
    [("type", .string "short"), ("value", .string "@view(c, as=b)"), ("as", .string "a")]
      .short "@view(c, as=b)" "a" := by
    constructor <;> cbv
  have hv : Denotes .short "@view(c, as=b)"
      (.object [("type", .string "view"), ("view", .string "c"), ("as", .string "b")]) := by
    refine .short (e := .mk "view" [.string "c"] [("as", .string "b")]) ?_ ?_ <;> cbv
  have hrelation : Json.isRelation
    (.object [("type", .string "view"), ("view", .string "c"), ("as", .string "b")]) =
      true := by
    cbv
  have hown :
    relation {} (.object [("type", .string "view"), ("view", .string "c"), ("as", .string "b")])
      { ctes := ["c"], localCtes := ["c"], inSelect := true } false =
      .ok (.view "c" true (some "b"),
          { refs := [("b", .cte "c")], ctes := ["c"], localCtes := ["c"], inSelect := true }) := by
    cbv
  obtain ⟨-, -, hreplaced⟩ := (relation_relabels hF hv).2 hrelation
  obtain ⟨-, view, isCte, hview, hbuilt, -⟩ := hreplaced _ _ "b" hown rfl (by decide)
  cases hview
  exact ⟨_, _, _, rfl, rfl, hF, hv, hrelation, hown, hbuilt⟩

/-- The alias of a text takes the place of the one that its relation has, which no fold does. -/
theorem second_alias_replaces_first :
    relation {} (.object [("type", .string "short"), ("value", .string "@view(v, as=b)")])
      {} false =
        .ok (.view "v" false (some "b"), { refs := [("b", .view "v")] }) ∧
      (Node.view "v" false (some "b")).fold (some "a") none =
        .error (.illegalAliasing "cannot alias as 'a', already aliased as 'b'") ∧
      relation {}
        (.object
        [("type", .string "short"), ("value", .string "@view(v, as=b)"), ("as", .string "a")]) {}
        false = .ok (.view "v" false (some "a"), { refs := [("a", .view "v")] }) := by
  refine ⟨?_, rfl, ?_⟩ <;> cbv

end Build

end AnalyticQuery
