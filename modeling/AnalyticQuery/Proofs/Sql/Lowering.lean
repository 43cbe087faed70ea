import AnalyticQuery.Proofs.Tree.Parts

/-!
# Queries inside SQL expressions

An SQL expression may hold queries, in a test, as a subquery, or deep inside its operands. Each of
them is lowered, and its value is found inside the value of the expression, where it is built. An
expression is lowered to null exactly if it is `NULL`.
-/

namespace AnalyticQuery

open Json List QlObject Result

/-! ## Values with an alias or a cast -/

theorem Fields.get?_insert (F : Fields) (k key : String) (v : Json) :
    get? (F.insert k v) key = if k = key then some v else get? F key := by
  induction F with
  | nil => simp [insert]
  | cons field F ih =>
    obtain ⟨l, w⟩ := field
    by_cases hl : l = k
    · subst hl
      simp only [insert, beq_self_eq_true, if_true, get?_cons]
      split <;> rfl
    · have hbeq : (l == k) = false := by simpa using hl
      simp only [insert, hbeq, Bool.false_eq_true, if_false, get?_cons, ih]
      split
      · next hkey =>
        rw [if_neg]
        rintro rfl
        exact hl hkey
      · rfl

namespace Json

/-- An object whose field `type` names a kind is an object of that kind. -/
theorem object?_of_type {F : Fields} (type : ExpressionType)
    (h : Fields.get? F "type" = some (.string type.name)) : (object F).object? = .ok ⟨F, type⟩ := by
  simp [object?, taggable, ofJson, h, ExpressionType.ofName_name, Except.map]

/-- A value under an alias and a cast has the same body, or is what is cast once more. -/
theorem tagged_cases (v : Json) (label cast : Option String) :
    SameBody v (v.tagged label cast) ∨ Part (v.tagged label cast) (.object v.taggable) := by
  have hinsert : ∀ {F : Fields} {key : String} {w : Json}, key = "as" ∨ key = "cast" →
      SameBody (.object F) (.object (F.insert key w)) := by
    intro F key w hkey k halias hcast
    have hne : key ≠ k := by
      rintro rfl
      exact hkey.elim halias hcast
    simp only [taggable, Fields.get?_insert, if_neg hne]
  have hbody : SameBody v (.object v.taggable) := fun _ _ _ => rfl
  unfold tagged
  split
  · exact .inl (.refl v)
  cases cast with
  | none =>
    cases label with
    | none => exact .inl hbody
    | some name => exact .inl (hbody.trans (hinsert (.inl rfl)))
  | some cast =>
    have hcast : SameBody v (.object (withCast v.taggable cast)) ∨
        withCast v.taggable cast =
          [("type", .string "cast"), ("value", .object v.taggable), ("cast", .string cast)] := by
      unfold withCast
      split
      · split
        · exact .inl (hbody.trans (hinsert (.inr rfl)))
        · exact .inr rfl
      · exact .inl (hbody.trans (hinsert (.inr rfl)))
    obtain hcast | hcast := hcast
    · cases label with
      | none => exact .inl hcast
      | some name => exact .inl (hcast.trans (hinsert (.inl rfl)))
    · have hpart : Part (.object (withCast v.taggable cast)) (.object v.taggable) := by
        rw [hcast]
        exact .cast (object?_of_type .cast rfl) rfl (by simp [get?])
      cases label with
      | none => exact .inr hpart
      | some name => exact .inr (hpart.sameBody (hinsert (.inl rfl)))

/-- What is inside a value is inside it under an alias and a cast. -/
theorem Reaches.tagged {u v : Json} (h : Reaches v u) (label cast : Option String) :
    Reaches (v.tagged label cast) u := by
  obtain hsame | hpart := tagged_cases v label cast
  · exact h.sameBody hsame
  · exact .head hpart (h.sameBody fun _ _ _ => rfl)

end Json

namespace Sql

/-! ## Null -/

/-- Whether an expression is `NULL`, maybe in parentheses or after a plus sign. -/
def Expr.isNull : Expr → Bool
  | .literal .null => true
  | .nested e => e.isNull
  | .unary op e => op == "+" && e.isNull
  | _ => false

variable {x : Extracted}

theorem exists_of_numberValue {text : String} {v : Json} (h : numberValue text = .ok v) :
    ∃ n, v = .number n := by
  unfold numberValue at h
  split at h
  · cases h
    exact ⟨_, rfl⟩
  · split at h <;> cases h
    exact ⟨_, rfl⟩

/-- The values of literals with a type. -/
inductive TypedLiteral : Json → Prop
  | text (text : String) (cast : CastType) : TypedLiteral (Temporal.castLiteral text cast)
  | geometry (text : String) :
      TypedLiteral (.object [("type", .string "geometry"), ("geometryType", .string "wkt"),
      ("args", .array [.string text])])

private theorem typedLiteral_of_lowerLiteral {text : String} {cast : CastType} {v : Json}
    (h : Temporal.lowerLiteral text cast = .ok (some v)) : TypedLiteral v := by
  unfold Temporal.lowerLiteral at h
  split at h
  · split at h <;> cases h
    exact .text _ _
  · obtain ⟨_, -, h⟩ := of_bind h
    cases h
    exact .text _ _
  · split at h
    · cases h
      exact .text _ _
    · obtain ⟨_, -, h⟩ := of_bind h
      cases h
      exact .text _ _
  · obtain ⟨_, -, h⟩ := of_bind h
    cases h
    exact .text _ _
  · cases h
    exact .geometry text
  · cases h

theorem typedLiteral_of_typedValue {type text : String} {v : Json}
    (h : typedValue type text = .ok v) :
    TypedLiteral v := by
  obtain ⟨cast, -, h⟩ := of_bind h
  obtain ⟨o, ho, h⟩ := of_bind h
  split at h
  · cases h
    exact typedLiteral_of_lowerLiteral ho
  · cases h
    exact .text text cast

theorem typedLiteral_of_intervalValue {text : String} {unit : Option String} {v : Json}
    (h : intervalValue text unit = .ok v) : TypedLiteral v := by
  obtain ⟨o, ho, h⟩ := of_bind h
  split at h
  · cases h
    exact typedLiteral_of_lowerLiteral ho
  · cases h

theorem TypedLiteral.isNull {v : Json} (h : TypedLiteral v) : v.isNull = false := by
  cases h <;> rfl

/-- A literal and its value. -/
inductive Literal.Lowered (x : Extracted) : Literal → Json → Prop
  | number {digits long} (n : Number) : Lowered x (.number digits long) (.number n)
  | string {form} (text : String) : Lowered x (.string form text) (.string text)
  | bool (value : Bool) : Lowered x (.bool value) (.bool value)
  | null : Lowered x .null .null
  | placeholder {text short} (found : x.short? text = some short) :
      Lowered x (.placeholder text) (shortValue short)

theorem Literal.lowered {l : Literal} {v : Json} (h : l.lower x = .ok v) : l.Lowered x v := by
  cases l with
  | number digits long =>
    obtain ⟨n, rfl⟩ := exists_of_numberValue h
    exact .number n
  | string form text =>
    cases form
    case plain | escaped =>
      cases h
      exact .string text
    all_goals cases h
  | quoted text => cases h
  | bool value =>
    cases h
    exact .bool value
  | null =>
    cases h
    exact .null
  | placeholder text =>
    simp only [Literal.lower] at h
    split at h
    · next found =>
      cases h
      exact .placeholder found
    · cases h

private theorem isNull_tagged (v : Json) (label : Option String) (cast : String) :
    (v.tagged label (some cast)).isNull = false := by
  cases label <;> rfl

private theorem isNull_literal {l : Literal} {v : Json} (h : l.lower x = .ok v) :
    v.isNull = (Expr.literal l).isNull := by
  cases Literal.lowered h <;> rfl

private theorem isNull_callValue (name : String) (args : List Json) (distinct : Bool) :
    (callValue name args distinct).isNull = false := by
  unfold callValue
  split <;> rfl

/-- What gives the rows of a query, and its value. -/
inductive Body.Lowered (x : Extracted) : Body → Json → Prop
  | select {s F} : lowerSelect x s = .ok F → Lowered x (.select s) (.object F)
  | nested {q v} : q.lower x = .ok v → Lowered x (.nested q) v
  | compound {op quantifier left right v w} (all : Bool) :
      left.lower x = .ok v → right.lower x = .ok w →
      Lowered x (.compound op quantifier left right)
        (.object ([("type", .string "select"), (op.name, .array [v, w])] ++
          if all then [("all", .bool true)] else []))

theorem Body.lowered {b : Body} {v : Json} (h : b.lower x = .ok v) : b.Lowered x v := by
  rw [Body.lower.eq_def] at h
  cases b with
  | select s =>
    dsimp only at h
    rw [map_eq_pure_bind] at h
    obtain ⟨F, hF, h⟩ := of_bind h
    cases h
    exact .select hF
  | nested q => exact .nested h
  | compound op quantifier left right =>
    obtain ⟨all, -, h⟩ := of_bind h
    obtain ⟨a, ha, h⟩ := of_bind h
    obtain ⟨b, hb, h⟩ := of_bind h
    cases h
    exact .compound all ha hb
  | values | «foreign» => cases h

/-- The value of a query is that of its body with fields for what stands around it. -/
theorem exists_of_lower {c : QueryClauses Expr Body Query} {v : Json}
    (h : (Query.mk c).lower x = .ok v) :
    ∃ w withs orders limit offset, c.body.lower x = .ok w ∧ lowerCtes x c.ctes = .ok withs ∧
      lowerSorts x c.orderBy = .ok orders ∧ countValue? x "LIMIT" c.limit = .ok limit ∧
      countValue? x "OFFSET" c.offset = .ok offset ∧
        (c.body.isCombined = true → c.hasTail = false) ∧
      v = extended w (listField? "with" withs ++ listField? "orderBy" orders ++ field? "limit" limit
        ++ field? "offset" offset) := by
  obtain ⟨recursive, ctes, body, orderBy, limit, offset, rows, fetch, locks, forClause⟩ := c
  rw [Query.lower] at h
  obtain ⟨_, -, h⟩ := of_bind h
  split at h
  · cases h
  next htail =>
  obtain ⟨w, hw, h⟩ := of_bind h
  split at h
  · cases h
  obtain ⟨withs, hwiths, h⟩ := of_bind h
  obtain ⟨orders, horders, h⟩ := of_bind h
  obtain ⟨limitValue, hlimit, h⟩ := of_bind h
  obtain ⟨offsetValue, hoffset, h⟩ := of_bind h
  cases h
  exact ⟨w, withs, orders, limitValue, offsetValue, hw, hwiths, horders, hlimit, hoffset,
    fun hbody => by simpa [hbody] using htail, rfl⟩

/-- Whether a value is an object with a select. -/
def IsSelect (v : Json) : Prop := ∃ F, v = .object F ∧
    Fields.get? F "type" = some (.string "select")

theorem IsSelect.extended {v : Json} (h : IsSelect v) (more : Fields) :
    IsSelect (extended v more) := by
  obtain ⟨F, rfl, htype⟩ := h
  exact ⟨F ++ more, rfl, by simp [htype]⟩

mutual

/-- The value of a query is an object with a select. -/
theorem Query.isSelect_lower : ∀ (q : Query) {v : Json}, q.lower x = .ok v → IsSelect v
  | .mk ⟨_, _, body, _, _, _, _, _, _, _⟩, v, h => by
    obtain ⟨w, _, _, _, _, hw, -, -, -, -, -, rfl⟩ := exists_of_lower h
    exact (Body.isSelect_lower body hw).extended _

/-- The value of what gives the rows of a query is an object with a select. -/
theorem Body.isSelect_lower : ∀ (body : Body) {v : Json}, body.lower x = .ok v → IsSelect v
  | .select ⟨_, _, _, _, _, _, _, _, _, _, _, _, _⟩, v, h => by
    rw [Body.lower, lowerSelect, map_eq_pure_bind] at h
    obtain ⟨F, hF, h⟩ := of_bind h
    obtain ⟨_, -, hF⟩ := of_bind hF
    obtain ⟨_, -, hF⟩ := of_bind hF
    obtain ⟨_, -, hF⟩ := of_bind hF
    obtain ⟨_, -, hF⟩ := of_bind hF
    obtain ⟨_, -, hF⟩ := of_bind hF
    obtain ⟨_, -, hF⟩ := of_bind hF
    obtain ⟨_, -, hF⟩ := of_bind hF
    cases hF
    cases h
    exact ⟨_, rfl, by simp⟩
  | .nested query, v, h => by
    cases Body.lowered h with
    | nested hq => exact Query.isSelect_lower query hq
  | .compound op quantifier left right, v, h => by
    cases Body.lowered h
    exact ⟨_, rfl, by simp⟩
  | .values text, v, h | .foreign text, v, h => by cases Body.lowered h

end

/-! ## Values of expressions -/

/-- The values of the arguments of a call. -/
inductive LoweredArguments (x : Extracted) : CallArguments Expr Query → List Json → Bool → Prop
  | absent : LoweredArguments x .absent [] false
  | list {multiplicity args values name} :
      lowerArguments x name (args.length == 1) args = .ok values →
      LoweredArguments x (.list multiplicity args []) values (multiplicity == some .distinct)

/-- An expression and its value: the value of each kind of expression from the values of its
parts. -/
inductive Expr.Lowered (x : Extracted) : Expr → Json → Prop
  | column (column : Ident) : Lowered x (.column [column]) (columnValue column.text none)
  | qualified (view column : Ident) :
      Lowered x (.column [view, column]) (columnValue column.text (some view.text))
  | literal {l v} : l.lower x = .ok v → Lowered x (.literal l) v
  | nested {e v} : e.lower x = .ok v → Lowered x (.nested e) v
  | junction {left right a b op name} : (op = "AND" ∧ name = "and") ∨ (op = "OR" ∧ name = "or") →
      left.lower x = .ok a → right.lower x = .ok b →
        Lowered x (.binary left op right) (junction name [a, b])
  | binary {left right a b op} (name : String) : left.lower x = .ok a → right.lower x = .ok b →
      Lowered x (.binary left op right) (operation name [a, b])
  | negative {digits long v} : numberValue ("-" ++ digits) = .ok v →
      Lowered x (.unary "-" (.literal (.number digits long))) v
  | plus {e v} : e.lower x = .ok v → Lowered x (.unary "+" e) v
  | unary {e a op} (name : String) : op ≠ "+" → e.lower x = .ok a →
      Lowered x (.unary op e) (operation name [a])
  | is {e a negated value} (name : String) : e.lower x = .ok a →
      Lowered x (.is e negated value) (operation name [a, (value.map bool).getD .null])
  | between {e low high a b c negated} (name : String) : e.lower x = .ok a → low.lower x = .ok b →
      high.lower x = .ok c → Lowered x (.between e negated low high) (operation name [a, b, c])
  | inList {e a items values negated} (name : String) :
      lowerExprs x items = .ok values → e.lower x = .ok a →
      Lowered x (.inList e negated items) (operation name [a, listOf values])
  | inQuery {e a query v negated} (name : String) : e.lower x = .ok a → query.lower x = .ok v →
      Lowered x (.inQuery e negated query) (operation name [a, v])
  | exists {query v negated} (name : String) : query.lower x = .ok v →
      Lowered x (.exists negated query) (operation name [v])
  | subquery {query v} : query.lower x = .ok v → Lowered x (.subquery query) v
  | like {e pattern a b negated anyCase anyOf} (name : String) :
      e.lower x = .ok a → pattern.lower x = .ok b →
      Lowered x (.like e negated anyCase anyOf pattern none) (operation name [a, b])
  | quantified {left right a b op word} (name qualifier : String) : left.lower x = .ok a →
      right.lower x = .ok b → Lowered x (.quantified left op word right)
        (.object
          [("type", .string "operator"), ("value", .string name), ("operands", .array [a, b]),
          ("qualifier", .string qualifier)])
  | case {operand branches otherwise o cases d} : lowerExpr? x operand = .ok o →
      lowerBranches x o branches = .ok cases → lowerExpr? x otherwise = .ok d →
      Lowered x (.case operand branches otherwise)
        (.object ([("type", .string "case"), ("cases", .array cases)] ++ field? "defaultCase" d))
  | castText {form text type format v} : typedValue type text = .ok v →
      Lowered x (.cast form (.literal (.string .plain text)) type format) v
  | cast {form e a type format} (name : String) : e.lower x = .ok a →
      Lowered x (.cast form e type format) (a.tagged none (some name))
  | typed {type text v} : typedValue type text = .ok v → Lowered x (.typed type text) v
  | interval {text unit precision v} : intervalValue text unit = .ok v →
      Lowered x (.interval (.literal (.string .plain text)) unit precision) v
  | call {ident args clauses values distinct} (name : String) :
      LoweredArguments x args values distinct →
      Lowered x (.call [ident] args clauses) (callValue name values distinct)
  | extract {e a} (field name : String) : e.lower x = .ok a →
      Lowered x (.extract field e) (application "date_part" [.string name, a])
  | substring {e start length a b c commas} : e.lower x = .ok a → lowerExpr? x start = .ok b →
      lowerExpr? x length = .ok c →
      Lowered x (.substring e start length commas)
        (application "substring" (a :: b.getD (.nat 1) :: c.toList))
  | rounding {e a up unit} (name : String) : e.lower x = .ok a →
      Lowered x (.rounding up e unit) (application name [a])
  | array {items values named} : lowerExprs x items = .ok values →
      Lowered x (.array named items) (.array values)
  | row {items values} : lowerExprs x items = .ok values → Lowered x (.row items) (listOf values)

private theorem loweredArguments {name text : String} {args : CallArguments Expr Query} {v : Json}
    (h : lowerCall x name text args = .ok v) :
    ∃ values distinct, LoweredArguments x args values distinct ∧
      v = callValue name values distinct := by
  cases args with
  | absent =>
    rw [lowerCall] at h
    cases h
    exact ⟨[], false, .absent, rfl⟩
  | query query =>
    rw [lowerCall] at h
    cases h
  | list multiplicity args clauses =>
    rw [lowerCall] at h
    split at h
    · next hclauses =>
      obtain ⟨values, hvalues, h⟩ := of_bind h
      cases h
      rw [isEmpty_iff.mp hclauses]
      exact ⟨values, _, .list hvalues, rfl⟩
    · cases h

/-- What an expression is lowered to. -/
theorem Expr.lowered {e : Expr} {v : Json} (h : e.lower x = .ok v) : e.Lowered x v := by
  rw [Expr.lower.eq_def] at h
  cases e with
  | column name =>
    dsimp only at h
    split at h
    · cases h; exact .column _
    · cases h; exact .qualified _ _
    · cases h
  | literal l => exact .literal h
  | nested e => exact .nested h
  | binary left op right =>
    dsimp only at h
    split at h
    · obtain ⟨a, ha, h⟩ := of_bind h
      obtain ⟨b, hb, h⟩ := of_bind h
      cases h
      exact .junction (.inl ⟨rfl, rfl⟩) ha hb
    · obtain ⟨a, ha, h⟩ := of_bind h
      obtain ⟨b, hb, h⟩ := of_bind h
      cases h
      exact .junction (.inr ⟨rfl, rfl⟩) ha hb
    · obtain ⟨name, -, h⟩ := of_bind h
      obtain ⟨a, ha, h⟩ := of_bind h
      obtain ⟨b, hb, h⟩ := of_bind h
      cases h
      exact .binary name ha hb
  | unary op e =>
    dsimp only at h
    split at h
    · exact .negative h
    · obtain ⟨a, ha, h⟩ := of_bind h
      cases h
      exact .unary _ (by decide) ha
    · exact .plus h
    · obtain ⟨a, ha, h⟩ := of_bind h
      cases h
      exact .unary _ (by decide) ha
    · cases h
  | is e negated value =>
    obtain ⟨a, ha, h⟩ := of_bind h
    cases value <;> cases h <;> exact .is _ ha
  | between e negated low high =>
    obtain ⟨a, ha, h⟩ := of_bind h
    obtain ⟨b, hb, h⟩ := of_bind h
    obtain ⟨c, hc, h⟩ := of_bind h
    cases h
    exact .between _ ha hb hc
  | inList e negated items =>
    obtain ⟨values, hvalues, h⟩ := of_bind h
    obtain ⟨a, ha, h⟩ := of_bind h
    cases h
    exact .inList _ hvalues ha
  | inQuery e negated query =>
    obtain ⟨a, ha, h⟩ := of_bind h
    obtain ⟨v, hv, h⟩ := of_bind h
    cases h
    exact .inQuery _ ha hv
  | «exists» negated query =>
    obtain ⟨v, hv, h⟩ := of_bind h
    cases h
    exact .exists _ hv
  | subquery query => exact .subquery h
  | like e negated anyCase anyOf pattern escape =>
    dsimp only at h
    split at h
    · cases h
    next hescape =>
    obtain ⟨a, ha, h⟩ := of_bind h
    obtain ⟨b, hb, h⟩ := of_bind h
    cases h
    cases escape with
    | none => exact .like _ ha hb
    | some => exact absurd rfl hescape
  | quantified left op word right =>
    obtain ⟨name, -, h⟩ := of_bind h
    obtain ⟨a, ha, h⟩ := of_bind h
    obtain ⟨b, hb, h⟩ := of_bind h
    cases h
    exact .quantified _ _ ha hb
  | case operand branches otherwise =>
    obtain ⟨o, ho, h⟩ := of_bind h
    obtain ⟨cases', hcases, h⟩ := of_bind h
    obtain ⟨d, hd, h⟩ := of_bind h
    cases h
    exact .case ho hcases hd
  | cast form e type format =>
    dsimp only at h
    split at h
    · cases h
    split at h
    · exact .castText h
    · obtain ⟨cast, -, h⟩ := of_bind h
      obtain ⟨a, ha, h⟩ := of_bind h
      cases h
      exact .cast _ ha
  | typed type text => exact .typed h
  | interval value unit precision =>
    dsimp only at h
    split at h
    · exact .interval h
    · cases h
  | call name args clauses =>
    dsimp only at h
    split at h
    · obtain ⟨_, -, h⟩ := of_bind h
      obtain ⟨values, distinct, hvalues, rfl⟩ := loweredArguments h
      exact .call _ hvalues
    · cases h
  | extract field e =>
    obtain ⟨a, ha, h⟩ := of_bind h
    cases h
    exact .extract _ _ ha
  | substring e start length commas =>
    obtain ⟨a, ha, h⟩ := of_bind h
    obtain ⟨b, hb, h⟩ := of_bind h
    obtain ⟨c, hc, h⟩ := of_bind h
    cases h
    exact .substring ha hb hc
  | rounding up e unit =>
    obtain ⟨a, ha, h⟩ := of_bind h
    cases h
    exact .rounding _ ha
  | array named items =>
    obtain ⟨values, hvalues, h⟩ := of_bind h
    cases h
    exact .array hvalues
  | row items =>
    obtain ⟨values, hvalues, h⟩ := of_bind h
    cases h
    exact .row hvalues
  | «foreign» text => cases h

/-- An expression is lowered to null exactly if it is `NULL`. -/
theorem Expr.isNull_lower {e : Expr} {v : Json} (h : e.lower x = .ok v) : v.isNull = e.isNull := by
  fun_induction Expr.isNull e generalizing v with
  | case1 =>
    cases Expr.lowered h with
    | literal hl => exact isNull_literal hl
  | case2 e ih =>
    cases Expr.lowered h with
    | nested hv => exact ih hv
  | case3 op e ih =>
    cases Expr.lowered h with
    | negative hv =>
      obtain ⟨n, rfl⟩ := exists_of_numberValue hv
      rfl
    | plus hv => exact ih hv
    | unary name hop hv =>
      have hop : (op == "+") = false := by simpa using hop
      rw [hop]
      rfl
  | case4 e hliteral hnested hunary =>
    cases Expr.lowered h with
    | @literal l v hl =>
      rw [isNull_literal hl]
      cases l with
      | null => exact absurd rfl hliteral
      | _ => rfl
    | nested => exact absurd rfl (hnested _)
    | negative | plus | unary => exact absurd rfl (hunary _ _)
    | subquery hv =>
      obtain ⟨F, rfl, -⟩ := Query.isSelect_lower _ hv
      rfl
    | castText hv | typed hv => exact (typedLiteral_of_typedValue hv).isNull
    | cast name hv => exact isNull_tagged _ _ _
    | interval hv => exact (typedLiteral_of_intervalValue hv).isNull
    | call name hv => exact isNull_callValue _ _ _
    | _ => rfl

/-! ## Queries inside expressions -/

/-- The expressions among the arguments of a call. -/
def CallArguments.exprs : CallArguments Expr Query → List Expr
  | .list _ args _ => args.filterMap fun
    | .expr e => some e
    | _ => none
  | _ => []

namespace Expr

/-- The expressions directly inside an expression. The operand of a case is compared with each
condition. -/
def children : Expr → List Expr
  | .nested e | .unary _ e | .is e _ _ | .inQuery e _ _ | .cast _ e _ _ | .interval e _
      _ | .extract _ e
  | .rounding _ e _ => [e]
  | .binary left _ right | .quantified left _ _ right => [left, right]
  | .between e _ low high => [e, low, high]
  | .inList e _ items => e :: items
  | .like e _ _ _ pattern _ => [e, pattern]
  | .case operand branches otherwise =>
    branches.flatMap (fun b => operand.toList ++ [b.1, b.2]) ++ otherwise.toList
  | .call _ args _ => args.exprs
  | .substring e start length _ => e :: start.toList ++ length.toList
  | .array _ items | .row items => items
  | _ => []

/-- The query that an expression is, or tests. -/
def query? : Expr → Option Query
  | .inQuery _ _ query | .exists _ query | .subquery query => some query
  | _ => none

/-- Whether a query is inside an expression, but in no other query inside it. -/
inductive Holds : Expr → Query → Prop
  | here {e query} : e.query? = some query → Holds e query
  | inside {e c query} : c ∈ e.children → Holds c query → Holds e query

end Expr

/-- Whether a value has values inside it, as an array or an object. -/
def isNested : Json → Bool
  | .array _ | .object _ => true
  | _ => false

/-- Whether what is inside a value is inside another one. -/
def Carries (v w : Json) : Prop :=
  isNested w = true → isNested v = true ∧ ∀ u, w.Reaches u → v.Reaches u

theorem Carries.refl (v : Json) : Carries v v := fun h => ⟨h, fun _ hu => hu⟩

theorem Carries.trans {u v w : Json} (h : Carries u v) (h' : Carries v w) : Carries u w := by
  intro hw
  obtain ⟨hv, hvw⟩ := h' hw
  obtain ⟨hu, huv⟩ := h hv
  exact ⟨hu, fun k hk => huv k (hvw k hk)⟩

private theorem carries_of_part {v w : Json} (hv : isNested v = true) (h : v.Part w) :
    Carries v w :=
  fun _ => ⟨hv, fun _ hu => .head h hu⟩

section Parts

variable {values : List Json} {v w : Json}

private theorem carries_operation (name : String) (hw : w ∈ values) :
    Carries (operation name values) w :=
  carries_of_part rfl (.item (object?_of_type .operator rfl) rfl (by simp [get?]) hw)

private theorem carries_junction {op name : String}
    (hname : (op = "AND" ∧ name = "and") ∨ (op = "OR" ∧ name = "or")) (hw : w ∈ values) :
    Carries (junction name values) w := by
  refine carries_of_part rfl ?_
  obtain ⟨-, rfl⟩ | ⟨-, rfl⟩ := hname
  · exact .item (object?_of_type .and rfl) rfl (by simp [get?]) hw
  · exact .item (object?_of_type .or rfl) rfl (by simp [get?]) hw

private theorem carries_application (name : String) (hw : w ∈ values) :
    Carries (application name values) w :=
  carries_of_part rfl (.item (object?_of_type .function rfl) rfl (by simp [get?]) hw)

private theorem carries_listOf (hw : w ∈ values) : Carries (listOf values) w :=
  carries_of_part rfl (.item (object?_of_type .list rfl) rfl (by simp [get?]) hw)

private theorem carries_array (hw : w ∈ values) : Carries (.array values) w :=
  carries_of_part rfl (.item (object?_of_type .array rfl) rfl (by simp [get?]) hw)

/-- The arguments of a call are parts of its value, but for the text that names a geometry type. -/
theorem carries_callValue (name : String) (distinct : Bool) (hw : w ∈ values) :
    Carries (callValue name values distinct) w := by
  intro hnested
  unfold callValue
  split
  · next type rest =>
    obtain rfl | hw := mem_cons.mp hw
    · cases hnested
    · exact carries_of_part rfl
        (.item (object?_of_type .geometry rfl) rfl (by simp [get?]) hw) hnested
  · refine carries_of_part rfl
      (.item (object?_of_type .function rfl) rfl (by simp [get?]) hw) hnested

private theorem carries_tagged (v : Json) (name : String) : Carries (v.tagged none (some name)) v :=
  fun _ => ⟨rfl, fun _ hu => hu.tagged _ _⟩

end Parts

theorem forall₂_of_lowerExprs {es : List Expr} {vs : List Json} (h : lowerExprs x es = .ok vs) :
    List.Forall₂ (fun e v => e.lower x = .ok v) es vs := by
  have heq : ∀ es, lowerExprs x es = es.mapM (Expr.lower x) := by
    intro es
    induction es with
    | nil => rw [lowerExprs]; rfl
    | cons e es ih => rw [lowerExprs, ih, mapM_cons]
  rwa [heq, mapM_eq_ok_iff] at h

theorem exists_of_lowerExpr? {e : Expr} {o : Option Expr} {w : Option Json}
    (h : lowerExpr? x o = .ok w) (he : e ∈ o) : ∃ v, e.lower x = .ok v ∧ w = some v := by
  cases he
  rw [lowerExpr?] at h
  cases hv : e.lower x with
  | error => rw [hv] at h; cases h
  | ok v => rw [hv] at h; cases h; exact ⟨v, rfl, rfl⟩

private theorem exists_of_lowerArguments {name : String} {single : Bool}
    {args : List (CallArgument Expr)} {values : List Json} {e : Expr}
    (h : lowerArguments x name single args = .ok values) (he : .expr e ∈ args) :
    ∃ v ∈ values, e.lower x = .ok v := by
  induction args generalizing values with
  | nil => cases he
  | cons arg args ih =>
    cases arg with
    | expr e' =>
      rw [lowerArguments] at h
      obtain ⟨v, hv, h⟩ := of_bind h
      obtain ⟨rest, hrest, h⟩ := of_bind h
      cases h
      obtain he | he := mem_cons.mp he
      · cases he
        exact ⟨v, mem_cons_self, hv⟩
      · obtain ⟨w, hw, hlower⟩ := ih hrest he
        exact ⟨w, mem_cons_of_mem _ hw, hlower⟩
    | wildcard =>
      rw [lowerArguments] at h
      split at h
      · obtain he | he := mem_cons.mp he
        · cases he
        · exact ih h he
      · cases h
    | «foreign» text =>
      rw [lowerArguments] at h
      cases h

/-- A branch of a case has its condition and its result in its value; an operand is compared with
the condition. -/
theorem exists_of_lowerBranches {operand : Option Json} {branches : List (Expr × Expr)}
    {cases : List Json} {b : Expr × Expr} (h : lowerBranches x operand branches = .ok cases)
    (hb : b ∈ branches) :
    ∃ condition c r, b.1.lower x = .ok c ∧ b.2.lower x = .ok r ∧ .array [condition, r] ∈ cases ∧
      Carries condition c ∧ ∀ o ∈ operand, Carries condition o := by
  induction branches generalizing cases with
  | nil => cases hb
  | cons b' branches ih =>
    obtain ⟨e, e'⟩ := b'
    rw [lowerBranches] at h
    obtain ⟨c, hc, h⟩ := of_bind h
    obtain ⟨r, hr, h⟩ := of_bind h
    obtain ⟨rest, hrest, h⟩ := of_bind h
    cases h
    obtain rfl | hb := mem_cons.mp hb
    · refine ⟨_, c, r, hc, hr, mem_cons_self, ?_⟩
      cases operand with
      | none => exact ⟨.refl c, by simp⟩
      | some o =>
        refine ⟨carries_operation "=" (by simp), ?_⟩
        rintro _ ⟨⟩
        exact carries_operation "=" (by simp)
    · obtain ⟨condition, c', r', hc', hr', hmem, hcarries⟩ := ih hrest hb
      exact ⟨condition, c', r', hc', hr', mem_cons_of_mem _ hmem, hcarries⟩

namespace Expr

/-- An expression directly inside another one is a literal, or its value is inside the value of the
other one. -/
theorem Lowered.child {e c : Expr} {v : Json} (h : e.Lowered x v) (hc : c ∈ e.children) :
    (∃ l, c = .literal l) ∨ ∃ w, c.lower x = .ok w ∧ Carries v w := by
  have hparts : ∀ {es : List Expr} {ws : List Json},
    List.Forall₂ (fun e w => e.lower x = .ok w) es ws → c ∈ es →
      (∀ w ∈ ws, Carries v w) → (∃ l, c = .literal l) ∨ ∃ w, c.lower x = .ok w ∧ Carries v w := by
    intro es ws hws hc hcarries
    obtain ⟨w, hw, hlower⟩ := exists_of_forall₂ hws hc
    exact .inr ⟨w, hlower, hcarries w hw⟩
  cases h with
  | column | qualified | literal | «exists» | subquery | typed => cases hc
  | negative | castText | interval =>
    obtain rfl := mem_singleton.mp hc
    exact .inl ⟨_, rfl⟩
  | nested ha | plus ha => exact hparts (.cons ha .nil) hc (forall_mem_singleton.mpr (.refl _))
  | junction hname ha hb =>
    exact hparts (.cons ha (.cons hb .nil)) hc fun _ => carries_junction hname
  | binary name ha hb | like name ha hb =>
    exact hparts (.cons ha (.cons hb .nil)) hc fun _ => carries_operation name
  | unary name _ ha => exact hparts (.cons ha .nil) hc fun _ => carries_operation name
  | is name ha | inQuery name ha _ =>
    exact hparts (.cons ha .nil) hc
      (forall_mem_singleton.mpr (carries_operation name mem_cons_self))
  | between name ha hb hd =>
    exact hparts (.cons ha (.cons hb (.cons hd .nil))) hc fun _ => carries_operation name
  | inList name hvalues ha =>
    obtain rfl | hc := mem_cons.mp hc
    · exact .inr ⟨_, ha, carries_operation name (by simp)⟩
    · exact hparts (forall₂_of_lowerExprs hvalues) hc fun w hw =>
        (carries_operation name (by simp)).trans (carries_listOf hw)
  | quantified name qualifier ha hb =>
    exact hparts (.cons ha (.cons hb .nil)) hc fun _ hw =>
      carries_of_part rfl (.item (object?_of_type .operator rfl) rfl (by simp [get?]) hw)
  | @case operand branches otherwise o cases d ho hcases hd =>
    have hcase : (object ([("type", .string "case"), ("cases", .array cases)] ++
        field? "defaultCase" d)).object? = .ok _ := object?_of_type .case rfl
    simp only [children, mem_append, mem_flatMap, mem_cons, not_mem_nil, or_false,
      Option.mem_toList] at hc
    obtain ⟨b, hb, hc⟩ | hc := hc
    · obtain ⟨condition, c₁, r, hc₁, hr, hmem, hcondition, hoperand⟩ :=
        exists_of_lowerBranches hcases hb
      have hbranch : ∀ w ∈ [condition, r], Carries _ w := fun w hw =>
        carries_of_part rfl (.branch hcase rfl (by simp [get?]) hmem hw)
      obtain hc | rfl | rfl := hc
      · obtain ⟨w, hw, rfl⟩ := exists_of_lowerExpr? ho hc
        exact .inr ⟨w, hw, (hbranch condition (by simp)).trans (hoperand w rfl)⟩
      · exact .inr ⟨c₁, hc₁, (hbranch condition (by simp)).trans hcondition⟩
      · exact .inr ⟨r, hr, hbranch r (by simp)⟩
    · obtain ⟨w, hw, rfl⟩ := exists_of_lowerExpr? hd hc
      refine .inr ⟨w, hw, fun hnested => ?_⟩
      refine carries_of_part rfl (.otherwise hcase rfl ?_) hnested
      cases w <;> simp_all [get?, field?, isNested]
  | cast name ha => exact hparts (.cons ha .nil) hc (forall_mem_singleton.mpr (carries_tagged _ _))
  | call name hvalues =>
    cases hvalues with
    | absent => cases hc
    | list hvalues =>
      obtain ⟨arg, harg, he⟩ := mem_filterMap.mp hc
      cases arg with
      | expr e =>
        cases he
        obtain ⟨w, hw, hlower⟩ := exists_of_lowerArguments hvalues harg
        exact .inr ⟨w, hlower, carries_callValue _ _ hw⟩
      | wildcard | «foreign» => cases he
  | extract field name ha =>
    exact hparts (.cons ha .nil) hc (forall_mem_singleton.mpr (carries_application _ (by simp)))
  | substring ha hb hd =>
    simp only [children, cons_append, mem_cons, mem_append, Option.mem_toList] at hc
    obtain rfl | hc | hc := hc
    · exact .inr ⟨_, ha, carries_application _ (by simp)⟩
    · obtain ⟨w, hw, rfl⟩ := exists_of_lowerExpr? hb hc
      exact .inr ⟨w, hw, carries_application _ (by simp)⟩
    · obtain ⟨w, hw, rfl⟩ := exists_of_lowerExpr? hd hc
      exact .inr ⟨w, hw, carries_application _ (by simp)⟩
  | rounding name ha => exact hparts (.cons ha .nil) hc fun _ => carries_application _
  | array hvalues => exact hparts (forall₂_of_lowerExprs hvalues) hc fun _ => carries_array
  | row hvalues => exact hparts (forall₂_of_lowerExprs hvalues) hc fun _ => carries_listOf

/-- A query inside an expression is lowered, and its value is inside the value of the expression. -/
theorem Holds.reaches {e : Expr} {q : Query} (h : e.Holds q) {v : Json} (hv : e.lower x = .ok v) :
    isNested v = true ∧ ∃ u, q.lower x = .ok u ∧ v.Reaches u := by
  induction h generalizing v with
  | here hq =>
    cases Expr.lowered hv with
    | inQuery name _ hu =>
      cases hq
      obtain ⟨F, rfl, -⟩ := Query.isSelect_lower _ hu
      exact ⟨rfl, _, hu, (carries_operation name (by simp) rfl).2 _ (.refl _)⟩
    | «exists» name hu =>
      cases hq
      obtain ⟨F, rfl, -⟩ := Query.isSelect_lower _ hu
      exact ⟨rfl, _, hu, (carries_operation name (by simp) rfl).2 _ (.refl _)⟩
    | subquery hu =>
      cases hq
      obtain ⟨F, rfl, -⟩ := Query.isSelect_lower _ hu
      exact ⟨rfl, _, hu, .refl _⟩
    | _ => cases hq
  | inside hc hholds ih =>
    obtain ⟨l, rfl⟩ | ⟨w, hw, hcarries⟩ := (Expr.lowered hv).child hc
    · cases hholds with
      | here hq => cases hq
      | inside hc => cases hc
    · obtain ⟨hnested, u, hu, hreaches⟩ := ih hw
      obtain ⟨hv, hin⟩ := hcarries hnested
      exact ⟨hv, u, hu, hin u hreaches⟩

end Expr

end Sql

end AnalyticQuery
