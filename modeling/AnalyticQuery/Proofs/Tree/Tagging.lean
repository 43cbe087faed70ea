import AnalyticQuery.Proofs.Short.Tagging
import AnalyticQuery.Proofs.Tree.Alike
import AnalyticQuery.Proofs.Tree.Fuel

/-!
# Values with an alias and a cast

An object is built to a node of its own fields, onto which its alias and cast are folded. Hence a
value with an alias and a cast put onto it is built to what the value is built to with that alias
and cast folded onto it.
-/

namespace AnalyticQuery

open CastType QlObject Result

variable {n m : Node} {tag : Tag} {a obj : QlObject} {F G : Fields} {kind : ExpressionType}
variable {cast own label : Option String} {type : Option CastType} {key : String} {s : Scope}

/-! ## Objects without their alias and cast -/

/-- Whether two objects differ in their alias and cast alone. -/
structure QlObject.SameBody (a b : QlObject) : Prop where
  type : b.type = a.type
  get? : ∀ {key}, key ≠ "as" → key ≠ "cast" → b.get? key = a.get? key
  checkKeys : ∀ allowed, b.checkKeys allowed = a.checkKeys allowed

namespace QlObject.SameBody

variable {b : QlObject} (h : a.SameBody b)

include h

theorem fault (detail : String) : b.fault detail = a.fault detail := by
  rw [QlObject.fault, QlObject.fault, h.type]

variable (hlabel : key ≠ "as") (hcast : key ≠ "cast")

include hlabel hcast

theorem has : b.has key = a.has key := by
  rw [QlObject.has, QlObject.has, h.get? hlabel hcast]

theorem required : b.required key = a.required key := by
  simp only [QlObject.required, QlObject.missing, h.get? hlabel hcast, h.fault]

theorem string? : b.string? key = a.string? key := by
  simp only [QlObject.string?, h.get? hlabel hcast, h.fault]

theorem string : b.string key = a.string key := by
  simp only [QlObject.string, QlObject.missing, h.string? hlabel hcast, h.fault]

theorem named? {α : Type} (read : String → Result α) : b.named? key read = a.named? key read := by
  simp only [QlObject.named?, h.string? hlabel hcast]

theorem array? : b.array? key = a.array? key := by
  simp only [QlObject.array?, h.get? hlabel hcast, h.fault]

theorem array : b.array key = a.array key := by
  simp only [QlObject.array, QlObject.missing, h.array? hlabel hcast, h.fault]

theorem bool? : b.bool? key = a.bool? key := by
  simp only [QlObject.bool?, h.get? hlabel hcast, h.fault]

end QlObject.SameBody

namespace Builder

/-- Builds a select as a value without its alias and cast. -/
def selectStem (b : Builder) (obj : QlObject) (scope : Scope) : Result Node :=
  match SetOperator.all.filter (obj.has ·.name) with
  | [] => do return Node.select .subquery (← b.clauses obj scope .subquery) {}
  | [op] => b.compound obj scope .subquery op
  | _ => .error (obj.fault "only one of union, intersect or except is allowed")

/-- Builds an object where an expression is expected, without its alias and cast. -/
def stem (b : Builder) (obj : QlObject) (scope : Scope) : Result Node :=
  match obj.type with
  | .select => b.selectStem obj scope
  | .short => do
    obj.checkKeys ["value"]
    b.expandShort (← Short.ofText (← obj.string "value")) scope
  | .sql => do
    obj.checkKeys ["value"]
    b.outside.expression (← Sql.toQl (← obj.string "value")) scope
  | .cast => do
    obj.checkKeys ["value"]
    b.expression (← obj.required "value") scope
  | .view | .join => .error (obj.fault "only allowed in from and joins")
  | .column => column obj scope
  | .parameter => b.parameter obj scope
  | .function => b.call obj scope
  | .geometry => b.geometry obj scope
  | .operator | .and | .or => b.operator obj scope
  | .case => b.case obj scope
  | .array => b.array obj scope
  | .list => b.list obj scope
  | .sort => b.sort obj scope
  | .primitive => constant obj

variable {b : Builder}

private theorem select_eq_stem : b.select obj s .subquery =
    b.selectStem obj s >>= fun n => obj.tag >>= fun tag => n.fold tag.label tag.cast := by
  have hfinish : ∀ n : Node, (obj.tag >>= fun tag => n.fold tag.label tag.cast >>= fun m =>
      checkAlias .subquery m >>= fun _ => pure m) = obj.tag >>= fun tag =>
          n.fold tag.label tag.cast := by
    intro n
    cases obj.tag with
    | error e => rfl
    | ok tag =>
      rw [ok_bind, ok_bind]
      cases n.fold tag.label tag.cast <;> rfl
  unfold select selectStem
  generalize SetOperator.all.filter (obj.has ·.name) = ops
  obtain _ | ⟨op, _ | ⟨op', ops⟩⟩ := ops
  · cases hclauses : b.clauses obj s .subquery with
    | error e => simp
    | ok c => simpa [hclauses] using hfinish _
  · cases hcompound : b.compound obj s .subquery op with
    | error e => simp [hcompound]
    | ok n => simpa [hcompound] using hfinish n
  · rfl

private theorem object_eq_steps (hsql : obj.type ≠ .sql) (hcast : obj.type ≠ .cast) :
    b.object obj s = b.stem obj s >>= fun n => obj.tag >>= fun tag =>
      n.fold tag.label tag.cast := by
  obtain ⟨fields, type⟩ := obj
  cases type with
  | select => exact select_eq_stem
  | short =>
    simp only [stem, bind_assoc]
    rfl
  | sql => exact absurd rfl hsql
  | cast => exact absurd rfl hcast
  | _ => rfl

/-- Once its own fields are built and its alias and cast are read, an object is built by the fold
alone. -/
theorem object_eq_fold (hn : b.stem obj s = .ok n) (htag : obj.tag = .ok tag)
    (hcast : obj.type = .cast → tag.cast ≠ none) : b.object obj s = n.fold tag.label tag.cast := by
  obtain ⟨fields, type⟩ := obj
  cases type with
  | sql =>
    obtain ⟨_, hkeys, hn⟩ := of_bind hn
    obtain ⟨text, htext, hn⟩ := of_bind hn
    obtain ⟨v, hv, hn⟩ := of_bind hn
    have hsql : b.object ⟨fields, .sql⟩ s = b.sql ⟨fields, .sql⟩ s := rfl
    simp only [hsql, sql, hkeys, htext, hv, htag, hn, ok_bind]
  | cast =>
    obtain ⟨_, hkeys, hn⟩ := of_bind hn
    obtain ⟨v, hv, hn⟩ := of_bind hn
    have hobject : b.object ⟨fields, .cast⟩ s = b.cast ⟨fields, .cast⟩ s := rfl
    have hsome : tag.cast.isNone = false := by simpa [Option.isSome_iff_ne_none] using hcast rfl
    simp only [hobject, cast, hkeys, htag, hv, hn, hsome, ok_bind, Bool.false_eq_true, if_false]
  | _ => rw [object_eq_steps, hn, ok_bind, htag, ok_bind] <;> nofun

/-- An object is built to what its own fields are built to, with its alias and cast. -/
theorem object_ok_iff :
    b.object obj s = .ok m ↔ ∃ n tag, b.stem obj s = .ok n ∧ obj.tag = .ok tag ∧
      (obj.type = .cast → tag.cast ≠ none) ∧ n.fold tag.label tag.cast = .ok m := by
  refine ⟨fun h => ?_, fun ⟨n, tag, hn, htag, hcast, h⟩ => (object_eq_fold hn htag hcast).trans h⟩
  obtain ⟨fields, type⟩ := obj
  cases type with
  | sql =>
    -- The alias and cast are read before the lowered value is built.
    obtain ⟨_, hkeys, h⟩ := of_bind h
    obtain ⟨text, htext, h⟩ := of_bind h
    obtain ⟨v, hv, h⟩ := of_bind h
    obtain ⟨tag, htag, h⟩ := of_bind h
    obtain ⟨n, hn, h⟩ := of_bind h
    exact ⟨n, tag, by simp only [stem, hkeys, htext, hv, hn, ok_bind], htag, nofun, h⟩
  | cast =>
    obtain ⟨_, hkeys, h⟩ := of_bind h
    obtain ⟨tag, htag, h⟩ := of_bind h
    split at h
    · cases h
    next hsome =>
    obtain ⟨v, hv, h⟩ := of_bind h
    obtain ⟨n, hn, h⟩ := of_bind h
    exact ⟨n, tag,
      by simp only [stem, hkeys, hv, hn, ok_bind], htag, fun _ => by simpa using hsome, h⟩
  | _ =>
    rw [object_eq_steps] at h
    · obtain ⟨n, hn, h⟩ := of_bind h
      obtain ⟨tag, htag, h⟩ := of_bind h
      exact ⟨n, tag, hn, htag, nofun, h⟩
    all_goals nofun

theorem stem_sameBody {obj' : QlObject} (h : obj.SameBody obj') : b.stem obj' s = b.stem obj s := by
  have hhas : (fun op : SetOperator => obj'.has op.name) = fun op : SetOperator =>
      obj.has op.name := by
    funext op
    cases op <;> exact h.has (by decide) (by decide)
  have hop : ∀ op : SetOperator, obj'.array op.name = obj.array op.name := by
    intro op
    cases op <;> exact h.array (by decide) (by decide)
  have hmixed : clauseKeys.any obj'.has = clauseKeys.any obj.has := by
    simp (disch := decide) only [clauseKeys, List.any_cons, List.any_nil, h.has]
  have hlimit : limitOf obj' = limitOf obj := by
    funext v
    simp only [limitOf, h.fault]
  have hoffset : offsetOf obj' = offsetOf obj := by
    funext v
    simp only [offsetOf, h.fault]
  have hctes : ∀ values t, b.ctes obj' values t = b.ctes obj values t := by
    intro values
    induction values with
    | nil => intro t; rfl
    | cons v values ih =>
      intro t
      simp only [ctes, h.fault, ih]
  unfold stem
  rw [h.type]
  cases obj.type <;> dsimp only
  case select =>
    simp (disch := decide)
      only [selectStem, hhas, clauses, compound, side, h.fault, hop, hmixed, hctes,
      h.checkKeys, h.get?, h.array?, h.array, h.bool?, hlimit, hoffset]
  all_goals
    simp (disch := decide)
      only [column, parameter, call, geometry, operator, operatorOf, case, array, list, sort,
      constant, h.type, h.fault, h.checkKeys, h.get?, h.required, h.string?, h.string, h.named?,
        h.array?, h.array,
      h.bool?]

end Builder

/-! ## Aliases and casts that are read -/

namespace Fields

private theorem find?_insert {p : String × Json → Bool} (hp : ∀ v, p (key, v) = false) (F : Fields)
    (v : Json) :
    (F.insert key v).find? p = F.find? p := by
  induction F with
  | nil => simp [insert, hp]
  | cons field F ih =>
    obtain ⟨k, w⟩ := field
    rw [insert]
    split
    · next hk =>
      have hk : k = key := by simpa using hk
      rw [List.find?_cons_of_neg (by simp [hp]), List.find?_cons_of_neg (by simp [hk, hp])]
    · rw [List.find?_cons, List.find?_cons, ih]

/-- An alias or a cast leaves the other fields. -/
theorem sameBody_insert (F : Fields) (kind : ExpressionType) (hkey : key = "as" ∨ key = "cast")
    (v : Json) :
    QlObject.SameBody ⟨F, kind⟩ ⟨F.insert key v, kind⟩ where
  type := rfl
  get? {k} hlabel hcast := by
    have hne : key ≠ k := by
      obtain rfl | rfl := hkey
      · exact hlabel.symm
      · exact hcast.symm
    simp only [QlObject.get?, get?_insert, if_neg hne]
  checkKeys allowed := by
    let p : String × Json → Bool := fun field => !isCommonKey field.1 && !allowed.contains field.1
    have hcommon : ∀ w : Json, p (key, w) = false := by
      intro w
      obtain rfl | rfl := hkey <;> rfl
    have hfind : (F.insert key v).find? p = F.find? p := find?_insert hcommon F v
    simp only [p] at hfind
    simp only [checkKeys, hfind]
    rfl

end Fields

theorem QlObject.SameBody.refl (obj : QlObject) :
    obj.SameBody obj := ⟨rfl, fun _ _ => rfl, fun _ => rfl⟩

theorem QlObject.SameBody.trans {b c : QlObject} (h : a.SameBody b) (h' : b.SameBody c) :
    a.SameBody c where
  type := h'.type.trans h.type
  get? hlabel hcast := (h'.get? hlabel hcast).trans (h.get? hlabel hcast)
  checkKeys allowed := (h'.checkKeys allowed).trans (h.checkKeys allowed)

/-- An alias and a cast leave the kind of an object. -/
theorem QlObject.SameBody.ofJson (h : SameBody ⟨F, kind⟩ ⟨G, kind⟩)
    (hF : ofJson (.object F) = .ok ⟨F, kind⟩) : ofJson (.object G) = .ok ⟨G, kind⟩ := by
  obtain ⟨-, name, hname, hkind⟩ := exists_of_ofJson hF
  have hget : QlObject.get? ⟨G, kind⟩ "type" = QlObject.get? ⟨F, kind⟩ "type" :=
    h.get? (by decide) (by decide)
  have hG : Fields.get? G "type" = some (.string name) := by
    simp only [QlObject.get?, hname] at hget
    exact (Option.filter_eq_some_iff.mp hget).1
  simp [QlObject.ofJson, hG, ExpressionType.ofName, hkind, Except.map]

/-- The cast that a text spells, where it is given. -/
def CastType.ofName? : Option String → Result (Option CastType)
  | none => .ok none
  | some name => do return some (← CastType.ofName name)

theorem CastType.ofName?_orElse {first second : Option CastType} (hown : ofName? own = .ok first)
    (hcast : ofName? cast = .ok second) :
    ofName? (cast <|> own) = .ok (second <|> first) := by
  cases cast with
  | none =>
    cases hcast
    exact hown
  | some name =>
    obtain ⟨type, hname, htype⟩ := of_bind hcast
    cases htype
    exact hcast

private theorem CastType.ofName?_split (h : ofName? (cast <|> own) = .ok type)
    (hsame : cast = none ∨ own = none ∨ own = cast) :
    ∃ first second, ofName? own = .ok first ∧ ofName? cast = .ok second ∧
      (first = none ∨ first = type) ∧
      (second = none ∨ second = type) ∧ (second <|> first) = type := by
  obtain rfl | rfl | rfl := hsame
  · exact ⟨type, none, h, rfl, .inr rfl, .inl rfl, rfl⟩
  · exact ⟨none, type, rfl, by simpa using h, .inl rfl, .inr rfl, by simp⟩
  · have htype : ofName? own = .ok type := by
      cases own <;> exact h
    exact ⟨type, type, htype, htype, .inr rfl, .inr rfl, by simp⟩

namespace QlObject

variable {text : Option String}

theorem string?_ok_iff (h : Fields.get? obj.fields key = text.map .string) {found : Option String} :
    obj.string? key = .ok found ↔ found = text ∧ text ≠ some "" := by
  have hget : obj.get? key = text.map .string := by
    rw [get?, h]
    cases text <;> rfl
  unfold string?
  rw [hget]
  cases text with
  | none => simp [eq_comm]
  | some text =>
    by_cases hempty : text = ""
    · simp [hempty]
    · have hne : text.isEmpty = false := by
        rw [← Bool.not_eq_true, String.isEmpty_iff]
        exact hempty
      simp [hne, hempty, eq_comm]

private theorem cast_ok_iff (h : Fields.get? obj.fields "cast" = cast.map .string)
    {found : Option CastType} :
    obj.named? "cast" CastType.ofName = .ok found ↔ ofName? cast = .ok found := by
  have hempty : CastType.ofName "" = .error (.invalidCast "") := by decide +kernel
  unfold named?
  rw [bind_eq_ok]
  simp only [string?_ok_iff h]
  cases cast with
  | none => simp [ofName?]
  | some name =>
    by_cases hname : name = ""
    · subst hname
      simp [ofName?, hempty]
    · simp [ofName?, hname]

/-- The alias and the cast of an object are the texts of its fields. -/
theorem tag_ok_iff (hlabel : Fields.get? obj.fields "as" = label.map .string)
    (hcast : Fields.get? obj.fields "cast" = cast.map .string) :
    obj.tag = .ok tag ↔ tag.label = label ∧ label ≠ some "" ∧ ofName? cast = .ok tag.cast := by
  unfold QlObject.tag
  simp only [bind_eq_ok, string?_ok_iff hlabel, cast_ok_iff hcast, pure_eq_ok]
  constructor
  · rintro ⟨found, ⟨rfl, hne⟩, type, htype, h⟩
    cases h
    exact ⟨rfl, hne, htype⟩
  · rintro ⟨rfl, hne, htype⟩
    exact ⟨_, ⟨rfl, hne⟩, _, htype, rfl⟩

end QlObject

/-- Fields that are those of an object beside its alias and cast, which are texts. -/
structure Fields.Tags (F : Fields) (kind : ExpressionType) (G : Fields)
    (label cast : Option String) : Prop where
  body : QlObject.SameBody ⟨F, kind⟩ ⟨G, kind⟩
  label : get? G "as" = label.map .string
  cast : get? G "cast" = cast.map .string

namespace Fields

theorem Tags.insert_label (h : F.Tags kind G none cast) (name : String) :
    F.Tags kind (G.insert "as" (.string name)) (some name) cast where
  body := h.body.trans (G.sameBody_insert kind (.inl rfl) _)
  label := by simp [get?_insert]
  cast := by simpa [get?_insert] using h.cast

theorem Tags.insert_cast (h : F.Tags kind G none own) (name : String) :
    F.Tags kind (G.insert "cast" (.string name)) none (some name) where
  body := h.body.trans (G.sameBody_insert kind (.inr rfl) _)
  label := by simpa [get?_insert] using h.label
  cast := by simp [get?_insert]

/-- The fields of a cast around an object. -/
def castAround (F : Fields) (name : String) : Fields :=
  [("type", .string "cast"), ("value", .object F), ("cast", .string name)]

/-- A cast goes onto an object that has none, or the same, and else around it. -/
theorem tags_withCast (kind : ExpressionType) (hlabel : get? F "as" = none)
    (hown : get? F "cast" = own.map .string) (name : String) :
    (F.Tags kind (Json.withCast F name) none (some name) ∧ (own = none ∨ own = some name)) ∨
      (F.castAround name).Tags .cast (Json.withCast F name) none (some name) := by
  have hself : F.Tags kind F none own := ⟨.refl _, hlabel, hown⟩
  unfold Json.withCast
  rw [hown]
  cases own with
  | none => exact .inl ⟨hself.insert_cast name, .inl rfl⟩
  | some existing =>
    by_cases hsame : existing = name
    · subst hsame
      simp only [Option.map_some, Option.bind_some, Json.string?, beq_self_eq_true, if_true]
      exact .inl ⟨hself.insert_cast existing, by simp⟩
    · have hne : (existing == name) = false := by simpa using hsame
      simp only [Option.map_some, Option.bind_some, Json.string?, hne]
      exact .inr ⟨.refl _, rfl, rfl⟩

/-- An alias and a cast are the fields of a value that has them, or of a cast around it. -/
theorem exists_tags (kind : ExpressionType) (hlabel : get? F "as" = none)
    (hown : get? F "cast" = own.map .string) (label cast : Option String) :
    ∃ G, (Json.object F).tagged label cast = .object G ∧
      ((F.Tags kind G label (cast <|> own) ∧ (cast = none ∨ own = none ∨ own = cast)) ∨
        ∃ name, cast = some name ∧ (F.castAround name).Tags .cast G label cast) := by
  have hself : F.Tags kind F none own := ⟨.refl _, hlabel, hown⟩
  cases cast with
  | none =>
    cases label with
    | none => exact ⟨F, rfl, .inl ⟨hself, .inl rfl⟩⟩
    | some text => exact ⟨_, rfl, .inl ⟨hself.insert_label text, .inl rfl⟩⟩
  | some name =>
    obtain ⟨h, hsame⟩ | h := tags_withCast kind hlabel hown name
    · cases label with
      | none => exact ⟨_, rfl, .inl ⟨h, .inr hsame⟩⟩
      | some text => exact ⟨_, rfl, .inl ⟨h.insert_label text, .inr hsame⟩⟩
    · cases label with
      | none => exact ⟨_, rfl, .inr ⟨name, rfl, h⟩⟩
      | some text => exact ⟨_, rfl, .inr ⟨name, rfl, h.insert_label text⟩⟩

end Fields

/-! ## Building values with an alias and a cast -/

namespace Build

variable {options : ParseOptions} {r : List String}


private theorem ofName?_eq_none (h : ofName? cast = .ok type) :
    type = none ↔ cast = none := by
  cases cast with
  | none =>
    cases h
    simp
  | some name =>
    obtain ⟨type, -, h⟩ := of_bind h
    cases h
    simp

theorem run_object (hr : Resolvable options r) (hobj : ofJson (.object G) = .ok obj) :
    run options r .expression (.object G) s = (runner options r).object obj s := by
  have hvalue : run options r .expression (.object G) s =
      ofJson (.object G) >>= fun obj => (runner options r).object obj s := run_eq_value hr _ _ _
  rw [hvalue, hobj, ok_bind]

/-- An object is built to what its own fields are built to, also with another alias and cast. -/
theorem run_object_ok_iff (hr : Resolvable options r)
    (htype : Fields.get? F "type" = some (.string kind.name)) (h : F.Tags kind G label cast) :
    run options r .expression (.object G) s = .ok m ↔
      ∃ n type, (runner options r).stem ⟨F, kind⟩ s = .ok n ∧ ofName? cast = .ok type ∧
        (kind = .cast → cast ≠ none) ∧ n.fold label type = .ok m := by
  have hF : ofJson (.object F) = .ok ⟨F, kind⟩ := by
    simp [ofJson, htype, ExpressionType.ofName_name, Except.map]
  rw [run_object hr (h.body.ofJson hF), Builder.object_ok_iff, Builder.stem_sameBody h.body]
  constructor
  · rintro ⟨n, tag, hn, htag, hsome, hfold⟩
    obtain ⟨rfl, -, htype⟩ := (tag_ok_iff h.label h.cast).mp htag
    exact ⟨n, tag.cast, hn, htype, fun hkind => (ofName?_eq_none htype).not.mp (hsome hkind), hfold⟩
  · rintro ⟨n, type, hn, htype, hsome, hfold⟩
    have hne : label ≠ some "" := by
      rintro rfl
      exact ((Node.fold_ok_iff.mp hfold).1.label "" rfl).1 rfl
    exact ⟨n, ⟨label, type⟩, hn, (tag_ok_iff h.label h.cast).mpr ⟨rfl, hne, htype⟩,
      fun hkind => (ofName?_eq_none htype).not.mpr (hsome hkind), hfold⟩

/-- A cast around an object is built to what the object is built to. -/
theorem stem_castAround (F : Fields) (name : String) :
    (runner options r).stem ⟨F.castAround name, .cast⟩ s =
      run options r .expression (.object F) s := rfl

/-- A value with an alias and a cast is built as the value is, and takes both on. -/
theorem fold_of_run_tagged (hr : Resolvable options r) (hF : F.Plain kind)
    (h : run options r .expression ((Json.object F).tagged label cast) s = .ok m) :
    ∃ n type k, run options r .expression (.object F) s = .ok n ∧ ofName? cast = .ok type ∧
      n.fold label type = .ok k ∧ k.Alike m := by
  obtain ⟨own, hown, hcast⟩ := hF.exists_cast
  have hself : F.Tags kind F none own := ⟨.refl _, hF.label, hown⟩
  obtain ⟨G, hG, ⟨htags, hsame⟩ | ⟨name, rfl, htags⟩⟩ := F.exists_tags kind hF.label hown label cast
  · rw [hG, run_object_ok_iff hr hF.type htags] at h
    obtain ⟨stem, type, hstem, htype, -, hfold⟩ := h
    obtain ⟨first, second, hfirst, hsecond, hin, hin', hboth⟩ := ofName?_split htype hsame
    obtain ⟨n, k, hn, hk, halike⟩ := Node.fold_split hfold hin hin' hboth
    exact ⟨n, second, k, (run_object_ok_iff hr hF.type hself).mpr
      ⟨stem, first, hstem, hfirst, hcast, hn⟩,
      hsecond, hk, halike⟩
  · rw [hG, run_object_ok_iff hr rfl htags] at h
    obtain ⟨stem, type, hstem, htype, -, hfold⟩ := h
    exact ⟨stem, type, m, hstem, htype, hfold, .refl m⟩

end Build

end AnalyticQuery
