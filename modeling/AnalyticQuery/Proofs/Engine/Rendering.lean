import AnalyticQuery.Proofs.Engine.Comments
import AnalyticQuery.Proofs.Names
import AnalyticQuery.Proofs.Result
import AnalyticQuery.Proofs.Short.Braces
import AnalyticQuery.Tree.Sql

/-!
# Skeletons and comments of rendered constructs

Each construct of SQL is rendered from the texts of its parts. What an engine writes around the
parts is fixed and keeps them apart. So parts with the same skeletons give texts with the same
skeleton, and a rendered construct opens a comment exactly if one of its parts does. Its only blanks
are single spaces, as in its parts. It begins with a character of its own. The exceptions are
numbers, which may begin with a minus sign, and a minus sign itself, which stands right before its
operand. The few texts that an engine reads inside a part are read alike.
-/

namespace AnalyticQuery

open Engine List Quoting Result

variable {i : Interval} {terms : List (Int × String)} {name : String} {distinct : Bool}
variable {D : Set Opener}

/-- What succeeds in one way succeeds in the other, with the same skeleton. -/
def Tracks (D : Set Opener) (r r' : Result String) : Prop :=
  ∀ x, r = .ok x → ∃ y, r' = .ok y ∧ Frames D x y

section Tracks

theorem Tracks.ok {x y : String} (h : Frames D x y) : Tracks D (.ok x) (.ok y) := by
  rintro _ ⟨⟩
  exact ⟨y, rfl, h⟩

theorem Tracks.error {e : Error} {r : Result String} : Tracks D (.error e) r := nofun

/-- Texts that are rendered from what has the same skeletons. -/
theorem Tracks.bind {α β : Type} {x : Result α} {y : Result β} {Q : α → β → Prop}
    {f : α → Result String} {g : β → Result String} (h : ∀ {a}, x = .ok a → ∃ b, y = .ok b ∧ Q a b)
    (hf : ∀ {a b}, Q a b → Tracks D (f a) (g b)) : Tracks D (x >>= f) (y >>= g) := by
  intro text htext
  obtain ⟨a, ha, htext⟩ := of_bind htext
  obtain ⟨b, hb, hab⟩ := h ha
  rw [hb, ok_bind]
  exact hf hab text htext

end Tracks

/-! ## Numbers -/

private theorem ofChar?_of_isNumberChar {c : Char} (h : isNumberChar c = true) :
    Quote.ofChar? c = none := by
  cases hq : Quote.ofChar? c with
  | none => rfl
  | some q =>
    rw [Quote.ofChar?_eq_some.mp hq] at h
    cases q <;> cases h

/-- A text of digits and points, after a minus sign if the number is negative. -/
def Numeral (negative : Bool) (text : String) : Prop :=
  ∃ rest, text.toList = (if negative then ['-'] else []) ++ rest ∧ rest ≠ [] ∧
    ∀ c ∈ rest, c.isDigit = true ∨ c = '.'

namespace Numeral

variable {negative : Bool} {text : String}

private theorem isNumberChar_of_mem (h : Numeral negative text) {c : Char} (hc : c ∈ text.toList) :
    isNumberChar c = true := by
  obtain ⟨rest, htext, -, hrest⟩ := h
  rw [htext] at hc
  obtain hc | hc := mem_append.mp hc
  · split at hc
    · rw [mem_singleton.mp hc]
      decide
    · cases hc
  · obtain hdigit | rfl := hrest c hc
    · exact isNumberChar_of_isDigit hdigit
    · decide

private theorem ofChar?_eq_none (h : Numeral negative text) {c : Char} (hc : c ∈ text.toList) :
    Quote.ofChar? c = none :=
  ofChar?_of_isNumberChar (h.isNumberChar_of_mem hc)

/-- A number begins with a minus sign exactly if it is negative. -/
theorem head?_eq_minus_iff (h : Numeral negative text) :
    text.toList.head? = some '-' ↔ negative = true := by
  obtain ⟨rest, htext, -, hrest⟩ := h
  rw [htext]
  cases negative with
  | true => simp
  | false =>
    simp only [Bool.false_eq_true, if_false, nil_append, iff_false]
    intro hhead
    obtain hdigit | hpoint := hrest '-' (mem_of_head? hhead)
    · cases hdigit
    · cases hpoint

/-- A number opens no comment: its only sign is at the front. -/
theorem not_opens (h : Numeral negative text) (o : Opener) : ¬Opens o text := by
  intro hopens
  have hmem := mem_tail_of_pair_infix hopens
  rw [skeleton, scan_plain fun c hc => h.ofChar?_eq_none hc, ← map_tail, mem_map] at hmem
  obtain ⟨c, hc, hmark⟩ := hmem
  cases hmark
  obtain ⟨rest, htext, -, hrest⟩ := h
  have htail : o.second ∈ rest := by
    rw [htext] at hc
    cases negative with
    | true => exact hc
    | false => exact mem_of_mem_tail hc
  obtain hdigit | hpoint := hrest _ htail
  · cases o <;> cases hdigit
  · cases o <;> cases hpoint

theorem passes (h : Numeral negative text) : Passes ∅ [text] [text] := by
  have hplain : ∀ c ∈ text.toList, Quote.ofChar? c = none := fun c hc => h.ofChar?_eq_none hc
  have hsettled := settled_of_isFixed (isFixed_of_plain hplain)
  refine passes_singleton.mpr ⟨hsettled.alike, fun o => by simpa using h.not_opens o, ?_⟩
  rw [Solid, skeleton, scan_plain hplain]
  refine spaced_plain (fun c hc => isBlank_of_isNumberChar (h.isNumberChar_of_mem hc)) ?_
  obtain ⟨rest, htext, hne, -⟩ := h
  simp [htext, hne]

end Numeral

theorem numeral_toString (i : Int) : Numeral (decide (i < 0)) (toString i) := by
  have hdigits : ∀ n : Nat, ∀ c ∈ Nat.toDigits 10 n, c.isDigit = true ∨ c = '.' :=
    fun _ c hc => .inl (isDigit_of_mem_digitText hc)
  rw [Int.toString_eq_repr, Int.repr_eq_if]
  split
  · next hi =>
    refine ⟨Nat.toDigits 10 i.toNat, ?_, Nat.toDigits_ne_nil, hdigits _⟩
    rw [Nat.toList_repr, decide_eq_false (by omega)]
    rfl
  · next hi =>
    refine ⟨Nat.toDigits 10 (-i).toNat, ?_, Nat.toDigits_ne_nil, hdigits _⟩
    rw [String.toList_append, Nat.toList_repr, decide_eq_true (by omega)]
    rfl

private theorem Decimal.negative_stripZeros (fuel : Nat) (d : Decimal) :
    (d.stripZeros fuel).negative = d.negative := by
  fun_induction Decimal.stripZeros fuel d <;> simp_all

private theorem Binary64.negative_of_ofDigitCount? {x : Binary64} {magnitude : Int} {count : Nat}
    {d : Decimal} (h : x.ofDigitCount? magnitude count = some d) : d.negative = x.negative := by
  unfold Binary64.ofDigitCount? at h
  dsimp only at h
  grind

/-- The shortest digits of a number have its sign. -/
theorem Binary64.negative_shortest (x : Binary64) : x.shortest.negative = x.negative := by
  unfold Binary64.shortest
  split
  · rfl
  · rw [Decimal.negative_stripZeros]
    cases hfound : (List.range 17).findSome? fun count =>
        x.ofDigitCount? (decimalExponent x.num x.den) (count + 1) with
    | none => rfl
    | some d =>
      obtain ⟨count, -, hd⟩ := exists_of_findSome?_eq_some hfound
      exact negative_of_ofDigitCount? hd

private theorem Binary64.numeral_plainText (x : Binary64) : Numeral x.negative x.plainText := by
  refine ⟨x.shortest.positional.1 ++ if x.shortest.positional.2.isEmpty then [] else
    '.' :: x.shortest.positional.2, ?_, ?_, fun c hc => ?_⟩
  · rw [Binary64.plainText, String.toList_ofList, negative_shortest, append_assoc]
  · simp [Decimal.positional_ne_nil]
  · obtain hc | hc := mem_append.mp hc
    · exact .inl (isDigit_of_mem_positional (.inl hc))
    · split at hc
      · cases hc
      · obtain rfl | hc := mem_cons.mp hc
        · exact .inr rfl
        · exact .inl (isDigit_of_mem_positional (.inr hc))

/-- Whether the literal of a constant has a minus sign. -/
def Primitive.isNegative : Primitive → Bool
  | .int i => i < 0
  | .real x => x.negative
  | _ => false

/-- A constant whose text is left out. -/
def Primitive.masked : Primitive → Primitive
  | .string _ => .string ""
  | p => p

/-- A constant opens no comment, and begins with a minus sign exactly if it is a negative number. -/
theorem Primitive.sql_passes (p : Primitive) :
    Passes ∅ [p.sql] [p.masked.sql] ∧ (p.sql.toList.head? = some '-' ↔ p.isNegative = true) := by
  have hframes : ∀ {a b : String}, Frames ∅ a b →
      Passes ∅ [a] [b] ∧ (a.toList.head? = some '-' ↔ false = true) :=
    fun h => ⟨h.passes, by simpa using h.unsigned⟩
  cases p with
  | string s => exact hframes (frames_quoteLiteral s "")
  | int i => exact ⟨(numeral_toString i).passes, (numeral_toString i).head?_eq_minus_iff⟩
  | real x => exact ⟨x.numeral_plainText.passes, x.numeral_plainText.head?_eq_minus_iff⟩
  | bool b => cases b <;> exact hframes (frames_fixed (by decide))
  | null => exact hframes (frames_fixed (by decide))

/-- A sort item is its value before words. -/
theorem sortSql_eq (a : String) (direction : Option SortDirection) (nulls : Option NullsOrder) :
    sortSql a direction nulls = a ++ sortSql "" direction nulls := by
  simp [sortSql, String.append_assoc]

/-! ## What the engines write around the parts of a construct keeps them apart -/

/-- The texts that are made from names keep the parts between them apart. -/
theorem named_texts_apart :
    (∀ op ∈ Operator.all, isFence (" " ++ op.token ++ " ") = true ∧
      isFrame ("(" ++ op.token ++ " ") [")"] = true) ∧
    (∀ qualifier ∈ [Qualifier.any, .all], isFrame qualifier.name.toUpper [] = true) ∧
    (∀ engine ∈ Engine.all,
      isFrame ("(SELECT " ++ engine.placeShape ++ " FROM " ++ engine.placeTable ++ " WHERE type = ")
        [" AND local_id = ", ")"] = true) ∧
    (∀ name ∈ trinoFields, isFrame ("extract(" ++ name.toUpper ++ " FROM ") [")"] = true) ∧
    (∀ distinct ∈ [false, true], ∀ f ∈ FunctionRegistry.specs,
      isFrame (f.name ++ "(" ++ distinctWord distinct) [")"] = true) ∧
    (∀ op ∈ SetOperator.all, ∀ all ∈ [false, true],
      isFrame "(" [") " ++ op.name.toUpper ++ (if all then " ALL" else "") ++ " (", ")"] = true) ∧
    (∀ type ∈ [JoinType.inner, .left, .right, .cross, .lateral],
      isFrame (type.name.toUpper ++ " JOIN ") [""] = true ∧
        isFrame (type.name.toUpper ++ " JOIN ") [" ON ", ""] = true) ∧
    ∀ direction ∈ [none, some SortDirection.asc, some .desc],
      ∀ nulls ∈ [none, some NullsOrder.first, some .last],
      isLoom "" [sortSql "" direction nulls] = true ∧
        (sortSql "" direction nulls).toList.head? ≠ some '-' := by
  decide +kernel

private theorem isFence_token (op : Operator) : isFence (" " ++ op.token ++ " ") = true :=
  (named_texts_apart.1 op (by cases op <;> decide)).1

private theorem isFrame_token (op : Operator) : isFrame ("(" ++ op.token ++ " ") [")"] = true :=
  (named_texts_apart.1 op (by cases op <;> decide)).2

private theorem isFrame_qualifier (qualifier : Qualifier) :
    isFrame qualifier.name.toUpper [] = true :=
  named_texts_apart.2.1 qualifier (by cases qualifier <;> decide)

private theorem isFrame_place (engine : Engine) :
    isFrame ("(SELECT " ++ engine.placeShape ++ " FROM " ++ engine.placeTable ++ " WHERE type = ")
      [" AND local_id = ", ")"] = true :=
  named_texts_apart.2.2.1 engine (by cases engine <;> decide)

private theorem isFrame_trinoField :
    ∀ name ∈ trinoFields, isFrame ("extract(" ++ name.toUpper ++ " FROM ") [")"] = true :=
  named_texts_apart.2.2.2.1

private theorem isFrame_function (distinct : Bool) : ∀ f ∈ FunctionRegistry.specs,
    isFrame (f.name ++ "(" ++ distinctWord distinct) [")"] = true :=
  named_texts_apart.2.2.2.2.1 distinct (by cases distinct <;> decide)

private theorem isFrame_setOperator (op : SetOperator) (all : Bool) :
    isFrame "(" [") " ++ op.name.toUpper ++ (if all then " ALL" else "") ++ " (", ")"] = true :=
  named_texts_apart.2.2.2.2.2.1 op (by cases op <;> decide) all (by cases all <;> decide)

private theorem isFrame_join (type : JoinType) :
    isFrame (type.name.toUpper ++ " JOIN ") [""] = true ∧
    isFrame (type.name.toUpper ++ " JOIN ") [" ON ", ""] = true :=
  named_texts_apart.2.2.2.2.2.2.1 type (by cases type <;> decide)

private theorem isLoom_sort (direction : Option SortDirection) (nulls : Option NullsOrder) :
    isLoom "" [sortSql "" direction nulls] = true ∧
      (sortSql "" direction nulls).toList.head? ≠ some '-' := by
  refine named_texts_apart.2.2.2.2.2.2.2 direction ?_ nulls ?_
  · obtain _ | direction := direction <;> try cases direction
    all_goals decide
  · obtain _ | nulls := nulls <;> try cases nulls
    all_goals decide

/-- What stands behind a part may be a part itself. -/
theorem isFrame_empty {start p : String} (h : isFrame start [p] = true) :
    isFrame start [""] = true := by
  have hempty : isWeft [""] = true := by decide
  simp_all [isFrame, isLoom]

section Parts

variable {engine : Engine} {op : Operator} {a b c d : String} {xs ys us vs : List String}
variable {o o' : Option String}

/-! ## Casts -/

/-- A text without quotes stands in a literal as it is. -/
theorem quoteLiteral_of_plain {s : String} (h : ∀ c ∈ s.toList, Quote.ofChar? c = none) :
    quoteLiteral s = "'" ++ s ++ "'" := by
  have hself : ∀ cs : List Char, (∀ c ∈ cs, Quote.ofChar? c = none) →
      cs.flatMap (fun c => if c == '\'' then ['\'', '\''] else [c]) = cs := by
    intro cs hcs
    induction cs with
    | nil => rfl
    | cons c cs ih =>
      have hc : (c == '\'') = false := by
        rw [beq_eq_false_iff_ne]
        rintro rfl
        cases hcs '\'' mem_cons_self
      rw [flatMap_cons, hc, ih fun d hd => hcs d (mem_cons_of_mem c hd)]
      rfl
  rw [quoteLiteral, hself s.toList h, ← String.toList_inj]
  simp

/-- The units of an interval as Trino writes them. -/
def Interval.termUnits : List String := ["YEAR", "MONTH", "DAY", "HOUR", "MINUTE", "SECOND"]

private theorem Interval.unit_of_terms (h : i.terms = .ok terms) {term : Int × String}
    (hterm : term ∈ terms) : term.2 ∈ termUnits := by
  obtain ⟨days, -, h⟩ := of_bind h
  cases h
  split at hterm
  · rw [mem_singleton.mp hterm]
    simp [termUnits]
  · exact mem_map_of_mem (f := Prod.snd) (mem_of_mem_filter hterm)

private theorem Interval.terms_ne_nil (h : i.terms = .ok terms) : terms ≠ [] := by
  obtain ⟨days, -, h⟩ := of_bind h
  cases h
  split
  · exact cons_ne_nil _ _
  · next hne => simpa using hne

/-- The amount of an interval's term is a literal. -/
theorem intervalTerm_eq (n : Int) (unit : String) :
    s!"INTERVAL '{n}' {unit}" = "INTERVAL " ++ quoteLiteral (toString n) ++ " " ++ unit := by
  change "INTERVAL '" ++ toString n ++ "' " ++ unit = _
  rw [quoteLiteral_of_plain fun _ hc => ofChar?_of_isNumberChar (isNumberChar_of_mem_toString hc),
    ← String.toList_inj]
  simp

/-- An interval as Trino writes it opens no comment. -/
theorem trinoInterval_frames (h : trinoInterval i = .ok a) : Frames ∅ a a := by
  obtain ⟨terms, hterms, h⟩ := of_bind h
  have hterm : ∀ term ∈ terms, Frames ∅ s!"INTERVAL '{term.1}' {term.2}"
      s!"INTERVAL '{term.1}' {term.2}" := by
    intro term hmem
    have hunits : ∀ unit ∈ Interval.termUnits, isFrame "INTERVAL " [" " ++ unit] = true :=
      all_eq_true.mp (by decide)
    have hframe := hunits _ (Interval.unit_of_terms hterms hmem)
    rw [intervalTerm_eq, String.append_assoc]
    exact (frames_quoteLiteral _ _).passes.frames "INTERVAL " _ hframe rfl rfl rfl
  have hsum : ∀ texts : List String, (∀ x ∈ texts, Frames ∅ x x) → Passes ∅ texts texts := by
    intro texts htexts
    induction texts with
    | nil => exact .nil
    | cons x texts ih =>
      exact (htexts x mem_cons_self).passes.add (ih fun y hy => htexts y (mem_cons_of_mem x hy))
  generalize htexts : (terms.map _ : List String) = texts at h
  have hall : ∀ x ∈ texts, Frames ∅ x x := htexts ▸ forall_mem_map.mpr hterm
  have hne : texts ≠ [] := htexts ▸ mt map_eq_nil_iff.mp (Interval.terms_ne_nil hterms)
  split at h
  · cases h
    exact hall _ mem_cons_self
  · cases h
    exact ((hsum texts hall).intercalate (by decide) (by decide) hne).frames "(" [")"]
      (by decide) rfl rfl rfl

/-- A cast opens no comment of its own; only for a constant may it leave out what it casts. -/
theorem cast_tracks {type : CastType} {literal literal' : Option Primitive} (h : Passes D [a] [b])
    (hsilent : literal ≠ none → D = ∅)
    (htext : (literal.bind Primitive.string?).isSome = (literal'.bind Primitive.string?).isSome)
    (hinterval : engine = .trino → type = .interval →
      literal.bind Primitive.string? = literal'.bind Primitive.string?) :
    Tracks D (engine.cast a type literal) (engine.cast b type literal') := by
  have hplain : Frames D s!"CAST({a} AS {engine.castTypeName type})"
      s!"CAST({b} AS {engine.castTypeName type})" := by
    refine h.frames "CAST(" [" AS " ++ engine.castTypeName type ++ ")"]
      (by cases engine <;> cases type <;> decide) rfl ?_ ?_ <;>
        simp only [weave, String.append_assoc, toString]
  cases engine with
  | pg => exact .ok hplain
  | trino =>
    unfold Engine.cast
    have hshape : Tracks D (.ok s!"ST_GeometryFromText({a})") (.ok s!"ST_GeometryFromText({b})") :=
      .ok (h.frames "ST_GeometryFromText(" [")"] (by decide) rfl rfl rfl)
    cases hl : literal.bind Primitive.string? with
    | none =>
      rw [hl] at htext
      have hl' : literal'.bind Primitive.string? = none :=
        Option.not_isSome_iff_eq_none.mp fun hsome => by cases htext.trans hsome
      rw [hl']
      cases type <;> first | exact .ok hplain | exact hshape
    | some text =>
      rw [hl] at htext hinterval
      obtain ⟨text', hl'⟩ := Option.isSome_iff_exists.mp htext.symm
      rw [hl'] at hinterval ⊢
      cases type
      case date => exact .ok (h.frames "from_iso8601_date(" [")"] (by decide) rfl rfl rfl)
      case timestamp =>
        exact .ok
          (h.frames "CAST(from_iso8601_timestamp(" [") AS timestamp)"] (by decide) rfl rfl rfl)
      case timestamptz =>
        exact .ok (h.frames "from_iso8601_timestamp(" [")"] (by decide) rfl rfl rfl)
      case interval =>
        obtain rfl := Option.some.inj (hinterval rfl rfl)
        obtain rfl := hsilent (by rintro rfl; cases hl)
        intro x hx
        obtain ⟨i, -, hinterval⟩ := of_bind hx
        exact ⟨x, hx, trinoInterval_frames hinterval⟩
      case geometry => exact hshape
      all_goals exact .ok hplain

/-- A cast of what is not a constant. -/
theorem Quoting.Frames.withCast {t : Target} {type : Option CastType} (h : Frames D a b) :
    Tracks D (t.withCast type none a) (t.withCast type none b) := by
  cases type with
  | none => exact .ok h
  | some type => exact cast_tracks h.passes (absurd rfl) rfl fun _ _ => rfl

/-! ## Shapes -/

/-- The type of a place is a literal in the lookup of its shape. -/
theorem placeLookup_eq (engine : Engine) (type : GeometryType) (id : String) :
    placeLookup engine.placeTable engine.placeShape type id =
      "(SELECT " ++ engine.placeShape ++ " FROM " ++ engine.placeTable ++ " WHERE type = " ++
        quoteLiteral type.name ++ " AND local_id = " ++ id ++ ")" := by
  have hname : ∀ c ∈ type.name.toList, Quote.ofChar? c = none := by
    have hall : (type.name.toList.all fun c => (Quote.ofChar? c).isNone) = true := by
      cases type <;> decide
    intro c hc
    exact Option.isNone_iff_eq_none.mp (all_eq_true.mp hall c hc)
  change "(SELECT " ++ engine.placeShape ++ " FROM " ++ engine.placeTable ++ " WHERE type = '" ++
    type.name ++ "' AND local_id = " ++ id ++ ")" = _
  rw [quoteLiteral_of_plain hname, ← String.toList_inj]
  simp

private theorem placeLookup_frames (engine : Engine) (type : GeometryType) (h : Passes D [a] [b]) :
    Frames D (placeLookup engine.placeTable engine.placeShape type a)
      (placeLookup engine.placeTable engine.placeShape type b) := by
  have hparts := (frames_quoteLiteral type.name type.name).passes.add h
  have hframe := isFrame_place engine
  rw [placeLookup_eq, placeLookup_eq]
  generalize "(SELECT " ++ engine.placeShape ++ " FROM " ++ engine.placeTable ++ " WHERE type = " =
    start at hframe ⊢
  exact hparts.frames _ _ hframe rfl rfl rfl

theorem geometry_tracks {type : GeometryType} (h : Passes D xs ys) :
    Tracks D (engine.geometry type xs) (engine.geometry type ys) := by
  rcases h.alike with _ | ⟨_, _ | ⟨_, _ | _⟩⟩
  · cases engine <;> cases type <;> exact .error
  · cases engine <;> cases type
    case pg.point | trino.point => exact .error
    case pg.wkt => exact .ok (h.frames "ST_GeomFromText(" [", 4326)"] (by decide) rfl rfl rfl)
    case trino.wkt => exact .ok (h.frames "ST_GeometryFromText(" [")"] (by decide) rfl rfl rfl)
    all_goals exact .ok (placeLookup_frames _ _ h)
  · cases engine <;> cases type
    case pg.point =>
      exact .ok (h.frames "ST_SetSRID(ST_MakePoint(" [", ", "), 4326)"] (by decide) rfl rfl rfl)
    case trino.point => exact .ok (h.frames "ST_Point(" [", ", ")"] (by decide) rfl rfl rfl)
    all_goals exact .error
  · cases engine <;> cases type <;> exact .error

/-! ## Operators -/

private theorem operator?_frames (engine : Engine) (op : Operator) (h : Passes D xs ys) :
    Option.Rel (Frames D) (engine.operator? op xs) (engine.operator? op ys) := by
  cases engine with
  | pg => exact .none
  | trino =>
    rcases h.alike with _ | ⟨_, _ | ⟨_, _ | _⟩⟩
    · cases op <;> exact .none
    · cases op <;> exact .none
    · cases op
      case «matches» => exact .some (h.frames "regexp_like(" [", ", ")"] (by decide) rfl rfl rfl)
      case matchesAnyCase =>
        exact .some (h.frames "regexp_like(" [", concat('(?i)', ", "))"] (by decide) rfl rfl rfl)
      case notMatches =>
        exact .some (h.frames "(NOT regexp_like(" [", ", "))"] (by decide) rfl rfl rfl)
      case ilike => exact .some (h.frames "(lower(" [") LIKE lower(", "))"] (by decide) rfl rfl rfl)
      case notIlike =>
        exact .some (h.frames "(lower(" [") NOT LIKE lower(", "))"] (by decide) rfl rfl rfl)
      case overlaps => exact .some (h.frames "arrays_overlap(" [", ", ")"] (by decide) rfl rfl rfl)
      case contains =>
        exact .some
          (h.swap.frames "(cardinality(array_except(" [", ", ")) = 0)"] (by decide) rfl rfl rfl)
      case containedIn =>
        exact .some
          (h.frames "(cardinality(array_except(" [", ", ")) = 0)"] (by decide) rfl rfl rfl)
      all_goals exact .none
    · cases op <;> exact .none

private theorem token_ne_empty (op : Operator) : " " ++ op.token ++ " " ≠ "" := by
  rw [← String.toList_inj.ne]
  simp

/-- A comparison with the element of an array that a condition names. -/
theorem elementComparison_passes (engine : Engine) (op : Operator) (h : Passes D [a] [b]) : Passes D
    [(engine.operator? op [a, trinoElement]).getD s!"{a} {op.token} {trinoElement}"]
    [(engine.operator? op [b, trinoElement]).getD s!"{b} {op.token} {trinoElement}"] := by
  have hparts : Passes D [a, trinoElement] [b, trinoElement] := by
    simpa using h.append (frames_fixed (by decide)).passes
  have hown := operator?_frames engine op hparts
  generalize engine.operator? op [a, trinoElement] = own at hown ⊢
  generalize engine.operator? op [b, trinoElement] = own' at hown ⊢
  cases hown with
  | some hown => exact hown.passes
  | none =>
    simpa [String.append_assoc,
      toString] using hparts.intercalate (isFence_token op) (token_ne_empty op) (cons_ne_nil _ _)

private theorem qualified_frames (op : Operator) (qualifier : Qualifier)
    (h : Passes D [a, c] [b, d]) :
    Frames D (engine.qualified op qualifier a c) (engine.qualified op qualifier b d) := by
  cases engine with
  | pg =>
    have hparts := h.cons_replace (frames_fixed (isFrame_qualifier qualifier)).passes.add
    refine hparts.frames "(" [" " ++ op.token ++ " ", "(", "))"]
      (isFrame_cons (isFence_token op) (token_ne_empty op) (by decide)) rfl ?_ ?_ <;>
      simp only [qualified, singleton_append, weave, String.append_assoc, toString]
  | trino =>
    unfold qualified
    dsimp only
    split
    · exact h.swap.frames "contains(" [", ", ")"] (by decide) rfl rfl rfl
    · have hparts := h.swap.cons_replace (elementComparison_passes .trino op)
      cases qualifier
      · refine hparts.frames "any_match(" [", q_elem -> ", ")"] (by decide) rfl ?_ ?_ <;>
          simp [weave, trinoElement, String.append_assoc, toString]
      · refine hparts.frames "all_match(" [", q_elem -> ", ")"] (by decide) rfl ?_ ?_ <;>
          simp [weave, trinoElement, String.append_assoc, toString]

/-- An operator keeps its operands apart, unless it stands right before the only one. -/
theorem operation_tracks (h : Passes D xs ys) (hone : op.shape = .binary → xs.length ≠ 1) :
    Tracks D (engine.operation op xs) (engine.operation op ys) := by
  have hown := operator?_frames engine op h
  unfold operation
  generalize engine.operator? op xs = own at hown
  generalize engine.operator? op ys = own' at hown
  cases hown with
  | some hown => exact .ok hown
  | none =>
    dsimp only
    have htoken : ∀ {q fixed}, isFrame "(" (q :: fixed) = true →
        isFrame "(" ((" " ++ op.token ++ " ") :: q :: fixed) = true :=
      isFrame_cons (isFence_token op) (token_ne_empty op)
    cases hshape : op.shape with
    | binary =>
      rcases h.alike with _ | ⟨_, _ | ⟨_, _ | _⟩⟩
      · exact .error
      · exact absurd rfl (hone hshape)
      · refine .ok (h.frames "(" [" " ++ op.token ++ " ", ")"] (htoken (by decide)) rfl ?_ ?_) <;>
          simp only [weave, String.append_assoc, toString]
      · exact .error
    | unary =>
      rcases h.alike with _ | ⟨_, _ | _⟩
      · exact .error
      · exact .ok (h.frames ("(" ++ op.token ++ " ") [")"] (isFrame_token op) rfl rfl rfl)
      · exact .error
    | between =>
      rcases h.alike with _ | ⟨_, _ | ⟨_, _ | ⟨_, _ | _⟩⟩⟩
      · exact .error
      · exact .error
      · exact .error
      · refine .ok
          (h.frames "(" [" " ++ op.token ++ " ", " AND ", ")"] (htoken (by decide)) rfl ?_ ?_) <;>
          simp only [weave, String.append_assoc, toString]
      · exact .error
    | logical =>
      rcases h.alike with _ | ⟨_, _⟩
      · exact .ok (h.frames "()" [] (by decide) rfl rfl rfl)
      · have hjoined := h.intercalate (isFence_token op) (token_ne_empty op) (cons_ne_nil _ _)
        exact .ok (hjoined.frames "(" [")"] (by decide) rfl rfl rfl)

/-- A qualified operator has its two operands apart. -/
theorem comparison_tracks {qualifier : Option Qualifier} (h : Passes D xs ys)
    (hone : qualifier = none → op.shape = .binary → xs.length ≠ 1) :
    Tracks D (engine.comparison op qualifier xs) (engine.comparison op qualifier ys) := by
  cases qualifier with
  | none => exact operation_tracks h (hone rfl)
  | some qualifier =>
    rcases h.alike with _ | ⟨_, _ | ⟨_, _ | _⟩⟩
    · exact .error
    · exact .error
    · exact .ok (qualified_frames op qualifier h)
    · exact .error

/-- A minus sign stands right before its operand. -/
theorem operation_minus (engine : Engine) (a : String) :
    engine.operation .sub [a] = .ok ("(-" ++ a ++ ")") := by
  have htoken : Operator.token .sub = "-" := by decide +kernel
  cases engine <;> simp [operation, operator?, Operator.shape, htoken, toString]

/-- A minus sign opens a comment together with a minus sign of its operand. -/
theorem minus_passes (h : Passes D [a] [b]) :
    Passes (D ∪ {o | o = .dashes ∧ a.toList.head? = some '-'}) ["(-" ++ a ++ ")"]
      ["(-" ++ b ++ ")"] := by
  obtain ⟨halike, hopens, hsolid⟩ := passes_singleton.mp h
  have hscan : (scan outside "(-".toList).1 = outside := by decide
  have hclosed : Alike ("(-" ++ a) ("(-" ++ b) := (settled_of_scan hscan).append halike
  have hsign : skeleton "(-" = [.plain '(', .plain '-'] := by decide
  have hhead : (skeleton a).head? = some (.plain '-') ↔ a.toList.head? = some '-' :=
    head?_skeleton_iff (by decide)
  obtain ⟨-, hsame⟩ := ready_append_fence hclosed.left (by decide : isFence ")" = true) (by decide)
  refine passes_singleton.mpr ⟨(hclosed.text (by decide) (by decide)).alike, fun o => ?_, ?_⟩
  swap
  · have hstart : spaced true (skeleton "(-") = some false := by decide
    rw [Solid, skeleton_append_fence hclosed.left (by decide), (scan_append_outside hscan).2,
      spaced_append, spaced_append, hstart, Option.bind_some, spaced_of_solid hsolid]
    decide
  rw [hsame o, Opens, (scan_append_outside hscan).2, hsign, Opener.marks, pair_infix_append,
    Set.mem_union, ← hopens]
  cases o with
  | dashes => simp [Opens, Opener.marks, Opener.first, Opener.second, pair_infix_cons, hhead]
  | slashStar => simp [Opens, Opener.marks, Opener.first, Opener.second, pair_infix_cons]

/-! ## Function calls -/

/-- A literal opens no comment. -/
theorem not_opens_literal (h : endsOutside a = true) (hliteral : (unquoteLiteral? a).isSome = true)
    (o : Opener) :
    ¬Opens o a :=
  not_opens_of_skeleton ((isSome_unquoteLiteral? h).mp hliteral)

/-- Where all steps of a path are literals they make one literal, and neither opens a comment. -/
theorem trinoJsonPath_passes (h : Passes D xs ys) :
    Passes D [trinoJsonPath xs] [trinoJsonPath ys] := by
  have hall : ∀ xs : List String, (xs.mapM unquoteLiteral?).isSome = xs.all fun x =>
      (unquoteLiteral? x).isSome := by
    intro xs
    induction xs with
    | nil => rfl
    | cons x xs ih =>
      rw [mapM_cons, all_cons, ← ih]
      cases unquoteLiteral? x <;> cases xs.mapM unquoteLiteral? <;> rfl
  have hkeys : (xs.mapM unquoteLiteral?).isSome = (ys.mapM unquoteLiteral?).isSome := by
    have hsame : ∀ {xs ys : List String}, Forall₂ Alike xs ys →
      (xs.all fun x => (unquoteLiteral? x).isSome) =
        ys.all fun y => (unquoteLiteral? y).isSome := by
      intro xs ys h
      induction h with
      | nil => rfl
      | cons hab _ ih => rw [all_cons, all_cons, hab.isSome_unquoteLiteral?, ih]
    rw [hall, hall, hsame h.alike]
  have hstep : ∀ {E a b}, Passes E [a] [b] → Passes E [s!"'.', {a}"] [s!"'.', {b}"] := by
    intro E a b h
    have hpoint : Passes ∅ ["'.'"] ["'.'"] := (frames_quoteLiteral "." ".").passes
    have hweave := (hpoint.add h).weave (by decide : isLoom "" [", ", ""] = true) rfl
    simpa [weave, toString] using hweave
  unfold trinoJsonPath
  cases hxs : xs.mapM unquoteLiteral? with
  | some keys =>
    obtain ⟨keys', hys⟩ := Option.isSome_iff_exists.mp (hkeys.symm.trans (by rw [hxs]; rfl))
    have hliterals := all_eq_true.mp ((hall xs).symm.trans (by rw [hxs]; rfl))
    obtain rfl : D = ∅ := Set.eq_empty_of_forall_notMem fun o ho => by
      obtain ⟨x, hx, hopens⟩ := (h.opens o).mpr ho
      exact not_opens_literal (h.closed x hx) (hliterals x hx) o hopens
    rw [hys]
    exact (frames_quoteLiteral _ _).passes
  | none =>
    have hys : ys.mapM unquoteLiteral? = none :=
      Option.not_isSome_iff_eq_none.mp fun hsome => by simp [hxs, hsome] at hkeys
    rw [hys]
    have hne : xs ≠ [] := by
      rintro rfl
      cases hxs
    exact (((h.map hstep).commaList (by simpa using hne)).frames "concat('$', " [")"]
      (by decide) rfl rfl rfl).passes

/-- Trino's extraction of a part of a point in time leaves out a literal. -/
theorem trinoDatePart_tracks (h : Passes D [a, c] [a, d]) :
    Tracks D (trinoDatePart a c) (trinoDatePart a d) := by
  unfold trinoDatePart
  split
  · next name hname =>
    split
    · next hfield =>
      obtain ⟨literal, hliteral, -⟩ := Option.map_eq_some_iff.mp hname
      obtain ⟨_ | ⟨ha, _ | ⟨hcd, _⟩⟩, hopens, hsolid⟩ := h
      have hsilent := not_opens_literal ha.left (by rw [hliteral]; rfl)
      have hvalue : Passes D [c] [d] :=
        passes_singleton.mpr ⟨hcd, fun o => by simpa [hsilent] using hopens o, hsolid c (by simp)⟩
      exact .ok (hvalue.frames _ _ (isFrame_trinoField name (by simpa using hfield)) rfl rfl rfl)
    · exact .error
  · exact .error

/-- An engine's own SQL of a function opens no comment of its own; only the part that Trino extracts
from a point in time is read from its text. -/
theorem function?_frames (h : Passes D xs ys)
    (hdate : engine = .trino → name = "date_part" → xs = ys)
    (ho : engine.function? name xs distinct = .ok o) :
    ∃ o', engine.function? name ys distinct = .ok o' ∧ Option.Rel (Frames D) o o' := by
  unfold function? at ho
  split at ho
  · cases ho
    rcases h.alike with _ | ⟨_, _ | _⟩
    · refine ⟨_, rfl, .some (h.frames "json_extract_path(" [", )"] (by decide) rfl ?_ ?_)⟩ <;>
        simp [commaList, weave, toString, ← String.toList_inj]
    · have hparts := h.cons_replace fun h => h.commaList (cons_ne_nil _ _)
      exact ⟨_, rfl, .some (hparts.frames "json_extract_path(" [", ", ")"] (by decide) rfl rfl rfl)⟩
  · cases ho
    rcases h.alike with _ | ⟨_, _ | _⟩
    exact ⟨_, rfl, .some (h.frames "array_length(" [", 1)"] (by decide) rfl rfl rfl)⟩
  · cases ho
    rcases h.alike with _ | ⟨_, _ | ⟨_, _ | _⟩⟩
    cases engine <;>
      exact ⟨_, rfl, .some (h.frames "ST_Intersects(" [", ", ")"] (by decide) rfl rfl rfl)⟩
  · cases ho
    rcases h.alike with _ | ⟨_, _ | ⟨_, _ | _⟩⟩
    cases engine <;>
      exact ⟨_, rfl, .some (h.frames "ST_Within(" [", ", ")"] (by decide) rfl rfl rfl)⟩
  · cases ho
    rcases h.alike with _ | ⟨_, _ | ⟨_, _ | _⟩⟩
    exact ⟨_, rfl,
      .some (h.frames "ST_Distance((" [")::geography, (", ")::geography)"] (by decide) rfl rfl rfl)⟩
  · cases ho
    rcases h.alike with _ | ⟨_, _ | _⟩
    exact ⟨_, rfl, .some (h.frames "ST_Area((" [")::geography)"] (by decide) rfl rfl rfl)⟩
  · obtain rfl := hdate rfl rfl
    obtain ⟨x, hx, hox⟩ := of_bind ho
    cases hox
    obtain ⟨y, hy, hxy⟩ := trinoDatePart_tracks h x hx
    exact ⟨some y, bind_eq_ok.mpr ⟨y, hy, rfl⟩, .some hxy⟩
  · cases ho
    rcases h.alike with _ | ⟨_, _⟩
    exact ⟨_, rfl,
      .some ((h.cons_replace trinoJsonPath_passes).frames "json_extract(" [", ", ")"] (by decide)
      rfl rfl rfl)⟩
  · cases ho
    rcases h.alike with _ | ⟨_, _ | _⟩
    exact ⟨_, rfl, .some (h.frames "cardinality(" [")"] (by decide) rfl rfl rfl)⟩
  · cases ho
    rcases h.alike with _ | ⟨_, _ | ⟨_, _ | _⟩⟩
    exact ⟨_, rfl, .some (h.frames ("array_join(array_agg(" ++ distinctWord distinct) ["), ", ")"]
      (by cases distinct <;> decide) rfl rfl rfl)⟩
  · cases ho
    rcases h.alike with _ | ⟨_, _ | ⟨_, _ | _⟩⟩
    exact ⟨_, rfl,
      .some (h.frames "ST_Distance(to_spherical_geography(" ["), to_spherical_geography(", "))"]
      (by decide) rfl rfl rfl)⟩
  · cases ho
    rcases h.alike with _ | ⟨_, _ | _⟩
    exact ⟨_, rfl,
      .some (h.frames "ST_Area(to_spherical_geography(" ["))"] (by decide) rfl rfl rfl)⟩
  · cases ho
    refine ⟨none, ?_, .none⟩
    have halike := h.alike
    unfold function?
    split
    -- A rule that takes the second arguments would have taken the first: they are as many.
    all_goals first
      | rfl
      | (cases halike; simp_all; done)
      | (rcases halike with _ | ⟨_, _ | _⟩; simp_all)

/-- A call opens no comment of its own. -/
theorem call_tracks {f : FunctionSpec} (known : FunctionRegistry.standard.get? f.name = some f)
    (h : Passes D xs ys) (hdate : engine = .trino → f.name = "date_part" → xs = ys) :
    Tracks D (engine.call f xs distinct) (engine.call f ys distinct) := by
  intro x hx
  obtain ⟨o, ho, hx⟩ := of_bind hx
  obtain ⟨o', ho', hoo⟩ := function?_frames h hdate ho
  rw [call, ho', ok_bind]
  cases hoo with
  | some hxy =>
    cases hx
    exact ⟨_, rfl, hxy⟩
  | none =>
    dsimp only at hx ⊢
    split at hx
    · next hcount =>
      cases hx
      obtain rfl : xs = [] := by simpa using (Bool.and_eq_true_iff.mp hcount).1
      cases h.alike
      exact ⟨_, if_pos hcount, h.frames "count(*)" [] (by decide) rfl rfl rfl⟩
    · next hcount =>
      cases hx
      have hframe := isFrame_function distinct f (FunctionRegistry.mem_specs_of_get? known).1
      have hempty : xs.isEmpty = ys.isEmpty := by cases h.alike <;> rfl
      refine ⟨_, if_neg (hempty ▸ hcount), ?_⟩
      rcases h.alike with _ | ⟨_, _⟩
      · have hclose := (frames_fixed (by decide : isFrame ")" [] = true)).passes.add h
        refine hclose.frames _ [""] (isFrame_empty hframe) rfl ?_ ?_ <;>
          simp [commaList, weave, toString]
      · exact (h.commaList (cons_ne_nil _ _)).frames _ _ hframe rfl rfl rfl

/-- The identifier that a context function stands for. -/
def SqlOptions.contextId? (options : SqlOptions) : String → Option Int
  | "whitelabel_id" => options.whitelabelId
  | "customer_id" => options.customerId
  | _ => none

/-- The value of a context function is a number. -/
theorem contextValue_eq_ok {options : SqlOptions} (h : contextValue options name = .ok a) :
    ∃ id, options.contextId? name = some id ∧ a = toString id := by
  unfold contextValue at h
  dsimp only at h
  split at h
  · next id hid =>
    cases h
    exact ⟨id, hid, rfl⟩
  · cases h

/-! ## Expressions -/

/-- An alias does not show in the skeleton but by being there. -/
theorem aliasedSql_passes {label label' : Option String} (hlabel : label.isSome = label'.isSome)
    (h : Passes D [a] [b]) : Passes D [aliasedSql label a] [aliasedSql label' b] := by
  cases label with
  | none =>
    cases label' with
    | none => exact h
    | some => cases hlabel
  | some name =>
    cases label' with
    | none => cases hlabel
    | some name' =>
      have hparts : Passes D [a, quoteIdent name] [b, quoteIdent name'] := by
        simpa using h.append (frames_quoteIdent name name').passes
      have hweave := hparts.weave (by decide : isLoom "" [" AS ", ""] = true) rfl
      simpa [weave, aliasedSql, toString] using hweave

/-- A common table under its name. -/
theorem cteSql_passes (name other : String) (h : Passes D [a] [b]) :
    Passes D [s!"{quoteIdent name} AS ({a})"] [s!"{quoteIdent other} AS ({b})"] := by
  have hparts := (frames_quoteIdent name other).passes.add h
  have hweave := hparts.weave (by decide : isLoom "" [" AS (", ")"] = true) rfl
  simpa [weave, toString] using hweave

/-- A column shows in the skeleton by being all columns or one, with a qualifier or without. -/
theorem Column.sql_frames {c c' : Column} (hname : c.isWildcard = c'.isWildcard)
    (hqualifier : c.qualifier.isSome = c'.qualifier.isSome) : Frames ∅ c.sql c'.sql := by
  have hcolumn : Frames ∅ (if c.isWildcard then "*" else quoteIdent c.name)
      (if c'.isWildcard then "*" else quoteIdent c'.name) := by
    rw [hname]
    split
    · exact ⟨passes_singleton.mpr
        ⟨⟨by decide, by decide, rfl⟩, fun o => by cases o <;> decide, by decide⟩, by decide⟩
    · exact frames_quoteIdent _ _
  unfold Column.sql
  dsimp only
  generalize (if c.isWildcard then "*" else quoteIdent c.name) = name at hcolumn ⊢
  generalize (if c'.isWildcard then "*" else quoteIdent c'.name) = name' at hcolumn ⊢
  cases hq : c.qualifier with
  | none =>
    cases hq' : c'.qualifier with
    | none => exact hcolumn
    | some => simp [hq, hq'] at hqualifier
  | some q =>
    cases hq' : c'.qualifier with
    | none => simp [hq, hq'] at hqualifier
    | some q' =>
      have hparts := (frames_quoteIdent q q').passes.add hcolumn.passes
      have hweave := hparts.weave (by decide : isLoom "" [".", ""] = true) rfl
      exact ⟨by simpa [weave, toString] using hweave, by simp [quoteIdent, toString]⟩

theorem array_frames (h : Passes D xs ys) : Frames D (engine.array xs) (engine.array ys) := by
  rcases h.alike with _ | ⟨_, _⟩
  · exact h.frames "ARRAY[]" [] (by decide) rfl rfl rfl
  · exact (h.commaList (cons_ne_nil _ _)).frames "ARRAY[" ["]"] (by decide) rfl rfl rfl

theorem list_frames (h : Passes D xs ys) : Frames D s!"({commaList xs})" s!"({commaList ys})" := by
  rcases h.alike with _ | ⟨_, _⟩
  · exact h.frames "()" [] (by decide) rfl rfl rfl
  · exact (h.commaList (cons_ne_nil _ _)).frames "(" [")"] (by decide) rfl rfl rfl

theorem Quoting.Frames.wrap (h : Frames D a b) (role : SelectRole) :
    Frames D (role.wrap a) (role.wrap b) := by
  unfold SelectRole.wrap
  split
  · exact h.passes.frames "(" [")"] (by decide) rfl rfl rfl
  · exact h

theorem setSql_frames (op : SetOperator) (all : Bool) (h : Passes D [a, c] [b, d]) :
    Frames D (op.sql all a c) (op.sql all b d) := by
  refine h.frames "(" [") " ++ op.name.toUpper ++ (if all then " ALL" else "") ++ " (", ")"]
    (isFrame_setOperator op all) rfl ?_ ?_ <;>
    simp only [SetOperator.sql, weave, String.append_assoc, toString]

theorem joinSql_frames (type : JoinType) (hon : type = .cross ∨ type = .lateral → o = none)
    (h : Passes D (a :: o.toList) (b :: o'.toList)) : Frames D (type.sql a o) (type.sql b o') := by
  cases o with
  | none =>
    cases o' with
    | some => exact absurd h.alike.length_eq (by simp)
    | none =>
      have hframes : ∀ start, isFrame start [""] = true → Frames D (start ++ a) (start ++ b) := by
        intro start hstart
        refine h.frames start [""] hstart rfl ?_ ?_ <;> simp [weave]
      cases type
      case cross => exact hframes "CROSS JOIN " (by decide)
      case lateral => exact hframes "CROSS JOIN LATERAL " (by decide)
      all_goals exact hframes _ (isFrame_join _).1
  | some on =>
    cases o' with
    | none => exact absurd h.alike.length_eq (by simp)
    | some other =>
      have hframes : Frames D s!"{type.name.toUpper} JOIN {a} ON {on}"
          s!"{type.name.toUpper} JOIN {b} ON {other}" := by
        refine h.frames (type.name.toUpper ++ " JOIN ") [" ON ", ""]
          (isFrame_join type).2 rfl ?_ ?_ <;>
          simp [weave, toString]
      cases type
      case cross => cases hon (.inl rfl)
      case lateral => cases hon (.inr rfl)
      all_goals exact hframes

/-- A sort item begins as its value does. -/
theorem sortSql_passes (direction : Option SortDirection) (nulls : Option NullsOrder)
    (h : Passes D [a] [b]) :
    Passes D [sortSql a direction nulls] [sortSql b direction nulls] ∧
      ((sortSql a direction nulls).toList.head? = some '-' ↔ a.toList.head? = some '-') := by
  obtain ⟨hloom, hhead⟩ := isLoom_sort direction nulls
  rw [sortSql_eq a, sortSql_eq b]
  generalize sortSql "" direction nulls = p at hloom hhead ⊢
  have hweave := h.weave hloom rfl
  refine ⟨by simpa [weave] using hweave, ?_⟩
  rw [String.toList_append, head?_append]
  cases a.toList with
  | nil => simpa using hhead
  | cons => rfl

private theorem listClause_passes (keyword : String)
    (hkeyword : isFrame (keyword ++ " ") [""] = true) (h : Passes D xs ys) :
    Passes D (listClause keyword xs) (listClause keyword ys) := by
  rcases h.alike with _ | ⟨_, _⟩
  · exact h
  · refine ((h.commaList (cons_ne_nil _ _)).frames (keyword ++ " ")
      [""] hkeyword rfl ?_ ?_).passes <;>
      simp [weave, toString]

private theorem optionClause_passes (keyword : String)
    (hkeyword : isFrame (keyword ++ " ") [""] = true) (h : Passes D o.toList o'.toList) :
    Passes D (optionClause keyword o) (optionClause keyword o') := by
  cases o <;> cases o'
  · exact h
  · cases h.alike
  · cases h.alike
  · refine (h.frames (keyword ++ " ") [""] hkeyword rfl ?_ ?_).passes <;> simp [weave, toString]

/-- A branch of a case. -/
theorem branchSql_passes (h : Passes D [a, c] [b, d]) :
    Passes D [s!"WHEN {a} THEN {c}"] [s!"WHEN {b} THEN {d}"] := by
  refine (h.frames "WHEN " [" THEN ", ""] (by decide) rfl ?_ ?_).passes <;> simp [weave, toString]

/-- Texts with blanks before them are joined by blanks. -/
theorem append_join_eq_intercalate (a : String) (xs : List String) :
    a ++ String.join (xs.map (" " ++ ·)) = " ".intercalate (a :: xs) := by
  induction xs generalizing a with
  | nil => simp [String.join]
  | cons x xs ih =>
    rw [map_cons, String.join_cons, String.intercalate_cons_cons, ← ih x]
    simp only [String.append_assoc]

/-- A joined text begins as the first one does, unless that is empty. -/
theorem head?_intercalate {sep : String} {x : String} (hx : x ≠ "") :
    (sep.intercalate (x :: xs)).toList.head? = x.toList.head? := by
  obtain ⟨c, cs, hcs⟩ := exists_cons_of_ne_nil (mt String.toList_eq_nil_iff.mp hx)
  cases xs with
  | nil => simp
  | cons y ys => simp [String.intercalate_cons_cons, hcs]

/-- A case keeps its branches apart. -/
theorem caseSql_frames {E : Set Opener} (h : Passes D xs ys) (h' : Passes E o.toList o'.toList) :
    Frames (D ∪ E)
      ("CASE" ++ String.join (xs.map (" " ++ ·)) ++ String.join (optionClause " ELSE" o) ++ " END")
      ("CASE" ++ String.join (ys.map (" " ++ ·)) ++ String.join
        (optionClause " ELSE" o') ++ " END") := by
  have hcase : ∀ xs o, "CASE" ++ String.join (xs.map (" " ++ ·)) ++ String.join
    (optionClause " ELSE" o) ++ " END" =
      " ".intercalate ("CASE" :: (xs ++ optionClause "ELSE" o ++ ["END"])) := by
    intro xs o
    rw [← append_join_eq_intercalate, ← String.toList_inj]
    cases o <;> simp [optionClause, toString]
  have hwords : Passes ∅ ["CASE"] ["CASE"] ∧ Passes ∅ ["END"] ["END"] :=
    ⟨(frames_fixed (by decide)).passes, (frames_fixed (by decide)).passes⟩
  have hparts :=
    hwords.1.add ((h.append (optionClause_passes "ELSE" (by decide) h')).append hwords.2)
  rw [hcase, hcase]
  refine ⟨by simpa using hparts.intercalate (by decide) (by decide) (cons_ne_nil _ _), ?_⟩
  rw [head?_intercalate (by decide)]
  decide

/-! ## Clauses -/

private theorem limitOffset_passes (engine : Engine) (limit : Option Limit) (offset : Option Nat) :
    Passes ∅ (engine.limitOffset limit offset) (engine.limitOffset limit offset) := by
  have hcount : ∀ word (rows : Nat), isFrame (word ++ " ") [""] = true →
      Passes ∅ [s!"{word} {rows}"] [s!"{word} {rows}"] := by
    intro word rows hword
    have hrows : Passes ∅ [toString rows] [toString rows] := (numeral_toString rows).passes
    refine (hrows.frames (word ++ " ") [""] hword rfl ?_ ?_).passes <;> simp [weave, toString]
  have hlimit : Passes ∅ (limit.map limitClause).toList (limit.map limitClause).toList := by
    cases limit with
    | none => exact .nil
    | some limit =>
      cases limit with
      | count rows => exact hcount "LIMIT" rows (by decide)
      | all => exact (frames_fixed (by decide)).passes
  have hoffset : Passes ∅ (offset.map fun rows => s!"OFFSET {rows}").toList
      (offset.map fun rows => s!"OFFSET {rows}").toList := by
    cases offset with
    | none => exact .nil
    | some rows => exact hcount "OFFSET" rows (by decide)
  cases engine with
  | pg => exact hlimit.add hoffset
  | trino => exact hoffset.add hlimit

theorem clausesSql_frames {W S J C F G H O : Set Opener} {c d : Clauses String} (engine : Engine)
    (hwiths : Passes W c.withs d.withs) (hsource : Passes S c.source.toList d.source.toList)
    (hjoins : Passes J c.joins d.joins) (hdistinct : d.distinct = c.distinct)
    (hcolumns : Passes C c.columns d.columns) (hne : c.columns ≠ [])
    (hfilter : Passes F c.filter.toList d.filter.toList) (hgroupBy : Passes G c.groupBy d.groupBy)
    (hhaving : Passes H c.having.toList d.having.toList) (horderBy : Passes O c.orderBy d.orderBy)
    (hlimit : d.limit = c.limit) (hoffset : d.offset = c.offset) :
    Frames (W ∪ S ∪ J ∪ C ∪ F ∪ G ∪ H ∪ O) (c.sql engine) (d.sql engine) := by
  have hselect : Frames C s!"SELECT {distinctWord c.distinct}{commaList c.columns}"
      s!"SELECT {distinctWord c.distinct}{commaList d.columns}" := by
    refine (hcolumns.commaList hne).frames ("SELECT " ++ distinctWord c.distinct) [""]
      (by cases c.distinct <;> decide) rfl ?_ ?_ <;> simp [weave, toString]
  have hfrom := ((listClause_passes "WITH" (by decide) hwiths).append hselect.passes).append
    (optionClause_passes "FROM" (by decide) hsource)
  have hwhere := (hfrom.append hjoins).append (optionClause_passes "WHERE" (by decide) hfilter)
  have hgroups := (hwhere.append (listClause_passes "GROUP BY" (by decide) hgroupBy)).append
    (optionClause_passes "HAVING" (by decide) hhaving)
  have hclauses := (hgroups.append (listClause_passes "ORDER BY" (by decide) horderBy)).append
    (limitOffset_passes engine c.limit c.offset)
  have hopened : W ∪ C ∪ S ∪ J ∪ F ∪ G ∪ H ∪ O ∪ ∅ = W ∪ S ∪ J ∪ C ∪ F ∪ G ∪ H ∪ O := by
    ext o
    simp only [Set.mem_union, Set.mem_empty_iff_false]
    tauto
  rw [hopened] at hclauses
  unfold Clauses.sql
  rw [hdistinct, hlimit, hoffset]
  refine ⟨hclauses.intercalate (by decide) (by decide) (by simp), ?_⟩
  cases c.withs with
  | nil =>
    simp only [listClause, isEmpty_nil, if_true, nil_append, cons_append]
    rw [head?_intercalate (by simp [toString, ← String.toList_inj])]
    exact hselect.unsigned
  | cons x xs =>
    simp only [listClause, isEmpty_cons, Bool.false_eq_true, if_false, nil_append, cons_append]
    rw [head?_intercalate (by simp [toString, ← String.toList_inj])]
    simp [toString]

end Parts

end AnalyticQuery
