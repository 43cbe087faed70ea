import AnalyticQuery.Proofs.Result
import AnalyticQuery.Proofs.Tree.Built

/-!
# Folding aliases and casts

A fold that succeeds changes the alias and the cast of a node and nothing else of it. Hence the
built trees are closed under folding.
-/

namespace AnalyticQuery

variable {options : ParseOptions} {r : List String} {s : Scope}

namespace Node

/-- Whether a node is a kept short expression. -/
def isShort : Node → Bool
  | short .. => true
  | _ => false

/-- A node with another alias and cast, where it has a place for them. -/
def retag (n : Node) (tag : Tag) : Node :=
  match n with
  | select role clauses _ => select role clauses tag
  | compound role op all left right _ => compound role op all left right tag
  | view v isCte _ => view v isCte tag.label
  | column c _ => column c tag
  | parameter p value _ => parameter p value tag
  | call f args distinct _ => call f args distinct tag
  | geometry type args _ => geometry type args tag
  | operation op operands qualifier _ => operation op operands qualifier tag
  | case branches otherwise _ => case branches otherwise tag
  | array items _ => array items tag
  | constant value _ => constant value tag
  | other => other

variable {n m : Node}

/-- A node keeps its own alias and cast. -/
theorem retag_tag (n : Node) : n.retag ⟨n.alias?, n.cast?⟩ = n := by
  cases n <;> rfl

private theorem setAlias_eq_retag {name : String} (hs : n.isShort = false) (h : n.canAlias = true) :
    n.setAlias name = n.retag ⟨some name, n.cast?⟩ := by
  cases n with
  | list | sort | join => cases h
  | short => cases hs
  | _ => rfl

private theorem setCast_eq_retag {type : CastType} (hs : n.isShort = false) (h : n.canCast = true) :
    n.setCast type = n.retag ⟨n.alias?, some type⟩ := by
  cases n with
  | list | sort | join | view => cases h
  | short => cases hs
  | _ => rfl

/-- Whether an alias and a cast, where they are given, can be folded onto a node: it can have them,
and it has no other ones. -/
structure Accepts (n : Node) (label : Option String) (cast : Option CastType) : Prop where
  label : ∀ name ∈ label, name ≠ "" ∧ n.canAlias = true ∧ (n.alias? = none ∨ n.alias? = some name)
  cast : ∀ type ∈ cast, n.canCast = true ∧ (n.cast? = none ∨ n.cast? = some type)

/-- A node with an alias and a cast in place of its own, where they are given. A kept short
expression passes both on and keeps them among its named arguments. -/
def given (n : Node) (label : Option String) (cast : Option CastType) : Node :=
  match n with
  | short source inner => short (tagShort source label cast) (inner.given label cast)
  | other => other.retag ⟨label <|> other.alias?, cast <|> other.cast?⟩

theorem given_eq_retag (hs : n.isShort = false) (label : Option String) (cast : Option CastType) :
    n.given label cast = n.retag ⟨label <|> n.alias?, cast <|> n.cast?⟩ := by
  cases n with
  | short => cases hs
  | _ => rfl

/-! ## What a fold refuses -/

/-- A node without the short expressions that are kept around it. -/
def core : Node → Node
  | short _ inner => inner.core
  | n => n

/-- Why a node refuses an alias. -/
def aliasRefusal? (n : Node) (name : String) : Option Error :=
  if name.isEmpty then some (.illegalAliasing "alias cannot be empty")
  else if !n.canAlias then some (.illegalAliasing s!"{n.core.description} cannot be aliased")
  else (n.alias?.filter (· != name)).map fun existing =>
    .illegalAliasing s!"cannot alias as '{name}', already aliased as '{existing}'"

/-- Why a node refuses a cast. -/
def castRefusal? (n : Node) (type : CastType) : Option Error :=
  if !n.canCast then some (.illegalCasting s!"{n.core.description} cannot be cast")
  else (n.cast?.filter (· != type)).map fun existing =>
    .illegalCasting s!"cannot cast to {type.name}, already cast to {existing.name}"

/-- Why a node refuses an alias and a cast, where they are given. -/
def refusal? (n : Node) (label : Option String) (cast : Option CastType) : Option Error :=
  (label.bind n.aliasRefusal?).or (cast.bind n.castRefusal?)

variable {label : Option String} {cast : Option CastType}

private theorem aliasRefusal?_eq_none_iff {name : String} :
    n.aliasRefusal? name = none ↔ name ≠ "" ∧ n.canAlias = true ∧
      (n.alias? = none ∨ n.alias? = some name) := by
  unfold aliasRefusal?
  by_cases hname : name = ""
  · simp [hname]
  · have hempty : name.isEmpty = false := by simpa using hname
    cases hcan : n.canAlias with
    | false => simp [hempty]
    | true => cases n.alias? <;> simp [hempty, hname]

private theorem castRefusal?_eq_none_iff {type : CastType} :
    n.castRefusal? type = none ↔ n.canCast = true ∧ (n.cast? = none ∨ n.cast? = some type) := by
  unfold castRefusal?
  cases hcan : n.canCast with
  | false => simp
  | true => cases n.cast? <;> simp

theorem refusal?_eq_none_iff : n.refusal? label cast = none ↔ n.Accepts label cast := by
  rw [refusal?, Option.or_eq_none_iff, Option.bind_eq_none_iff, Option.bind_eq_none_iff]
  constructor
  · rintro ⟨hlabel, hcast⟩
    exact ⟨fun name hname => aliasRefusal?_eq_none_iff.mp (hlabel name hname),
      fun type htype => castRefusal?_eq_none_iff.mp (hcast type htype)⟩
  · rintro ⟨hlabel, hcast⟩
    exact ⟨fun name hname => aliasRefusal?_eq_none_iff.mpr (hlabel name hname),
      fun type htype => castRefusal?_eq_none_iff.mpr (hcast type htype)⟩

private theorem core_eq (hs : n.isShort = false) : n.core = n := by
  cases n with
  | short => cases hs
  | _ => rfl

theorem description_core_given (n : Node) (label : Option String) (cast : Option CastType) :
    (n.given label cast).core.description = n.core.description := by
  cases n with
  | short source inner => exact description_core_given inner label cast
  | _ => rfl

theorem canAlias_given (n : Node) (label : Option String) (cast : Option CastType) :
    (n.given label cast).canAlias = n.canAlias := by
  cases n with
  | short e inner => exact canAlias_given inner label cast
  | _ => rfl

theorem canCast_given (n : Node) (label : Option String) (cast : Option CastType) :
    (n.given label cast).canCast = n.canCast := by
  cases n with
  | short e inner => exact canCast_given inner label cast
  | _ => rfl

theorem Accepts.tag_given {n : Node} {label : Option String} {cast : Option CastType}
    (h : n.Accepts label cast) :
    (n.given label cast).tag = ⟨label <|> n.alias?, cast <|> n.cast?⟩ := by
  cases n with
  | short e inner =>
    have hinner : inner.Accepts label cast := ⟨h.label, h.cast⟩
    exact hinner.tag_given
  | list | sort | join =>
    obtain ⟨hlabel, hcast⟩ := h
    cases label with
    | some name => cases (hlabel name rfl).2.1
    | none =>
      cases cast with
      | some type => cases (hcast type rfl).1
      | none => rfl
  | view =>
    cases cast with
    | some type => cases (h.cast type rfl).1
    | none => rfl
  | _ => rfl

private theorem foldAlias_eq (hs : n.isShort = false) (name : String) :
    n.foldAlias name = (n.aliasRefusal? name).elim (.ok (n.given (some name) none)) .error := by
  rw [foldAlias, aliasRefusal?, core_eq hs, given_eq_retag hs]
  split
  · rfl
  cases hcan : n.canAlias with
  | false => rfl
  | true =>
    cases hlabel : n.alias? with
    | none => simp [setAlias_eq_retag hs hcan]
    | some existing =>
      by_cases hsame : existing = name
      · have hself : n.retag ⟨some name, n.cast?⟩ = n := by rw [← hsame, ← hlabel, retag_tag]
        simp [hsame, hself, Option.filter_some]
      · simp [hsame, Option.filter_some]

private theorem foldCast_eq (hs : n.isShort = false) (type : CastType) :
    n.foldCast type = (n.castRefusal? type).elim (.ok (n.given none (some type))) .error := by
  rw [foldCast, castRefusal?, core_eq hs, given_eq_retag hs]
  cases hcan : n.canCast with
  | false => rfl
  | true =>
    cases hcast : n.cast? with
    | none => simp [setCast_eq_retag hs hcan]
    | some existing =>
      by_cases hsame : existing = type
      · have hself : n.retag ⟨n.alias?, some type⟩ = n := by rw [← hsame, ← hcast, retag_tag]
        simp [hsame, hself, Option.filter_some]
      · simp [hsame, Option.filter_some]

private theorem isShort_retag (n : Node) (tag : Tag) : (n.retag tag).isShort = n.isShort := by
  cases n <;> rfl

theorem retag_retag (n : Node) (tag tag' : Tag) :
    (n.retag tag).retag tag' = n.retag tag' := by
  cases n <;> rfl

private theorem alias?_retag {tag : Tag} (hs : n.isShort = false) (h : n.canAlias = true) :
    (n.retag tag).alias? = tag.label := by
  cases n with
  | list | sort | join => cases h
  | short => cases hs
  | _ => rfl

theorem fold_eq_foldPlain (hs : n.isShort = false) (label : Option String)
    (cast : Option CastType) :
    n.fold label cast = n.foldPlain label cast := by
  cases n with
  | short => cases hs
  | _ => rfl

/-- What a fold refuses it refuses before anything else, and else it gives the alias and the
cast. -/
theorem fold_eq (n : Node) (label : Option String) (cast : Option CastType) :
    n.fold label cast = (n.refusal? label cast).elim (.ok (n.given label cast)) .error := by
  cases hs : n.isShort with
  | true =>
    cases n with
    | short source inner =>
      have hinner : (short source inner).refusal? label cast = inner.refusal? label cast := rfl
      rw [fold, fold_eq inner, hinner]
      cases inner.refusal? label cast <;> rfl
    | _ => cases hs
  | false =>
    rw [fold_eq_foldPlain hs]
    cases label with
    | none =>
      cases cast with
      | none =>
        have hself : n.given none none = n := (given_eq_retag hs none none).trans (retag_tag n)
        rw [hself]
        rfl
      | some type => exact foldCast_eq hs type
    | some name =>
      have hsteps : n.foldPlain (some name) cast =
          n.foldAlias name >>= (·.foldPlain none cast) := rfl
      have hrefusal : n.refusal? (some name) cast =
          (n.aliasRefusal? name).or (cast.bind n.castRefusal?) := rfl
      rw [hsteps, foldAlias_eq hs, hrefusal]
      cases hlabel : n.aliasRefusal? name with
      | some e => rfl
      | none =>
        have haccepts : n.Accepts (some name) none :=
          refusal?_eq_none_iff.mp (by simp [refusal?, hlabel])
        cases cast with
        | none => rfl
        | some type =>
          have hs' : (n.given (some name) none).isShort = false := by
            rw [given_eq_retag hs, isShort_retag, hs]
          have hcast : (n.given (some name) none).castRefusal? type = n.castRefusal? type := by
            rw [castRefusal?, castRefusal?, canCast_given, description_core_given, cast?,
              haccepts.tag_given]
            rfl
          have hgiven : (n.given (some name) none).given none (some type) =
              n.given (some name) (some type) := by
            rw [given_eq_retag hs', given_eq_retag hs, given_eq_retag hs, retag_retag,
              alias?_retag hs (haccepts.label name rfl).2.1]
            rfl
          exact (foldCast_eq hs' type).trans (by rw [hcast, hgiven]; rfl)
termination_by sizeOf n

/-- A fold succeeds exactly if the node accepts the alias and the cast, and then gives them to
it. -/
theorem fold_ok_iff {n m : Node} {label : Option String} {cast : Option CastType} :
    n.fold label cast = .ok m ↔ n.Accepts label cast ∧ m = n.given label cast := by
  rw [fold_eq, ← refusal?_eq_none_iff]
  cases n.refusal? label cast with
  | none => exact ⟨fun h => ⟨rfl, (Except.ok.inj h).symm⟩, fun h => congrArg Except.ok h.2.symm⟩
  | some e => exact ⟨nofun, nofun⟩

/-- A fold of nothing leaves the node as it is. -/
theorem fold_nothing (n : Node) : n.fold none none = .ok n := by
  cases n with
  | short source inner => rw [fold, fold_nothing inner]; rfl
  | _ => rfl

/-- A fold onto a node that is no kept short expression gives the alias and the cast where they are
given, keeps them where they are not, and asks whether the node can have them. -/
theorem fold_cases {label : Option String} {cast : Option CastType} (hs : n.isShort = false)
    (h : n.fold label cast = .ok m) :
    m = n.retag ⟨label <|> n.alias?, cast <|> n.cast?⟩ ∧
      (∀ name ∈ label, name ≠ "" ∧ n.canAlias = true) ∧ (cast.isSome → n.canCast = true) := by
  obtain ⟨haccepts, rfl⟩ := fold_ok_iff.mp h
  refine ⟨given_eq_retag hs label cast, fun name hname => ?_, fun hcast => ?_⟩
  · obtain ⟨hne, hcan, -⟩ := haccepts.label name hname
    exact ⟨hne, hcan⟩
  · obtain ⟨type, htype⟩ := Option.isSome_iff_exists.mp hcast
    exact (haccepts.cast type htype).1

/-- A fold onto a node without alias and cast gives it those that it can have. -/
theorem fold_eq_ok {tag : Tag} (hs : n.isShort = false) (hbare : n.tag = {})
    (named : tag.label ≠ some "") (hcanAlias : tag.label.isSome → n.canAlias = true)
    (hcanCast : tag.cast.isSome → n.canCast = true) :
    n.fold tag.label tag.cast = .ok (n.retag tag) := by
  have hlabel : n.alias? = none := by rw [alias?, hbare]
  have hcast : n.cast? = none := by rw [cast?, hbare]
  rw [fold_ok_iff, given_eq_retag hs, hlabel, hcast]
  refine ⟨⟨fun name hname => ⟨?_, hcanAlias (Option.isSome_of_mem hname), .inl hlabel⟩,
    fun type htype => ⟨hcanCast (Option.isSome_of_mem htype), .inl hcast⟩⟩, ?_⟩
  · rintro rfl
    exact named hname
  · obtain ⟨_ | _, _ | _⟩ := tag <;> rfl

/-- Nothing is given to a node that can have neither an alias nor a cast. -/
theorem eq_of_fold_join {type : JoinType} {relation : Node} {on : Option Node}
    {label : Option String} {cast : Option CastType}
    (h : (join type relation on).fold label cast = .ok m) : m = join type relation on :=
  (fold_cases rfl h).1

end Node

/-- A value stays a built value under another alias and cast. -/
theorem Built.retag {n : Node} {tag : Tag} (hn : Built options r .value s n)
    (named : tag.label ≠ some "") :
    Built options r .value s (n.retag tag) := by
  cases hn with
  | constant value read _ => exact .constant value read named
  | column hasName hasView found _ => exact .column hasName hasView found named
  | bound hasName unreserved binding fresh run inner _ =>
    exact .bound hasName unreserved binding fresh run inner named
  | free hasName unreserved binding allowed _ =>
    exact .free hasName unreserved binding allowed named
  | call known parts arity aggregate _ => exact .call known parts arity aggregate named
  | geometry parts arity _ => exact .geometry parts arity named
  | operation parts arity qualified flat _ => exact .operation parts arity qualified flat named
  | case nonempty conditions results other _ => exact .case nonempty conditions results other named
  | array parts _ => exact .array parts named
  | list nonempty parts => exact .list nonempty parts
  | sort part => exact .sort part
  | short kept part unfolds => exact .short kept part unfolds
  | select fits takes afterWiths afterSource afterJoins withs source joins nonempty values limit
      offset =>
    cases fits
    exact .select rfl named afterWiths afterSource afterJoins withs
      source joins nonempty values limit offset
  | compound fits takes leftSide rightSide =>
    cases fits
    exact .compound rfl named leftSide rightSide
  | view fits => cases fits

/-- The alias of a built value is not empty. -/
theorem Built.named {n : Node} (hn : Built options r .value s n) (hs : n.isShort = false) :
    n.alias? ≠ some "" := by
  cases hn with
  | list | sort => exact nofun
  | short => cases hs
  | select fits takes | compound fits takes =>
    cases fits
    exact takes
  | view fits => cases fits
  | _ => assumption

/-- A built value that takes an alias and a cast stays a built value. -/
theorem Built.fold {n m : Node} {label : Option String} {cast : Option CastType}
    (hn : Built options r .value s n) (h : n.fold label cast = .ok m) :
    Built options r .value s m := by
  cases hs : n.isShort with
  | false =>
    obtain ⟨rfl, hlabel, -⟩ := Node.fold_cases hs h
    apply hn.retag
    cases label with
    | none => exact hn.named hs
    | some name =>
      intro he
      cases he
      exact (hlabel "" rfl).1 rfl
  | true =>
    -- A kept short expression hands the fold to what it wraps.
    cases hn with
    | short kept part unfolds =>
      obtain ⟨text, first, v, n₀, hread, hexpand, hexpands, hfolds⟩ := unfolds
      have hfolds := hfolds.step h
      obtain ⟨k, hk, h⟩ := Result.of_bind h
      cases h
      exact .short kept (part.fold hk) ⟨text, first, v, n₀, hread, hexpand, hexpands, hfolds⟩
    | _ => cases hs
termination_by sizeOf n

end AnalyticQuery
