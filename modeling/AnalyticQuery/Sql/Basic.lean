import AnalyticQuery.Sql.Token
import AnalyticQuery.Tree.Node

/-!
# SQL constructs

Expressions and queries as SQL text writes them. A construct that has no counterpart among queries
is kept as its normalized text.
-/

namespace AnalyticQuery.Sql

/-- A name with the quote it is written in. -/
structure Ident where
  text : String
  quote : Option Char := none
  deriving DecidableEq, Repr

/-- A literal. -/
inductive Literal where
  /-- A number; `long` if the letter `L` follows it. -/
  | number (digits : String) (long : Bool)
  | string (form : StringForm) (text : String)
  /-- Text in double quotes where a value is expected. -/
  | quoted (text : String)
  | bool (value : Bool)
  | null
  | placeholder (text : String)
  deriving DecidableEq, Repr

/-- The alias of a relation with names for its columns. -/
structure TableAlias where
  name : Ident
  columns : List Ident := []
  deriving DecidableEq, Repr

/-- How a cast is written. -/
inductive CastForm where
  /-- `CAST(e AS type)`. -/
  | call
  /-- `e::type`. -/
  | colons
  /-- `TRY_CAST(e AS type)`. -/
  | attempt
  /-- `SAFE_CAST(e AS type)`. -/
  | safe
  deriving DecidableEq, Repr

/-- Whether a call considers every row or every value. -/
inductive Multiplicity where
  | all
  | distinct
  deriving DecidableEq, Repr

/-- An argument of a call. -/
inductive CallArgument (ε : Type) where
  | expr (e : ε)
  | wildcard
  /-- A named argument or a qualified wildcard. -/
  | foreign (text : String)

/-- The arguments of a call. -/
inductive CallArguments (ε κ : Type) where
  /-- There are no parentheses. -/
  | absent
  | query (query : κ)
  | list (multiplicity : Option Multiplicity) (args : List (CallArgument ε)) (clauses : List String)

/-- What follows the arguments of a call. -/
structure CallClauses where
  withinGroup : Option String := none
  filter : Option String := none
  nulls : Option String := none
  window : Option String := none
  deriving DecidableEq, Repr

/-- A sort order by one value. -/
structure SortKey (ε : Type) where
  value : ε
  ascending : Option Bool := none
  nullsFirst : Option Bool := none

/-- A common table. -/
structure Cte (κ : Type) where
  label : TableAlias
  query : κ
  /-- `MATERIALIZED` or its negation. -/
  modifier : Option String := none
  /-- A name after `FROM`. -/
  source : Option Ident := none

/-- The quantifier of a set operation. -/
inductive SetQuantifier where
  | none
  | all
  | distinct
  | byName
  | allByName
  | distinctByName
  deriving DecidableEq, Repr

/-- Which rows of a select count once. -/
inductive Distinctness where
  | none
  | distinct
  /-- The list after `DISTINCT ON`. -/
  | on (text : String)
  deriving DecidableEq, Repr

/-- A column of a select. -/
inductive Item (ε : Type) where
  | expr (e : ε)
  | aliased (e : ε) (label : Ident)
  | wildcard
  | wildcardOf (name : List Ident)

/-- What the rows of a select are grouped by. -/
inductive GroupBy (ε : Type) where
  | all
  | keys (keys : List ε)

/-- How a relation is joined. -/
inductive JoinKind where
  | inner
  | left
  | right
  | full
  | cross
  /-- The words of another kind, and what follows the relation. -/
  | foreign (words : String) (condition : String)
  deriving DecidableEq, Repr

/-- Which rows of a join are kept. -/
inductive JoinConstraint (ε : Type) where
  | on (e : ε)
  | using (columns : List Ident)
  | natural
  | none

/-- A joined relation. -/
structure Join (ε ρ : Type) where
  relation : ρ
  kind : JoinKind
  constraint : JoinConstraint ε
  global : Bool := false

/-- A relation with those joined to it. -/
structure JoinedRelation (ε ρ : Type) where
  relation : ρ
  joins : List (Join ε ρ) := []

/-- The clauses of a select. -/
structure SelectClauses (ε ρ : Type) where
  distinct : Distinctness := .none
  top : Option String := none
  items : List (Item ε) := []
  into : Option String := none
  source : List (JoinedRelation ε ρ) := []
  lateralViews : List String := []
  filter : Option ε := none
  groupBy : GroupBy ε := .keys []
  /-- The clauses `CLUSTER BY`, `DISTRIBUTE BY` and `SORT BY`. -/
  placement : List String := []
  having : Option ε := none
  windows : Option String := none
  qualify : Option String := none
  windowsFirst : Bool := true

/-- The clauses of a query. -/
structure QueryClauses (ε β κ : Type) where
  recursive : Bool := false
  ctes : List (Cte κ) := []
  body : β
  orderBy : List (SortKey ε) := []
  limit : Option ε := none
  offset : Option ε := none
  /-- The word after the number of rows to skip. -/
  offsetRows : Option String := none
  fetch : Option String := none
  locks : List String := []
  forClause : Option String := none

mutual

/-- An expression. -/
inductive Expr where
  /-- A name with any number of parts. -/
  | column (name : List Ident)
  | literal (value : Literal)
  /-- An expression in parentheses. -/
  | nested (e : Expr)
  | binary (left : Expr) (op : String) (right : Expr)
  | unary (op : String) (e : Expr)
  /-- A test for a truth value, or for null if there is none. -/
  | is (e : Expr) (negated : Bool) (value : Option Bool)
  | between (e : Expr) (negated : Bool) (low high : Expr)
  | inList (e : Expr) (negated : Bool) (items : List Expr)
  | inQuery (e : Expr) (negated : Bool) (query : Query)
  | exists (negated : Bool) (query : Query)
  | subquery (query : Query)
  | like (e : Expr) (negated anyCase anyOf : Bool) (pattern : Expr) (escape : Option String)
  /-- A comparison with `ANY`, `SOME` or `ALL` elements. -/
  | quantified (left : Expr) (op : String) (word : String) (right : Expr)
  | case (operand : Option Expr) (branches : List (Expr × Expr)) (otherwise : Option Expr)
  | cast (form : CastForm) (e : Expr) (type : String) (format : Option String)
  /-- A string literal after the name of its type. -/
  | typed (type : String) (text : String)
  | interval (value : Expr) (unit : Option String) (precision : String)
  | call (name : List Ident) (args : CallArguments Expr Query) (clauses : CallClauses)
  | extract (field : String) (e : Expr)
  | substring (e : Expr) (start length : Option Expr) (commas : Bool)
  /-- `CEIL` or `FLOOR`. -/
  | rounding (up : Bool) (e : Expr) (unit : String)
  | array (named : Bool) (items : List Expr)
  | row (items : List Expr)
  /-- An expression outside the query language. -/
  | foreign (text : String)

/-- A query. -/
inductive Query where
  | mk (clauses : QueryClauses Expr Body Query)

/-- What gives the rows of a query. -/
inductive Body where
  | select (clauses : SelectClauses Expr Relation)
  | nested (query : Query)
  | compound (op : SetOperator) (quantifier : SetQuantifier) (left right : Body)
  | values (text : String)
  /-- A body outside the query language. -/
  | foreign (text : String)

/-- A relation. -/
inductive Relation where
  | table (name : List Ident) (args : Option (List (CallArgument Expr))) (ordinality : Bool)
    (label : Option TableAlias) (hints : List Expr)
  | derived (lateral : Bool) (query : Query) (label : Option TableAlias)
  /-- A join in parentheses. -/
  | joined (inner : JoinedRelation Expr Relation) (label : Option TableAlias)
  /-- A relation outside the query language. -/
  | foreign (text : String)

end

instance : Inhabited Expr := ⟨.literal .null⟩

/-- The clauses of a query. -/
def Query.clauses : Query → QueryClauses Expr Body Query
  | .mk clauses => clauses

/-- A statement: a query, or the first word of another kind. -/
inductive Statement where
  | query (query : Query)
  | foreign (word : String)

end AnalyticQuery.Sql
