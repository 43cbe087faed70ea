/-!
# Failures

Every way in which reading, building or rendering a query can fail. A failure is a cause with its
details; its wording is `Error.message`, and failures found in a text know a character offset into
it.
-/

namespace AnalyticQuery

/-- A failure. -/
inductive Error where
  /-- A value is not a well-formed expression. -/
  | invalidExpression (detail : String)
  /-- No function has this name. -/
  | invalidFunction (name : String)
  /-- No operator has this name, or it is used as its rules forbid. -/
  | invalidOperator (detail : String)
  /-- No geometry type has this name, or it cannot be used here. -/
  | invalidGeometry (detail : String)
  /-- No cast type has this name. -/
  | invalidCast (name : String)
  /-- A short expression has no such form or breaks its rules. -/
  | invalidShort (detail : String)
  /-- A text is not a short expression. -/
  | shortSyntax (detail : String) (offset : Nat)
  /-- A name is applied to a wrong number of arguments. -/
  | argsLength (name : String) (detail : String)
  /-- An expression cannot take the alias. -/
  | illegalAliasing (detail : String)
  /-- An expression cannot take the cast. -/
  | illegalCasting (detail : String)
  /-- A name is declared twice. -/
  | identifierInUse (name : String)
  /-- A column refers to a view that is not in scope. -/
  | unknownView (detail : String)
  /-- A column without a view could belong to several. -/
  | ambiguousColumn (detail : String)
  /-- A parameter that needs a value has none. -/
  | missingParameter (name : String)
  /-- A parameter's name is reserved, or its value refers back to it. -/
  | invalidParameter (detail : String)
  /-- An expression has no short form. -/
  | notShortable (kind : String)
  /-- No engine has this name. -/
  | unknownEngine (kind : String) (engine : String)
  /-- SQL text uses a construct outside the query language. -/
  | unsupportedSql (detail : String) (offset : Option Nat)
  /-- SQL text is malformed. -/
  | invalidSql (detail : String) (offset : Option Nat)
  /-- A context function has no value. -/
  | missingContext (name : String)
  /-- The bound on nested texts is spent; the bound that trees are built with is never reached. -/
  | exhausted
  deriving DecidableEq, Repr

/-- The outcome of an operation that can fail. -/
abbrev Result (α : Type) := Except Error α

namespace Error

instance : Inhabited Error := ⟨.exhausted⟩

/-- The wording of a failure. -/
def message : Error → String
  | invalidExpression detail => s!"Invalid expression: {detail}"
  | invalidFunction name => s!"Invalid function: {name}"
  | invalidOperator detail => s!"Invalid operator: {detail}"
  | invalidGeometry detail => s!"Invalid geometry type: {detail}"
  | invalidCast name => s!"Invalid cast type: {name}"
  | invalidShort detail => s!"Invalid short expression: {detail}"
  | shortSyntax detail offset => s!"Short expression syntax error at {offset}: {detail}"
  | argsLength name detail => s!"Invalid number of arguments for {name}: {detail}"
  | illegalAliasing detail => s!"Illegal aliasing: {detail}"
  | illegalCasting detail => s!"Illegal casting: {detail}"
  | identifierInUse name => s!"Identifier already in use: {name}"
  | unknownView detail => s!"Unknown view: {detail}"
  | ambiguousColumn detail => s!"Ambiguous column, a view is required: {detail}"
  | missingParameter name => s!"Missing value for parameter: {name}"
  | invalidParameter detail => s!"Invalid parameter: {detail}"
  | notShortable kind => s!"Expression has no short representation: {kind}"
  | unknownEngine kind engine => s!"No parser registered for {kind} on engine '{engine}'"
  | unsupportedSql detail _ => s!"Syntax not supported: {detail}"
  | invalidSql detail _ => s!"Invalid SQL: {detail}"
  | missingContext name => s!"Missing context value: {name}"
  | exhausted => "Texts are nested beyond the bound"

/-- The character offset into the source text, where the failure knows one. -/
def offset? : Error → Option Nat
  | shortSyntax _ offset => some offset
  | unsupportedSql _ offset => offset
  | invalidSql _ offset => offset
  | _ => none

/-- Moves a failure found in a fragment to the place where the fragment starts. A failure in SQL
text that knows no offset is placed at the start. -/
def shift (base : Nat) : Error → Error
  | shortSyntax detail offset => shortSyntax detail (base + offset)
  | unsupportedSql detail offset => unsupportedSql detail (some (base + offset.getD 0))
  | invalidSql detail offset => invalidSql detail (some (base + offset.getD 0))
  | other => other

end Error

end AnalyticQuery
