import AnalyticQuery.Short.Printer

/-!
# Layouts of short expressions

The compact text of a short expression has places where blanks may stand: around the whole text,
between a name and its parenthesis, inside parentheses and brackets, around commas, and around the
equals sign of an argument given by name. A layout of the expression fills each of these places with
blanks.
-/

namespace AnalyticQuery

open Argument

variable {text cs : List Char} {ps : List Piece} {close : Char}

/-- A piece of a text: characters that stand together, or a place where blanks may stand. -/
inductive Piece where
  | solid (cs : List Char)
  | gap

/-- The characters of a piece in a text with the same blanks in every gap. -/
def Piece.chars (blanks : List Char) : Piece → List Char
  | solid cs => cs
  | gap => blanks

/-- Pieces joined by commas. -/
def joinPieces : List (List Piece) → List Piece
  | [] => []
  | [x] => x
  | x :: xs => x ++ .gap :: .solid [','] :: .gap :: joinPieces xs

/-- The pieces of a list after its opening bracket, up to the closing one. -/
def listPieces (parts : List (List Piece)) (close : Char) : List Piece :=
  .gap :: joinPieces parts ++ [.gap, .solid [close]]

mutual

/-- The pieces of an argument. -/
def Argument.pieces : Argument → List Piece
  | .array items => .solid ['['] :: listPieces (itemsPieces items) ']'
  | .short s => shortPieces s
  | .null => [.solid null.chars]
  | .bool b => [.solid (bool b).chars]
  | .number n => [.solid (number n).chars]
  | .string s => [.solid (string s).chars]
  | .json value => [.solid (json value).chars]

/-- The pieces of each argument of a list. -/
def itemsPieces : List Argument → List (List Piece)
  | [] => []
  | item :: items => item.pieces :: itemsPieces items

/-- The pieces of each named argument. -/
def namedPieces : List (String × Argument) → List (List Piece)
  | [] => []
  | (key, arg) :: rest =>
    (.solid key.toList :: .gap :: .solid ['='] :: .gap :: arg.pieces) :: namedPieces rest

/-- The pieces of a short expression. -/
def shortPieces : Short → List Piece
  | .mk name positional named =>
    .solid ('@' :: name.toList) :: .gap :: .solid ['('] ::
      listPieces (itemsPieces positional ++ namedPieces named) ')'

end

/-- A text that writes pieces in order, with any blanks in the gaps. -/
inductive Layout : List Piece → List Char → Prop where
  | nil : Layout [] []
  | solid {cs rest : List Char} {ps : List Piece} :
      Layout ps rest → Layout (.solid cs :: ps) (cs ++ rest)
  | gap {blanks rest : List Char} {ps : List Piece} :
      (∀ c ∈ blanks, Text.isBlank c = true) → Layout ps rest → Layout (.gap :: ps) (blanks ++ rest)

/-- A text of a short expression: a layout of its pieces, with any blanks around it. -/
def Short.LaidOut (s : Short) (text : String) : Prop :=
  Layout (.gap :: shortPieces s ++ [.gap]) text.toList

/-! ## The compact text -/

/-- Without blanks, pieces joined by commas are the characters joined by commas. -/
theorem flatMap_joinPieces (xs : List (List Piece)) :
    (joinPieces xs).flatMap (Piece.chars []) =
      joinCommas (xs.map (·.flatMap (Piece.chars []))) := by
  fun_induction joinPieces xs with
  | case1 => rfl
  | case2 x => rfl
  | case3 x xs hne ih =>
    obtain ⟨y, ys, rfl⟩ := List.exists_cons_of_ne_nil (fun h => hne h)
    simp_all [joinCommas, Piece.chars]

mutual

/-- Without blanks, the pieces of an argument are its characters. -/
theorem flatMap_argumentPieces : ∀ arg : Argument, arg.pieces.flatMap (Piece.chars []) = arg.chars
  | .array items => by
    simp [pieces, listPieces, chars, Piece.chars, flatMap_joinPieces, map_itemsPieces items]
  | .short s => by rw [pieces, chars, flatMap_shortPieces s]
  | .null | .bool _ | .number _ | .string _ | .json _ => by
    simp [pieces, Piece.chars]

/-- Without blanks, the pieces of each argument are its characters. -/
theorem map_itemsPieces : ∀ items : List Argument,
    (itemsPieces items).map (·.flatMap (Piece.chars [])) = itemsChars items
  | [] => rfl
  | item :: items => by
    simp [itemsPieces, itemsChars, flatMap_argumentPieces item, map_itemsPieces items]

/-- Without blanks, the pieces of each named argument are its characters. -/
theorem map_namedPieces : ∀ named : List (String × Argument),
    (namedPieces named).map (·.flatMap (Piece.chars [])) = namedChars named
  | [] => rfl
  | (key, arg) :: rest => by
    simp [namedPieces, namedChars, Piece.chars, flatMap_argumentPieces arg, map_namedPieces rest]

/-- Without blanks, the pieces of a short expression are its compact text. -/
theorem flatMap_shortPieces : ∀ s : Short, (shortPieces s).flatMap (Piece.chars []) = shortChars s
  | .mk name positional named => by
    simp [shortPieces, listPieces, shortChars, Piece.chars, flatMap_joinPieces,
      map_itemsPieces positional, map_namedPieces named]

end

namespace Layout

/-- The text with the same blanks in every gap is a layout. -/
theorem uniform {blanks : List Char} (h : ∀ c ∈ blanks, Text.isBlank c = true) (ps : List Piece) :
    Layout ps (ps.flatMap (Piece.chars blanks)) := by
  induction ps with
  | nil => exact .nil
  | cons p ps ih =>
    cases p with
    | solid cs => exact .solid ih
    | gap => exact .gap h ih

theorem of_nil (h : Layout [] text) : text = [] := by
  cases h
  rfl

theorem of_solid (h : Layout (.solid cs :: ps) text) :
    ∃ rest, text = cs ++ rest ∧ Layout ps rest := by
  cases h with
  | solid h => exact ⟨_, rfl, h⟩

theorem of_gap (h : Layout (.gap :: ps) text) :
    ∃ blanks rest, (∀ c ∈ blanks, Text.isBlank c = true) ∧ text = blanks ++ rest ∧
      Layout ps rest := by
  cases h with
  | gap hblanks h => exact ⟨_, _, hblanks, rfl, h⟩

/-- A layout of two lists of pieces is a layout of the first and one of the second. -/
theorem split {qs : List Piece} (h : Layout (ps ++ qs) cs) :
    ∃ a b, cs = a ++ b ∧ Layout ps a ∧ Layout qs b := by
  induction ps generalizing cs with
  | nil => exact ⟨[], cs, rfl, .nil, h⟩
  | cons p ps ih =>
    cases h with
    | @solid head _ _ h =>
      obtain ⟨a, b, rfl, ha, hb⟩ := ih h
      exact ⟨head ++ a, b, by simp, .solid ha, hb⟩
    | @gap blanks _ _ hblanks h =>
      obtain ⟨a, b, rfl, ha, hb⟩ := ih h
      exact ⟨blanks ++ a, b, by simp, .gap hblanks ha, hb⟩

/-- A layout of a list without parts has blanks only before the closing bracket. -/
theorem of_listPieces_nil (h : Layout (listPieces [] close) cs) :
    ∃ blanks, (∀ c ∈ blanks, Text.isBlank c = true) ∧ cs = blanks ++ [close] := by
  obtain ⟨before, _, hbefore, rfl, hgap⟩ := of_gap h
  obtain ⟨after, _, hafter, rfl, hclose⟩ := of_gap hgap
  obtain ⟨_, rfl, hend⟩ := of_solid hclose
  cases of_nil hend
  refine ⟨before ++ after, fun c hc => ?_, by simp⟩
  exact (List.mem_append.mp hc).elim (hbefore c) (hafter c)

/-- A layout of a list has blanks, its first part and blanks again, before the closing bracket or
before a comma and a layout of the other parts. -/
theorem of_listPieces_cons {x : List Piece} {xs : List (List Piece)}
    (h : Layout (listPieces (x :: xs) close) cs) :
    ∃ before value after d more, (∀ c ∈ before, Text.isBlank c = true) ∧ Layout x value ∧
      (∀ c ∈ after, Text.isBlank c = true) ∧ cs = before ++ (value ++ (after ++ d :: more)) ∧
      (xs = [] ∧ d = close ∧ more = [] ∨
        xs ≠ [] ∧ d = ',' ∧ Layout (listPieces xs close) more) := by
  obtain ⟨before, text, hbefore, rfl, htext⟩ := of_gap h
  cases xs with
  | nil =>
    obtain ⟨value, _, rfl, hvalue, hgap⟩ := split htext
    obtain ⟨after, _, hafter, rfl, hclose⟩ := of_gap hgap
    obtain ⟨_, rfl, hend⟩ := of_solid hclose
    cases of_nil hend
    exact ⟨before, value, after, close, [], hbefore, hvalue, hafter, rfl, .inl ⟨rfl, rfl, rfl⟩⟩
  | cons y ys =>
    have hparts : Layout (x ++ (.gap :: .solid [','] :: listPieces (y :: ys) close)) text := by
      simpa [joinPieces, listPieces] using htext
    obtain ⟨value, _, rfl, hvalue, hgap⟩ := split hparts
    obtain ⟨after, _, hafter, rfl, hcomma⟩ := of_gap hgap
    obtain ⟨more, rfl, hmore⟩ := of_solid hcomma
    exact ⟨before, value, after, ',', more, hbefore, hvalue, hafter, rfl,
      .inr ⟨by simp, rfl, hmore⟩⟩

end Layout

/-- The compact text of a short expression is one of its texts. -/
theorem Short.laidOut_text (s : Short) : s.LaidOut s.text := by
  have h := Layout.uniform (List.forall_mem_nil _) (.gap :: shortPieces s ++ [.gap])
  simpa [LaidOut, Short.text, Piece.chars, flatMap_shortPieces] using h

/-! ## What can be written -/

section All

variable (P : Argument → Prop)

mutual

/-- Whether a property holds of an argument and of all arguments inside it. -/
def Argument.All : Argument → Prop
  | .array items => P (.array items) ∧ itemsAll items
  | .short s => P (.short s) ∧ shortAll s
  | .null => P .null
  | .bool b => P (.bool b)
  | .number n => P (.number n)
  | .string s => P (.string s)
  | .json value => P (.json value)

/-- Whether a property holds of all arguments of a list and inside them. -/
def itemsAll : List Argument → Prop
  | [] => True
  | item :: items => item.All ∧ itemsAll items

/-- Whether a property holds of all named arguments and inside them. -/
def namedAll : List (String × Argument) → Prop
  | [] => True
  | (_, arg) :: rest => arg.All ∧ namedAll rest

/-- Whether a property holds of all arguments inside a short expression. -/
def shortAll : Short → Prop
  | .mk _ positional named => itemsAll positional ∧ namedAll named

end

end All

/-- Whether a property holds of a short expression, as an argument, and of all arguments inside
it. -/
def Short.All (P : Argument → Prop) (s : Short) : Prop := (short s).All P

/-- A property holds throughout a list exactly when it holds throughout each item. -/
theorem itemsAll_iff {P : Argument → Prop} {items : List Argument} :
    itemsAll P items ↔ ∀ item ∈ items, item.All P := by
  induction items with
  | nil => simp [itemsAll]
  | cons item items ih => simp [itemsAll, ih]

/-- A property holds throughout named arguments exactly when it holds throughout each. -/
theorem namedAll_iff {P : Argument → Prop} {named : List (String × Argument)} :
    namedAll P named ↔ ∀ entry ∈ named, entry.2.All P := by
  induction named with
  | nil => simp [namedAll]
  | cons entry named ih => simp [namedAll, ih]

/-- A name: a letter or an underscore, then letters, digits and underscores. -/
def isIdentifier : List Char → Bool
  | [] => false
  | c :: cs => Short.isNameStart c && cs.all Short.isNameChar

/-- What the reader makes: data that is an object, names in small letters, and names of arguments,
each given once. -/
def Argument.Proper : Argument → Prop
  | .json value => ∃ fields, value = .object fields
  | .short s =>
    (isIdentifier s.name.toList = true ∧ s.name.toLower = s.name) ∧
      (∀ entry ∈ s.named, isIdentifier entry.1.toList = true) ∧ (s.named.map (·.1)).Nodup
  | _ => True

/-- Numbers and data values that are read back from their own text. -/
def Argument.Legible : Argument → Prop
  | .number n => Number.ofText? n.text = some n
  | .json value => Json.ofText? value.text = some value
  | _ => True

end AnalyticQuery
