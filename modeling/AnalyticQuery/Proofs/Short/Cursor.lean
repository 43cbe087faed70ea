import AnalyticQuery.Proofs.Short.Locality

/-!
# Reading with a cursor

The readers again, over an array of characters and a position in it. Here a step can go wrong: a
range may lie outside the text, and a brace may be closed that was not opened. Both end the reading
with an outcome of their own. The lists of characters that the readers proper work on are what
stands from the position on, and the two agree on every text, so no such step is ever taken.
-/

namespace AnalyticQuery.Short

open List Result

variable {c quote : Char} {depth fuel : Nat} {inString : Bool} {done cs rest : List Char}
variable {s : Short}

namespace Cursor

variable {front source : List Char}

/-- Why reading with a cursor ends early. -/
inductive Halt where
  /-- The text is no short expression. -/
  | failure (e : Error)
  /-- A range of positions is not a range of the text. -/
  | outside
  /-- A brace is closed that was not opened. -/
  | unopened

/-- Fails at a position. -/
def fail {α : Type} (detail : String) (p : Nat) : Except Halt α :=
  .error (.failure (.shortSyntax detail p))

section

variable (text : Array Char)

/-- The position after the characters that pass a test. -/
def skipWhile (test : Char → Bool) (p : Nat) : Nat :=
  if h : p < text.size then if test text[p] then skipWhile test (p + 1) else p else p
termination_by text.size - p

/-- The position after blanks. -/
def skip (p : Nat) : Nat := skipWhile text Text.isBlank p

/-- The characters from one position up to another one, which may lie behind the end. -/
def slice (start stop : Nat) : Except Halt (List Char) :=
  if start ≤ min stop text.size then .ok
    (text.extract start (min stop text.size)).toList else .error .outside

/-- Reads one given character. -/
def expect (c : Char) (p : Nat) : Except Halt Nat :=
  match text[p]? with
  | none => fail s!"expected '{c}', got end of input" p
  | some d => if c == d then .ok (p + 1) else fail s!"expected '{c}', got '{d}'" p

/-- Reads a name, if one stands at the position. -/
def readName? (p : Nat) : Except Halt (Option (String × Nat)) :=
  if text[p]?.any isNameStart then do
    let stop := skipWhile text isNameChar p
    let name ← slice text p stop
    return some (String.ofList name, stop)
  else return none

/-- Reads a name and the equals sign after it, if both stand at the position. -/
def readKey? (p : Nat) : Except Halt (Option (String × Nat)) := do
  match ← readName? text p with
  | none => return none
  | some (key, q) =>
    let q := skip text q
    if text[q]? == some '=' && text[q + 1]? != some '=' then return some (key, skip text (q + 1))
    else return none

/-- The position after a balanced pair of braces. The depth goes down at a closing brace, which is
checked. -/
def spanBraces (depth : Nat) (inString : Bool) (p : Nat) : Except Halt (Option Nat) :=
  if h : p < text.size then
    if inString then
      if text[p] == '\\' then spanBraces depth true (p + 2) else spanBraces depth
        (text[p] != '"') (p + 1)
    else if text[p] == '\x7d' then
      if depth == 0 then .error .unopened
      else if depth == 1 then .ok (some (p + 1))
      else spanBraces (depth - 1) false (p + 1)
    else if text[p] == '\x7b' then spanBraces (depth + 1) false (p + 1)
    else spanBraces depth (text[p] == '"') (p + 1)
  else .ok none
termination_by text.size - p

/-- The characters up to the closing quote, and the position after it. -/
def spanQuoted (quote : Char) (done : List Char) (p : Nat) : Option (List Char × Nat) :=
  if h : p < text.size then
    if text[p] == '\\' then
      if h' : p + 1 < text.size then spanQuoted quote (text[p + 1] :: done) (p + 2) else none
    else if text[p] == quote then some (done.reverse, p + 1)
    else spanQuoted quote (text[p] :: done) (p + 1)
  else none
termination_by text.size - p

/-- Reads a value without quotes. -/
def readBare (p : Nat) : Except Halt (Argument × Nat) :=
  let stop := skipWhile text isBareInside p
  match text[stop]?.filter breaksBare with
  | some c => fail s!"unexpected '{c}' in unquoted value" stop
  | none => do
    let token ← slice text p stop
    let token := Text.trim (String.ofList token)
    if token.isEmpty then fail "expected a value" p else return (bareValue token, stop)

/-- Reads a raw data value. -/
def readJson (p : Nat) : Except Halt (Argument × Nat) := do
  match ← spanBraces text 0 false p with
  | none => fail "unterminated JSON object" p
  | some stop =>
    let value ← slice text p stop
    match Json.ofText? (String.ofList value) with
    | some value => return (.json value, stop)
    | none => fail "invalid JSON: malformed object" p

/-- Reads a text in quotes; the opening quote stands at the position. -/
def readQuoted (quote : Char) (p : Nat) : Except Halt (Argument × Nat) :=
  match spanQuoted text quote [] (p + 1) with
  | some (value, stop) => .ok (.string (String.ofList value), stop)
  | none => fail "unterminated string" p

mutual

/-- Reads a short expression. -/
def readShort : Nat → Nat → Except Halt (Short × Nat)
  | 0, p => fail "nested too deeply" p
  | fuel + 1, p => do
    let p ← expect text '@' p
    match ← readName? text p with
    | none => fail "expected a short expression name after '@'" p
    | some (name, p) =>
      let p ← expect text '(' (skip text p)
      let p := skip text p
      if text[p]? == some ')' then return (ofName name, p + 1)
      else readArguments fuel (ofName name) p

/-- Reads the arguments of a short expression up to the closing parenthesis. -/
def readArguments : Nat → Short → Nat → Except Halt (Short × Nat)
  | 0, _, p => fail "nested too deeply" p
  | fuel + 1, s, p => do
    let p := skip text p
    let (s, p) ← match ← readKey? text p with
      | some (key, after) =>
        if s.hasNamed key then fail s!"duplicate named argument '{key}'" p
        else
          let (arg, q) ← readValue fuel after
          pure (s.set key arg, q)
      | none =>
        if !s.named.isEmpty then fail "positional arguments must precede named arguments" p
        else
          let (arg, q) ← readValue fuel p
          pure (s.push arg, q)
    let p := skip text p
    match text[p]? with
    | some ',' => readArguments fuel s (p + 1)
    | some ')' => return (s, p + 1)
    | none => fail "unterminated argument list" p
    | some c => fail s!"expected ',' or ')', got '{c}'" p

/-- Reads an argument. -/
def readValue : Nat → Nat → Except Halt (Argument × Nat)
  | 0, p => fail "nested too deeply" p
  | fuel + 1, p =>
    let p := skip text p
    match text[p]? with
    | some '@' =>
      if text[p + 1]?.any isNameStart then do
        let (s, q) ← readShort fuel p
        return (.short s, q)
      else readBare text p
    | some '[' =>
      let q := skip text (p + 1)
      if text[q]? == some ']' then .ok (.array [], q + 1)
      else do
        let (items, q) ← readItems fuel (p + 1)
        return (.array items, q)
    | some '\x7b' => readJson text p
    | some '\'' => readQuoted text '\'' p
    | some '"' => readQuoted text '"' p
    | _ => readBare text p

/-- Reads the items of an array up to the closing bracket. -/
def readItems : Nat → Nat → Except Halt (List Argument × Nat)
  | 0, p => fail "nested too deeply" p
  | fuel + 1, p => do
    let (item, p) ← readValue fuel p
    let p := skip text p
    match text[p]? with
    | some ',' =>
      let (items, q) ← readItems fuel (p + 1)
      return (item :: items, q)
    | some ']' => return ([item], p + 1)
    | none => fail "unterminated array" p
    | some c => fail s!"expected ',' or ']', got '{c}'" p

end

/-- Reads a short expression from the front of a text, and the number of characters it takes. -/
def ofFront : Except Halt (Short × Nat) := readShort text (2 * text.size + 2) 0

/-- Reads a whole text as a short expression; blanks may stand around it. -/
def ofText : Except Halt Short := do
  let (expression, p) ← readShort text (2 * text.size + 2) (skip text 0)
  let p := skip text p
  match text[p]? with
  | none => return expression
  | some c => fail s!"unexpected '{c}' after expression" p

end

/-! ## Positions -/

/-- Whether the characters are those from a position of the text on. -/
structure At (text : Array Char) (p : Nat) (cs : List Char) : Prop where
  le : p ≤ text.size
  drop : text.toList.drop p = cs

variable {text : Array Char} {p : Nat}

private theorem at_zero (text : Array Char) : At text 0 text.toList := ⟨Nat.zero_le _, drop_zero⟩

namespace At

private theorem length_add (h : At text p cs) : cs.length + p = text.size := by
  have hle := h.le
  rw [← h.drop, length_drop, Array.length_toList]
  omega

theorem position (h : At text p cs) : text.size - cs.length = p := by
  have := h.length_add
  omega

private theorem getElem? (h : At text p cs) : text[p]? = cs.head? := by
  rw [← h.drop, head?_drop, Array.getElem?_toList]

theorem append (h : At text p (front ++ rest)) : At text (p + front.length) rest := by
  have hsize := h.length_add
  rw [length_append] at hsize
  refine ⟨by omega, ?_⟩
  rw [← drop_drop, h.drop, drop_left]

theorem cons (h : At text p (c :: cs)) : At text (p + 1) cs :=
  (show At text p ([c] ++ cs) from h).append

private theorem of_suffix (h : At text p cs) (hsuffix : rest <:+ cs) :
    At text (text.size - rest.length) rest := by
  obtain ⟨front, rfl⟩ := hsuffix
  have hrest := h.append
  rwa [hrest.position]

/-- The character at a position within the text. -/
theorem getElem (h : At text p (c :: cs)) : ∃ hp : p < text.size, text[p] = c := by
  have hget := h.getElem?
  rwa [head?_cons, Array.getElem?_eq_some_iff] at hget

theorem not_lt (h : At text p []) : ¬p < text.size := by
  have := h.length_add
  rw [length_nil] at this
  omega

private theorem skipWhile (h : At text p cs) (test : Char → Bool) :
    At text (skipWhile text test p) (cs.dropWhile test) := by
  induction cs generalizing p with
  | nil =>
    rw [Cursor.skipWhile, dif_neg h.not_lt]
    exact h
  | cons c cs ih =>
    obtain ⟨hp, hc⟩ := h.getElem
    rw [Cursor.skipWhile, dif_pos hp, hc, dropWhile_cons]
    split
    · exact ih h.cons
    · exact h

theorem skip (h : At text p cs) : At text (skip text p) (Short.skip cs) := h.skipWhile Text.isBlank

/-- What stands between two positions. -/
theorem slice {stop : Nat} (h : At text p (front ++ rest)) (hstop : At text stop rest) :
    slice text p stop = .ok front := by
  have hfront := h.append
  obtain rfl : stop = p + front.length := by rw [← hstop.position, hfront.position]
  rw [Cursor.slice, min_eq_left hstop.le, if_pos (by omega), Array.toList_extract,
    extract_eq_take_drop, h.drop, Nat.add_sub_cancel_left, take_left]

end At

/-! ## Agreement -/

/-- The outcome of a reader, with positions for the characters that are left. -/
def place {α : Type} (text : Array Char) : Except Stop (α × List Char) → Except Halt (α × Nat)
  | .ok (a, rest) => .ok (a, text.size - rest.length)
  | .error at_ => .error (.failure (at_.toError text.size))

variable {α : Type}

@[simp] theorem place_ok (a : α) (rest : List Char) :
    place text (.ok (a, rest)) = .ok (a, text.size - rest.length) :=
  rfl

private theorem place_stop (h : At text p cs) (detail : String) :
    place text (stop detail cs : Except Stop (α × List Char)) = fail detail p := by
  rw [← h.position]
  rfl

/-- What follows is read alike after a reader that reads alike. -/
theorem place_bind {β : Type} {x : Except Stop (α × List Char)}
    {f : α × List Char → Except Stop (β × List Char)} {g : α × Nat → Except Halt (β × Nat)}
    (h : ∀ a rest, x = .ok (a, rest) → g (a, text.size - rest.length) = place text (f (a, rest))) :
    (place text x >>= g) = place text (x >>= f) := by
  cases x with
  | error at_ => rfl
  | ok read => exact h read.1 read.2 rfl

private theorem expect_cases (h : At text p cs) (c : Char) :
    (∃ rest, cs = c :: rest ∧ Short.expect c cs = .ok rest ∧ expect text c p = .ok (p + 1)) ∨
      ∃ at_ : Stop, Short.expect c cs = .error at_ ∧
        expect text c p = .error (.failure (at_.toError text.size)) := by
  have hstop : ∀ detail, (fail detail p : Except Halt Nat) =
      .error (.failure (Stop.toError text.size ⟨detail, cs.length⟩)) := by
    intro detail
    rw [Stop.toError, h.position, fail]
  rw [expect, h.getElem?]
  cases cs with
  | nil => exact .inr ⟨_, rfl, hstop _⟩
  | cons d cs =>
    rw [Short.expect]
    by_cases hd : (c == d) = true
    · exact .inl ⟨cs, by rw [eq_of_beq hd], if_pos hd, if_pos hd⟩
    · exact .inr ⟨_, if_neg hd, (if_neg hd).trans (hstop _)⟩

private theorem readName?_eq (h : At text p cs) :
    readName? text p = .ok
      ((Short.readName? cs).map fun (name, rest) => (name, text.size - rest.length)) := by
  cases cs with
  | nil =>
    rw [readName?, h.getElem?]
    rfl
  | cons c cs =>
    rw [readName?, h.getElem?, Short.readName?]
    by_cases hc : isNameStart c = true
    · have hstop := h.skipWhile isNameChar
      have hall : (c :: cs).dropWhile isNameChar = cs.dropWhile isNameChar :=
        dropWhile_cons_of_pos (isNameChar_of_isNameStart hc)
      rw [hall] at hstop
      have hslice : slice text p (skipWhile text isNameChar p) =
          .ok (c :: cs.takeWhile isNameChar) := by
        refine At.slice ?_ hstop
        rwa [cons_append, takeWhile_append_dropWhile]
      simp [hc, hslice, hstop.position]
    · simp [hc]

private theorem readKey?_eq (h : At text p cs) :
    readKey? text p = .ok
      ((Short.readKey? cs).map fun (key, rest) => (key, text.size - rest.length)) := by
  rw [readKey?, readName?_eq h, Short.readKey?, ok_bind]
  cases hname : Short.readName? cs with
  | none => rfl
  | some read =>
    obtain ⟨key, after⟩ := read
    have hafter := (h.of_suffix (readName?_suffix hname)).skip
    dsimp only [Option.map_some]
    rw [hafter.getElem?]
    cases hskip : Short.skip after with
    | nil => rfl
    | cons c tail =>
      rw [hskip] at hafter
      rw [hafter.cons.getElem?]
      by_cases hc : c = '='
      · subst hc
        cases tail with
        | nil => simp [hafter.cons.skip.position]
        | cons d tail => by_cases hd : d = '=' <;> simp [hd, hafter.cons.skip.position]
      · simp [hc]

/-- Inside of braces none is closed that was not opened. -/
theorem spanBraces_eq (h : At text p cs) (hdepth : 0 < depth) :
    spanBraces text depth inString p =
      .ok ((Short.spanBraces depth inString done cs).map fun found =>
        text.size - found.2.length) := by
  fun_induction Short.spanBraces depth inString done cs generalizing p with
  | case1 depth inString done =>
    rw [spanBraces, dif_neg h.not_lt]
    rfl
  | case2 depth done =>
    obtain ⟨hp, hc⟩ := h.getElem
    have hend : ¬p + 2 < text.size := by
      have := h.cons.not_lt
      omega
    rw [spanBraces, dif_pos hp, hc, spanBraces, dif_neg hend]
    rfl
  | case3 depth done c cs ih =>
    obtain ⟨hp, hc⟩ := h.getElem
    rw [spanBraces, dif_pos hp, hc]
    exact ih h.cons.cons hdepth
  | case4 depth done c cs hlast hescape ih =>
    obtain ⟨hp, hc⟩ := h.getElem
    have hslash := ne_backslash hlast hescape
    rw [spanBraces, dif_pos hp, hc, if_pos rfl, if_neg (by simpa using hslash)]
    exact ih h.cons hdepth
  | case5 done c cs hclose => cases hdepth
  | case6 done c cs hclose =>
    obtain ⟨hp, hc⟩ := h.getElem
    rw [spanBraces, dif_pos hp, hc, if_neg (by decide), if_pos hclose]
    simp [h.cons.position]
  | case7 done c cs hclose depth ih =>
    obtain ⟨hp, hc⟩ := h.getElem
    rw [spanBraces, dif_pos hp, hc, if_neg (by decide), if_pos hclose]
    exact ih h.cons (Nat.succ_pos depth)
  | case8 depth done c cs hclose hopen ih =>
    obtain ⟨hp, hc⟩ := h.getElem
    rw [spanBraces, dif_pos hp, hc, if_neg (by decide), if_neg hclose, if_pos hopen]
    exact ih h.cons (Nat.succ_pos depth)
  | case9 depth done c cs hclose hopen ih =>
    obtain ⟨hp, hc⟩ := h.getElem
    rw [spanBraces, dif_pos hp, hc, if_neg (by decide), if_neg hclose, if_neg hopen]
    exact ih h.cons hdepth

private theorem spanQuoted_eq (h : At text p cs) :
    spanQuoted text quote done p =
      (Short.spanQuoted quote done cs).map fun found => (found.1, text.size - found.2.length) := by
  fun_induction Short.spanQuoted quote done cs generalizing p with
  | case1 done =>
    rw [spanQuoted, dif_neg h.not_lt]
    rfl
  | case2 done =>
    obtain ⟨hp, hc⟩ := h.getElem
    rw [spanQuoted, dif_pos hp, hc, dif_neg h.cons.not_lt]
    rfl
  | case3 done c cs ih =>
    obtain ⟨hp, hc⟩ := h.getElem
    obtain ⟨hp', hc'⟩ := h.cons.getElem
    rw [spanQuoted, dif_pos hp, hc, dif_pos hp', hc']
    exact ih h.cons.cons
  | case4 done c cs hlast hescape hquote =>
    obtain ⟨hp, hc⟩ := h.getElem
    have hslash := ne_backslash hlast hescape
    rw [spanQuoted, dif_pos hp, hc, if_neg (by simpa using hslash), if_pos hquote]
    simp [h.cons.position]
  | case5 done c cs hlast hescape hquote ih =>
    obtain ⟨hp, hc⟩ := h.getElem
    have hslash := ne_backslash hlast hescape
    rw [spanQuoted, dif_pos hp, hc, if_neg (by simpa using hslash), if_neg hquote]
    exact ih h.cons

/-- The characters up to a closing brace are those from the front of the text. -/
theorem append_of_spanBraces {value : List Char}
    (h : Short.spanBraces depth inString done cs = some (value, rest)) :
    done.reverse ++ cs = value ++ rest := by
  fun_induction Short.spanBraces depth inString done cs with
  | case1 => cases h
  | case2 => cases h
  | case3 depth done c cs ih => simpa using ih h
  | case4 depth done c cs _ _ ih => simpa using ih h
  | case5 done c cs _ | case6 done c cs _ =>
    cases h
    simp
  | case7 done c cs _ depth ih => simpa using ih h
  | case8 depth done c cs _ _ ih => simpa using ih h
  | case9 depth done c cs _ _ ih => simpa using ih h

private theorem readBare_eq (h : At text p cs) :
    readBare text p = place text (Short.readBare cs) := by
  have hstop := h.skipWhile isBareInside
  have hcs : cs = cs.takeWhile isBareInside ++ cs.dropWhile isBareInside :=
    takeWhile_append_dropWhile.symm
  have hdrop : cs.drop (cs.takeWhile isBareInside).length = cs.dropWhile isBareInside :=
    (congrArg (List.drop _) hcs).trans drop_left
  have htoken : cs.takeWhile (fun c => !endsBare c && !breaksBare c) =
      cs.takeWhile isBareInside := rfl
  have hslice : slice text p (skipWhile text isBareInside p) = .ok (cs.takeWhile isBareInside) :=
    At.slice (hcs ▸ h) hstop
  rw [readBare, Short.readBare, htoken, hdrop]
  dsimp only
  rw [hstop.getElem?, hslice]
  cases (cs.dropWhile isBareInside).head?.filter breaksBare with
  | some c => exact (place_stop hstop _).symm
  | none =>
    rw [ok_bind]
    by_cases hempty : (Text.trim (String.ofList (cs.takeWhile isBareInside))).isEmpty = true
    · rw [if_pos hempty, if_pos hempty, place_stop h]
    · rw [if_neg hempty, if_neg hempty, place_ok, hstop.position, pure_eq_ok]

private theorem readJson_eq (h : At text p ('\x7b' :: cs)) :
    readJson text p = place text (Short.readJson ('\x7b' :: cs)) := by
  obtain ⟨hp, hc⟩ := h.getElem
  have hopen : spanBraces text 0 false p = spanBraces text 1 false (p + 1) := by
    rw [spanBraces, dif_pos hp, hc]
    rfl
  have hopen' : Short.spanBraces 0 false [] ('\x7b' :: cs) =
      Short.spanBraces 1 false ['\x7b'] cs := rfl
  rw [readJson, Short.readJson, hopen, spanBraces_eq h.cons Nat.one_pos, ← hopen', ok_bind]
  cases hspan : Short.spanBraces 0 false [] ('\x7b' :: cs) with
  | none => exact (place_stop h _).symm
  | some found =>
    obtain ⟨value, rest⟩ := found
    have hsource : '\x7b' :: cs = value ++ rest := append_of_spanBraces hspan
    have hstop := h.of_suffix (spanBraces_suffix hspan)
    dsimp only [Option.map_some]
    rw [At.slice (hsource ▸ h) hstop, ok_bind]
    cases Json.ofText? (String.ofList value) with
    | none => exact (place_stop h _).symm
    | some data => rfl

private theorem readQuoted_eq (h : At text p (quote :: cs)) :
    readQuoted text quote p = place text (Short.readQuoted quote cs) := by
  rw [readQuoted, Short.readQuoted, spanQuoted_eq h.cons]
  cases Short.spanQuoted quote [] cs with
  | none => exact (place_stop h _).symm
  | some found => rfl

/-- The readers of values with parts agree. -/
structure Agrees (text : Array Char) (fuel : Nat) : Prop where
  short {p : Nat} {cs : List Char} : At text p cs →
    readShort text fuel p = place text (Short.readShort fuel cs)
  arguments {p : Nat} {cs : List Char} (s : Short) : At text p cs →
    readArguments text fuel s p = place text (Short.readArguments fuel s cs)
  value {p : Nat} {cs : List Char} : At text p cs →
    readValue text fuel p = place text (Short.readValue fuel cs)
  items {p : Nat} {cs : List Char} : At text p cs →
    readItems text fuel p = place text (Short.readItems fuel cs)

namespace Agrees

theorem short_succ (ih : Agrees text fuel) (h : At text p cs) :
    readShort text (fuel + 1) p = place text (Short.readShort (fuel + 1) cs) := by
  rw [readShort, Short.readShort]
  obtain ⟨tail, rfl, hlist, hcursor⟩ | ⟨at_, hlist, hcursor⟩ := expect_cases h '@'
  · rw [hlist, hcursor, ok_bind, ok_bind, readName?_eq h.cons, ok_bind]
    cases hname : Short.readName? tail with
    | none => exact (place_stop h.cons _).symm
    | some read =>
      obtain ⟨name, after⟩ := read
      have hafter := (h.cons.of_suffix (readName?_suffix hname)).skip
      dsimp only [Option.map_some]
      obtain ⟨body, hbody, hlist, hcursor⟩ | ⟨at_, hlist, hcursor⟩ := expect_cases hafter '('
      · rw [hbody] at hafter
        have hinside := hafter.cons.skip
        rw [hlist, hcursor, ok_bind, ok_bind, hinside.getElem?]
        cases hskip : Short.skip body with
        | nil => exact ih.arguments _ (hskip ▸ hinside)
        | cons c tail =>
          rw [hskip] at hinside
          by_cases hclose : c = ')'
          · subst hclose
            simp [hinside.cons.position]
          · simp [hclose, ih.arguments _ hinside]
      · rw [hlist, hcursor]
        rfl
  · rw [hlist, hcursor]
    rfl

/-- What follows an argument is read alike. -/
theorem next (ih : Agrees text fuel) (s : Short) (h : At text p cs) :
    (match text[p]? with
      | some ',' => readArguments text fuel s (p + 1)
      | some ')' => pure (s, p + 1)
      | none => fail "unterminated argument list" p
      | some c => fail s!"expected ',' or ')', got '{c}'" p) =
    place text (match cs with
      | ',' :: cs => Short.readArguments fuel s cs
      | ')' :: cs => pure (s, cs)
      | [] => stop "unterminated argument list" []
      | c :: cs => stop s!"expected ',' or ')', got '{c}'" (c :: cs)) := by
  rw [h.getElem?]
  cases cs with
  | nil => exact (place_stop h _).symm
  | cons c cs =>
    rw [head?_cons]
    by_cases hcomma : c = ','
    · subst hcomma
      exact ih.arguments s h.cons
    by_cases hclose : c = ')'
    · subst hclose
      simp [h.cons.position]
    · simp [place_stop h]

theorem arguments_succ (ih : Agrees text fuel) (s : Short) (h : At text p cs) :
    readArguments text (fuel + 1) s p = place text (Short.readArguments (fuel + 1) s cs) := by
  rw [readArguments, Short.readArguments]
  dsimp only
  rw [readKey?_eq h.skip, ok_bind]
  cases hkey : Short.readKey? (Short.skip cs) with
  | some read =>
    obtain ⟨key, after⟩ := read
    have hafter := h.skip.of_suffix (readKey?_suffix hkey)
    dsimp only [Option.map_some]
    split
    · exact (place_stop h.skip _).symm
    · simp only [ih.value hafter]
      refine place_bind fun arg rest hread => ?_
      exact ih.next _ (hafter.of_suffix (readValue_suffix hread)).skip
  | none =>
    dsimp only [Option.map_none]
    split
    · exact (place_stop h.skip _).symm
    · simp only [ih.value h.skip]
      refine place_bind fun arg rest hread => ?_
      exact ih.next _ (h.skip.of_suffix (readValue_suffix hread)).skip

theorem value_succ (ih : Agrees text fuel) (h : At text p cs) :
    readValue text (fuel + 1) p = place text (Short.readValue (fuel + 1) cs) := by
  rw [readValue, Short.readValue]
  dsimp only
  have hskip := h.skip
  rw [hskip.getElem?]
  cases hcs : Short.skip cs with
  | nil =>
    rw [hcs] at hskip
    exact readBare_eq hskip
  | cons c tail =>
    rw [hcs] at hskip
    by_cases hat : c = '@'
    · subst hat
      rw [head?_cons, hskip.cons.getElem?]
      cases tail with
      | nil => exact readBare_eq hskip
      | cons d tail =>
        by_cases hd : isNameStart d = true
        · simp only [head?_cons, Option.any_some, hd, if_true, ih.short hskip]
          exact place_bind fun _ _ _ => rfl
        · simp [hd, readBare_eq hskip]
    by_cases harray : c = '['
    · subst harray
      have hinside := hskip.cons.skip
      have hitems : (readItems text fuel (skip text p + 1) >>= fun read =>
        pure (Argument.array read.1, read.2)) =
          place text
              (Short.readItems fuel tail >>= fun read => pure (Argument.array read.1, read.2)) := by
        rw [ih.items hskip.cons]
        exact place_bind fun _ _ _ => rfl
      rw [head?_cons, hinside.getElem?]
      cases hfirst : Short.skip tail with
      | nil => simpa [hfirst] using hitems
      | cons d more =>
        rw [hfirst] at hinside
        by_cases hclose : d = ']'
        · subst hclose
          simp [hfirst, hinside.cons.position]
        · simpa [hfirst, hclose] using hitems
    by_cases hjson : c = '\x7b'
    · subst hjson
      exact readJson_eq hskip
    by_cases hsingle : c = '\''
    · subst hsingle
      exact readQuoted_eq hskip
    by_cases hdouble : c = '"'
    · subst hdouble
      exact readQuoted_eq hskip
    · simp [hat, harray, hjson, hsingle, hdouble, readBare_eq hskip]

theorem items_succ (ih : Agrees text fuel) (h : At text p cs) :
    readItems text (fuel + 1) p = place text (Short.readItems (fuel + 1) cs) := by
  rw [readItems, Short.readItems, ih.value h]
  refine place_bind fun item rest hread => ?_
  have hskip := (h.of_suffix (readValue_suffix hread)).skip
  dsimp only
  rw [hskip.getElem?]
  cases hcs : Short.skip rest with
  | nil =>
    rw [hcs] at hskip
    exact (place_stop hskip _).symm
  | cons c tail =>
    rw [hcs] at hskip
    rw [head?_cons]
    by_cases hcomma : c = ','
    · subst hcomma
      rw [ih.items hskip.cons]
      exact place_bind fun _ _ _ => rfl
    by_cases hclose : c = ']'
    · subst hclose
      simp [hskip.cons.position]
    · simp [place_stop hskip]

theorem of_fuel (text : Array Char) (fuel : Nat) : Agrees text fuel := by
  induction fuel with
  | zero =>
    constructor
    · intro p cs h
      rw [readShort, Short.readShort, place_stop h]
    · intro p cs s h
      rw [readArguments, Short.readArguments, place_stop h]
    · intro p cs h
      rw [readValue, Short.readValue, place_stop h]
    · intro p cs h
      rw [readItems, Short.readItems, place_stop h]
  | succ fuel ih => exact ⟨ih.short_succ, ih.arguments_succ, ih.value_succ, ih.items_succ⟩

end Agrees

/-- Reading with a cursor takes no step that cannot be taken: it gives what the readers proper
give. -/
theorem ofFront_eq (text : Array Char) :
    ofFront text = (Short.ofFront text.toList).mapError .failure := by
  have hread := (Agrees.of_fuel text (2 * text.size + 2)).short (at_zero text)
  rw [ofFront, hread, Short.ofFront, fuelFor, Array.length_toList]
  cases Short.readShort (2 * text.size + 2) text.toList <;> rfl

private theorem ofText_eq (text : Array Char) :
    ofText text = (Short.ofText (String.ofList text.toList)).mapError .failure := by
  have hread := (Agrees.of_fuel text (2 * text.size + 2)).short (at_zero text).skip
  rw [ofText, hread, Short.ofText, String.toList_ofList, fuelFor, Array.length_toList]
  cases hshort : Short.readShort (2 * text.size + 2) (Short.skip text.toList) with
  | error at_ => rfl
  | ok read =>
    obtain ⟨s, rest⟩ := read
    have hrest : rest <:+ Short.skip text.toList := by
      obtain ⟨tail, htail, hsuffix⟩ := readShort_suffix hshort
      rw [htail]
      exact hsuffix.trans (suffix_cons _ _)
    have hend := ((at_zero text).skip.of_suffix hrest).skip
    simp only [place_ok, ok_bind]
    rw [hend.getElem?]
    cases hskip : Short.skip rest with
    | nil => rfl
    | cons c tail =>
      rw [hskip] at hend
      simpa [stop, fail, Stop.toError, Except.mapError] using hend.position.symm

end Cursor

/-! ## Short expressions in front of a text -/

private theorem startsAt_of_readShort (h : readShort fuel cs = .ok (s, rest)) :
    startsAt cs = true := by
  cases fuel with
  | zero => cases h
  | succ fuel =>
    rw [readShort] at h
    obtain ⟨tail, hat, h⟩ := of_bind h
    rw [expect_suffix hat, startsAt]
    split at h
    · cases h
    next name after hname =>
    obtain ⟨body, hopen, -⟩ := of_bind h
    simp [expect_suffix hopen]

/-- A short expression in front of a text is read from its own characters, with any others after
them. -/
theorem exists_takes_of_ofFront {k : Nat} (h : ofFront cs = .ok (s, k)) :
    startsAt cs = true ∧ ∃ source rest, cs = source ++ rest ∧ k = source.length ∧
      Takes readShort source s := by
  unfold ofFront at h
  split at h
  · next rest hread =>
    cases h
    obtain ⟨source, rfl, htakes⟩ := (Local.of_fuel _).short hread
    exact ⟨startsAt_of_readShort hread, source, rest, rfl, by simp, htakes⟩
  · cases h

private theorem Takes.ofFront_append (h : Takes readShort source s) (u : List Char) :
    ofFront (source ++ u) = .ok (s, source.length) := by
  have hread : readShort (fuelFor (source ++ u)) (source ++ u) = .ok (s, u) := by
    refine h _ u ?_
    rw [fuelFor, length_append]
    omega
  simp [ofFront, hread]

private theorem Takes.ofText_eq (h : Takes readShort source s) :
    ofText (String.ofList source) = .ok s := by
  have hread := h (fuelFor source) [] le_rfl
  have hskip : skip source = source := by
    obtain ⟨c, tail, rfl⟩ := h.exists_cons
    exact skip_cons (by decide)
  have hnil : skip [] = [] := rfl
  rw [append_nil] at hread
  simp [ofText, hskip, hread, hnil]

/-- A short expression in front of a text is read from its own characters, whatever comes after
them; a failure is a position of the text; and with a cursor the same is read, so no step leaves the
text and no brace is closed that was not opened. -/
theorem ofFront_local (cs : List Char) :
    (∀ s k, ofFront cs = .ok (s, k) → k ≤ cs.length ∧ startsAt cs = true ∧
      ofText (String.ofList (cs.take k)) = .ok s ∧ ∀ u, ofFront (cs.take k ++ u) = .ok (s, k)) ∧
    (∀ e, ofFront cs = .error e → ∃ detail offset, e = .shortSyntax detail offset ∧
      offset ≤ cs.length) ∧
    (∀ e, ofText (String.ofList cs) = .error e →
      ∃ detail offset, e = .shortSyntax detail offset ∧ offset ≤ cs.length) ∧
    Cursor.ofFront cs.toArray = (ofFront cs).mapError .failure ∧
    Cursor.ofText cs.toArray = (ofText (String.ofList cs)).mapError .failure := by
  refine ⟨fun s k h => ?_, fun e h => ?_, fun e h => ?_, Cursor.ofFront_eq cs.toArray,
    Cursor.ofText_eq cs.toArray⟩
  · obtain ⟨hstarts, source, rest, rfl, rfl, htakes⟩ := exists_takes_of_ofFront h
    rw [List.take_left]
    exact ⟨by simp, hstarts, htakes.ofText_eq, htakes.ofFront_append⟩
  · unfold ofFront at h
    split at h
    · cases h
    · cases h
      exact ⟨_, _, rfl, Nat.sub_le _ _⟩
  · unfold ofText at h
    dsimp only at h
    split at h
    · cases h
    · cases h
      exact ⟨_, _, rfl, by simp⟩

/-- The closing signs in a text in quotes and in a data value do not end the expression. -/
theorem ofFront_local_signs : ∃ cs s, cs = "@f('a)', k=[\x7b\"x\": \"\x7d)\"\x7d]) as c".toList ∧
    s = mk "f" [.string "a)"] [("k", .array [.json (.object [("x", .string "\x7d)")])])] ∧
    ofFront cs = .ok (s, 25) ∧ ofText (String.ofList (cs.take 25)) = .ok s ∧
    (∀ u, ofFront (cs.take 25 ++ u) = .ok (s, 25)) ∧ Cursor.ofFront cs.toArray = .ok (s, 25) := by
  have hread : ofFront "@f('a)', k=[\x7b\"x\": \"\x7d)\"\x7d]) as c".toList =
      .ok (mk "f" [.string "a)"]
        [("k", .array [.json (.object [("x", .string "\x7d)")])])], 25) := by
    cbv
  obtain ⟨hlocal, -, -, hcursor, -⟩ :=
    ofFront_local "@f('a)', k=[\x7b\"x\": \"\x7d)\"\x7d]) as c".toList
  obtain ⟨-, -, htext, hothers⟩ := hlocal _ 25 hread
  rw [hread] at hcursor
  exact ⟨_, _, rfl, rfl, hread, htext, hothers, hcursor⟩

end AnalyticQuery.Short
