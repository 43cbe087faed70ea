import AnalyticQuery.Proofs.Result
import AnalyticQuery.Proofs.Short.Scanning

/-!
# Layouts are read back

An argument is readable when each of its layouts is read back as the argument, whatever ends the
value after it. Lists of readable arguments are read back, in arrays and in parentheses, and from
this every argument with proper names, numbers and data is readable. The fuel is bounded by the
length of the text.
-/

namespace AnalyticQuery.Short

open Argument List Result

variable {rest cs : List Char}

variable {after token blanks tail more body name : List Char} {named : List (String × Argument)}

variable {arg : Argument} {d c : Char} {fuel : Nat} {items positional : List Argument} {s : Short}
  {key : String}

/-- What the readers of lists ask of an argument in each of its layouts. -/
structure Readable (arg : Argument) : Prop where
  /-- Its first character is no blank, no equals sign, and ends no value. -/
  starts {cs : List Char} : Layout arg.pieces cs →
    ∃ c tail, cs = c :: tail ∧ Text.isBlank c = false ∧ c ≠ '=' ∧ endsBare c = false
  /-- It is not taken for an argument given by name. -/
  unnamed {cs rest : List Char} : Layout arg.pieces cs → Ends rest → readKey? (cs ++ rest) = none
  /-- It is read back; the reader may pass over the blanks after it. -/
  read {cs : List Char} (rest : List Char) (fuel : Nat) : Layout arg.pieces cs →
    2 * cs.length ≤ fuel → Ends rest →
    ∃ after, readValue fuel (cs ++ rest) = .ok (arg, after) ∧ skip after = skip rest

/-- A readable argument is read back before blanks and the character that ends it. -/
theorem Readable.read_end {value : List Char} (h : Readable arg) (more : List Char) (fuel : Nat)
    (hvalue : Layout arg.pieces value) (hfuel : 2 * value.length ≤ fuel)
    (hafter : ∀ c ∈ after, Text.isBlank c = true) (hd : endsBare d = true) :
    ∃ tail, readValue fuel (value ++ (after ++ d :: more)) = .ok (arg, tail) ∧
      skip tail = d :: more := by
  obtain ⟨tail, hread, hskip⟩ := h.read _ fuel hvalue hfuel ⟨after, d, more, hafter, hd, rfl⟩
  rw [skip_append hafter, skip_cons (of_endsBare hd).1] at hskip
  exact ⟨tail, hread, hskip⟩

/-! ## Values without parts -/

/-- Outside the reserved words a token is a number, or else a text. -/
private theorem bareValue_of_isReservedWord {s : String} (h : isReservedWord s = false) :
    bareValue s = (Number.ofText? s).elim (.string s) .number := by
  simp only [isReservedWord, Bool.or_eq_false_iff, beq_eq_false_iff_ne] at h
  obtain ⟨⟨htrue, hfalse⟩, hnull⟩ := h
  unfold bareValue
  split
  · contradiction
  · contradiction
  · contradiction
  · cases Number.ofText? s <;> rfl

private theorem toLower_of_isNumberChar (h : isNumberChar c = true) : c.toLower = c := by
  simp only [isNumberChar, Bool.or_eq_true, beq_iff_eq] at h
  rcases h with (((h | rfl) | rfl) | rfl) | rfl
  · grind [Char.toLower, Char.isDigit]
  all_goals decide

/-- No number is a reserved word: each of these has a letter that no number has. -/
private theorem isReservedWord_text (n : Number) : isReservedWord n.text = false := by
  have hletter : ∀ {word : String} {c : Char}, c ∈ word.toList → isNumberChar c = false →
      n.text.toLower ≠ word := by
    rintro word c hc hletter rfl
    rw [String.toLower, String.toList_map] at hc
    obtain ⟨d, hd, rfl⟩ := mem_map.mp hc
    have hnumber := Number.isNumberChar_of_mem_text hd
    rw [toLower_of_isNumberChar hnumber, hnumber] at hletter
    cases hletter
  have htrue := hletter (show 't' ∈ "true".toList by decide) (by decide)
  have hfalse := hletter (show 'l' ∈ "false".toList by decide) (by decide)
  have hnull := hletter (show 'l' ∈ "null".toList by decide) (by decide)
  simp [isReservedWord, htrue, hfalse, hnull]

/-- A number that is read back from its text is so as a value without quotes. -/
theorem bareValue_number {n : Number} (h : Number.ofText? n.text = some n) :
    bareValue n.text = .number n := by
  rw [bareValue_of_isReservedWord (isReservedWord_text n), h]
  rfl

/-- A text that may stand without quotes is read back without them. -/
theorem bareValue_string {s : String} (h : canBeBare s = true) : bareValue s = .string s := by
  simp only [canBeBare, Bool.and_eq_true, Bool.not_eq_true', Option.isNone_iff_eq_none] at h
  obtain ⟨⟨⟨-, -⟩, hword⟩, hnumber⟩ := h
  rw [bareValue_of_isReservedWord hword, hnumber]
  rfl

/-- A value that begins with none of the characters of other values is one without quotes. -/
theorem readValue_token (hne : token ≠ []) (htoken : ∀ c ∈ token, isTokenChar c = true)
    (hrest : Ends rest) :
    readValue (fuel + 1) (token ++ rest) = .ok (bareValue (String.ofList token), skip rest) := by
  rw [← readBare_token hne htoken hrest]
  obtain ⟨c, cs, rfl⟩ := exists_cons_of_ne_nil hne
  have hc : isTokenChar c = true := htoken c mem_cons_self
  have hother : ∀ d : Char, isTokenChar d = false → c ≠ d := by
    rintro d hd rfl
    rw [hc] at hd
    cases hd
  rw [cons_append, readValue, skip_cons (isBlank_of_isTokenChar hc)]
  have hat := hother '@' (by decide)
  have hbracket := hother '[' (by decide)
  have hbrace := hother '\x7b' (by decide)
  have hquote := hother '\'' (by decide)
  have hquote' := hother '"' (by decide)
  split <;> simp_all

/-- An argument whose only layout is a token that stands for it is readable. -/
theorem readable_of_token (hpieces : arg.pieces = [.solid token]) (hne : token ≠ [])
    (htoken : ∀ c ∈ token, isTokenChar c = true) (hvalue : bareValue (String.ofList token) = arg) :
    Readable arg := by
  have hlayout : ∀ {cs : List Char}, Layout arg.pieces cs → cs = token := by
    intro cs h
    rw [hpieces] at h
    obtain ⟨rest, rfl, hend⟩ := h.of_solid
    rw [hend.of_nil, append_nil]
  refine ⟨fun h => ?_, fun h hrest => ?_, fun rest fuel h hfuel hrest => ?_⟩
  · obtain ⟨c, cs, rfl⟩ := exists_cons_of_ne_nil hne
    have hc := htoken c mem_cons_self
    refine ⟨c, cs, hlayout h, isBlank_of_isTokenChar hc, ?_, endsBare_of_isTokenChar hc⟩
    rintro rfl
    exact absurd hc (by decide)
  · rw [hlayout h]
    exact readKey?_token htoken hrest
  · cases hlayout h
    have hlength := length_pos_of_ne_nil hne
    obtain ⟨fuel, rfl⟩ : ∃ k, fuel = k + 1 := ⟨fuel - 1, by omega⟩
    refine ⟨skip rest, ?_, ?_⟩
    · rw [readValue_token hne htoken hrest, hvalue]
    · exact dropWhile_idempotent Text.isBlank rest

/-- An argument that begins with the mark of its kind and is read up to its own end is readable. -/
theorem readable_of_mark (mark : Char) (hmark : mark ∈ ['@', '[', '\x7b', '\''])
    (hstart : ∀ {cs : List Char}, Layout arg.pieces cs → ∃ tail, cs = mark :: tail)
    (hread : ∀ {cs rest : List Char} {fuel : Nat}, Layout arg.pieces cs → 2 * cs.length ≤ fuel →
      readValue fuel (cs ++ rest) = .ok (arg, rest)) : Readable arg := by
  have hfacts : Text.isBlank mark = false ∧ mark ≠ '=' ∧ endsBare mark = false ∧
      isNameStart mark = false := by
    simp only [mem_cons, not_mem_nil, or_false] at hmark
    rcases hmark with rfl | rfl | rfl | rfl <;> decide
  obtain ⟨hblank, hne, hends, hname⟩ := hfacts
  refine ⟨fun h => ?_, fun h _ => ?_, fun _ _ h hfuel _ => ⟨_, hread h hfuel, rfl⟩⟩
  · obtain ⟨tail, rfl⟩ := hstart h
    exact ⟨mark, tail, rfl, hblank, hne, hends⟩
  · obtain ⟨tail, rfl⟩ := hstart h
    exact readKey?_of_isNameStart hname

/-- Every text is readable, with quotes or without. -/
theorem readable_string (s : String) : Readable (.string s) := by
  by_cases hbare : canBeBare s = true
  · have hchars : s ≠ "" ∧ ∀ c ∈ s.toList, isBareChar c = true := by
      simp only [canBeBare, Bool.and_eq_true, all_eq_true] at hbare
      exact ⟨by simpa using hbare.1.1.1, hbare.1.1.2⟩
    have hpieces : (string s).pieces = [.solid s.toList] := by
      rw [pieces, chars, textChars, if_pos hbare]
    refine readable_of_token hpieces ?_ ?_ ?_
    · simpa using hchars.1
    · intro c hc
      simp [isTokenChar, hchars.2 c hc]
    · rw [String.ofList_toList, bareValue_string hbare]
  · have hlayout : ∀ {cs : List Char}, Layout (string s).pieces cs →
        cs = '\'' :: (s.toList.flatMap escapeQuoted ++ ['\'']) := by
      intro cs h
      rw [pieces, chars, textChars, if_neg hbare] at h
      obtain ⟨rest, rfl, hend⟩ := h.of_solid
      rw [hend.of_nil, append_nil, cons_append]
    refine readable_of_mark '\'' (by decide) (fun h => ⟨_, hlayout h⟩)
      fun {cs rest fuel} h hfuel => ?_
    cases hlayout h
    obtain ⟨fuel, rfl⟩ : ∃ k, fuel = k + 1 := ⟨fuel - 1, by simp at hfuel; omega⟩
    rw [cons_append, readValue, skip_cons (by decide), append_assoc, singleton_append]
    simp [readQuoted, spanQuoted_escaped]

/-- An object that is read back from its text is readable. -/
theorem readable_json {fields : Fields}
    (h : Json.ofText? (Json.object fields).text = some (.object fields)) :
    Readable (.json (.object fields)) := by
  have hlayout : ∀ {cs : List Char}, Layout (json (.object fields)).pieces cs →
      cs = (Json.object fields).chars := by
    intro cs h
    rw [pieces, chars] at h
    obtain ⟨rest, rfl, hend⟩ := h.of_solid
    rw [hend.of_nil, append_nil]
  have hopen : (Json.object fields).chars = '\x7b' :: (Json.fieldChars fields ++ ['\x7d']) := rfl
  refine readable_of_mark '\x7b' (by decide) (fun hcs => ⟨_, (hlayout hcs).trans hopen⟩)
    fun {cs rest fuel} hcs hfuel => ?_
  have hread := readJson_object rest h
  rw [hlayout hcs, hopen] at hfuel ⊢
  rw [hopen, cons_append] at hread
  obtain ⟨fuel, rfl⟩ : ∃ k, fuel = k + 1 := ⟨fuel - 1, by simp at hfuel; omega⟩
  rw [cons_append, readValue, skip_cons (by decide)]
  exact hread

/-! ## Lists -/

/-- Blanks before a value are passed over. -/
theorem readValue_append (h : ∀ c ∈ blanks, Text.isBlank c = true) :
    readValue (fuel + 1) (blanks ++ cs) = readValue (fuel + 1) cs := by
  rw [readValue, readValue, skip_append h]

/-- After its value an array goes on with a comma, or ends. -/
theorem readItems_step {item : Argument} (hvalue : readValue fuel cs = .ok (item, tail))
    (hskip : skip tail = d :: more) :
    (d = ',' → readItems (fuel + 1) cs = do
      let (items, rest) ← readItems fuel more
      return (item :: items, rest)) ∧
    (d = ']' → readItems (fuel + 1) cs = .ok ([item], more)) := by
  constructor
  · rintro rfl
    simp only [readItems, hvalue, ok_bind, hskip]
  · rintro rfl
    simp only [readItems, hvalue, ok_bind, hskip, pure_eq_ok]

/-- The items of an array are read back from each of their layouts. -/
theorem readItems_layout (rest : List Char) (hne : items ≠ [])
    (hitems : ∀ item ∈ items, Readable item) (hcs : Layout (listPieces (itemsPieces items) ']') cs)
    (hfuel : 2 * cs.length ≤ fuel) :
    readItems fuel (cs ++ rest) = .ok (items, rest) := by
  -- The text that is left after a comma is a layout of the items that are left.
  induction items generalizing cs fuel with
  | nil => contradiction
  | cons item items ih =>
    obtain ⟨before, value, after, d, more, hbefore, hvalue, hafter, rfl, hmore⟩ :=
      Layout.of_listPieces_cons hcs
    have hitem := hitems item mem_cons_self
    obtain ⟨c, tail, rfl, -⟩ := hitem.starts hvalue
    simp only [length_append, length_cons] at hfuel
    obtain ⟨fuel, rfl⟩ : ∃ k, fuel = k + 1 + 1 := ⟨fuel - 2, by omega⟩
    have hd : endsBare d = true := by
      rcases hmore with ⟨-, rfl, -⟩ | ⟨-, rfl, -⟩ <;> decide
    obtain ⟨ending, hread, hskip⟩ := hitem.read_end (more ++ rest) (fuel + 1) hvalue
      (by simp only [length_cons]; omega) hafter hd
    rw [← readValue_append hbefore] at hread
    obtain ⟨hcomma, hclose⟩ := readItems_step hread hskip
    have htext : before ++ (c :: tail ++ (after ++ d :: more)) ++ rest =
        before ++ (c :: tail ++ (after ++ d :: (more ++ rest))) := by simp
    rw [htext]
    rcases hmore with ⟨hnil, rfl, rfl⟩ | ⟨hcons, rfl, hmore⟩
    · cases items with
      | nil => exact hclose rfl
      | cons next items => cases hnil
    · have hitems' : items ≠ [] := by
        rintro rfl
        exact hcons rfl
      rw [hcomma rfl, ih hitems' (fun x hx => hitems x (mem_cons_of_mem item hx)) hmore (by omega)]
      rfl

/-! ## Arguments in parentheses -/

/-- After an argument given by position the list goes on with a comma, or ends. -/
theorem readArguments_push (hkey : readKey? (skip cs) = none) (hnamed : s.named = [])
    (hvalue : readValue fuel (skip cs) = .ok (arg, tail)) (hskip : skip tail = d :: more) :
    (d = ',' → readArguments (fuel + 1) s cs = readArguments fuel (s.push arg) more) ∧
    (d = ')' → readArguments (fuel + 1) s cs = .ok (s.push arg, more)) := by
  constructor
  · rintro rfl
    simp [readArguments, hkey, hnamed, hvalue, hskip]
  · rintro rfl
    simp [readArguments, hkey, hnamed, hvalue, hskip]

/-- After an argument given by name the list goes on with a comma, or ends. -/
theorem readArguments_set (hkey : readKey? (skip cs) = some (key, after))
    (hnew : s.hasNamed key = false) (hvalue : readValue fuel after = .ok (arg, tail))
    (hskip : skip tail = d :: more) :
    (d = ',' → readArguments (fuel + 1) s cs = readArguments fuel (s.set key arg) more) ∧
    (d = ')' → readArguments (fuel + 1) s cs = .ok (s.set key arg, more)) := by
  constructor
  · rintro rfl
    simp [readArguments, hkey, hnew, hvalue, hskip]
  · rintro rfl
    simp [readArguments, hkey, hnew, hvalue, hskip]

/-- A new name is set at the end. -/
theorem setArg_of_not_mem (arg : Argument) (h : key ∉ named.map (·.1)) :
    setArg named key arg = named ++ [(key, arg)] := by
  induction named with
  | nil => rfl
  | cons entry named ih =>
    simp only [map_cons, mem_cons, not_or] at h
    have hne : (entry.1 == key) = false := by simpa using fun he => h.1 he.symm
    rw [setArg, hne, if_neg (by decide), ih h.2, cons_append]

theorem mem_setArg {entry : String × Argument} (h : entry ∈ setArg named key arg) :
    entry ∈ named ∨ entry = (key, arg) := by
  induction named with
  | nil => exact .inr (mem_singleton.mp h)
  | cons first named ih =>
    rw [setArg] at h
    split at h
    · obtain rfl | h := mem_cons.mp h
      · exact .inr rfl
      · exact .inl (mem_cons_of_mem _ h)
    · obtain rfl | h := mem_cons.mp h
      · exact .inl mem_cons_self
      · exact (ih h).imp_left (mem_cons_of_mem _)

/-- A name that is given keeps its place. -/
theorem map_fst_setArg (named : List (String × Argument)) (key : String) (arg : Argument) :
    (setArg named key arg).map (·.1) =
      if key ∈ named.map (·.1) then named.map (·.1) else named.map (·.1) ++ [key] := by
  split
  · next h =>
    induction named with
    | nil => cases h
    | cons first named ih =>
      rw [setArg]
      split
      · next hkey => rw [map_cons, map_cons, eq_of_beq hkey]
      · next hkey =>
        obtain he | h := mem_cons.mp h
        · exact absurd (beq_iff_eq.mpr he.symm) hkey
        · rw [map_cons, ih h, map_cons]
  · next h => rw [setArg_of_not_mem arg h, map_append, map_singleton]

theorem nodup_setArg (h : (named.map (·.1)).Nodup) (key : String) (arg : Argument) :
    ((setArg named key arg).map (·.1)).Nodup := by
  rw [map_fst_setArg]
  split
  · exact h
  · next hnew =>
    rw [← concat_eq_append]
    exact h.concat hnew

theorem lookup_setArg (named : List (String × Argument)) (key k : String) (arg : Argument) :
    (setArg named key arg).lookup k = if k = key then some arg else named.lookup k := by
  have hlookup : ∀ (k' : String) (arg : Argument) (rest : List (String × Argument)),
      ((k', arg) :: rest).lookup k = if k = k' then some arg else rest.lookup k := by
    intro k' arg rest
    rw [lookup_cons]
    by_cases h : k = k'
    · simp [h]
    · simp [h, beq_false_of_ne h]
  induction named with
  | nil => exact hlookup key arg []
  | cons entry named ih =>
    obtain ⟨k', arg'⟩ := entry
    by_cases hk : k' = key
    · subst hk
      rw [setArg, if_pos (beq_self_eq_true k'), hlookup, hlookup]
      split <;> rfl
    · rw [setArg, if_neg (by simpa using hk), hlookup, hlookup, ih]
      split
      · next h => rw [if_neg (h ▸ hk)]
      · rfl

/-- A layout of an argument given by name has blanks on both sides of the equals sign. -/
private theorem layout_entry
    (h : Layout (.solid key.toList :: .gap :: .solid ['='] :: .gap :: arg.pieces) cs) :
    ∃ left right value, (∀ c ∈ left, Text.isBlank c = true) ∧ (∀ c ∈ right, Text.isBlank c = true) ∧
      Layout arg.pieces value ∧ cs = key.toList ++ (left ++ '=' :: (right ++ value)) := by
  obtain ⟨_, rfl, hbefore⟩ := h.of_solid
  obtain ⟨left, _, hleft, rfl, hequals⟩ := hbefore.of_gap
  obtain ⟨_, rfl, hafter⟩ := hequals.of_solid
  obtain ⟨right, value, hright, rfl, hvalue⟩ := hafter.of_gap
  exact ⟨left, right, value, hleft, hright, hvalue, rfl⟩

/-- The arguments given by name are read back from each of their layouts. -/
theorem readArguments_named (rest : List Char) (hne : named ≠ [])
    (hargs : ∀ entry ∈ named, Readable entry.2)
    (hkeys : ∀ entry ∈ named, isIdentifier entry.1.toList = true)
    (hnodup : ((s.named ++ named).map (·.1)).Nodup)
    (hcs : Layout (listPieces (namedPieces named) ')') cs) (hfuel : 2 * cs.length ≤ fuel) :
    readArguments fuel s (cs ++ rest) = .ok (mk s.name s.positional (s.named ++ named), rest) := by
  -- What is read so far grows with each argument, so it is generalised with the text and the fuel.
  induction named generalizing s cs fuel with
  | nil => contradiction
  | cons entry named ih =>
    obtain ⟨key, arg⟩ := entry
    obtain ⟨before, part, after, d, more, hbefore, hpart, hafter, rfl, hmore⟩ :=
      Layout.of_listPieces_cons hcs
    obtain ⟨left, right, value, hleft, hright, hvalue, rfl⟩ := layout_entry hpart
    have harg := hargs _ mem_cons_self
    obtain ⟨c, tail, rfl, hblank, hc, -⟩ := harg.starts hvalue
    simp only [length_append, length_cons] at hfuel
    obtain ⟨fuel, rfl⟩ : ∃ k, fuel = k + 1 := ⟨fuel - 1, by omega⟩
    have hd : endsBare d = true := by
      rcases hmore with ⟨-, rfl, -⟩ | ⟨-, rfl, -⟩ <;> decide
    obtain ⟨ending, hread, hskip⟩ := harg.read_end (more ++ rest) fuel hvalue
      (by simp only [length_cons]; omega) hafter hd
    have hkey : readKey? (skip (before ++ (key.toList ++ (left ++ '=' :: (right ++ c ::
        (tail ++ (after ++ d :: (more ++ rest)))))))) =
        some (key, c :: (tail ++ (after ++ d :: (more ++ rest)))) := by
      rw [skip_append hbefore, skip_identifier (hkeys _ mem_cons_self),
        readKey?_identifier (hkeys _ mem_cons_self) hleft hright hblank hc, String.ofList_toList]
    have hfresh : key ∉ s.named.map (·.1) := by
      intro hmem
      rw [map_append, nodup_append] at hnodup
      exact hnodup.2.2 key hmem key (by simp) rfl
    have hnew : s.hasNamed key = false := by
      simpa [hasNamed] using fun a b hmem heq => hfresh (mem_map.mpr ⟨(a, b), hmem, heq⟩)
    obtain ⟨hcomma, hclose⟩ := readArguments_set hkey hnew hread hskip
    have htext : before ++ (key.toList ++ (left ++ '=' :: (right ++ c :: tail)) ++
        (after ++ d :: more)) ++ rest = before ++ (key.toList ++ (left ++ '=' :: (right ++ c ::
        (tail ++ (after ++ d :: (more ++ rest)))))) := by simp
    have hset : s.set key arg = mk s.name s.positional (s.named ++ [(key, arg)]) := by
      rw [set, setArg_of_not_mem arg hfresh]
    rw [htext]
    rcases hmore with ⟨hnil, rfl, rfl⟩ | ⟨hcons, rfl, hmore⟩
    · cases named with
      | nil => rw [hclose rfl, hset, nil_append]
      | cons next named => cases hnil
    · have hnamed : named ≠ [] := by
        rintro rfl
        exact hcons rfl
      have hrest : (((mk s.name s.positional (s.named ++ [(key, arg)])).named ++ named).map
          (·.1)).Nodup := by
        rw [Short.named, append_assoc]
        exact hnodup
      rw [hcomma rfl, hset, ih hnamed (fun x hx => hargs x (mem_cons_of_mem _ hx))
        (fun x hx => hkeys x (mem_cons_of_mem _ hx)) hrest hmore (by omega)]
      simp only [name, positional, Short.named, append_assoc, singleton_append]

/-- The arguments of a short expression are read back from each of their layouts. -/
theorem readArguments_layout (rest : List Char) (hne : positional ≠ [] ∨ named ≠ [])
    (hfirst : s.named = []) (hitems : ∀ item ∈ positional, Readable item)
    (hargs : ∀ entry ∈ named, Readable entry.2)
    (hkeys : ∀ entry ∈ named, isIdentifier entry.1.toList = true) (hnodup : (named.map (·.1)).Nodup)
    (hcs : Layout (listPieces (itemsPieces positional ++ namedPieces named) ')') cs)
    (hfuel : 2 * cs.length ≤ fuel) :
    readArguments fuel s (cs ++ rest) = .ok
      (mk s.name (s.positional ++ positional) named, rest) := by
  -- The arguments given by name come last, so they are the base of the induction.
  induction positional generalizing s cs fuel with
  | nil =>
    have hnamed : named ≠ [] := hne.resolve_left (· rfl)
    rw [readArguments_named rest hnamed hargs hkeys (by rwa [hfirst, nil_append]) hcs hfuel, hfirst,
      append_nil, nil_append]
  | cons item items ih =>
    obtain ⟨before, value, after, d, more, hbefore, hvalue, hafter, rfl, hmore⟩ :=
      Layout.of_listPieces_cons hcs
    have hitem := hitems item mem_cons_self
    obtain ⟨c, tail, rfl, hblank, -, -⟩ := hitem.starts hvalue
    simp only [length_append, length_cons] at hfuel
    obtain ⟨fuel, rfl⟩ : ∃ k, fuel = k + 1 := ⟨fuel - 1, by omega⟩
    have hd : endsBare d = true := by
      rcases hmore with ⟨-, rfl, -⟩ | ⟨-, rfl, -⟩ <;> decide
    obtain ⟨ending, hread, hskip⟩ := hitem.read_end (more ++ rest) fuel hvalue
      (by simp only [length_cons]; omega) hafter hd
    have hkey := hitem.unnamed hvalue ⟨after, d, more ++ rest, hafter, hd, rfl⟩
    have hfront : skip (before ++ (c :: tail ++ (after ++ d :: (more ++ rest)))) =
        c :: tail ++ (after ++ d :: (more ++ rest)) := by
      rw [skip_append hbefore, cons_append, skip_cons hblank]
    rw [← hfront] at hread hkey
    obtain ⟨hcomma, hclose⟩ := readArguments_push hkey hfirst hread hskip
    have htext : before ++ (c :: tail ++ (after ++ d :: more)) ++ rest =
        before ++ (c :: tail ++ (after ++ d :: (more ++ rest))) := by simp
    rw [htext]
    rcases hmore with ⟨hnil, rfl, rfl⟩ | ⟨hcons, rfl, hmore⟩
    · obtain ⟨hpositional, hnamed⟩ := append_eq_nil_iff.mp hnil
      cases items with
      | cons next items => cases hpositional
      | nil =>
        cases named with
        | cons next named => cases hnamed
        | nil => rw [hclose rfl, push, hfirst, nil_append]
    · have hothers : items ≠ [] ∨ named ≠ [] := by
        by_contra hnone
        simp only [not_or, not_not] at hnone
        rw [hnone.1, hnone.2] at hcons
        exact hcons rfl
      rw [hcomma rfl, ih hothers (by rw [push, Short.named, hfirst])
        (fun x hx => hitems x (mem_cons_of_mem _ hx)) hmore (by omega)]
      simp only [push, name, Short.positional, append_assoc, singleton_append]

/-! ## Arguments with parts -/

/-- A list with parts begins with its first part, which does not end it. -/
private theorem skip_listPieces {x : List Piece} {xs : List (List Piece)} {close : Char}
    (rest : List Char) (hbody : Layout (listPieces (x :: xs) close) body)
    (hstart : ∀ {value : List Char}, Layout x value →
      ∃ c tail, value = c :: tail ∧ Text.isBlank c = false ∧ endsBare c = false) :
    ∃ c tail, skip (body ++ rest) = c :: tail ∧ endsBare c = false := by
  obtain ⟨before, value, after, d, more, hbefore, hvalue, -, rfl, -⟩ := hbody.of_listPieces_cons
  obtain ⟨c, tail, rfl, hblank, hends⟩ := hstart hvalue
  refine ⟨c, tail ++ (after ++ d :: more) ++ rest, ?_, hends⟩
  rw [append_assoc, skip_append hbefore, cons_append, cons_append, skip_cons hblank]

/-- An array without items ends at once. -/
theorem readValue_array_nil (hskip : skip cs = ']' :: rest) :
    readValue (fuel + 1) ('[' :: cs) = .ok (.array [], rest) := by
  rw [readValue, skip_cons (by decide)]
  simp only [hskip]

/-- An array with items is read item by item. -/
theorem readValue_array_cons (hskip : skip cs = c :: tail) (hc : c ≠ ']')
    (hread : readItems fuel cs = .ok (items, rest)) :
    readValue (fuel + 1) ('[' :: cs) = .ok (.array items, rest) := by
  rw [readValue, skip_cons (by decide)]
  simp [hskip, hc, hread]

/-- An array of readable items is readable. -/
theorem readable_array (h : ∀ item ∈ items, Readable item) :
    Readable (.array items) := by
  refine readable_of_mark '[' (by decide) (fun hcs => ?_) fun {cs rest fuel} hcs hfuel => ?_
  · obtain ⟨body, rfl, -⟩ := hcs.of_solid
    exact ⟨body, rfl⟩
  · obtain ⟨body, rfl, hbody⟩ := hcs.of_solid
    simp only [length_append, length_singleton] at hfuel
    obtain ⟨fuel, rfl⟩ : ∃ k, fuel = k + 1 := ⟨fuel - 1, by omega⟩
    rw [append_assoc, singleton_append]
    cases items with
    | nil =>
      obtain ⟨blanks, hblanks, rfl⟩ := hbody.of_listPieces_nil
      apply readValue_array_nil
      rw [append_assoc, skip_append hblanks, singleton_append, skip_cons (by decide)]
    | cons item items =>
      have hread := readItems_layout rest (by simp) h hbody (show 2 * body.length ≤ fuel by omega)
      have hitem := h item mem_cons_self
      obtain ⟨c, tail, hskip, hends⟩ := skip_listPieces rest hbody fun hvalue => by
        obtain ⟨c, tail, rfl, hblank, -, hends⟩ := hitem.starts hvalue
        exact ⟨c, tail, rfl, hblank, hends⟩
      refine readValue_array_cons hskip ?_ hread
      rintro rfl
      exact absurd hends (by decide)

/-- A name and an opening parenthesis are read, with any blanks between them. -/
private theorem readName?_blanks (body : List Char) (hname : isIdentifier name = true)
    (hblanks : ∀ c ∈ blanks, Text.isBlank c = true) :
    readName? (name ++ (blanks ++ '(' :: body)) = some (String.ofList name, blanks ++ '(' :: body) ∧
      skip (blanks ++ '(' :: body) = '(' :: body := by
  refine ⟨?_, by rw [skip_append hblanks, skip_cons (by decide)]⟩
  cases blanks with
  | nil => exact readName?_identifier hname (by decide)
  | cons b blanks =>
    exact readName?_identifier hname (of_isBlank (hblanks b mem_cons_self)).2.2.1

/-- A short expression without arguments ends at once. -/
theorem readShort_nil (hname : isIdentifier name = true)
    (hblanks : ∀ c ∈ blanks, Text.isBlank c = true) (hskip : skip body = ')' :: rest) :
    readShort (fuel + 1) ('@' :: (name ++ (blanks ++ '(' :: body))) =
      .ok (ofName (String.ofList name), rest) := by
  obtain ⟨hread, hopen⟩ := readName?_blanks body hname hblanks
  simp only [readShort, expect, beq_self_eq_true, if_true, ok_bind, hread, hopen, hskip, pure_eq_ok]

/-- A short expression with arguments is read argument by argument. -/
theorem readShort_cons (hname : isIdentifier name = true)
    (hblanks : ∀ c ∈ blanks, Text.isBlank c = true) (hskip : skip body = c :: tail) (hc : c ≠ ')') :
    readShort (fuel + 1) ('@' :: (name ++ (blanks ++ '(' :: body))) =
      readArguments fuel (ofName (String.ofList name)) (skip body) := by
  obtain ⟨hread, hopen⟩ := readName?_blanks body hname hblanks
  simp [readShort, expect, hread, hopen, hskip, hc]

/-- Blanks before the arguments are passed over. -/
theorem readArguments_skip (fuel : Nat) (s : Short) (cs : List Char) :
    readArguments (fuel + 1) s (skip cs) = readArguments (fuel + 1) s cs := by
  have hskip : skip (skip cs) = skip cs := dropWhile_idempotent Text.isBlank cs
  rw [readArguments, readArguments, hskip]

/-- A list of arguments begins with a value or with a name. -/
private theorem skip_arguments (rest : List Char) (hne : positional ≠ [] ∨ named ≠ [])
    (hitems : ∀ item ∈ positional, Readable item)
    (hkeys : ∀ entry ∈ named, isIdentifier entry.1.toList = true)
    (hbody : Layout (listPieces (itemsPieces positional ++ namedPieces named) ')') body) :
    ∃ c tail, skip (body ++ rest) = c :: tail ∧ endsBare c = false := by
  cases positional with
  | cons item items =>
    refine skip_listPieces rest hbody fun hvalue => ?_
    obtain ⟨c, tail, rfl, hblank, -, hends⟩ := (hitems item mem_cons_self).starts hvalue
    exact ⟨c, tail, rfl, hblank, hends⟩
  | nil =>
    cases named with
    | nil => simp at hne
    | cons entry named =>
      refine skip_listPieces rest hbody fun hvalue => ?_
      obtain ⟨tail, rfl, -⟩ := hvalue.of_solid
      obtain ⟨c, key, hkey, hblank, hends⟩ := exists_of_isIdentifier (hkeys entry mem_cons_self)
      exact ⟨c, key ++ tail, by rw [hkey, cons_append], hblank, hends⟩

/-- A short expression with proper names and readable arguments is read back from each of its
layouts. -/
theorem readShort_layout {name : String} (rest : List Char)
    (hproper : (short (mk name positional named)).Proper)
    (hitems : ∀ item ∈ positional, Readable item) (hargs : ∀ entry ∈ named, Readable entry.2)
    (hcs : Layout (shortPieces (mk name positional named)) cs) (hfuel : 2 * cs.length ≤ fuel + 1) :
    readShort fuel (cs ++ rest) = .ok (mk name positional named, rest) := by
  simp only [Argument.Proper, Short.name, Short.named] at hproper
  obtain ⟨⟨hname, hlower⟩, hkeys, hnodup⟩ := hproper
  obtain ⟨_, rfl, hgap⟩ := hcs.of_solid
  obtain ⟨blanks, _, hblanks, rfl, hopen⟩ := hgap.of_gap
  obtain ⟨body, rfl, hbody⟩ := hopen.of_solid
  simp only [length_append, length_cons] at hfuel
  obtain ⟨fuel, rfl⟩ : ∃ k, fuel = k + 1 + 1 := ⟨fuel - 2, by omega⟩
  have htext : '@' :: name.toList ++ (blanks ++ (['('] ++ body)) ++ rest =
      '@' :: (name.toList ++ (blanks ++ '(' :: (body ++ rest))) := by simp
  have hofName : ofName (String.ofList name.toList) = mk name [] [] := by
    rw [String.ofList_toList, ofName, hlower]
  rw [htext]
  by_cases hempty : positional = [] ∧ named = []
  · obtain ⟨rfl, rfl⟩ := hempty
    obtain ⟨inside, hinside, rfl⟩ := hbody.of_listPieces_nil
    have hskip : skip (inside ++ [')'] ++ rest) = ')' :: rest := by
      rw [append_assoc, skip_append hinside, singleton_append, skip_cons (by decide)]
    rw [readShort_nil hname hblanks hskip, hofName]
  · have hne : positional ≠ [] ∨ named ≠ [] := by
      by_contra hnone
      simp only [not_or, not_not] at hnone
      exact hempty hnone
    obtain ⟨c, tail, hskip, hends⟩ := skip_arguments rest hne hitems hkeys hbody
    have hc : c ≠ ')' := by
      rintro rfl
      exact absurd hends (by decide)
    rw [readShort_cons hname hblanks hskip hc, readArguments_skip, hofName,
      readArguments_layout rest hne rfl hitems hargs hkeys hnodup hbody (by omega)]
    rfl

/-- A short expression with proper names and readable arguments is readable as an argument. -/
theorem readable_short {name : String} (hproper : (short (mk name positional named)).Proper)
    (hitems : ∀ item ∈ positional, Readable item) (hargs : ∀ entry ∈ named, Readable entry.2) :
    Readable (.short (mk name positional named)) := by
  have hstart : ∀ {cs : List Char}, Layout (short (mk name positional named)).pieces cs →
      ∃ c tail, isNameStart c = true ∧ cs = '@' :: c :: tail := by
    intro cs hcs
    obtain ⟨tail, rfl, -⟩ := hcs.of_solid
    have hname : isIdentifier name.toList = true := hproper.1.1
    cases hchars : name.toList with
    | nil =>
      rw [hchars] at hname
      cases hname
    | cons c chars =>
      rw [hchars, isIdentifier, Bool.and_eq_true] at hname
      exact ⟨c, chars ++ tail, hname.1, rfl⟩
  refine readable_of_mark '@' (by decide) (fun hcs => ?_) fun {cs rest fuel} hcs hfuel => ?_
  · obtain ⟨c, tail, -, rfl⟩ := hstart hcs
    exact ⟨c :: tail, rfl⟩
  · obtain ⟨c, tail, hc, rfl⟩ := hstart hcs
    simp only [length_cons] at hfuel
    obtain ⟨fuel, rfl⟩ : ∃ k, fuel = k + 1 := ⟨fuel - 1, by omega⟩
    have hread := readShort_layout rest hproper hitems hargs hcs
      (show 2 * ('@' :: c :: tail).length ≤ fuel + 1 by simp only [length_cons]; omega)
    rw [cons_append, cons_append] at hread
    rw [cons_append, cons_append, readValue, skip_cons (by decide)]
    simp [hc, hread]

/-! ## All arguments -/

mutual

/-- Every argument that can be written is readable. -/
theorem readable :
    ∀ {arg : Argument}, arg.All Argument.Proper → arg.All Argument.Legible → Readable arg
  | .null, _, _ => readable_of_token rfl (by decide) (all_eq_true.mp (by decide)) (by cbv)
  | .bool true, _, _ => readable_of_token rfl (by decide) (all_eq_true.mp (by decide)) (by cbv)
  | .bool false, _, _ => readable_of_token rfl (by decide) (all_eq_true.mp (by decide)) (by cbv)
  | .number n, _, hlegible => by
    have hnumber : Number.ofText? n.text = some n := hlegible
    have hpieces : (number n).pieces = [.solid n.text.toList] := rfl
    refine readable_of_token hpieces ?_ ?_ ?_
    · intro hnil
      have htext : n.text = "" := by simpa using hnil
      rw [htext] at hnumber
      cases hnumber
    · exact fun c hc => isTokenChar_of_isNumberChar (Number.isNumberChar_of_mem_text hc)
    · rw [String.ofList_toList, bareValue_number hnumber]
  | .string s, _, _ => readable_string s
  | .json value, hproper, hlegible => by
    obtain ⟨fields, rfl⟩ := hproper
    exact readable_json hlegible
  | .array _, hproper, hlegible => readable_array (readable_items hproper.2 hlegible.2)
  | .short (.mk _ _ _), hproper, hlegible =>
    readable_short hproper.1 (readable_items hproper.2.1 hlegible.2.1)
      (readable_named hproper.2.2 hlegible.2.2)

theorem readable_items : ∀ {items : List Argument}, itemsAll Argument.Proper items →
    itemsAll Argument.Legible items → ∀ item ∈ items, Readable item
  | [], _, _ => by simp
  | _ :: _, hproper, hlegible => forall_mem_cons.mpr
    ⟨readable hproper.1 hlegible.1, readable_items hproper.2 hlegible.2⟩

theorem readable_named : ∀ {named : List (String × Argument)}, namedAll Argument.Proper named →
    namedAll Argument.Legible named → ∀ entry ∈ named, Readable entry.2
  | [], _, _ => by simp
  | (_, _) :: _, hproper, hlegible => forall_mem_cons.mpr
    ⟨readable hproper.1 hlegible.1, readable_named hproper.2 hlegible.2⟩

end

end AnalyticQuery.Short
