import AnalyticQuery.Proofs.Short.Readable

/-!
# Short expressions are read back

Every text of a short expression is read back as the expression, whatever blanks it has. What the
reader makes of any text has proper names and data, so that bringing a text into its compact form
neither changes what it says nor is of use a second time.
-/

namespace AnalyticQuery

open List Result

variable {cs rest : List Char} {key : String} {s : Short} {arg : Argument}

/-! ## What the reader makes -/

/-- A text that begins with a brace writes an object, if anything. -/
theorem Json.exists_of_ofText?_brace {value : Json}
    (h : Json.ofText? (String.ofList ('\x7b' :: cs)) = some value) :
    ∃ fields, value = .object fields := by
  rw [Json.ofText?, String.toList_ofList] at h
  have hbrace : Json.skipSpace ('\x7b' :: cs) = '\x7b' :: cs := rfl
  have hobject : ∀ {fuel rest}, Json.readValue? (fuel + 1) 127 ('\x7b' :: cs) = some (value, rest) →
      ∃ fields, value = .object fields := by
    intro fuel rest hread
    simp only [Json.readValue?, hbrace] at hread
    split at hread
    · cases hread
      exact ⟨[], rfl⟩
    · obtain ⟨fields, -, hfields⟩ := Option.map_eq_some_iff.mp hread
      cases hfields
      exact ⟨_, rfl⟩
  split at h
  · rename_i read rest hread
    split at h
    · cases h
      exact hobject hread
    · cases h
  · cases h

namespace Short

variable {name : String}

/-- The characters up to a closing brace begin with those already passed. -/
theorem exists_of_spanBraces {depth : Nat} {quoted : Bool} {done text : List Char}
    (h : spanBraces depth quoted done cs = some (text, rest)) :
    ∃ tail, text = done.reverse ++ tail := by
  -- Each step that goes on moves one character, or a backslash and one, to those passed.
  have hstep : ∀ {c : Char} {done : List Char}, (∃ tail, text = (c :: done).reverse ++ tail) →
      ∃ tail, text = done.reverse ++ tail := by
    rintro c done ⟨tail, rfl⟩
    exact ⟨c :: tail, by simp⟩
  fun_induction spanBraces depth quoted done cs with
  | case1 => cases h
  | case2 => cases h
  | case3 depth done c cs ih => exact hstep (hstep (ih h))
  | case4 depth done c cs _ _ ih => exact hstep (ih h)
  | case5 done c cs _ =>
    cases h
    exact ⟨[c], by simp⟩
  | case6 done c cs _ =>
    cases h
    exact ⟨[c], by simp⟩
  | case7 done c cs _ depth ih => exact hstep (ih h)
  | case8 depth done c cs _ _ ih => exact hstep (ih h)
  | case9 depth done c cs _ _ ih => exact hstep (ih h)

/-- A raw data value that is read is an object. -/
theorem proper_of_readJson (h : readJson ('\x7b' :: cs) = .ok (arg, rest)) :
    arg.All Argument.Proper := by
  rw [readJson] at h
  split at h
  · cases h
  · rename_i text after hspan
    have hopen : spanBraces 0 false [] ('\x7b' :: cs) = spanBraces 1 false ['\x7b'] cs := rfl
    obtain ⟨tail, rfl⟩ := exists_of_spanBraces (hopen ▸ hspan)
    split at h
    · rename_i value hvalue
      cases h
      exact Json.exists_of_ofText?_brace hvalue
    · cases h

/-- A text in quotes is a text. -/
theorem proper_of_readQuoted {quote : Char} (h : readQuoted quote cs = .ok (arg, rest)) :
    arg.All Argument.Proper := by
  rw [readQuoted] at h
  split at h
  · cases h
    trivial
  · cases h

/-- A value without quotes has no names in it and is no data. -/
theorem proper_of_readBare (h : readBare cs = .ok (arg, rest)) : arg.All Argument.Proper := by
  have hbare : ∀ token, (bareValue token).All Argument.Proper := by
    intro token
    unfold bareValue
    split
    · trivial
    · trivial
    · trivial
    · cases Number.ofText? token <;> trivial
  simp only [readBare] at h
  split at h
  · cases h
  · split at h
    · cases h
    · cases h
      exact hbare _

/-- A name that is read is a name. -/
theorem isIdentifier_of_readName? (h : readName? cs = some (name, rest)) :
    isIdentifier name.toList = true := by
  cases cs with
  | nil => cases h
  | cons c cs =>
    rw [readName?] at h
    split at h
    · rename_i hstart
      cases h
      rw [String.toList_ofList, isIdentifier, hstart, Bool.true_and, all_eq_true]
      exact fun d hd => mem_takeWhile_imp hd
    · cases h

private theorem isIdentifier_of_readKey? (h : readKey? cs = some (key, rest)) :
    isIdentifier key.toList = true := by
  rw [readKey?] at h
  split at h
  · cases h
  · rename_i name after hname
    split at h
    · cases h
    · cases h
      exact isIdentifier_of_readName? hname
    · cases h

private theorem toLower_toLower (c : Char) : c.toLower.toLower = c.toLower := by
  grind [Char.toLower]

/-- A letter stays a letter, and a digit a digit. -/
private theorem isName_toLower {c : Char} : (isNameStart c = true → isNameStart c.toLower = true) ∧
    (isNameChar c = true → isNameChar c.toLower = true) := by
  have halpha : c.toLower.isAlpha = c.isAlpha := by
    grind [Char.toLower, Char.isAlpha, Char.isUpper, Char.isLower]
  have hdigit : c.toLower.isDigit = c.isDigit := by
    grind [Char.toLower, Char.isDigit]
  have hunderscore : c = '_' → c.toLower = '_' := by
    rintro rfl
    decide
  simp only [isNameStart, isNameChar, Char.isAlphanum, halpha, hdigit, Bool.or_eq_true, beq_iff_eq]
  exact ⟨Or.imp_right hunderscore, Or.imp_right hunderscore⟩

/-- A name in small letters is a name. -/
theorem isIdentifier_toLower (h : isIdentifier name.toList = true) :
    isIdentifier name.toLower.toList = true ∧ name.toLower.toLower = name.toLower := by
  constructor
  · rw [String.toLower, String.toList_map]
    cases hchars : name.toList with
    | nil =>
      rw [hchars] at h
      cases h
    | cons c cs =>
      rw [hchars, isIdentifier, Bool.and_eq_true, all_eq_true] at h
      rw [map_cons, isIdentifier, isName_toLower.1 h.1, Bool.true_and, all_map, all_eq_true]
      exact fun d hd => isName_toLower.2 (h.2 d hd)
  · rw [← String.toList_inj]
    simp only [String.toLower, String.toList_map, map_map]
    exact map_congr_left fun c _ => toLower_toLower c

/-- A short expression without arguments is proper. -/
theorem proper_ofName (h : isIdentifier name.toList = true) :
    (ofName name).All Argument.Proper := by
  obtain ⟨hname, hlower⟩ := isIdentifier_toLower h
  refine ⟨⟨⟨hname, hlower⟩, ?_, ?_⟩, trivial, trivial⟩
  · exact forall_mem_nil _
  · exact nodup_nil

/-- An argument by position keeps a short expression proper. -/
theorem proper_push (hs : s.All Argument.Proper) (harg : arg.All Argument.Proper) :
    (s.push arg).All Argument.Proper := by
  obtain ⟨name, positional, named⟩ := s
  obtain ⟨hnames, hitems, hnamed⟩ := hs
  refine ⟨hnames, itemsAll_iff.mpr ?_, hnamed⟩
  intro item hitem
  rcases mem_append.mp hitem with hitem | hitem
  · exact itemsAll_iff.mp hitems item hitem
  · rw [mem_singleton.mp hitem]
    exact harg

/-- An argument by name keeps a short expression proper. -/
theorem proper_set (hs : s.All Argument.Proper) (hkey : isIdentifier key.toList = true)
    (harg : arg.All Argument.Proper) :
    (s.set key arg).All Argument.Proper := by
  obtain ⟨name, positional, named⟩ := s
  obtain ⟨⟨hname, hkeys, hnodup⟩, hitems, hnamed⟩ := hs
  refine ⟨⟨hname, ?_, nodup_setArg hnodup key arg⟩, hitems, namedAll_iff.mpr ?_⟩
  · intro entry hentry
    obtain hentry | rfl := mem_setArg hentry
    · exact hkeys entry hentry
    · exact hkey
  · intro entry hentry
    obtain hentry | rfl := mem_setArg hentry
    · exact namedAll_iff.mp hnamed entry hentry
    · exact harg

/-- What the readers make with an amount of fuel is proper. -/
structure MakesProper (fuel : Nat) : Prop where
  short {cs rest : List Char} {s : Short} :
    readShort fuel cs = .ok (s, rest) → s.All Argument.Proper
  arguments {cs rest : List Char} {s t : Short} :
    s.All Argument.Proper → readArguments fuel s cs = .ok (t, rest) → t.All Argument.Proper
  value {cs rest : List Char} {arg : Argument} :
    readValue fuel cs = .ok (arg, rest) → arg.All Argument.Proper
  items {cs rest : List Char} {items : List Argument} :
    readItems fuel cs = .ok (items, rest) → itemsAll Argument.Proper items

namespace MakesProper

variable {fuel : Nat}

theorem short_succ (ih : MakesProper fuel) (h : readShort (fuel + 1) cs = .ok (s, rest)) :
    s.All Argument.Proper := by
  rw [readShort] at h
  obtain ⟨after, -, h⟩ := of_bind h
  split at h
  · cases h
  · rename_i name tail hname
    have hproper := proper_ofName (isIdentifier_of_readName? hname)
    obtain ⟨body, -, h⟩ := of_bind h
    split at h
    · cases h
      exact hproper
    · exact ih.arguments hproper h

theorem arguments_succ (ih : MakesProper fuel) {t : Short} (hs : s.All Argument.Proper)
    (h : readArguments (fuel + 1) s cs = .ok (t, rest)) :
    t.All Argument.Proper := by
  rw [readArguments] at h
  dsimp only at h
  split at h
  · rename_i key after hkey
    split at h
    · cases h
    · rename_i hnew
      obtain ⟨⟨arg, tail⟩, hvalue, hrest⟩ := of_bind h
      have hnext := proper_set hs (isIdentifier_of_readKey? hkey) (ih.value hvalue)
      dsimp only [pure_eq_ok, ok_bind] at hrest
      split at hrest
      · exact ih.arguments hnext hrest
      · cases hrest
        exact hnext
      · cases hrest
      · cases hrest
  · split at h
    · cases h
    · obtain ⟨⟨arg, tail⟩, hvalue, hrest⟩ := of_bind h
      have hnext := proper_push hs (ih.value hvalue)
      dsimp only [pure_eq_ok, ok_bind] at hrest
      split at hrest
      · exact ih.arguments hnext hrest
      · cases hrest
        exact hnext
      · cases hrest
      · cases hrest

theorem value_succ (ih : MakesProper fuel) (h : readValue (fuel + 1) cs = .ok (arg, rest)) :
    arg.All Argument.Proper := by
  rw [readValue] at h
  split at h
  · split at h
    · obtain ⟨⟨s, tail⟩, hs, h⟩ := of_bind h
      cases h
      exact ih.short hs
    · exact proper_of_readBare h
  · split at h
    · cases h
      exact ⟨trivial, trivial⟩
    · obtain ⟨⟨items, tail⟩, hitems, h⟩ := of_bind h
      cases h
      exact ⟨trivial, ih.items hitems⟩
  · exact proper_of_readJson h
  · exact proper_of_readQuoted h
  · exact proper_of_readQuoted h
  · exact proper_of_readBare h

theorem items_succ (ih : MakesProper fuel) {items : List Argument}
    (h : readItems (fuel + 1) cs = .ok (items, rest)) : itemsAll Argument.Proper items := by
  rw [readItems] at h
  obtain ⟨⟨item, tail⟩, hitem, h⟩ := of_bind h
  dsimp only at h
  split at h
  · obtain ⟨⟨others, after⟩, hothers, h⟩ := of_bind h
    cases h
    exact ⟨ih.value hitem, ih.items hothers⟩
  · cases h
    exact ⟨ih.value hitem, trivial⟩
  · cases h
  · cases h

end MakesProper

/-- What the readers make is proper. -/
theorem makesProper (fuel : Nat) : MakesProper fuel := by
  induction fuel with
  | zero =>
    refine ⟨fun h => ?_, fun _ h => ?_, fun h => ?_, fun h => ?_⟩
    · rw [readShort] at h
      cases h
    · rw [readArguments] at h
      cases h
    · rw [readValue] at h
      cases h
    · rw [readItems] at h
      cases h
  | succ fuel ih => exact ⟨ih.short_succ, ih.arguments_succ, ih.value_succ, ih.items_succ⟩

/-- What is read from a text is proper. -/
theorem proper_of_ofText {text : String} (h : ofText text = .ok s) :
    s.All Argument.Proper := by
  simp only [ofText] at h
  split at h
  · rename_i read hread
    cases h
    obtain ⟨⟨s, rest⟩, hshort, hrest⟩ := of_bind hread
    dsimp only at hrest
    split at hrest
    · cases hrest
      exact (makesProper _).short hshort
    · cases hrest
  · cases h

/-! ## The round trip -/

/-- A short expression that can be written is read back from each of its texts. -/
theorem ofText_of_laidOut {text : String} (hproper : s.All Argument.Proper)
    (hlegible : s.All Argument.Legible) (h : s.LaidOut text) : ofText text = .ok s := by
  obtain ⟨name, positional, named⟩ := s
  obtain ⟨hnames, hitems, hnamed⟩ := hproper
  obtain ⟨-, hitems', hnamed'⟩ := hlegible
  obtain ⟨before, _, hbefore, htext, hinner⟩ := h.of_gap
  obtain ⟨cs, _, rfl, hcs, hgap⟩ := hinner.split
  obtain ⟨after, _, hafter, rfl, hend⟩ := hgap.of_gap
  cases hend.of_nil
  rw [append_nil] at htext
  have hlength : 2 * cs.length ≤ fuelFor text.toList + 1 := by
    rw [htext, fuelFor]
    simp only [length_append]
    omega
  have hread := readShort_layout after hnames (readable_items hitems hitems')
    (readable_named hnamed hnamed') hcs hlength
  have hfront : skip text.toList = cs ++ after := by
    obtain ⟨tail, rfl, -⟩ := hcs.of_solid
    rw [htext, skip_append hbefore, append_assoc, cons_append, skip_cons (by decide)]
  have hback : skip after = [] := by
    rw [← append_nil after, skip_append hafter]
    rfl
  simp only [ofText, hfront, hread, ok_bind, hback, pure_eq_ok]

/-- A short expression whose numbers and data are read back from their own text is read back from
each of its texts, provided that its names are proper and its data are objects. These conditions
hold of every expression that is read: its compact text is read as the same expression, and is its
own compact form. -/
theorem ofText_roundTrip {s : Short} (hlegible : s.All Argument.Legible) :
    (s.All Argument.Proper → ∀ text, s.LaidOut text → ofText text = .ok s) ∧
    (∀ text, ofText text = .ok s →
      sanitize text = .ok s.text ∧ ofText s.text = ofText text ∧ sanitize s.text = .ok s.text) := by
  refine ⟨fun hproper text htext => ofText_of_laidOut hproper hlegible htext, fun text htext => ?_⟩
  have hcompact : ofText s.text = .ok s :=
    ofText_of_laidOut (proper_of_ofText htext) hlegible s.laidOut_text
  refine ⟨?_, hcompact.trans htext.symm, ?_⟩
  · rw [sanitize, htext]
    rfl
  · rw [sanitize, hcompact]
    rfl

/-- An expression with an array, a brace in the text of its data, an expression inside and a
quote. -/
def sample : Short :=
  mk "f" [.array [.number (.integer 1 (by decide)), .json (.object [("a", .string "\x7d")])],
    .short (mk "g" [] [])] [("k", .string "it's")]

/-- The expression is read back from a text with blanks in every gap, and its compact form stays as
it is. -/
theorem ofText_roundTrip_sample :
    (sample.All Argument.Legible ∧ sample.All Argument.Proper) ∧
      ofText " @f ( [ 1 , \x7b\"a\":\"\x7d\"\x7d ] , @g (  ) , k = 'it\\'s' ) " = .ok sample ∧
      sanitize "@f([1,\x7b\"a\":\"\x7d\"\x7d],@g(),k='it\\'s')" =
        .ok "@f([1,\x7b\"a\":\"\x7d\"\x7d],@g(),k='it\\'s')" := by
  have hnumber : Number.ofText? (Number.integer 1 (by decide)).text =
      some (.integer 1 (by decide)) := by cbv
  have hdata : Json.ofText? (Json.object [("a", .string "\x7d")]).text =
      some (.object [("a", .string "\x7d")]) := by cbv
  have hlegible : sample.All Argument.Legible :=
    ⟨trivial, ⟨⟨trivial, hnumber, hdata, trivial⟩, ⟨trivial, trivial, trivial⟩, trivial⟩, trivial,
      trivial⟩
  have hproper : sample.All Argument.Proper :=
    ⟨⟨⟨by decide +kernel, by decide +kernel⟩, by decide +kernel, by decide +kernel⟩,
      ⟨⟨trivial, trivial, ⟨_, rfl⟩, trivial⟩,
        ⟨⟨⟨by decide +kernel, by decide +kernel⟩, by decide +kernel, by decide +kernel⟩,
          trivial, trivial⟩,
        trivial⟩, trivial, trivial⟩
  have htext : sample.LaidOut
      " @f ( [ 1 , \x7b\"a\":\"\x7d\"\x7d ] , @g (  ) , k = 'it\\'s' ) " := by
    have hchars : " @f ( [ 1 , \x7b\"a\":\"\x7d\"\x7d ] , @g (  ) , k = 'it\\'s' ) ".toList =
        (Piece.gap :: shortPieces sample ++ [Piece.gap]).flatMap (Piece.chars [' ']) := by cbv
    rw [LaidOut, hchars]
    exact Layout.uniform (List.all_eq_true.mp (by decide)) _
  have hcompact : sample.text = "@f([1,\x7b\"a\":\"\x7d\"\x7d],@g(),k='it\\'s')" := by cbv
  obtain ⟨hread, hform⟩ := ofText_roundTrip hlegible
  have hblanks := hread hproper _ htext
  exact ⟨⟨hlegible, hproper⟩, hblanks, hcompact ▸ (hform _ hblanks).2.2⟩

end Short

end AnalyticQuery
