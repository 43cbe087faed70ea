import AnalyticQuery.Proofs.Short.RoundTrip

/-!
# Reading in front of any text

What a reader takes from the front of a text does not depend on what follows. A name and a value
without quotes end before a character that cannot belong to them, so for these the next character
has to be the same; all other values have an end of their own. The fuel that a reading needs is
bounded by the characters that it takes, and what it leaves is a suffix of the text.
-/

namespace AnalyticQuery.Short

open List Result

variable {source : List Char} {c : Char} {items : List Argument} {s t : Short} {arg : Argument}
variable {fuel : Nat}

variable {p : Char → Bool} {front u blanks done text : List Char} {name key : String} {depth : Nat}
variable {inside : Bool} {quote : Char}

variable {cs rest : List Char}

/-! ## Names -/

theorem expect_suffix (h : expect c cs = .ok rest) : cs = c :: rest := by
  cases cs with
  | nil => cases h
  | cons d ds =>
    rw [expect] at h
    split at h
    · next hc =>
      cases h
      rw [eq_of_beq hc]
    · cases h

private theorem exists_blanks (cs : List Char) :
    ∃ blanks, (∀ c ∈ blanks, Text.isBlank c = true) ∧ cs = blanks ++ skip cs :=
  ⟨cs.takeWhile Text.isBlank, fun _ hc => mem_takeWhile_imp hc, takeWhile_append_dropWhile.symm⟩

/-- The characters after those that pass a test begin with one that does not. -/
theorem head?_dropWhile : ∀ d ∈ (cs.dropWhile p).head?, p d = false := by
  intro d hd
  have hhead := head?_dropWhile_not p cs
  rw [Option.mem_def.mp hd] at hhead
  simpa using hhead

private theorem isBlank_of_skip (h : skip cs = c :: rest) : Text.isBlank c = false := by
  have hhead : c ∈ (cs.dropWhile Text.isBlank).head? := by
    rw [show cs.dropWhile Text.isBlank = c :: rest from h]
    rfl
  exact head?_dropWhile c hhead

/-- Characters that pass a test are told from those after them by the first that does not. -/
theorem span_append (hfront : ∀ c ∈ front, p c = true) (hu : ∀ d ∈ u.head?, p d = false) :
    (front ++ u).takeWhile p = front ∧ (front ++ u).dropWhile p = u := by
  rw [takeWhile_append_of_pos hfront, dropWhile_append_of_pos hfront]
  cases u with
  | nil => simp
  | cons d u => simp [hu d rfl]

private theorem isNameChar_of_isIdentifier {name : List Char} (h : isIdentifier name = true) :
    ∀ c ∈ name, isNameChar c = true := by
  cases name with
  | nil => exact nofun
  | cons c name =>
    simp only [isIdentifier, Bool.and_eq_true, all_eq_true] at h
    exact forall_mem_cons.mpr ⟨isNameChar_of_isNameStart h.1, h.2⟩

private theorem head?_append_congr {v : List Char} (front : List Char) (h : u.head? = v.head?) :
    (front ++ u).head? = (front ++ v).head? := by
  rw [head?_append, head?_append, h]

/-- A name is read before every text that begins with the same character. -/
theorem readName?_local (h : readName? cs = some (name, rest)) :
    cs = name.toList ++ rest ∧ ∀ u, u.head? = rest.head? →
      readName? (name.toList ++ u) = some (name, u) := by
  cases cs with
  | nil => cases h
  | cons c cs =>
    rw [readName?] at h
    split at h
    · next hstart =>
      cases h
      rw [String.toList_ofList]
      refine ⟨by rw [cons_append, takeWhile_append_dropWhile], fun u hu => ?_⟩
      have hnames : ∀ d ∈ cs.takeWhile isNameChar, isNameChar d = true :=
        fun _ hd => mem_takeWhile_imp hd
      obtain ⟨htake, hdrop⟩ := span_append hnames (hu ▸ head?_dropWhile)
      rw [cons_append, readName?, if_pos hstart, htake, hdrop]
    · cases h

/-- Blanks, and whatever follows them, are told from each other. -/
theorem skip_blanks (hblanks : ∀ c ∈ blanks, Text.isBlank c = true)
    (hu : u.head? = (skip cs).head?) : skip (blanks ++ u) = u := by
  rw [skip_append hblanks]
  cases u with
  | nil => rfl
  | cons d u => exact skip_cons (head?_dropWhile d hu.symm)

/-- The name of an argument is read, with its equals sign, before every text that begins with the
same character. Nothing in it ends a value. -/
theorem readKey?_local (h : readKey? cs = some (key, rest)) :
    ∃ source, cs = source ++ rest ∧ (∀ c ∈ source, endsBare c = false) ∧
      ∀ u, u.head? = rest.head? → readKey? (source ++ u) = some (key, u) := by
  unfold readKey? at h
  split at h
  · cases h
  next name after hname =>
  obtain ⟨rfl, hread⟩ := readName?_local hname
  have hfront := isNameChar_of_isIdentifier (isIdentifier_of_readName? hname)
  obtain ⟨blanks, hblanks, hafter⟩ := exists_blanks after
  split at h
  · cases h
  · next tail hsingle heq =>
    cases h
    obtain ⟨blanks', hblanks', htail⟩ := exists_blanks tail
    rw [heq] at hafter
    refine ⟨key.toList ++ (blanks ++ '=' :: blanks'), ?_, fun c hc => ?_, fun u hu => ?_⟩
    · rw [hafter]
      nth_rewrite 1 [htail]
      simp
    · simp only [mem_append, mem_cons] at hc
      obtain hc | hc | rfl | hc := hc
      · refine Bool.eq_false_iff.mpr fun hends => ?_
        have hname := hfront c hc
        rw [(of_endsBare hends).2.2.1] at hname
        cases hname
      · exact (of_isBlank (hblanks c hc)).1
      · decide
      · exact (of_isBlank (hblanks' c hc)).1
    · have hname : readName? (key.toList ++ (blanks ++ '=' :: (blanks' ++ u))) =
          some (key, blanks ++ '=' :: (blanks' ++ u)) := by
        refine hread _ ?_
        rw [hafter]
        cases blanks <;> rfl
      have hnext : ∀ v, blanks' ++ u = '=' :: v → False := by
        intro v hv
        cases blanks' with
        | nil =>
          rw [nil_append] at hv htail
          rw [hv, head?_cons, ← htail] at hu
          obtain ⟨w, hw⟩ := head?_eq_some_iff.mp hu.symm
          exact hsingle w hw
        | cons b blanks' =>
          have hb := hblanks' b mem_cons_self
          rw [(List.cons.inj hv).1] at hb
          exact absurd hb (by decide)
      have htext : key.toList ++ (blanks ++ '=' :: blanks') ++ u =
          key.toList ++ (blanks ++ '=' :: (blanks' ++ u)) := by simp
      rw [htext, readKey?, hname]
      dsimp only
      rw [skip_append hblanks, skip_cons (by decide)]
      split
      · next hv => exact (hnext _ (List.cons.inj hv).2).elim
      · next hv =>
        rw [← (List.cons.inj hv).2, skip_blanks hblanks' hu]
      · next hv => exact (hv _ rfl).elim
  · cases h

/-- Where no name of an argument stands, none stands if the text goes on otherwise after the end of
a value. -/
theorem readKey?_eq_none_of (h : readKey? (source ++ rest) = none)
    (hrest : ∀ d ∈ rest.head?, endsBare d = true) (hu : u.head? = rest.head?) :
    readKey? (source ++ u) = none := by
  cases hkey : readKey? (source ++ u) with
  | none => rfl
  | some found =>
    obtain ⟨key, after⟩ := found
    obtain ⟨front, hfront, hends, hread⟩ := readKey?_local hkey
    -- the name ends before the end of the value, so it stands in the other text, too
    have hmiddle : ∃ middle, source = front ++ middle ∧ after = middle ++ u := by
      obtain ⟨middle, rfl, rfl⟩ | ⟨middle, hmiddle, hafter⟩ := append_eq_append_iff.mp hfront
      · cases middle with
        | nil => exact ⟨[], by simp, rfl⟩
        | cons d middle =>
          have hd : endsBare d = true := hrest d hu.symm
          rw [hends d (by simp)] at hd
          cases hd
      · exact ⟨middle, hmiddle, hafter⟩
    obtain ⟨middle, rfl, rfl⟩ := hmiddle
    rw [append_assoc, hread _ (head?_append_congr middle hu.symm)] at h
    cases h

/-! ## Values without parts -/

/-- A character that is no backslash at the end and none that escapes another one is no
backslash. -/
theorem ne_backslash (hlast : c = '\\' → cs = [] → False)
    (hescape : ∀ d ds, c = '\\' → cs = d :: ds → False) : c ≠ '\\' := by
  intro hc
  cases cs with
  | nil => exact hlast hc rfl
  | cons d ds => exact hescape d ds hc rfl

private theorem spanBraces_inside (hc : c ≠ '\\') (depth : Nat) (done cs : List Char) :
    spanBraces depth true done (c :: cs) = spanBraces depth (c != '"') (c :: done) cs := by
  cases cs <;> simp [spanBraces, hc]

private theorem spanBraces_outside (hc : c ≠ '\x7d') (depth : Nat) (done cs : List Char) :
    spanBraces depth false done (c :: cs) =
      if c = '\x7b' then spanBraces (depth + 1) false (c :: done) cs
      else spanBraces depth (c == '"') (c :: done) cs := by
  rw [spanBraces.eq_def]
  simp [hc]

/-- A pair of braces is found before every text. -/
theorem spanBraces_local (h : spanBraces depth inside done cs = some (text, rest)) :
    ∃ source, cs = source ++ rest ∧ ∀ u, spanBraces depth inside done (source ++ u) =
      some (text, u) := by
  fun_induction spanBraces depth inside done cs with
  | case1 => cases h
  | case2 => cases h
  | case3 depth done c cs ih =>
    obtain ⟨source, rfl, hread⟩ := ih h
    exact ⟨'\\' :: c :: source, rfl, hread⟩
  | case4 depth done c cs hlast hescape ih =>
    obtain ⟨source, rfl, hread⟩ := ih h
    refine ⟨c :: source, rfl, fun u => ?_⟩
    rw [cons_append, spanBraces_inside (ne_backslash hlast hescape), hread]
  | case5 done c cs hclose | case6 done c cs hclose =>
    cases h
    exact ⟨[c], rfl, fun u => by simp [spanBraces, hclose]⟩
  | case7 done c cs hclose depth ih =>
    obtain ⟨source, rfl, hread⟩ := ih h
    exact ⟨c :: source, rfl, fun u => by simp [spanBraces, hclose, hread]⟩
  | case8 depth done c cs hclose hopen ih =>
    obtain ⟨source, rfl, hread⟩ := ih h
    refine ⟨c :: source, rfl, fun u => ?_⟩
    rw [cons_append, spanBraces_outside (by simpa using hclose), if_pos (by simpa using hopen),
      hread]
  | case9 depth done c cs hclose hopen ih =>
    obtain ⟨source, rfl, hread⟩ := ih h
    refine ⟨c :: source, rfl, fun u => ?_⟩
    rw [cons_append, spanBraces_outside (by simpa using hclose), if_neg (by simpa using hopen),
      hread]

private theorem spanQuoted_plain (hc : c ≠ '\\') (done cs : List Char) :
    spanQuoted quote done (c :: cs) =
      if c = quote then some (done.reverse, cs) else spanQuoted quote (c :: done) cs := by
  cases cs <;> simp [spanQuoted, hc]

/-- A closing quote is found before every text. -/
theorem spanQuoted_local (h : spanQuoted quote done cs = some (text, rest)) :
    ∃ source, cs = source ++ rest ∧ ∀ u, spanQuoted quote done (source ++ u) = some (text, u) := by
  fun_induction spanQuoted quote done cs with
  | case1 => cases h
  | case2 => cases h
  | case3 done c cs ih =>
    obtain ⟨source, rfl, hread⟩ := ih h
    exact ⟨'\\' :: c :: source, rfl, hread⟩
  | case4 done c cs hlast hescape hquote =>
    cases h
    refine ⟨[c], rfl, fun u => ?_⟩
    rw [singleton_append, spanQuoted_plain (ne_backslash hlast hescape),
      if_pos (by simpa using hquote)]
  | case5 done c cs hlast hescape hquote ih =>
    obtain ⟨source, rfl, hread⟩ := ih h
    refine ⟨c :: source, rfl, fun u => ?_⟩
    rw [cons_append, spanQuoted_plain (ne_backslash hlast hescape), if_neg (by simpa using hquote),
      hread]

/-- Whether a character goes on with a value without quotes. -/
def isBareInside (c : Char) : Bool := !endsBare c && !breaksBare c

private theorem isBareInside_of_endsBare (h : endsBare c = true) : isBareInside c = false := by
  simp [isBareInside, h]

/-- A value without quotes is what stands before a character that ends one. -/
theorem readBare_append (hfront : ∀ c ∈ front, isBareInside c = true)
    (hu : ∀ d ∈ u.head?, endsBare d = true)
    (hfull : (Text.trim (String.ofList front)).isEmpty = false) :
    readBare (front ++ u) = .ok (bareValue (Text.trim (String.ofList front)), u) := by
  have htake : (front ++ u).takeWhile (fun c => !endsBare c && !breaksBare c) = front :=
    (span_append hfront fun d hd => isBareInside_of_endsBare (hu d hd)).1
  have hbreaks : u.head?.filter breaksBare = none :=
    Option.filter_eq_none_iff.mpr fun d hd => Bool.eq_false_iff.mp (of_endsBare (hu d hd)).2.1
  simp only [readBare, htake, drop_left, hbreaks, hfull, Bool.false_eq_true, if_false]

/-- A value without quotes is read before every text that begins with the same character, which ends
it. -/
theorem readBare_local (h : readBare cs = .ok (arg, rest)) :
    ∃ source, cs = source ++ rest ∧ source ≠ [] ∧ (∀ d ∈ rest.head?, endsBare d = true) ∧
      ∀ u, u.head? = rest.head? → readBare (source ++ u) = .ok (arg, u) := by
  have hfront : ∀ c ∈ cs.takeWhile isBareInside, isBareInside c = true :=
    fun _ hc => mem_takeWhile_imp hc
  have hcs : cs = cs.takeWhile isBareInside ++ cs.dropWhile isBareInside :=
    takeWhile_append_dropWhile.symm
  have hdrop : cs.drop (cs.takeWhile isBareInside).length = cs.dropWhile isBareInside :=
    (congrArg (List.drop _) hcs).trans drop_left
  have htoken : cs.takeWhile (fun c => !endsBare c && !breaksBare c) =
      cs.takeWhile isBareInside := rfl
  rw [readBare, htoken, hdrop] at h
  dsimp only at h
  split at h
  · cases h
  next hbreaks =>
  split at h
  · cases h
  next hfull =>
  cases h
  have hends : ∀ d ∈ (cs.dropWhile isBareInside).head?, endsBare d = true := by
    intro d hd
    have hinside : isBareInside d = false := head?_dropWhile d hd
    have hbreak : breaksBare d = false := by simpa using Option.filter_eq_none_iff.mp hbreaks d hd
    simpa [isBareInside, hbreak] using hinside
  refine ⟨cs.takeWhile isBareInside, hcs, ?_, hends, fun u hu => ?_⟩
  · intro hnil
    rw [hnil] at hfull
    exact hfull (by decide)
  · exact readBare_append hfront (hu ▸ hends) (by simpa using hfull)

/-- A data value is read before every text. -/
theorem readJson_local (h : readJson cs = .ok (arg, rest)) :
    ∃ source, cs = source ++ rest ∧ ∀ u, readJson (source ++ u) = .ok (arg, u) := by
  unfold readJson at h
  split at h
  · cases h
  next text after hspan =>
  obtain ⟨source, rfl, hread⟩ := spanBraces_local hspan
  split at h
  · next value hvalue =>
    cases h
    exact ⟨source, rfl, fun u => by simp only [readJson, hread, hvalue]⟩
  · cases h

/-- A text in quotes is read before every text. -/
theorem readQuoted_local (h : readQuoted quote cs = .ok (arg, rest)) :
    ∃ source, cs = source ++ rest ∧ ∀ u, readQuoted quote (source ++ u) = .ok (arg, u) := by
  unfold readQuoted at h
  split at h
  · next text after hspan =>
    cases h
    obtain ⟨source, rfl, hread⟩ := spanQuoted_local hspan
    exact ⟨source, rfl, fun u => by simp only [readQuoted, hread]⟩
  · cases h

/-- Whether a value without quotes begins in front of the characters. -/
def opensBare : List Char → Bool
  | [] => true
  | c :: cs =>
    c != '[' && c != '\x7b' && c != '\'' && c != '"' && !(c == '@' && cs.head?.any isNameStart)

private theorem opensBare_append (hne : source ≠ []) (hu : u.head? = rest.head?) :
    opensBare (source ++ u) = opensBare (source ++ rest) := by
  obtain ⟨c, source, rfl⟩ := exists_cons_of_ne_nil hne
  simp only [cons_append, opensBare, head?_append, hu]

private theorem readValue_of_opensBare (h : opensBare (skip cs) = true) (fuel : Nat) :
    readValue (fuel + 1) cs = readBare (skip cs) := by
  rw [readValue]
  split <;> simp_all [opensBare]

/-! ## Values with parts -/

/-- Whether a reader takes characters for a result in front of every text, with enough fuel for
them. -/
def Takes {α : Type} (read : Nat → List Char → Except Stop (α × List Char)) (source : List Char)
    (a : α) : Prop :=
  ∀ fuel u, 2 * source.length + 2 ≤ fuel → read fuel (source ++ u) = .ok (a, u)

/-- Whether characters are read as a value in front of every text that begins like another one, with
enough fuel for them. -/
def TakesValue (source rest : List Char) (arg : Argument) : Prop :=
  ∀ fuel u, u.head? = rest.head? → 2 * source.length + 3 ≤ fuel →
    readValue fuel (source ++ u) = .ok (arg, u)

/-- What is read in front of a text is read in front of others. A value may end with the next
character, so that one has to be the same. -/
structure Local (fuel : Nat) : Prop where
  short {cs rest : List Char} {s : Short} : readShort fuel cs = .ok (s, rest) →
    ∃ source, cs = source ++ rest ∧ Takes readShort source s
  arguments {cs rest : List Char} {s t : Short} : readArguments fuel s cs = .ok (t, rest) →
    ∃ source, cs = source ++ rest ∧ source ≠ [] ∧ Takes (readArguments · s) source t
  value {cs rest : List Char} {arg : Argument} : readValue fuel cs = .ok (arg, rest) →
    ∃ source, cs = source ++ rest ∧ source ≠ [] ∧ TakesValue source rest arg ∧
      (readKey? cs = none → ∀ u, u.head? = rest.head? → readKey? (source ++ u) = none)
  items {cs rest : List Char} {items : List Argument} : readItems fuel cs = .ok (items, rest) →
    ∃ source, cs = source ++ rest ∧ source ≠ [] ∧ Takes readItems source items

/-- A short expression begins with an at sign and another character. -/
theorem Takes.exists_cons (h : Takes readShort source s) :
    ∃ c tail, source = '@' :: c :: tail := by
  have hread := h (2 * source.length + 2) [] le_rfl
  rw [append_nil, readShort] at hread
  obtain ⟨tail, hat, hread⟩ := of_bind hread
  obtain rfl := expect_suffix hat
  cases tail with
  | nil => cases hread
  | cons c tail => exact ⟨c, tail, rfl⟩

/-- A list of items does not consist of blanks. -/
theorem Takes.exists_skip (h : Takes readItems source items) :
    ∃ c tail, skip source = c :: tail := by
  cases hskip : skip source with
  | nil =>
    have hread := h (2 * source.length + 2) [] le_rfl
    rw [append_nil, readItems, readValue, hskip] at hread
    cases hread
  | cons c tail => exact ⟨c, tail, rfl⟩

namespace Local

theorem short_succ (ih : Local fuel) (h : readShort (fuel + 1) cs = .ok (s, rest)) :
    ∃ source, cs = source ++ rest ∧ Takes readShort source s := by
  rw [readShort] at h
  obtain ⟨tail, hat, h⟩ := of_bind h
  rw [expect_suffix hat]
  split at h
  · cases h
  next name after hname =>
  have hidentifier := isIdentifier_of_readName? hname
  obtain ⟨rfl, -⟩ := readName?_local hname
  obtain ⟨body, hopen, h⟩ := of_bind h
  obtain ⟨blanks, hblanks, hafter⟩ := exists_blanks after
  obtain ⟨blanks', hblanks', hbody⟩ := exists_blanks body
  rw [expect_suffix hopen] at hafter
  have hskip : ∀ {c w}, Text.isBlank c = false → skip (blanks' ++ c :: w) = c :: w := by
    intro c w hc
    rw [skip_append hblanks', skip_cons hc]
  split at h
  · next tail hclose =>
    cases h
    rw [hclose] at hbody
    refine ⟨'@' :: (name.toList ++ (blanks ++ '(' :: (blanks' ++ [')']))), ?_,
      fun fuel' u hfuel => ?_⟩
    · rw [hafter, hbody]
      simp
    · obtain ⟨g, rfl⟩ : ∃ g, fuel' = g + 1 := ⟨fuel' - 1, by omega⟩
      have hread : readShort (g + 1)
        ('@' :: (name.toList ++ (blanks ++ '(' :: (blanks' ++ ')' :: u)))) =
          .ok (ofName (String.ofList name.toList), u) :=
            readShort_nil hidentifier hblanks (hskip (by decide))
      simpa using hread
  · next hother =>
    obtain ⟨source, hsource, hne, htakes⟩ := ih.arguments h
    obtain ⟨c, source, rfl⟩ := exists_cons_of_ne_nil hne
    have hc : c ≠ ')' := by
      rintro rfl
      exact hother _ hsource
    refine ⟨'@' :: (name.toList ++ (blanks ++ '(' :: (blanks' ++ c :: source))), ?_,
      fun fuel' u hfuel => ?_⟩
    · rw [hafter, hbody, hsource]
      simp
    · obtain ⟨g, rfl⟩ : ∃ g, fuel' = g + 1 := ⟨fuel' - 1, by omega⟩
      have hbegin : readShort (g + 1)
        ('@' :: (name.toList ++ (blanks ++ '(' :: (blanks' ++ c :: (source ++ u))))) =
          readArguments g (ofName (String.ofList name.toList))
            (skip (blanks' ++ c :: (source ++ u))) :=
        readShort_cons hidentifier hblanks (hskip (isBlank_of_skip hsource)) hc
      have harguments : readArguments g (ofName name) (c :: source ++ u) = .ok (s, u) := by
        refine htakes g u ?_
        simp only [length_cons, length_append] at hfuel ⊢
        omega
      rw [hskip (isBlank_of_skip hsource), String.ofList_toList] at hbegin
      replace hbegin := hbegin.trans harguments
      simpa using hbegin

/-- What follows an argument: the end of the list, or more arguments. -/
theorem next (ih : Local fuel)
    (h : (match skip cs with
      | ',' :: cs => readArguments fuel s cs
      | ')' :: cs => pure (s, cs)
      | [] => stop "unterminated argument list" []
      | c :: cs => stop s!"expected ',' or ')', got '{c}'" (c :: cs)) = Except.ok (t, rest)) :
    ∃ blanks d source, (∀ c ∈ blanks, Text.isBlank c = true) ∧ Text.isBlank d = false ∧
      cs = blanks ++ d :: (source ++ rest) ∧
      (d = ',' ∧ Takes (readArguments · s) source t ∨ d = ')' ∧ source = [] ∧ s = t) := by
  obtain ⟨blanks, hblanks, hcs⟩ := exists_blanks cs
  split at h
  · next tail hcomma =>
    obtain ⟨source, rfl, -, htakes⟩ := ih.arguments h
    exact ⟨blanks, ',', source, hblanks, by decide, hcomma ▸ hcs, .inl ⟨rfl, htakes⟩⟩
  · next tail hclose =>
    cases h
    exact ⟨blanks, ')', [], hblanks, by decide, hclose ▸ hcs, .inr ⟨rfl, rfl, rfl⟩⟩
  · cases h
  · cases h

/-- The rest of a list of arguments is read after an argument that is read in front of it. -/
theorem finish {d : Char} {g : Nat} {result : Except Stop (Short × List Char)}
    (hnext : d = ',' ∧ Takes (readArguments · s) source t ∨ d = ')' ∧ source = [] ∧ s = t)
    (hfuel : 2 * source.length + 2 ≤ g)
    (hread : (d = ',' → result = readArguments g s (source ++ u)) ∧
      (d = ')' → result = .ok (s, source ++ u))) :
    result = .ok (t, u) := by
  obtain ⟨hd, htakes⟩ | ⟨hd, rfl, rfl⟩ := hnext
  · exact (hread.1 hd).trans (htakes g u hfuel)
  · exact hread.2 hd

theorem arguments_succ (ih : Local fuel) (h : readArguments (fuel + 1) s cs = .ok (t, rest)) :
    ∃ source, cs = source ++ rest ∧ source ≠ [] ∧ Takes (readArguments · s) source t := by
  obtain ⟨blanks, hblanks, hcs⟩ := exists_blanks cs
  rw [readArguments] at h
  dsimp only at h
  split at h
  · next key after hkey =>
    split at h
    · cases h
    next hnew =>
    obtain ⟨⟨arg, tail⟩, hvalue, hrest⟩ := of_bind h
    obtain ⟨front, hfront, -, hreadKey⟩ := readKey?_local hkey
    obtain ⟨source, hsource, hne, htakes, -⟩ := ih.value hvalue
    dsimp only [pure_eq_ok, ok_bind] at hrest
    obtain ⟨blanks', d, more, hblanks', hd, htail, hnext⟩ := ih.next hrest
    refine ⟨blanks ++ (front ++ (source ++ (blanks' ++ d :: more))), ?_,
      by simp, fun fuel' u hfuel => ?_⟩
    · rw [hcs, hfront, hsource, htail]
      simp
    · simp only [length_append, length_cons] at hfuel
      obtain ⟨g, rfl⟩ : ∃ g, fuel' = g + 1 := ⟨fuel' - 1, by omega⟩
      have hhead : (blanks' ++ d :: (more ++ u)).head? = tail.head? := by simp [htail]
      have hhead' := head?_append_congr source hhead
      have hhead'' := head?_append_congr front hhead'
      rw [← hsource] at hhead' hhead''
      rw [← hfront] at hhead''
      have hskip := skip_blanks hblanks hhead''
      have hset := readArguments_set ((congrArg readKey? hskip).trans (hreadKey _ hhead'))
        (by simpa using hnew)
        (htakes g _ hhead (by omega)) (skip_append hblanks' ▸ skip_cons hd)
      simpa using finish hnext (by omega) hset
  · next hkey =>
    split at h
    · cases h
    next hnamed =>
    obtain ⟨⟨arg, tail⟩, hvalue, hrest⟩ := of_bind h
    obtain ⟨source, hsource, hne, htakes, hnone⟩ := ih.value hvalue
    dsimp only [pure_eq_ok, ok_bind] at hrest
    obtain ⟨blanks', d, more, hblanks', hd, htail, hnext⟩ := ih.next hrest
    refine ⟨blanks ++ (source ++ (blanks' ++ d :: more)), ?_, by simp, fun fuel' u hfuel => ?_⟩
    · rw [hcs, hsource, htail]
      simp
    · simp only [length_append, length_cons] at hfuel
      obtain ⟨g, rfl⟩ : ∃ g, fuel' = g + 1 := ⟨fuel' - 1, by omega⟩
      have hhead : (blanks' ++ d :: (more ++ u)).head? = tail.head? := by simp [htail]
      have hhead' := head?_append_congr source hhead
      rw [← hsource] at hhead'
      have hskip := skip_blanks hblanks hhead'
      have hpush := readArguments_push ((congrArg readKey? hskip).trans (hnone hkey _ hhead))
        (by simpa using hnamed) ((congrArg _ hskip).trans (htakes g _ hhead (by omega)))
        (skip_append hblanks' ▸ skip_cons hd)
      simpa using finish hnext (by omega) hpush

/-- A value whose first character shows that it has an end of its own. -/
theorem value_of_mark (source : List Char)
    (hblanks : ∀ c ∈ blanks, Text.isBlank c = true) (hc : isNameStart c = false)
    (hcs : cs = blanks ++ c :: (source ++ rest))
    (hread : ∀ g u, 2 * source.length + 4 ≤ g →
      readValue (g + 1) (c :: (source ++ u)) = .ok (arg, u)) :
    ∃ source, cs = source ++ rest ∧ source ≠ [] ∧ TakesValue source rest arg ∧
      (readKey? cs = none → ∀ u, u.head? = rest.head? → readKey? (source ++ u) = none) := by
  refine ⟨blanks ++ c :: source, by simp [hcs], by simp, fun fuel' u _ hfuel => ?_, fun _ u _ => ?_⟩
  · simp only [length_append, length_cons] at hfuel
    obtain ⟨g, rfl⟩ : ∃ g, fuel' = g + 1 := ⟨fuel' - 1, by omega⟩
    rw [append_assoc, readValue_append hblanks]
    exact hread g u (by omega)
  · cases blanks with
    | nil => exact readKey?_of_isNameStart hc
    | cons b blanks =>
      refine readKey?_of_isNameStart (Bool.eq_false_iff.mpr fun hb => ?_)
      have hname := isNameChar_of_isNameStart hb
      rw [(of_isBlank (hblanks b mem_cons_self)).2.2.1] at hname
      cases hname

/-- A value without quotes. -/
theorem value_of_opensBare (hbare : opensBare (skip cs) = true)
    (hread : readBare (skip cs) = .ok (arg, rest)) :
    ∃ source, cs = source ++ rest ∧ source ≠ [] ∧ TakesValue source rest arg ∧
      (readKey? cs = none → ∀ u, u.head? = rest.head? → readKey? (source ++ u) = none) := by
  obtain ⟨blanks, hblanks, hcs⟩ := exists_blanks cs
  obtain ⟨source, hsource, hne, hends, hread⟩ := readBare_local hread
  refine ⟨blanks ++ source, ?_, by simp [hne], fun fuel' u hu hfuel => ?_, fun hkey u hu => ?_⟩
  · rw [hcs, hsource, append_assoc]
  · obtain ⟨g, rfl⟩ : ∃ g, fuel' = g + 1 := ⟨fuel' - 1, by omega⟩
    have hhead := head?_append_congr source hu
    rw [← hsource] at hhead
    have hskip := skip_blanks hblanks hhead
    rw [append_assoc, readValue_of_opensBare, hskip, hread u hu]
    rw [hskip, opensBare_append hne hu, ← hsource, hbare]
  · refine readKey?_eq_none_of ?_ hends hu
    rw [append_assoc, ← hsource, ← hcs, hkey]

theorem value_succ (ih : Local fuel) (h : readValue (fuel + 1) cs = .ok (arg, rest)) :
    ∃ source, cs = source ++ rest ∧ source ≠ [] ∧ TakesValue source rest arg ∧
      (readKey? cs = none → ∀ u, u.head? = rest.head? → readKey? (source ++ u) = none) := by
  obtain ⟨blanks, hblanks, hcs⟩ := exists_blanks cs
  rw [readValue] at h
  split at h
  · next c tail hskip =>
    split at h
    · next hc =>
      obtain ⟨⟨s, after⟩, hread, hafter⟩ := of_bind h
      cases hafter
      obtain ⟨source, hsource, htakes⟩ := ih.short hread
      obtain ⟨c, source, rfl⟩ := htakes.exists_cons
      cases hsource
      refine value_of_mark (c :: source) hblanks (by decide) (hskip ▸ hcs) fun g u hfuel => ?_
      have hshort := htakes g u (by simp only [length_cons] at hfuel ⊢; omega)
      simp only [cons_append] at hshort ⊢
      rw [readValue, skip_cons (by decide)]
      simp [hc, hshort]
    · next hc => exact value_of_opensBare (by simp [hskip, opensBare, hc]) (hskip ▸ h)
  · next tail hskip =>
    obtain ⟨blanks', hblanks', htail⟩ := exists_blanks tail
    split at h
    · next hclose =>
      cases h
      rw [hskip, htail, hclose] at hcs
      refine value_of_mark (c := '[') (blanks' ++ [']']) hblanks (by decide) (by simpa using hcs)
        fun g u _ => ?_
      apply readValue_array_nil
      rw [append_assoc, skip_append hblanks']
      exact skip_cons (by decide)
    · next hother =>
      obtain ⟨⟨items, after⟩, hread, hafter⟩ := of_bind h
      cases hafter
      obtain ⟨source, rfl, -, htakes⟩ := ih.items hread
      refine value_of_mark source hblanks (by decide) (hskip ▸ hcs) fun g u hfuel => ?_
      obtain ⟨c, tail, hfirst⟩ := htakes.exists_skip
      obtain ⟨blanks', hblanks', hsource⟩ := exists_blanks source
      have hfirst' : ∀ u, skip (source ++ u) = c :: (tail ++ u) := by
        intro u
        rw [hsource, hfirst, append_assoc, skip_append hblanks']
        exact skip_cons (isBlank_of_skip hfirst)
      refine readValue_array_cons (hfirst' u) ?_ (htakes g u (by omega))
      rintro rfl
      exact hother _ (hfirst' rest)
  · next tail hskip =>
    obtain ⟨source, hsource, hread⟩ := readJson_local h
    cases source with
    | nil => cases hread []
    | cons c source =>
      cases hsource
      refine value_of_mark source hblanks (by decide) (hskip ▸ hcs) fun g u _ => ?_
      rw [readValue, skip_cons (by decide)]
      exact hread u
  · next tail hskip =>
    obtain ⟨source, rfl, hread⟩ := readQuoted_local h
    refine value_of_mark source hblanks (by decide) (hskip ▸ hcs) fun g u _ => ?_
    rw [readValue, skip_cons (by decide)]
    exact hread u
  · next tail hskip =>
    obtain ⟨source, rfl, hread⟩ := readQuoted_local h
    refine value_of_mark source hblanks (by decide) (hskip ▸ hcs) fun g u _ => ?_
    rw [readValue, skip_cons (by decide)]
    exact hread u
  · next hat harray hjson hsingle hdouble =>
    refine value_of_opensBare ?_ h
    cases hskip : skip cs with
    | nil => rfl
    | cons c tail =>
      have hat' : ¬(c = '@' ∧ tail.head?.any isNameStart = true) := by
        rintro ⟨rfl, htail⟩
        cases tail with
        | nil => cases htail
        | cons d tail => exact hat d tail hskip
      simp only [opensBare, Bool.and_eq_true, bne_iff_ne, Bool.not_eq_true', Bool.and_eq_false_imp,
        beq_iff_eq]
      refine ⟨⟨⟨⟨?_, ?_⟩, ?_⟩, ?_⟩, fun hc => Bool.eq_false_iff.mpr fun htail => hat' ⟨hc, htail⟩⟩
      · exact fun hc => harray tail (hc ▸ hskip)
      · exact fun hc => hjson tail (hc ▸ hskip)
      · exact fun hc => hsingle tail (hc ▸ hskip)
      · exact fun hc => hdouble tail (hc ▸ hskip)

theorem items_succ (ih : Local fuel) (h : readItems (fuel + 1) cs = .ok (items, rest)) :
    ∃ source, cs = source ++ rest ∧ source ≠ [] ∧ Takes readItems source items := by
  rw [readItems] at h
  obtain ⟨⟨item, tail⟩, hvalue, hrest⟩ := of_bind h
  obtain ⟨source, rfl, hne, htakes, -⟩ := ih.value hvalue
  obtain ⟨blanks, hblanks, htail⟩ := exists_blanks tail
  have hskip : ∀ {d w}, Text.isBlank d = false → skip (blanks ++ d :: w) = d :: w := by
    intro d w hd
    rw [skip_append hblanks, skip_cons hd]
  dsimp only at hrest
  split at hrest
  · next more hcomma =>
    obtain ⟨⟨others, after⟩, hothers, hafter⟩ := of_bind hrest
    cases hafter
    obtain ⟨source', rfl, -, htakes'⟩ := ih.items hothers
    rw [hcomma] at htail
    refine ⟨source ++ (blanks ++ ',' :: source'), by simp [htail], by simp, fun fuel' u hfuel => ?_⟩
    simp only [length_append, length_cons] at hfuel
    obtain ⟨g, rfl⟩ : ∃ g, fuel' = g + 1 := ⟨fuel' - 1, by omega⟩
    have hhead : (blanks ++ ',' :: (source' ++ u)).head? = tail.head? := by simp [htail]
    have hread := (readItems_step (htakes g _ hhead (by omega)) (hskip (by decide))).1 rfl
    rw [htakes' g u (by omega)] at hread
    simpa using hread
  · next more hclose =>
    cases hrest
    rw [hclose] at htail
    refine ⟨source ++ (blanks ++ [']']), by simp [htail], by simp, fun fuel' u hfuel => ?_⟩
    simp only [length_append, length_singleton] at hfuel
    obtain ⟨g, rfl⟩ : ∃ g, fuel' = g + 1 := ⟨fuel' - 1, by omega⟩
    have hhead : (blanks ++ ']' :: u).head? = tail.head? := by simp [htail]
    have hread := (readItems_step (htakes g _ hhead (by omega)) (hskip (by decide))).2 rfl
    simpa using hread
  · cases hrest
  · cases hrest

theorem of_fuel (fuel : Nat) : Local fuel := by
  induction fuel with
  | zero => exact ⟨nofun, nofun, nofun, nofun⟩
  | succ fuel ih => exact ⟨ih.short_succ, ih.arguments_succ, ih.value_succ, ih.items_succ⟩

end Local

/-! ## What is left -/

theorem skip_suffix (cs : List Char) : skip cs <:+ cs := dropWhile_suffix _

theorem readName?_suffix (h : readName? cs = some (name, rest)) : rest <:+ cs :=
  ⟨name.toList, (readName?_local h).1.symm⟩

theorem readKey?_suffix (h : readKey? cs = some (key, rest)) : rest <:+ cs := by
  obtain ⟨source, rfl, -⟩ := readKey?_local h
  exact suffix_append source rest

theorem spanBraces_suffix (h : spanBraces depth inside done cs = some (text, rest)) :
    rest <:+ cs := by
  obtain ⟨source, rfl, -⟩ := spanBraces_local h
  exact suffix_append source rest

theorem readValue_suffix (h : readValue fuel cs = .ok (arg, rest)) : rest <:+ cs := by
  obtain ⟨source, rfl, -⟩ := (Local.of_fuel fuel).value h
  exact suffix_append source rest

/-- A short expression takes at least its at sign, and leaves a suffix. -/
theorem readShort_suffix (h : readShort fuel cs = .ok (s, rest)) :
    ∃ tail, cs = '@' :: tail ∧ rest <:+ tail := by
  obtain ⟨source, rfl, htakes⟩ := (Local.of_fuel fuel).short h
  obtain ⟨c, tail, rfl⟩ := htakes.exists_cons
  exact ⟨c :: tail ++ rest, rfl, suffix_append _ rest⟩

/-- A short expression in front of a text is some of its characters, at least one. -/
theorem exists_of_ofFront {length : Nat} (h : ofFront cs = .ok (s, length)) :
    ∃ source rest, cs = source ++ rest ∧ length = source.length ∧ source ≠ [] := by
  unfold ofFront at h
  split at h
  · next rest hread =>
    cases h
    obtain ⟨tail, rfl, source, rfl⟩ := readShort_suffix hread
    exact ⟨'@' :: source, rest, rfl, by simp; omega, by simp⟩
  · cases h

end AnalyticQuery.Short
