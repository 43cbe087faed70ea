import AnalyticQuery.Proofs.Engine.Quoting
import Mathlib

/-!
# Paths into JSON values

The keys of a path into a JSON value are separate literals for PostgreSQL and one text with dots
between them for Trino. The literals tell the keys apart. The text tells them apart up to the dots
inside the keys: a key with a dot has the text of the keys around it.
-/

namespace AnalyticQuery

open List

variable {cs : List Char} {keys others : List String}

/-! ## Literals -/

/-- A text as it stands inside a literal. -/
def doubled (cs : List Char) : List Char :=
  cs.flatMap fun c => if c == '\'' then ['\'', '\''] else [c]

private theorem toList_quoteLiteral (s : String) :
    (quoteLiteral s).toList = '\'' :: (doubled s.toList ++ ['\'']) := by
  rw [quoteLiteral, String.toList_ofList]
  rfl

private theorem unquoteChars?_doubled (cs : List Char) : unquoteChars? (doubled cs) = some cs := by
  induction cs with
  | nil => rfl
  | cons c cs ih =>
    rw [doubled, flatMap_cons, ← doubled]
    split
    · next hc =>
      rw [beq_iff_eq.mp hc, cons_append, cons_append, nil_append, unquoteChars?, ih]
      rfl
    · next hc =>
      rw [singleton_append, unquoteChars?, if_neg hc, ih]
      · rfl
      · rintro rest rfl -
        exact hc rfl

/-- A literal is read back as the text that it was written for. -/
theorem unquoteLiteral?_quoteLiteral (s : String) : unquoteLiteral? (quoteLiteral s) = some s := by
  rw [unquoteLiteral?, toList_quoteLiteral]
  simp only [getLast?_append, getLast?_singleton, Option.some_or, dropLast_concat,
    unquoteChars?_doubled, Option.map_some, String.ofList_toList]

private theorem doubled_quote (cs : List Char) :
    doubled ('\'' :: cs) = '\'' :: '\'' :: doubled cs := rfl

private theorem doubled_cons {c : Char} (hc : c ≠ '\'') (cs : List Char) :
    doubled (c :: cs) = c :: doubled cs := by
  rw [doubled, flatMap_cons, if_neg (by simpa using hc)]
  rfl

/-- The inside of a literal ends at a quote that no other quote follows. -/
theorem doubled_append_inj {ds rest rest' : List Char} (hrest : rest.head? ≠ some '\'')
    (hrest' : rest'.head? ≠ some '\'')
    (h : doubled cs ++ '\'' :: rest = doubled ds ++ '\'' :: rest') :
    cs = ds ∧ rest = rest' := by
  -- a closing quote against a doubled one would have a quote after it
  induction cs generalizing ds with
  | nil =>
    cases ds with
    | nil => exact ⟨rfl, (List.cons.inj h).2⟩
    | cons d ds =>
      by_cases hd : d = '\''
      · subst hd
        exact absurd (congrArg head? (List.cons.inj h).2) hrest
      · rw [doubled_cons hd] at h
        exact absurd (List.cons.inj h).1.symm hd
  | cons c cs ih =>
    by_cases hc : c = '\''
    · subst hc
      cases ds with
      | nil => exact absurd (congrArg head? (List.cons.inj h).2).symm hrest'
      | cons d ds =>
        by_cases hd : d = '\''
        · subst hd
          obtain ⟨rfl, hr⟩ := ih (List.cons.inj (List.cons.inj h).2).2
          exact ⟨rfl, hr⟩
        · rw [doubled_cons hd] at h
          exact absurd (List.cons.inj h).1.symm hd
    · rw [doubled_cons hc] at h
      cases ds with
      | nil => exact absurd (List.cons.inj h).1 hc
      | cons d ds =>
        by_cases hd : d = '\''
        · subst hd
          exact absurd (List.cons.inj h).1 hc
        · rw [doubled_cons hd] at h
          obtain ⟨rfl, htail⟩ := List.cons.inj h
          obtain ⟨rfl, hr⟩ := ih htail
          exact ⟨rfl, hr⟩

/-- The inside of a literal is read as a text only if it is the text with its quotes doubled. -/
theorem eq_doubled_of_unquoteChars? {text : List Char} (h : unquoteChars? cs = some text) :
    cs = doubled text := by
  fun_induction unquoteChars? cs generalizing text with
  | case1 =>
    cases h
    rfl
  | case2 cs ih =>
    obtain ⟨inside, hinside, rfl⟩ := Option.map_eq_some_iff.mp h
    rw [ih hinside, doubled_quote]
  | case3 c cs _ _ => cases h
  | case4 c cs _ hc ih =>
    obtain ⟨inside, hinside, rfl⟩ := Option.map_eq_some_iff.mp h
    rw [ih hinside, doubled_cons (by simpa using hc)]

private theorem unquoteLiteral?_eq_some_iff {sql s : String} :
    unquoteLiteral? sql = some s ↔ sql = quoteLiteral s := by
  constructor
  · intro h
    unfold unquoteLiteral? at h
    split at h
    · next rest hsql =>
      split at h
      · next hlast =>
        obtain ⟨text, htext, rfl⟩ := Option.map_eq_some_iff.mp h
        rw [← String.toList_inj, toList_quoteLiteral, String.toList_ofList, hsql,
          ← eq_doubled_of_unquoteChars? htext, dropLast_append_getLast? _ hlast]
      · cases h
    · cases h
  · rintro rfl
    exact unquoteLiteral?_quoteLiteral s

/-- Exactly the literal of a text is read as the text. What goes on after the closing quote of a
literal is no literal, even if it ends with a quote. -/
theorem unquoteLiteral?_quoteLiteral_append (sql s : String) :
    unquoteLiteral? (quoteLiteral s) = some s ∧
      (unquoteLiteral? sql = some s → sql = quoteLiteral s) ∧
    ∀ rest : String, rest.toList.head? ≠ some '\'' → rest ≠ "" →
      unquoteLiteral? (quoteLiteral s ++ rest) = none := by
  refine ⟨unquoteLiteral?_quoteLiteral s, unquoteLiteral?_eq_some_iff.mp, fun rest hrest hne => ?_⟩
  refine Option.eq_none_iff_forall_ne_some.mpr fun text htext => hne ?_
  have h := congrArg String.toList (unquoteLiteral?_eq_some_iff.mp htext)
  rw [String.toList_append, toList_quoteLiteral, toList_quoteLiteral, cons_append,
    append_assoc] at h
  have hnil := (doubled_append_inj hrest (by simp) (List.cons.inj h).2).2
  exact String.toList_eq_nil_iff.mp hnil

/-- A text with a quote in it, and its literal joined to another one. -/
theorem unquoteLiteral?_concatenation :
    unquoteLiteral? (quoteLiteral "it's") = some "it's" ∧
      unquoteLiteral? "'it''s' || 'x'" = none := by
  obtain ⟨hread, -, hnone⟩ := unquoteLiteral?_quoteLiteral_append "" "it's"
  exact ⟨hread, hnone " || 'x'" (by decide) (by decide)⟩

/-- A list of literals, each after a comma. -/
def literalsAfter (keys : List String) : List Char :=
  keys.flatMap fun key => ", '".toList ++ (doubled key.toList ++ ['\''])

private theorem head?_literalsAfter (keys : List String) :
    (literalsAfter keys).head? ≠ some '\'' := by
  cases keys <;> simp [literalsAfter]

private theorem toList_commaList_literals (key : String) (keys : List String) :
    (commaList ((key :: keys).map quoteLiteral)).toList =
      '\'' :: (doubled key.toList ++ '\'' :: literalsAfter keys) := by
  induction keys generalizing key with
  | nil => simp [commaList, toList_quoteLiteral, literalsAfter]
  | cons next keys ih =>
    rw [commaList, map_cons, map_cons, String.intercalate_cons_cons, ← map_cons, ← commaList,
      String.toList_append, ih, String.toList_append, toList_quoteLiteral]
    simp [literalsAfter]

private theorem literalsAfter_inj (h : literalsAfter keys = literalsAfter others) :
    keys = others := by
  induction keys generalizing others with
  | nil =>
    cases others with
    | nil => rfl
    | cons other others => simp [literalsAfter] at h
  | cons key keys ih =>
    cases others with
    | nil => simp [literalsAfter] at h
    | cons other others =>
      simp only [literalsAfter, flatMap_cons, append_assoc, append_cancel_left_eq,
        singleton_append] at h
      obtain ⟨hkey, hkeys⟩ := doubled_append_inj (head?_literalsAfter _) (head?_literalsAfter _) h
      rw [String.toList_inj.mp hkey, ih hkeys]

/-- Literals in a list are told apart. -/
theorem commaList_literals_inj (hkeys : keys ≠ []) (hothers : others ≠ [])
    (h : commaList (keys.map quoteLiteral) = commaList (others.map quoteLiteral)) :
    keys = others := by
  obtain ⟨key, keys, rfl⟩ := exists_cons_of_ne_nil hkeys
  obtain ⟨other, others, rfl⟩ := exists_cons_of_ne_nil hothers
  rw [← String.toList_inj, toList_commaList_literals, toList_commaList_literals] at h
  obtain ⟨hkey, hkeys⟩ :=
    doubled_append_inj (head?_literalsAfter _) (head?_literalsAfter _) (List.cons.inj h).2
  rw [String.toList_inj.mp hkey, literalsAfter_inj hkeys]

/-! ## Paths as one text -/

namespace Engine

/-- The parts of a path text between its dots, whatever else an engine reads in it. -/
def pathParts? (path : String) : Option (List String) :=
  match (unquoteLiteral? path).map String.toList with
  | some ('$' :: '.' :: parts) => some ((parts.splitOn '.').map String.ofList)
  | _ => none

/-- Keys with each of them cut at its dots. -/
def cutKeys (keys : List String) : List String :=
  keys.flatMap fun key => (key.toList.splitOn '.').map String.ofList

private theorem splitOn_intercalate_keys (h : keys ≠ []) :
    ((".".intercalate keys).toList.splitOn '.').map String.ofList = cutKeys keys := by
  induction keys with
  | nil => exact absurd rfl h
  | cons key keys ih =>
    cases keys with
    | nil => simp [cutKeys]
    | cons next keys =>
      have hdot : (".".intercalate (key :: next :: keys)).toList =
          key.toList ++ '.' :: (".".intercalate (next :: keys)).toList := by
        rw [String.intercalate_cons_cons, String.toList_append, String.toList_append, append_assoc]
        rfl
      rw [hdot, splitOn_append_cons_self, map_append, ih (cons_ne_nil _ _)]
      rfl

private theorem splitOn_length (key : List Char) : 0 < (key.splitOn '.').length :=
  length_pos_iff.mpr (splitOn_ne_nil _ _)

private theorem length_le_cutKeys (keys : List String) : keys.length ≤ (cutKeys keys).length := by
  induction keys with
  | nil => exact Nat.le_refl 0
  | cons key keys ih =>
    have hkey := splitOn_length key.toList
    simp only [cutKeys, flatMap_cons, length_append, length_map, length_cons] at ih ⊢
    omega

/-- Cutting leaves keys as they are exactly if they have no dots: each dot would make one part
more. -/
theorem cutKeys_eq_self_iff : cutKeys keys = keys ↔ ∀ key ∈ keys, '.' ∉ key.toList := by
  constructor
  · intro h key hkey hdot
    obtain ⟨front, back, rfl⟩ := append_of_mem hkey
    obtain ⟨left, right, hsplit⟩ := append_of_mem hdot
    have hlength := congrArg length h
    have hfront := length_le_cutKeys front
    have hback := length_le_cutKeys back
    have hleft := splitOn_length left
    have hright := splitOn_length right
    simp only [cutKeys, flatMap_append, flatMap_cons, hsplit, splitOn_append_cons_self, map_append,
      length_append, length_map, length_cons] at hlength hfront hback
    omega
  · intro h
    induction keys with
    | nil => rfl
    | cons key keys ih =>
      obtain ⟨hkey, hkeys⟩ := forall_mem_cons.mp h
      rw [cutKeys, flatMap_cons, splitOn_eq_singleton hkey, ← cutKeys, ih hkeys]
      simp

private theorem trinoJsonPath_literals (keys : List String) :
    trinoJsonPath (keys.map quoteLiteral) = quoteLiteral ("$." ++ ".".intercalate keys) := by
  have hkeys : (keys.map quoteLiteral).mapM unquoteLiteral? = some keys := by
    induction keys with
    | nil => rfl
    | cons key keys ih =>
      rw [map_cons, mapM_cons, unquoteLiteral?_quoteLiteral, ih]
      rfl
  rw [trinoJsonPath, hkeys]

/-- The parts of a path of literals are the keys cut at their dots. -/
theorem pathParts?_literals (h : keys ≠ []) :
    pathParts? (trinoJsonPath (keys.map quoteLiteral)) = some (cutKeys keys) := by
  rw [trinoJsonPath_literals, pathParts?, unquoteLiteral?_quoteLiteral, Option.map_some,
    String.toList_append, ← splitOn_intercalate_keys h]
  rfl

private theorem trinoJsonPath_eq_iff (hkeys : keys ≠ []) (hothers : others ≠ []) :
    trinoJsonPath (keys.map quoteLiteral) = trinoJsonPath (others.map quoteLiteral) ↔
      cutKeys keys = cutKeys others := by
  constructor
  · intro h
    have hparts := congrArg pathParts? h
    rw [pathParts?_literals hkeys, pathParts?_literals hothers] at hparts
    exact Option.some.inj hparts
  · intro h
    rw [← splitOn_intercalate_keys hkeys, ← splitOn_intercalate_keys hothers] at h
    have hsplit := map_injective_iff.mpr (fun _ _ => String.ofList_inj.mp) h
    have hjoin := congrArg (['.'].intercalate ·) hsplit
    simp only [intercalate_splitOn] at hjoin
    rw [trinoJsonPath_literals, trinoJsonPath_literals, String.toList_inj.mp hjoin]

/-- The keys of a path are told apart by PostgreSQL's literals, and by Trino's path text up to the
dots inside them: the parts of the text are the keys themselves exactly if these have no dots. -/
theorem json_extract_eq_iff (hkeys : keys ≠ []) (hothers : others ≠ []) (json : String)
    (distinct : Bool) :
    (function? .pg "json_extract" (json :: keys.map quoteLiteral) distinct =
        function? .pg "json_extract" (json :: others.map quoteLiteral) distinct ↔ keys = others) ∧
    (function? .trino "json_extract" (json :: keys.map quoteLiteral) distinct =
        function? .trino "json_extract" (json :: others.map quoteLiteral) distinct ↔
      cutKeys keys = cutKeys others) ∧
    (∃ path, function? .trino "json_extract" (json :: keys.map quoteLiteral) distinct =
        .ok (some s!"json_extract({json}, {path})") ∧ pathParts? path = some (cutKeys keys)) ∧
    (cutKeys keys = keys ↔ ∀ key ∈ keys, '.' ∉ key.toList) := by
  have htext : ∀ {before after x y : String},
    (Except.ok (some (before ++ x ++ after)) : Result (Option String)) =
      .ok (some (before ++ y ++ after)) ↔ x = y := by
    intro before after x y
    simp
  refine ⟨?_, ?_, ⟨_, rfl, pathParts?_literals hkeys⟩, cutKeys_eq_self_iff⟩
  · refine htext.trans ⟨commaList_literals_inj hkeys hothers, ?_⟩
    rintro rfl
    rfl
  · exact htext.trans (trinoJsonPath_eq_iff hkeys hothers)

/-- Keys with a quote and with a dot in them. -/
theorem json_extract_eq_iff_quote :
    (["it's", "b"] ≠ [] ∧ ["it's.b", "c"] ≠ []) ∧
    (function? .trino "json_extract" ("j" :: ["it's", "b"].map quoteLiteral) false =
        function? .trino "json_extract" ("j" :: ["it's.b", "c"].map quoteLiteral) false ↔
      cutKeys ["it's", "b"] = cutKeys ["it's.b", "c"]) :=
  ⟨⟨by decide, by decide⟩, (json_extract_eq_iff (by decide) (by decide) "j" false).2.1⟩

/-- A key with a dot has the path of two keys. -/
theorem json_extract_dot :
    function? .trino "json_extract" ["j", quoteLiteral "a.b"] false =
        function? .trino "json_extract" ["j", quoteLiteral "a", quoteLiteral "b"] false ∧
      function? .pg "json_extract" ["j", quoteLiteral "a.b"] false ≠
        function? .pg "json_extract" ["j", quoteLiteral "a", quoteLiteral "b"] false := by
  decide

end Engine

end AnalyticQuery
