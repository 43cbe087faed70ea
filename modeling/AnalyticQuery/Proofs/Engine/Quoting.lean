import AnalyticQuery.Engine.Render
import AnalyticQuery.Text.SingleSpace
import Mathlib

/-!
# Quoted tokens of SQL text

A scan of SQL text finds its quoted tokens: a quote opens a token, the same quote closes it, and the
same quote written twice stays inside. The skeleton of a text has a mark in place of each token.
Texts that a scan leaves outside quotes are put together with fixed texts between them, so that no
token runs on into the next: the skeleton of the whole follows from the skeletons of the parts.
-/

namespace AnalyticQuery

open List

variable {c : Char} {q : Quote} {sql p a b : String} {blank : Bool} {s : Quoting} {cs : List Char}

/-- The quotes of SQL text. -/
inductive Quote where
  | single
  | double
  deriving DecidableEq, Repr

namespace Quote

/-- The character of a quote. -/
def char : Quote → Char
  | single => '\''
  | double => '"'

/-- The quote that a character is, if it is one. -/
def ofChar? (c : Char) : Option Quote :=
  if c = '\'' then some single else if c = '"' then some double else none

@[simp] theorem ofChar?_char (q : Quote) : ofChar? q.char = some q := by
  cases q <;> decide

theorem ofChar?_eq_some : ofChar? c = some q ↔ c = q.char := by
  constructor
  · intro h
    unfold ofChar? at h
    split at h
    · next hc =>
      cases h
      exact hc
    · split at h
      · next hc =>
        cases h
        exact hc
      · cases h
  · rintro rfl
    exact ofChar?_char q

end Quote

/-- Where a scan of SQL text stands. -/
inductive Quoting where
  | outside
  | inside (quote : Quote)
  /-- After a quote that closes a token, unless the same quote follows. -/
  | closing (quote : Quote)
  deriving DecidableEq, Repr

/-- A part of a skeleton. -/
inductive Mark where
  /-- A character outside quotes. -/
  | plain (c : Char)
  /-- A quoted token. -/
  | token (quote : Quote)
  deriving DecidableEq, Repr

namespace Quoting

/-- Whether a text may end here: no token is open. -/
def isOutside : Quoting → Bool
  | inside _ => false
  | outside | closing _ => true

/-- A character outside quotes: where the scan stands after it, and what it adds to the skeleton. -/
def enter (c : Char) : Quoting × List Mark :=
  match Quote.ofChar? c with
  | some q => (inside q, [.token q])
  | none => (outside, [.plain c])

/-- One character of a scan. -/
def step : Quoting → Char → Quoting × List Mark
  | outside, c => enter c
  | inside q, c => (if Quote.ofChar? c = some q then closing q else inside q, [])
  | closing q, c => if Quote.ofChar? c = some q then (inside q, []) else enter c

/-- The scan of a text from a place on: where it ends, and the skeleton. -/
def scan : Quoting → List Char → Quoting × List Mark
  | s, [] => (s, [])
  | s, c :: cs => ((scan (step s c).1 cs).1, (step s c).2 ++ (scan (step s c).1 cs).2)

/-- Whether the scan of a text ends outside quotes. -/
def endsOutside (sql : String) : Bool := (scan outside sql.toList).1.isOutside

/-- The skeleton of a text: each quoted token replaced by a mark. -/
def skeleton (sql : String) : List Mark := (scan outside sql.toList).2

variable {ds : List Char}

/-- A text is scanned part by part. -/
theorem scan_append :
    scan s (cs ++ ds) =
      ((scan (scan s cs).1 ds).1, (scan s cs).2 ++ (scan (scan s cs).1 ds).2) := by
  induction cs generalizing s with
  | nil => rfl
  | cons c cs ih => simp only [cons_append, scan, ih, append_assoc]

/-- A character that is no quote ends a token that was closed. -/
theorem step_of_isOutside (hs : s.isOutside = true) (hc : Quote.ofChar? c = none) :
    s.step c = (outside, [.plain c]) := by
  cases s with
  | outside => simp [step, enter, hc]
  | inside => cases hs
  | closing => simp [step, enter, hc]

/-- A text that begins with no quote is scanned alike after a token and outside. -/
theorem scan_of_isOutside (hs : s.isOutside = true) (hc : Quote.ofChar? c = none) :
    scan s (c :: cs) = scan outside (c :: cs) := by
  rw [scan, scan, step_of_isOutside hs hc, step_of_isOutside rfl hc]

/-- Characters without quotes are their own skeleton. -/
theorem scan_plain (h : ∀ c ∈ cs, Quote.ofChar? c = none) :
    scan outside cs = (outside, cs.map .plain) := by
  induction cs with
  | nil => rfl
  | cons c cs ih =>
    rw [scan, step_of_isOutside rfl (h c mem_cons_self), ih fun d hd => h d (mem_cons_of_mem c hd)]
    rfl

/-! ## Tokens -/

private theorem step_inside_quote : step (inside q) q.char = (closing q, []) := by
  simp [step]

private theorem step_inside (hc : c ≠ q.char) : step (inside q) c = (inside q, []) := by
  simp [step, mt Quote.ofChar?_eq_some.mp hc]

private theorem step_closing_quote : step (closing q) q.char = (inside q, []) := by
  simp [step]

/-- After a token that was closed, another character shows in the skeleton. -/
theorem step_closing_ne_nil (hc : c ≠ q.char) : (step (closing q) c).2 ≠ [] := by
  rw [step, if_neg (mt Quote.ofChar?_eq_some.mp hc)]
  unfold enter
  split <;> simp

/-- The characters of a token: quotes around a text, and each quote inside it written twice. -/
def quoted (q : Quote) (cs : List Char) : List Char :=
  q.char :: cs.flatMap (fun c => if c == q.char then [q.char, q.char] else [c]) ++ [q.char]

/-- A text with its quotes doubled stays inside its token. -/
theorem scan_doubled (q : Quote) (cs : List Char) :
    scan (inside q) (cs.flatMap fun c => if c == q.char then [q.char, q.char] else [c]) =
      (inside q, []) := by
  induction cs with
  | nil => rfl
  | cons c cs ih =>
    rw [flatMap_cons, scan_append]
    by_cases hc : c = q.char
    · rw [if_pos (beq_iff_eq.mpr hc)]
      simp only [scan, step_inside_quote, step_closing_quote, ih, append_nil]
    · rw [if_neg (by simpa using hc)]
      simp only [scan, step_inside hc, ih, append_nil]

/-- A token is one mark, whatever its text. -/
theorem scan_quoted (q : Quote) (cs : List Char) :
    scan outside (quoted q cs) = (closing q, [.token q]) := by
  have henter : step outside q.char = (inside q, [.token q]) := by simp [step, enter]
  rw [quoted, cons_append, scan, henter, scan_append, scan_doubled]
  simp [scan, step]

/-- The inside of a literal is scanned without leaving it. -/
theorem scan_unquoteChars {text : List Char} (h : unquoteChars? cs = some text) :
    scan (inside .single) cs = (inside .single, []) := by
  fun_induction unquoteChars? cs generalizing text with
  | case1 => rfl
  | case2 cs ih =>
    obtain ⟨rest, hrest, -⟩ := Option.map_eq_some_iff.mp h
    have hquote : '\'' = Quote.single.char := rfl
    simp only [scan, hquote, step_inside_quote, step_closing_quote, ih hrest, append_nil]
  | case3 => cases h
  | case4 c cs _ hc ih =>
    obtain ⟨rest, hrest, -⟩ := Option.map_eq_some_iff.mp h
    have hne : c ≠ Quote.single.char := fun heq => hc (beq_iff_eq.mpr heq)
    simp only [scan, step_inside hne, ih hrest, append_nil]

/-- What a scan closes without a mark is the inside of a literal and its closing quote. -/
theorem exists_of_scan_literal (cs : List Char) :
    ((scan (inside .single) cs).1.isOutside = true → (scan (inside .single) cs).2 = [] →
      ∃ inner, cs = inner ++ ['\''] ∧ (unquoteChars? inner).isSome = true) ∧
    ((scan (closing .single) cs).1.isOutside = true → (scan (closing .single) cs).2 = [] →
      ∃ inner, '\'' :: cs = inner ++ ['\''] ∧ (unquoteChars? inner).isSome = true) := by
  have hquote : '\'' = Quote.single.char := rfl
  induction cs with
  | nil => exact ⟨nofun, fun _ _ => ⟨[], rfl, rfl⟩⟩
  | cons c cs ih =>
    by_cases hc : c = '\''
    · subst hc
      simp only [scan, hquote, step_inside_quote, step_closing_quote, nil_append]
      refine ⟨ih.2, fun hs hmarks => ?_⟩
      obtain ⟨inner, rfl, hinner⟩ := ih.1 hs hmarks
      exact ⟨'\'' :: '\'' :: inner, rfl, by simpa [unquoteChars?] using hinner⟩
    · have hne : c ≠ Quote.single.char := hc
      simp only [scan, step_inside hne, nil_append]
      constructor
      · intro hs hmarks
        obtain ⟨inner, rfl, hinner⟩ := ih.1 hs hmarks
        refine ⟨c :: inner, rfl, ?_⟩
        rw [unquoteChars?]
        · simpa [hc] using hinner
        · rintro rest rfl -
          exact hc rfl
      · intro _ hmarks
        exact absurd (append_eq_nil_iff.mp hmarks).1 (step_closing_ne_nil hne)

/-- A text that is closed is one literal exactly when its skeleton is one single-quoted token. -/
theorem isSome_unquoteLiteral? (h : endsOutside sql = true) :
    (unquoteLiteral? sql).isSome = true ↔ skeleton sql = [.token .single] := by
  unfold unquoteLiteral? skeleton
  unfold endsOutside at h
  generalize sql.toList = cs at h ⊢
  cases cs with
  | nil => simp [scan]
  | cons c cs =>
    by_cases hc : c = '\''
    · subst hc
      have henter : step outside '\'' = (inside .single, [.token .single]) := by decide
      simp only [scan, henter, singleton_append, List.cons.injEq, true_and] at h ⊢
      constructor
      · intro hsome
        split at hsome
        · next hlast =>
          have hsplit : cs = cs.dropLast ++ ['\''] := (dropLast_append_getLast? _ hlast).symm
          obtain ⟨text, htext⟩ := Option.isSome_iff_exists.mp (Option.isSome_map.symm.trans hsome)
          rw [hsplit, scan_append, scan_unquoteChars htext]
          decide
        · cases hsome
      · intro hmarks
        obtain ⟨inner, rfl, hinner⟩ := (exists_of_scan_literal cs).1 h hmarks
        simpa using hinner
    · have hmark : ∃ mark, (step outside c).2 = [mark] ∧ mark ≠ .token .single := by
        rw [step, enter]
        split
        · next q hq =>
          refine ⟨_, rfl, ?_⟩
          rintro ⟨rfl⟩
          exact hc (Quote.ofChar?_eq_some.mp hq)
        · exact ⟨_, rfl, nofun⟩
      obtain ⟨mark, hmark, hne⟩ := hmark
      rw [scan, hmark]
      simp [hc, hne]

/-! ## Texts with one skeleton -/

/-- Two texts that are closed and have the same skeleton. -/
structure Alike (a b : String) : Prop where
  left : endsOutside a = true
  right : endsOutside b = true
  skeleton : skeleton a = skeleton b

/-- Two texts with the same skeleton after which the scan is outside, not just at the end of a
token. -/
structure Settled (a b : String) : Prop where
  left : (scan outside a.toList).1 = outside
  right : (scan outside b.toList).1 = outside
  skeleton : skeleton a = skeleton b

/-- Whether a text neither begins nor ends with a token, nor leaves one open. -/
def isFixed (p : String) : Bool :=
  (scan outside p.toList).1 == outside && p.toList.head?.all fun c => (Quote.ofChar? c).isNone

/-- Characters without quotes make a fixed text. -/
theorem isFixed_of_plain (h : ∀ c ∈ p.toList, Quote.ofChar? c = none) : isFixed p = true := by
  rw [isFixed, scan_plain h]
  cases hp : p.toList with
  | nil => rfl
  | cons c cs => simp [h c (hp ▸ mem_cons_self)]

theorem Settled.alike (h : Settled a b) : Alike a b :=
  ⟨by rw [endsOutside, h.left, isOutside], by rw [endsOutside, h.right, isOutside], h.skeleton⟩

/-- A text after which the scan is outside is like itself. -/
theorem settled_of_scan (h : (scan outside p.toList).1 = outside) : Settled p p := ⟨h, h, rfl⟩

theorem settled_of_isFixed (h : isFixed p = true) : Settled p p :=
  settled_of_scan (beq_iff_eq.mp (Bool.and_eq_true_iff.mp h).1)

section Append

variable {x y : String}

/-- A closed text may follow where the scan is outside. -/
theorem Settled.append (h : Settled x y) (h' : Alike a b) : Alike (x ++ a) (y ++ b) := by
  obtain ⟨ha, hb, hab⟩ := h'
  obtain ⟨hx, hy, hxy⟩ := h
  unfold Quoting.skeleton at hab hxy
  constructor
  · rw [endsOutside, String.toList_append, scan_append, hx]
    exact ha
  · rw [endsOutside, String.toList_append, scan_append, hy]
    exact hb
  · rw [Quoting.skeleton, Quoting.skeleton, String.toList_append, String.toList_append, scan_append,
      scan_append, hx, hy, hxy, hab]

/-- A fixed text that is not empty settles a closed text. -/
theorem Alike.text (h : Alike a b) (hp : isFixed p = true) (hne : p ≠ "") :
    Settled (a ++ p) (b ++ p) := by
  obtain ⟨ha, hb, hab⟩ := h
  have hscan := (settled_of_isFixed hp).left
  obtain ⟨c, cs, hcs⟩ := exists_cons_of_ne_nil (mt String.toList_eq_nil_iff.mp hne)
  have hc : Quote.ofChar? c = none := by
    have hhead := (Bool.and_eq_true_iff.mp hp).2
    simpa [hcs] using hhead
  -- The first character of the fixed text ends a token that was just closed.
  have hfrom : ∀ {s : Quoting}, s.isOutside = true → scan s p.toList = scan outside p.toList := by
    intro s hs
    rw [hcs, scan_of_isOutside hs hc]
  unfold Quoting.skeleton endsOutside at *
  constructor
  · rw [String.toList_append, scan_append, hfrom ha, hscan]
  · rw [String.toList_append, scan_append, hfrom hb, hscan]
  · rw [Quoting.skeleton, Quoting.skeleton, String.toList_append, String.toList_append, scan_append,
      scan_append, hfrom ha, hfrom hb, hab]

end Append

/-- A literal has one skeleton, whatever its text. -/
theorem alike_quoteLiteral (s t : String) : Alike (quoteLiteral s) (quoteLiteral t) := by
  have hscan : ∀ s, scan outside (quoteLiteral s).toList = (closing .single, [.token .single]) := by
    intro s
    rw [quoteLiteral, String.toList_ofList]
    exact scan_quoted .single s.toList
  refine ⟨?_, ?_, ?_⟩ <;> simp only [endsOutside, Quoting.skeleton, hscan, isOutside]

/-- An identifier has one skeleton, whatever its name. -/
theorem alike_quoteIdent (s t : String) : Alike (quoteIdent s) (quoteIdent t) := by
  have hscan : ∀ s, scan outside (quoteIdent s).toList = (closing .double, [.token .double]) := by
    intro s
    rw [quoteIdent, String.toList_ofList]
    exact scan_quoted .double s.toList
  refine ⟨?_, ?_, ?_⟩ <;> simp only [endsOutside, Quoting.skeleton, hscan, isOutside]

/-- Of two texts with one skeleton both are literals or none is. -/
theorem Alike.isSome_unquoteLiteral? (h : Alike a b) :
    (unquoteLiteral? a).isSome = (unquoteLiteral? b).isSome := by
  rw [Bool.eq_iff_iff, Quoting.isSome_unquoteLiteral? h.left,
    Quoting.isSome_unquoteLiteral? h.right, h.skeleton]

/-! ## Blanks -/

end Quoting

/-- Whether a part of a skeleton is a blank. -/
def Mark.isBlank : Mark → Bool
  | plain c => Text.isBlank c
  | token _ => false

namespace Quoting

open Text (SpaceState squeezeFrom)

/-- Reads a skeleton whose only blanks are single spaces, from after a blank or not, and says
whether it ends with a blank. -/
def spaced : Bool → List Mark → Option Bool
  | blank, [] => some blank
  | blank, mark :: marks =>
    if mark.isBlank then if blank || mark != .plain ' ' then none else spaced true marks
    else spaced false marks

/-- A text whose only blanks outside quotes are single spaces, none of them first or last. -/
def Solid (sql : String) : Prop := spaced true (skeleton sql) = some false

instance (sql : String) : Decidable (Solid sql) := inferInstanceAs (Decidable (_ = _))

section Spaced

variable {last started pending : Bool} {marks rest : List Mark}

theorem spaced_append :
    spaced blank (marks ++ rest) = (spaced blank marks).bind (spaced · rest) := by
  fun_induction spaced blank marks <;> simp_all [spaced]

/-- Where a solid text may stand after a blank it may stand anywhere. -/
theorem spaced_of_solid (h : spaced true marks = some false) (blank : Bool) :
    spaced blank marks = some false := by
  cases marks with
  | nil => cases h
  | cons mark marks =>
    rw [spaced] at h ⊢
    cases hmark : mark.isBlank <;> simp_all

/-- Plain characters that are no blanks make a solid text. -/
theorem spaced_plain (h : ∀ c ∈ cs, Text.isBlank c = false) (hne : cs ≠ []) :
    spaced blank (cs.map .plain) = some false := by
  induction cs generalizing blank with
  | nil => exact absurd rfl hne
  | cons c cs ih =>
    rw [map_cons, spaced, if_neg (by simp [Mark.isBlank, h c mem_cons_self])]
    cases cs with
    | nil => rfl
    | cons d cs => exact ih (fun e he => h e (mem_cons_of_mem c he)) (cons_ne_nil d cs)

theorem squeezeFrom_blank (hc : Text.isBlank c = true) :
    squeezeFrom { quote := none, started, pending } (c :: cs) =
      squeezeFrom { quote := none, started, pending := started } cs := by
  simp only [squeezeFrom, hc, if_true]

theorem squeezeFrom_plain (hblank : Text.isBlank c = false) (hc : Quote.ofChar? c = none) :
    squeezeFrom { quote := none, started, pending } (c :: cs) = (if pending then [' '] else []) ++
      c :: squeezeFrom { quote := none, started := true, pending := false } cs := by
  have hquote : (c == '\'' || c == '"') = false := by
    unfold Quote.ofChar? at hc
    split_ifs at hc with hsingle hdouble
    simp [hsingle, hdouble]
  simp only [squeezeFrom, hblank, hquote]
  cases pending <;> rfl

theorem squeezeFrom_quote (q : Quote) :
    squeezeFrom { quote := none, started, pending } (q.char :: cs) =
      (if pending then [' '] else []) ++
      q.char :: squeezeFrom { quote := some q.char, started := true, pending := false } cs := by
  have hblank : Text.isBlank q.char = false := by cases q <;> decide
  have hquote : (q.char == '\'' || q.char == '"') = true := by cases q <;> decide
  simp only [squeezeFrom, hblank, hquote]
  cases pending <;> rfl

theorem squeezeFrom_inside (q : Quote) :
    squeezeFrom { quote := some q.char, started, pending } (c :: cs) =
      c :: squeezeFrom { quote := if c = q.char then none else some q.char, started, pending }
          cs := by
  simp [squeezeFrom]

end Spaced

/-- What is still to be written of a text with single spaces only, whether a blank was last in it,
and where its scan stands, in a state in which single spaces are made. -/
inductive Keeps : SpaceState → List Char → Bool → Quoting → Prop
  | outside {started pending : Bool} {s : Quoting} (hs : s.isOutside = true)
      (hlast : (pending = false ∧ started = true) ∨ (pending = started ∧ s = outside)) :
      Keeps { quote := none, started, pending } (if pending then [' '] else [])
        (!started || pending) s
  | inside (q : Quote) : Keeps { quote := some q.char, started := true, pending := false }
      [] false (inside q)

/-- Characters with single spaces only stay as they are. -/
theorem squeezeFrom_eq_self {state : SpaceState} {due : List Char} (h : Keeps state due blank s)
    (cs : List Char) (hcs : spaced blank (scan s cs).2 = some false) :
    squeezeFrom state cs = due ++ cs := by
  induction cs generalizing state due blank s with
  | nil =>
    cases h with
    | outside => simp_all [scan, spaced, squeezeFrom]
    | inside => rfl
  | cons c cs ih =>
    rw [scan] at hcs
    have hlevel : ∀ {s : Quoting}, s.isOutside = true →
        Keeps { quote := none, started := true, pending := false } [] false s :=
          fun hs => .outside hs (.inl ⟨rfl, rfl⟩)
    cases h with
    | inside q =>
      rw [squeezeFrom_inside]
      by_cases hc : c = q.char
      · rw [hc, step_inside_quote] at hcs
        rw [if_pos hc, ih (hlevel rfl) hcs]
        rfl
      · rw [step_inside hc] at hcs
        rw [if_neg hc, ih (.inside q) hcs]
        rfl
    | @outside started pending _ hs hlast =>
      cases hq : Quote.ofChar? c with
      | some q =>
        obtain rfl := Quote.ofChar?_eq_some.mp hq
        have hrest : spaced false (scan (inside q) cs).2 = some false := by
          by_cases hclosing : s = closing q
          · subst hclosing
            rw [step_closing_quote] at hcs
            simp_all
          · have hstep : s.step q.char = (inside q, [.token q]) := by
              cases s with
              | outside => simp [step, enter]
              | inside => cases hs
              | closing q' =>
                have hne : q ≠ q' := fun heq => hclosing (heq ▸ rfl)
                simp [step, enter, hne]
            rw [hstep] at hcs
            simpa [spaced, Mark.isBlank] using hcs
        rw [squeezeFrom_quote, ih (.inside q) hrest]
        rfl
      | none =>
        rw [step_of_isOutside hs hq] at hcs
        cases hblank : Text.isBlank c with
        | false =>
          rw [squeezeFrom_plain hblank hq,
            ih (hlevel rfl) (by simpa [spaced, Mark.isBlank, hblank] using hcs)]
          rfl
        | true =>
          -- A blank stands here only after what is no blank, and is a space.
          obtain ⟨⟨⟨rfl, rfl⟩, rfl⟩, hcs⟩ : ((started = true ∧ pending = false) ∧ c = ' ') ∧
              spaced true (scan Quoting.outside cs).2 = some false := by
            simpa [spaced, Mark.isBlank, hblank] using hcs
          rw [squeezeFrom_blank hblank, ih (.outside rfl (.inr ⟨rfl, rfl⟩)) hcs]
          rfl

/-- A solid text has single spaces already. -/
theorem Solid.squeeze (h : Solid sql) : Text.squeeze sql = sql := by
  have hfresh : Keeps {} [] true outside := .outside rfl (.inr ⟨rfl, rfl⟩)
  rw [Text.squeeze, squeezeFrom_eq_self hfresh sql.toList h, nil_append, String.ofList_toList]

end Quoting

end AnalyticQuery
