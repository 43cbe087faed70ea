import AnalyticQuery.Proofs.Sql.Rank

/-!
# The recursion without its bounds

The bounds on the recursion of the builder are never met: a value is no deeper than its own depth,
and its rank bounds how often texts inside it are expanded one inside the other. Hence a run builds
the parts of a value, the values that its texts stand for and those bound to its parameters by runs
of their own.
-/

namespace AnalyticQuery

variable {key text : String} {expansion expansion' : BuildFn} {level : Nat}

/-! ## Texts and ranks -/

namespace QlObject

variable {v : Json} {obj : QlObject}

theorem exists_of_ofJson (h : ofJson v = .ok obj) :
    v = .object obj.fields ∧ ∃ name, Fields.get? obj.fields "type" = some (.string name) ∧
      ExpressionType.ofName? name = some obj.type := by
  unfold ofJson at h
  split at h
  · split at h
    · next name hname =>
      unfold ExpressionType.ofName at h
      split at h
      · next type htype =>
        cases h
        exact ⟨rfl, name, hname, htype⟩
      · cases h
    · cases h
  · cases h

/-- A text that is read is the one in the field. -/
theorem get?_of_string? (h : obj.string? key = .ok (some text)) :
    Fields.get? obj.fields key = some (.string text) := by
  unfold string? at h
  split at h
  · cases h
  · next hget =>
    split at h
    · cases h
    · cases h
      exact (Option.filter_eq_some_iff.mp hget).1
  · cases h

theorem get?_of_string (h : obj.string key = .ok text) :
    Fields.get? obj.fields key = some (.string text) := by
  obtain ⟨found, hfound, h⟩ := Result.of_bind h
  split at h
  · cases h
    exact get?_of_string? hfound
  · cases h

/-- What an object is built from is less deep and of no higher rank; what its text stands for is of
a lower rank. -/
theorem yields_of_rank (h : ofJson v = .ok obj) :
    obj.Yields (fun w => w.rank ≤ v.rank ∧ w.depth < v.depth) fun w => w.rank < v.rank := by
  obtain ⟨hv, name, hname, htype⟩ := exists_of_ofJson h
  have hown : Fields.rank obj.fields ≤ v.rank := by
    rw [hv]
    exact (Json.rank_object_le.mp le_rfl).1
  refine ⟨fun {key w} hw => ?_, fun {text e w} hkind htext he hw => ?_,
    fun {text w} hkind htext hw => ?_⟩
  · have hget := (Option.filter_eq_some_iff.mp hw).1
    rw [hv]
    exact ⟨Json.rank_le_of_mem le_rfl (Fields.get?_mem hget), Json.depth_lt_of_get? hget⟩
  · have hrank : Fields.rank obj.fields = 2 * marks text.toList := by
      simp [Fields.rank, hname, get?_of_string htext, htype, hkind]
    have hexpand := Short.rank_expand hw
    have hread := Short.marks_of_ofText he
    omega
  · have hrank : Fields.rank obj.fields = 2 * marks text.toList + 1 := by
      simp [Fields.rank, hname, get?_of_string htext, htype, hkind]
    have hlower := Sql.rank_toQl_le hw
    omega

end QlObject

/-- Values of a rank below a bound, and of a depth below one, are closed under what they are built
from. -/
theorem Json.closed_of_rank (bound depth : Nat) :
    Json.Closed (fun w => w.rank ≤ bound ∧ w.depth ≤ depth) fun w => w.rank < bound := by
  refine ⟨fun {vs} hvs v hv => ?_, fun {v obj} hv hobj => ?_⟩
  · have hlt := Json.depth_lt_of_mem hv
    exact ⟨Json.rank_array_le.mp hvs.1 v hv, by omega⟩
  · have hyields := QlObject.yields_of_rank hobj
    refine ⟨fun hw => ?_, fun hkind htext he hw => ?_, fun hkind htext hw => ?_⟩
    · have hlt := hyields.field hw
      omega
    · have hlt := hyields.short hkind htext he hw
      omega
    · have hlt := hyields.sql hkind htext hw
      omega

theorem Json.closed_of_rank_lt (bound : Nat) :
    Json.Closed (fun w => w.rank < bound) fun w => w.rank < bound := by
  refine ⟨fun {vs} hvs v hv => ?_, fun {v obj} hv hobj => ?_⟩
  · exact lt_of_le_of_lt (Json.rank_array_le.mp le_rfl v hv) hvs
  · have hyields := QlObject.yields_of_rank hobj
    refine ⟨fun hw => ?_, fun hkind htext he hw => ?_, fun hkind htext hw => ?_⟩
    · have hlt := hyields.field hw
      omega
    · have hlt := hyields.short hkind htext he hw
      omega
    · have hlt := hyields.sql hkind htext hw
      omega

theorem Json.depth_pos (v : Json) : 0 < v.depth := by
  cases v <;> simp [depth]

/-! ## Bounds -/

theorem ParseOptions.parallel_eq (options : ParseOptions) : options.Parallel Eq options :=
  ⟨rfl, rfl, fun _ h => by rw [h]⟩

namespace Build

variable {options : ParseOptions} {r : List String} {v : Json} {binding binding' : BuildFn}
variable {position : Position} {s : Scope} {n : Node}

/-- Whether two ways to build a value do the same at each position, in scopes that are alike. -/
def SameOn (r : List String) (f g : BuildFn) (v : Json) : Prop :=
  ∀ position s t, s.AlikeAt position t →
    Result.Agree .none (Node.RelatedAt Eq position) (f r position v s) (g r position v t)

/-- Whether two ways to build the values bound to parameters do the same. -/
abbrev SameOnBound (options : ParseOptions) (r : List String) (f g : BuildFn) : Prop :=
  AgreeOnBound .none Scope.Alike Eq options f g r

theorem SameOn.eq {f g : BuildFn} (h : SameOn r f g v) (position : Position) (s : Scope) :
    f r position v s = g r position v s :=
  ((h position s s ((Scope.Alike.refl s).alikeAt position)).imp fun _ _ _ _ hnm => hnm.related).eq

/-- Builders with the same choices agree on a value if they agree on the values of a lower depth, on
those of a lower rank, and on those that are bound. -/
theorem value_agree_of_rank {lax : Result.Excuses Error} (b d : Builder)
    (ho : d.options = b.options)
    (hpart : ∀ w, w.rank ≤ v.rank → w.depth < v.depth → ∀ position s t, s.AlikeAt position t →
      Result.Agree lax (Node.RelatedAt Eq position) (b.part b.resolving position w s)
        (d.part d.resolving position w t))
    (hexpansion : ∀ w, w.rank < v.rank → ∀ position s t, s.AlikeAt position t →
      Result.Agree lax (Node.RelatedAt Eq position) (b.expansion b.resolving position w s)
        (d.expansion d.resolving position w t))
    (hbound : ∀ name {s t}, s.Alike t →
      Result.Agree lax (Option.Rel Eq) (b.boundValue name s) (d.boundValue name t))
    (position : Position) {s t : Scope} (hs : s.AlikeAt position t) :
    Result.Agree lax (Node.RelatedAt Eq position) (b.value position v s)
      (d.value position v t) := by
  have hpositive := v.depth_pos
  have hb : Builder.Parallel (.ofExcuses lax) Scope.Alike Eq
    (fun w => w.rank ≤ v.rank ∧ w.depth ≤ v.depth - 1)
      (fun w => w.rank < v.rank) b d :=
    { plain := fun _ => trivial
      reserved := fun _ => trivial
      scopes := Scope.matching_alike _
      congruence := Node.congruence_eq _
      closed := Json.closed_of_rank _ _
      closedExpanded := Json.closed_of_rank_lt _
      tagged := fun {w} label cast hw => lt_of_le_of_lt (Json.rank_tagged_le le_rfl label cast) hw
      options := ho ▸ b.options.parallel_eq
      part := fun position {w s t} hw hs =>
        (hpart w hw.1 (by omega) position s t hs).meets fun _ _ => trivial
      expansion := fun position {w s t} hw hs =>
        (hexpansion w hw position s t hs).meets fun _ _ => trivial }
  refine (Builder.value_agree hb (fun {vs} hvs w hw => ?_) (fun {obj} hobj => ?_)
    (fun name _ _ _ _ _ hs => (hbound name hs).meets fun _ _ => trivial) hs).agree
  · subst hvs
    have hlt := Json.depth_lt_of_mem hw
    exact ⟨Json.rank_array_le.mp le_rfl w hw, by omega⟩
  · have hyields := QlObject.yields_of_rank hobj
    refine ⟨fun hw => ?_, hyields.short, hyields.sql⟩
    have hlt := hyields.field hw
    exact ⟨hlt.1, by omega⟩

/-- A builder does the same with parts, expansions and bound values that do the same on the values
of a lower depth, on those of a lower rank, and on those that are bound. -/
theorem value_sameOn {part part' : BuildFn}
    (hpart : ∀ w, w.rank ≤ v.rank → w.depth < v.depth → SameOn r part part' w)
    (hexpansion : ∀ w, w.rank < v.rank → SameOn r expansion expansion' w)
    (hbinding : SameOnBound options r binding binding') :
    SameOn r
      (fun r position v s => Builder.value ⟨options, r, part, expansion, binding⟩ position v s)
      (fun r position v s => Builder.value ⟨options, r, part', expansion', binding'⟩ position v s)
        v := by
  intro position s t hs
  refine value_agree_of_rank ⟨options, r, part, expansion, binding⟩
    ⟨options, r, part', expansion', binding'⟩ rfl
    hpart hexpansion (fun name {s t} hs => ?_) position hs
  refine Builder.boundValue_agree ?_ ?_ ?_ name hs
  exacts [options.parallel_eq, rfl, hbinding]

/-- The depth of a value is enough to build it. -/
theorem within_sameOn (hbinding : SameOnBound options r binding binding')
    (hexpansion : ∀ w, w.rank < v.rank → SameOn r expansion expansion' w) {depth depth' : Nat}
    (hdepth : v.depth ≤ depth) (hdepth' : v.depth ≤ depth') :
    SameOn r (within options expansion binding depth)
      (within options expansion' binding' depth') v := by
  induction depth generalizing v depth' with
  | zero =>
    have hpositive := v.depth_pos
    omega
  | succ depth ih =>
    obtain _ | depth' := depth'
    · have hpositive := v.depth_pos
      omega
    · refine value_sameOn (fun w hrank hlt => ?_) hexpansion hbinding
      exact ih (fun u hu => hexpansion u (by omega)) (by omega) (by omega)

/-- The rank of a value is enough to expand the texts inside it. -/
theorem levels_sameOn (hbinding : SameOnBound options r binding binding') {level' : Nat}
    (hlevel : v.rank < level) (hlevel' : v.rank < level') :
    SameOn r (levels options binding level) (levels options binding' level') v := by
  induction level generalizing v level' with
  | zero => omega
  | succ level ih =>
    obtain _ | level' := level'
    · omega
    · have hdepth : v.depth ≤ v.depth + 1 := Nat.le_succ _
      exact within_sameOn hbinding (fun w hw => ih (by omega) (by omega)) hdepth hdepth

private theorem rank_lt_enoughLevels (v : Json) : v.rank + 1 < enoughLevels v := by
  have hle := v.rank_le_textSize
  rw [enoughLevels]
  omega

/-! ## Runs -/

/-- Whether the parameters under resolution leave a run something to do. -/
def Resolvable (options : ParseOptions) (r : List String) : Prop :=
  r.length ≤ (options.parameters.getD []).length

theorem resolvable_nil (options : ParseOptions) : Resolvable options [] := Nat.zero_le _

theorem resolvable_of_run (h : run options r position v s = .ok n) : Resolvable options r := by
  by_contra hr
  have hleft : chainsLeft options r = 0 := by
    rw [Resolvable] at hr
    rw [chainsLeft]
    omega
  rw [run, hleft] at h
  cases h

/-- Runs with the same choices build the same from a value, or fail in the same way, in scopes that
are alike for it. -/
theorem run_eq_of_alikeAt {options' : ParseOptions} (ho : options.Parallel Eq options') {t : Scope}
    (hs : s.AlikeAt position t) (v : Json) :
    run options r position v s = run options' r position v t :=
  ((run_agree (Scope.matching_alike .none) (Node.congruence_eq _) ho r position v s t hs).imp
    fun _ _ _ _ hnm => hnm.related).eq

theorem run_sameOnBound (options : ParseOptions) (r : List String) :
    SameOnBound options r (run options) (run options) :=
  fun _ _ hs => run_agree (Scope.matching_alike _)
    (Node.congruence_eq _) options.parallel_eq _ .expression _ _ _ hs

/-- A run expands texts as often as the rank of its value asks for. -/
theorem run_eq_levels (hr : Resolvable options r) (position : Position) (v : Json) (s : Scope) :
    run options r position v s = levels options (run options) (enoughLevels v) r position v s := by
  rw [Resolvable] at hr
  have hleft : chainsLeft options r = (options.parameters.getD []).length - r.length + 1 := by
    rw [chainsLeft]
    omega
  have hbinding : SameOnBound options r
    (chains options ((options.parameters.getD []).length - r.length))
      (run options) := by
    intro name w s t hw hfresh hs
    have hnext : chainsLeft options (r ++ [name]) =
        (options.parameters.getD []).length - r.length := by
      simp only [chainsLeft, List.length_append, List.length_singleton]
      omega
    have hrun : chains options ((options.parameters.getD []).length - r.length) (r ++ [name]) =
        run options (r ++ [name]) := by
      rw [run, hnext]
    rw [hrun]
    exact run_sameOnBound options r hw hfresh hs
  have hlevel := rank_lt_enoughLevels v
  rw [run, hleft, chains]
  exact (levels_sameOn hbinding (by omega) (by omega)).eq position s

/-- The builder whose parts, expansions and bound values are built by runs. -/
def runner (options : ParseOptions) (r : List String) : Builder :=
  ⟨options, r, run options, run options, run options⟩

/-- A run builds the parts of a value, the values that its texts stand for and those bound to its
parameters by runs. -/
theorem run_eq_value (hr : Resolvable options r) (position : Position) (v : Json) (s : Scope) :
    run options r position v s = (runner options r).value position v s := by
  have hbinding : SameOnBound options r (run options) (run options) := run_sameOnBound options r
  have hlevels : levels options (run options) (enoughLevels v) r position v s =
      Builder.value ⟨options, r, within options (levels options (run options) (enoughLevels v - 1))
        (run options)
        v.depth, levels options (run options) (enoughLevels v - 1), run options⟩ position v s := rfl
  have hrank := rank_lt_enoughLevels v
  rw [run_eq_levels hr, hlevels]
  refine (value_sameOn (fun w hw hdepth => ?_) (fun w hw => ?_) hbinding).eq position s
  · intro position s t hs
    have hlevel := rank_lt_enoughLevels w
    rw [enoughLevels] at hlevel
    rw [run_eq_levels hr]
    exact within_sameOn hbinding (fun u hu => levels_sameOn hbinding (by omega) (by omega))
      (by omega)
      (Nat.le_succ _) position s t hs
  · intro position s t hs
    have hlevel := rank_lt_enoughLevels w
    rw [run_eq_levels hr]
    exact levels_sameOn hbinding (by omega) (by omega) position s t hs

/-- What is built with some number of expansions inside each other is built by a run. -/
theorem run_of_levels (hr : Resolvable options r)
    (hbinding : SameOnBound options r binding (run options))
    (h : levels options binding level r position v s = .ok n) :
    run options r position v s = .ok n := by
  have hraised : Raised (.ofFirst (· = .exhausted)) level (max level (enoughLevels v)) :=
    .inr ⟨le_max_left _ _, rfl⟩
  have hagree := levels_agree (Scope.matching_alike (.ofFirst (· = .exhausted)))
    (Node.congruence_eq _) options.parallel_eq
    (fun hw hfresh hs => (hbinding hw hfresh hs).excuse) hraised position v s s
    ((Scope.Alike.refl s).alikeAt position)
  obtain ⟨m, hm, hnm⟩ := hagree.exists_ok h
  have heq : n = m := hnm.related
  have hrank := rank_lt_enoughLevels v
  rw [run_eq_levels hr, heq, ← hm]
  exact (levels_sameOn (run_sameOnBound options r) (by omega) (lt_max_of_lt_right (by omega))).eq
    position s

/-! ## Parameters under resolution -/

/-- The recursion of the builder: what holds of a value if it holds of those bound to one more
parameter, of those of a lower rank and of those of a lower depth holds of every value. -/
theorem value_induction (options : ParseOptions) {motive : List String → Json → Prop}
    (h : ∀ r v, (∀ name w, Resolvable options r → motive (r ++ [name]) w) →
      (∀ w, w.rank < v.rank → motive r w) →
      (∀ w, w.rank ≤ v.rank → w.depth < v.depth → motive r w) →
      motive r v) (r : List String) (v : Json) : motive r v := by
  induction hleft : (options.parameters.getD []).length + 1 - r.length using Nat.strong_induction_on
    generalizing r v with
  | h left ihBound =>
  induction hrank : v.rank using Nat.strong_induction_on generalizing v with
  | h rank ihRank =>
  induction hdepth : v.depth using Nat.strong_induction_on generalizing v with
  | h depth ihDepth =>
  refine h r v (fun name w hr => ?_) (fun w hw => ihRank w.rank (by omega) w rfl)
    (fun w hw hlt => ?_)
  · refine ihBound _ ?_ (r ++ [name]) w rfl
    rw [Resolvable] at hr
    simp only [List.length_append, List.length_singleton]
    omega
  · obtain hw | hw := Nat.lt_or_eq_of_le hw
    · exact ihRank w.rank (by omega) w rfl
    · exact ihDepth w.depth (by omega) w (by omega) rfl

/-- What is built while some parameters are being resolved is built alike while fewer are. -/
theorem run_agree_of_fewer {r r' : List String} (h : r'.Sublist r) (v : Json) (position : Position)
    {s t : Scope} (hs : s.AlikeAt position t) :
    Result.Agree (.ofFirst fun _ => True) (Node.RelatedAt Eq position) (run options r position v s)
      (run options r' position v t) := by
  induction r, v using value_induction options generalizing r' position s t with
  | h r v ihBound ihExpansion ihPart =>
  -- Failures are excused, so the longer list leaves the run something to do.
  cases hrun : run options r position v s with
  | error e => exact .excused _ trivial
  | ok n =>
    have hr : Resolvable options r := resolvable_of_run hrun
    have hr' : Resolvable options r' := le_trans h.length_le hr
    rw [← hrun, run_eq_value hr, run_eq_value hr']
    refine value_agree_of_rank (runner options r) (runner options r') rfl
      (fun w hrank hdepth position s t hs => ihPart w hrank hdepth h position hs)
      (fun w hrank position s t hs => ihExpansion w hrank h position hs)
        (fun name {s t} hs => ?_) position hs
    cases hbound : (runner options r).boundValue name s with
    | error e => exact .excused _ trivial
    | ok found =>
      obtain ⟨w, n, hw, rfl, hfresh, hn⟩ | ⟨hfree, rfl, hallowed⟩ := Builder.boundValue_cases hbound
      · obtain ⟨m, hm, hnm⟩ :=
          (ihBound name w hr (h.append_right [name]) .expression hs).exists_ok hn
        have hsame : (runner options r').boundValue name t = .ok (some m) :=
          Builder.boundValue_eq_some hw (fun hname => hfresh (h.subset hname)) hm
        rw [hsame]
        exact .ok (.some hnm)
      · have hsame : (runner options r').boundValue name t = .ok none :=
          Builder.boundValue_eq_none hfree hallowed
        rw [hsame]
        exact .ok .none

/-- What is built while some parameters are being resolved is built on its own, too. -/
theorem run_of_resolving (h : run options r position v s = .ok n) :
    run options [] position v s = .ok n := by
  have hs : s.AlikeAt position s := (Scope.Alike.refl s).alikeAt position
  obtain ⟨m, hm, hnm⟩ := (run_agree_of_fewer r.nil_sublist v position hs).exists_ok h
  rw [hm]
  cases position with
  | expression => rw [show n = m from hnm]
  | select role => rw [hnm.1]

end Build

end AnalyticQuery
