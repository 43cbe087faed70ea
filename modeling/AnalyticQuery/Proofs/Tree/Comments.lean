import AnalyticQuery.Proofs.Text.Spacing
import AnalyticQuery.Proofs.Tree.Failures

/-!
# Comments and blanks in the SQL of a tree

The only blanks of the SQL of a tree are single spaces, so making single spaces of them leaves it as
it is. The SQL never opens a comment with a slash and a star. It opens one with two dashes exactly
if a minus sign with one operand is rendered in it, and the operand is a number with a minus sign of
its own. The tree is rendered beside the tree without the texts of its user, and both texts have one
skeleton: these texts reach SQL inside quotes only. For Trino the strings that it looks into are
kept.
-/

namespace AnalyticQuery

open List Quoting Result

/-- What is kept for an engine: the expressions in which it reads a text. -/
def Engine.keeps (engine : Engine) (n : Node) : Bool := engine == .trino && n.readByTrino

namespace Node

variable {options : SqlOptions} {bs : List (Node × Node)} {op : Operator} {role : SelectRole}

/-- The expressions whose SQL begins with a minus sign: negative numbers without a cast, also as
what a parameter, a short expression or a sort item stands for. -/
inductive Negative (options : SqlOptions) : Node → Prop
  | constant {p tag} (sign : p.isNegative = true) (plain : tag.cast = none) :
      Negative options (.constant p tag)
  | context {f args distinct tag id} (value : options.contextId? f.name = some id) (sign : id < 0)
      (plain : tag.cast = none) : Negative options (.call f args distinct tag)
  | bound {name n tag} (value : Negative options n) (inlined : options.keepParamRefs = false)
      (plain : tag.cast = none) : Negative options (.parameter name (some n) tag)
  | short {source n} (inner : Negative options n) : Negative options (.short source n)
  | sort {n direction nulls} (value : Negative options n) :
      Negative options (.sort n direction nulls)

/-- Whether an expression is a minus sign before an operand with a minus sign of its own. -/
def Doubles (options : SqlOptions) (n : Node) : Prop :=
  ∃ operand tag, n = .operation .sub [operand] none tag ∧ operand.Negative options

/-- Whether two minus signs stand next to each other in what is rendered of a tree. -/
def Doubled (options : SqlOptions) (n : Node) : Prop := ∃ m, n.Renders options m ∧ m.Doubles options

/-- The comments that the SQL of some expressions opens. -/
def opened (options : SqlOptions) (ns : List Node) : Set Opener :=
  {o | o = .dashes ∧ ∃ n ∈ ns, n.Doubled options}

/-- What the SQL of an expression says of it, beside the SQL without the texts of the user. -/
structure Told (t : Target) (n : Node) (a b : String) : Prop where
  passes : Passes (opened t.options [n]) [a] [b]
  signed : a.toList.head? = some '-' ↔ n.Negative t.options

/-- An expression whose SQL keeps its skeleton when the texts of the user are left out, and opens a
comment only where two minus signs stand next to each other. -/
def Tells (t : Target) (n : Node) : Prop :=
  ∀ a, n.sql t = .ok a → ∃ b, (n.mask t.engine.keeps).sql t = .ok b ∧ n.Told t a b

section Negative

variable {options : SqlOptions} {n : Node} {tag : Tag}

private theorem negative_constant_iff {p : Primitive} :
    Negative options (.constant p tag) ↔ p.isNegative = true ∧ tag.cast = none := by
  constructor
  · rintro ⟨sign, plain⟩
    exact ⟨sign, plain⟩
  · rintro ⟨sign, plain⟩
    exact .constant sign plain

private theorem negative_call_iff {f : FunctionSpec} {args : List Node} {distinct : Bool} :
    Negative options (.call f args distinct tag) ↔
      (∃ id, options.contextId? f.name = some id ∧ id < 0) ∧ tag.cast = none := by
  constructor
  · intro h
    cases h with
    | context value sign plain => exact ⟨⟨_, value, sign⟩, plain⟩
  · rintro ⟨⟨id, value, sign⟩, plain⟩
    exact .context value sign plain

private theorem negative_parameter_iff {name : String} :
    Negative options (.parameter name (some n) tag) ↔
    n.Negative options ∧ options.keepParamRefs = false ∧ tag.cast = none := by
  constructor
  · intro h
    cases h with
    | bound value inlined plain => exact ⟨value, inlined, plain⟩
  · rintro ⟨value, inlined, plain⟩
    exact .bound value inlined plain

private theorem negative_short_iff {source : Short} :
    Negative options (.short source n) ↔ n.Negative options := by
  constructor
  · rintro ⟨⟩
    assumption
  · exact .short

private theorem negative_sort_iff {direction : Option SortDirection} {nulls : Option NullsOrder} :
    Negative options (.sort n direction nulls) ↔ n.Negative options := by
  constructor
  · rintro ⟨⟩
    assumption
  · exact .sort

end Negative

variable {t : Target} {n : Node} {ns ms : List Node} {o : Option Node} {a b : String}
  {xs : List String}
variable {x : Option String} {D : Set Opener} {name : String} {tag : Tag}

/-! ## Lists of parts -/

@[simp]
private theorem mem_opened {o : Opener} :
    o ∈ opened options ns ↔ o = .dashes ∧ ∃ n ∈ ns, n.Doubled options := Iff.rfl

private theorem opened_nil : opened options [] = ∅ := by
  ext o
  simp

private theorem opened_append :
    opened options (ns ++ ms) = opened options ns ∪ opened options ms := by
  ext o
  simp only [mem_opened, mem_append, or_and_right, exists_or, and_or_left, Set.mem_union]

/-- An expression that adds no sign opens the comments of its rendered parts. -/
theorem opened_singleton (hn : ¬n.Doubles options) :
    opened options [n] = opened options (n.renderedParts options) := by
  ext o
  have hdoubled : n.Doubled options ↔ ∃ k ∈ n.renderedParts options, k.Doubled options :=
    exists_renders_iff.trans (or_iff_right hn)
  simp [hdoubled]

/-- What holds of each item before and after a change holds of the whole lists. -/
theorem passes_mapM {α : Type} (parts : α → List Node) {f : α → Result String} {g : α → α}
    {items : List α}
    (h : ∀ x ∈ items, ∀ a, f x = .ok a → ∃ b, f (g x) = .ok b ∧
      Passes (opened options (parts x)) [a] [b])
    (hxs : items.mapM f = .ok xs) :
    ∃ ys, (items.map g).mapM f = .ok ys ∧ Passes (opened options (items.flatMap parts)) xs ys := by
  simp only [mapM_eq_ok_iff, forall₂_map_left_iff] at hxs ⊢
  induction hxs with
  | nil => exact ⟨[], .nil, opened_nil ▸ .nil⟩
  | @cons x a items xs ha _ ih =>
    obtain ⟨b, hb, hab⟩ := h x mem_cons_self a ha
    obtain ⟨ys, hys, hxys⟩ := ih fun y hy => h y (mem_cons_of_mem x hy)
    rw [flatMap_cons, opened_append]
    exact ⟨b :: ys, .cons hb hys, hab.append hxys⟩

private theorem passes_sqlAll (h : ∀ n ∈ ns, n.Tells t) (hxs : sqlAll t ns = .ok xs) :
    ∃ ys, sqlAll t (maskAll t.engine.keeps ns) = .ok ys ∧ Passes (opened t.options ns) xs ys := by
  have hitem : ∀ n ∈ ns, ∀ a, n.sql t = .ok a → ∃ b, (n.mask t.engine.keeps).sql t = .ok b ∧
      Passes (opened t.options [n]) [a] [b] := by
    intro n hn a ha
    obtain ⟨b, hb, htold⟩ := h n hn a ha
    exact ⟨b, hb, htold.passes⟩
  rw [sqlAll_eq] at hxs
  rw [sqlAll_eq, maskAll_eq]
  simpa using passes_mapM (fun n => [n]) hitem hxs

/-- An alias does not show in the skeleton but by being there. -/
theorem Tells.sqlAliased (h : n.Tells t) (ha : n.sqlAliased t = .ok a) :
    ∃ b, (n.mask t.engine.keeps).sqlAliased t = .ok b ∧ Passes (opened t.options [n]) [a] [b] := by
  obtain ⟨body, hbody, ha⟩ := of_bind ha
  cases ha
  obtain ⟨body', hbody', htold⟩ := h body hbody
  exact ⟨_, bind_eq_ok.mpr ⟨body', hbody', rfl⟩,
    aliasedSql_passes (isSome_alias?_mask t.engine.keeps n) htold.passes⟩

private theorem passes_sqlAliasedAll (h : ∀ n ∈ ns, n.Tells t) (hxs : sqlAliasedAll t ns = .ok xs) :
    ∃ ys, sqlAliasedAll t (maskAll t.engine.keeps ns) = .ok ys ∧
      Passes (opened t.options ns) xs ys := by
  rw [sqlAliasedAll_eq] at hxs
  rw [sqlAliasedAll_eq, maskAll_eq]
  simpa using passes_mapM (fun n => [n]) (fun n hn _ ha => (h n hn).sqlAliased ha) hxs

private theorem passes_sqlCtes (h : ∀ n ∈ ns, n.Tells t) (hxs : sqlCtes t ns = .ok xs) :
    ∃ ys, sqlCtes t (maskAll t.engine.keeps ns) = .ok ys ∧ Passes (opened t.options ns) xs ys := by
  have hcte : ∀ n ∈ ns, ∀ a, cteSql t n = .ok a → ∃ b, cteSql t (n.mask t.engine.keeps) = .ok b ∧
      Passes (opened t.options [n]) [a] [b] := by
    intro n hn a ha
    unfold cteSql at ha ⊢
    have hlabel := isSome_alias?_mask t.engine.keeps n
    cases hname : n.alias? with
    | none =>
      rw [hname] at ha
      cases ha
    | some name =>
      obtain ⟨name', hname'⟩ := Option.isSome_iff_exists.mp (hlabel.symm.trans (by rw [hname]; rfl))
      rw [hname] at ha
      rw [hname']
      obtain ⟨body, hbody, ha⟩ := of_bind ha
      cases ha
      obtain ⟨body', hbody', htold⟩ := h n hn body hbody
      exact ⟨_, bind_eq_ok.mpr ⟨body', hbody', rfl⟩, cteSql_passes name name' htold.passes⟩
  rw [sqlCtes_eq] at hxs
  rw [sqlCtes_eq, maskAll_eq]
  simpa using passes_mapM (fun n => [n]) hcte hxs

private theorem passes_branches (hc : ∀ b ∈ bs, b.1.Tells t) (hr : ∀ b ∈ bs, b.2.Tells t)
    (hxs : bs.mapM (branchSql t) = .ok xs) :
    ∃ ys, (maskBranches t.engine.keeps bs).mapM (branchSql t) = .ok ys ∧
      Passes (opened t.options (bs.flatMap fun (c, r) => [c, r])) xs ys := by
  rw [maskBranches_eq]
  refine passes_mapM _ (fun b hb a ha => ?_) hxs
  obtain ⟨condition, hcondition, ha⟩ := of_bind ha
  obtain ⟨result, hresult, ha⟩ := of_bind ha
  cases ha
  obtain ⟨condition', hcondition', htold⟩ := hc b hb _ hcondition
  obtain ⟨result', hresult', htold'⟩ := hr b hb _ hresult
  have hparts := htold.passes.append htold'.passes
  rw [← opened_append] at hparts
  exact ⟨_, bind_eq_ok.mpr ⟨_, hcondition', bind_eq_ok.mpr ⟨_, hresult', rfl⟩⟩,
    branchSql_passes hparts⟩

private theorem passes_sqlOption (h : ∀ n ∈ o, n.Tells t) (hx : sqlOption t o = .ok x) :
    ∃ y, sqlOption t (maskOption t.engine.keeps o) = .ok y ∧
      Passes (opened t.options o.toList) x.toList y.toList := by
  cases o with
  | none =>
    cases hx
    exact ⟨none, rfl, opened_nil ▸ .nil⟩
  | some n =>
    obtain ⟨a, ha, hx⟩ := of_bind hx
    cases hx
    obtain ⟨b, hb, htold⟩ := h n rfl a ha
    exact ⟨some b, bind_eq_ok.mpr ⟨b, hb, rfl⟩, htold.passes⟩

private theorem passes_sqlAliasedOption (h : ∀ n ∈ o, n.Tells t)
    (hx : sqlAliasedOption t o = .ok x) :
    ∃ y, sqlAliasedOption t (maskOption t.engine.keeps o) = .ok y ∧
      Passes (opened t.options o.toList) x.toList y.toList := by
  cases o with
  | none =>
    cases hx
    exact ⟨none, rfl, opened_nil ▸ .nil⟩
  | some n =>
    obtain ⟨a, ha, hx⟩ := of_bind hx
    cases hx
    obtain ⟨b, hb, htold⟩ := h n rfl a ha
    exact ⟨_, bind_eq_ok.mpr ⟨b, hb, rfl⟩,
      aliasedSql_passes (isSome_alias?_mask t.engine.keeps n) htold.passes⟩

/-! ## Expressions -/

/-- SQL around the rendered parts, of an expression without a sign. -/
theorem tells_of_tracks (hn : ¬n.Doubles t.options) (hsign : ¬n.Negative t.options)
    (hparts : opened t.options (n.renderedParts t.options) = D)
    (h : Tracks D (n.sql t) ((n.mask t.engine.keeps).sql t)) : n.Tells t := by
  intro a ha
  obtain ⟨b, hb, hframes⟩ := h a ha
  exact ⟨b, hb, (opened_singleton hn).trans hparts ▸ hframes.passes,
    iff_of_false hframes.unsigned hsign⟩

private theorem column_tells (c : Column) (tag : Tag) : (column c tag).Tells t := by
  have hname : c.isWildcard = c.masked.isWildcard := by
    unfold Column.masked Column.isWildcard
    split <;> simp_all
  refine tells_of_tracks (by rintro ⟨_, _, ⟨⟩, _⟩) nofun opened_nil ?_
  rw [mask, sql, sql]
  exact (Column.sql_frames hname (by simp [Column.masked])).withCast

/-- A constant keeps its text where Trino reads it, and has none otherwise. -/
theorem mask_constant (p : Primitive) (tag : Tag) :
    ∃ p', (constant p tag).mask t.engine.keeps = constant p' tag.masked ∧
      Passes ∅ [p.sql] [p'.sql] ∧
      p.string?.isSome = p'.string?.isSome ∧
      (t.engine = .trino → tag.cast = some .interval → p.string? = p'.string?) := by
  obtain ⟨hpasses, -⟩ := p.sql_passes
  by_cases hkept : t.engine.keeps (constant p tag) = true
  · refine ⟨p, by rw [mask, if_pos hkept], ?_, rfl, fun _ _ => rfl⟩
    exact hpasses.refl
  · refine ⟨p.masked,
      by rw [mask, if_neg hkept], hpasses, by cases p <;> rfl, fun hengine hcast => ?_⟩
    cases p with
    | string text => exact absurd (by simp [Engine.keeps, readByTrino, hengine, hcast]) hkept
    | _ => rfl

private theorem constant_tells (p : Primitive) (tag : Tag) : (constant p tag).Tells t := by
  obtain ⟨p', hmask, hpasses, htext, hinterval⟩ := mask_constant (t := t) p tag
  have hdoubles : ¬(constant p tag).Doubles t.options := by rintro ⟨_, _, ⟨⟩, _⟩
  have hopened := (opened_singleton hdoubles).trans opened_nil
  cases hcast : tag.cast with
  | none =>
    intro a ha
    rw [sql, hcast] at ha
    cases ha
    refine ⟨p'.sql, by rw [hmask, sql, Tag.masked, hcast]; rfl, hopened ▸ hpasses, ?_⟩
    simp [p.sql_passes.2, negative_constant_iff, hcast]
  | some type =>
    refine tells_of_tracks hdoubles (by simp [negative_constant_iff, hcast]) opened_nil ?_
    rw [hmask, sql, sql, Tag.masked, hcast]
    exact cast_tracks hpasses (fun _ => rfl) htext fun hengine htype =>
      hinterval hengine (htype ▸ hcast)

/-- A parameter that is not kept as a reference is rendered as what it stands for. -/
theorem bound_tells (hkeep : t.options.keepParamRefs = false) (h : n.Tells t) :
    (parameter name (some n) tag).Tells t := by
  have hdoubles : ¬(parameter name (some n) tag).Doubles t.options := by rintro ⟨_, _, ⟨⟩, _⟩
  have hparts : (parameter name (some n) tag).renderedParts t.options = [n] := by
    simp [renderedParts, hkeep]
  have hopened := hparts ▸ opened_singleton hdoubles
  have hsql : ∀ m tag, sql t (parameter name (some m) tag) =
      m.sql t >>= t.withCast tag.cast none := by
    intro m tag
    rw [sql, if_neg (by simp [hkeep]), sqlOption]
    cases m.sql t <;> rfl
  intro a ha
  rw [hsql] at ha
  rw [mask, maskOption, hsql]
  obtain ⟨body, hbody, ha⟩ := of_bind ha
  obtain ⟨body', hbody', htold⟩ := h body hbody
  cases hcast : tag.cast with
  | none =>
    rw [hcast] at ha
    cases ha
    refine ⟨body', by rw [hbody', ok_bind, Tag.masked, hcast]; rfl, hopened ▸ htold.passes, ?_⟩
    simp [htold.signed, negative_parameter_iff, hkeep, hcast]
  | some type =>
    rw [hcast] at ha
    obtain ⟨b, hb, hframes⟩ := cast_tracks htold.passes (absurd rfl) rfl (fun _ _ => rfl) a ha
    refine ⟨b, by rw [hbody', ok_bind, Tag.masked, hcast]; exact hb, hopened ▸ hframes.passes, ?_⟩
    exact iff_of_false hframes.unsigned (by simp [negative_parameter_iff, hcast])

private theorem parameter_tells (h : ∀ n ∈ o, n.Tells t) : (parameter name o tag).Tells t := by
  have hdoubles : ¬(parameter name o tag).Doubles t.options := by rintro ⟨_, _, ⟨⟩, _⟩
  have hnull : Frames ∅ "NULL" "NULL" := frames_fixed (by decide)
  cases hkeep : t.options.keepParamRefs with
  | true =>
    refine tells_of_tracks (D := ∅) hdoubles ?_ (by simp [renderedParts, hkeep, opened_nil]) ?_
    · cases o with
      | none => rintro ⟨⟩
      | some n => simp [negative_parameter_iff, hkeep]
    · rw [mask, sql, sql, if_pos hkeep, if_pos hkeep]
      exact hnull.withCast
  | false =>
    cases o with
    | none =>
      refine tells_of_tracks (D := ∅) hdoubles (by rintro ⟨⟩)
        (by simp [renderedParts, opened_nil]) ?_
      rw [mask, sql, sql, hkeep, if_neg (by rintro ⟨⟩), if_neg (by rintro ⟨⟩)]
      exact hnull.withCast
    | some n => exact bound_tells hkeep (h n rfl)

section Call

variable {f : FunctionSpec} {args : List Node} {distinct : Bool}

/-- The arguments that a call has without the texts of the user. -/
def maskedArgs (keep : Node → Bool) (n : Node) (args : List Node) : List Node :=
  if keep n then args else maskAll keep args

private theorem mask_call : (call f args distinct tag).mask keep =
    call f (maskedArgs keep (call f args distinct tag) args) distinct tag.masked := by
  rw [mask, maskedArgs]
  split <;> rfl

/-- The arguments of a call have the same skeletons, and the same texts where Trino reads them. -/
theorem passes_arguments (h : ∀ n ∈ args, n.Tells t) (hxs : sqlAll t args = .ok xs) :
    ∃ ys, sqlAll t (maskedArgs t.engine.keeps (call f args distinct tag) args) = .ok ys ∧
      Passes (opened t.options args) xs ys ∧
        (t.engine = .trino → f.name = "date_part" → xs = ys) := by
  obtain ⟨ys, hys, hxys⟩ := passes_sqlAll h hxs
  by_cases hkept : t.engine.keeps (call f args distinct tag) = true
  · exact ⟨xs, by rw [maskedArgs, if_pos hkept, hxs], hxys.refl, fun _ _ => rfl⟩
  · refine ⟨ys, by rw [maskedArgs, if_neg hkept, hys], hxys, fun hengine hname => absurd ?_ hkept⟩
    simp [Engine.keeps, readByTrino, hengine, hname]

/-- Only the context functions stand for an identifier. -/
theorem name_of_contextId? {options : SqlOptions} {id : Int}
    (h : options.contextId? name = some id) : name = "whitelabel_id" ∨ name = "customer_id" := by
  unfold SqlOptions.contextId? at h
  split at h
  · exact .inl rfl
  · exact .inr rfl
  · cases h

/-- A value of the context has no arguments and no cast but its own. -/
theorem context_tells (known : FunctionRegistry.standard.get? f.name = some f)
    (arity : f.arity.accepts args.length = true) (hcategory : f.category = .context) :
    (call f args distinct tag).Tells t := by
  have hf := FunctionRegistry.renderable_of_get? known
  rw [hf.contextArity hcategory] at arity
  obtain rfl := length_eq_zero_iff.mp (by simpa [Arity.accepts] using arity)
  have hdoubles : ¬(call f [] distinct tag).Doubles t.options := by rintro ⟨_, _, ⟨⟩, _⟩
  have hopened := (opened_singleton hdoubles).trans opened_nil
  have hsql : ∀ args tag, sql t (call f args distinct tag) =
      contextValue t.options f.name >>= t.withCast tag.cast none := by
    intro args tag
    rw [sql, if_pos (beq_iff_eq.mpr hcategory), hf.contextCast hcategory]
    cases tag.cast <;> rfl
  intro a ha
  rw [hsql] at ha
  obtain ⟨body, hbody, ha⟩ := of_bind ha
  obtain ⟨id, hid, rfl⟩ := contextValue_eq_ok hbody
  have hnumeral := numeral_toString id
  rw [mask_call, hsql, hbody, ok_bind]
  cases hcast : tag.cast with
  | none =>
    rw [hcast] at ha
    cases ha
    refine ⟨_, by rw [Tag.masked, hcast]; rfl, hopened ▸ hnumeral.passes, ?_⟩
    exact hnumeral.head?_eq_minus_iff.trans (by simp [negative_call_iff, hid, hcast])
  | some type =>
    rw [hcast] at ha
    obtain ⟨b, hb, hframes⟩ := cast_tracks hnumeral.passes (absurd rfl) rfl (fun _ _ => rfl) a ha
    refine ⟨b, by rw [Tag.masked, hcast]; exact hb, hopened ▸ hframes.passes, ?_⟩
    exact iff_of_false hframes.unsigned (by simp [negative_call_iff, hcast])

private theorem call_tells (known : FunctionRegistry.standard.get? f.name = some f)
    (arity : f.arity.accepts args.length = true) (h : ∀ n ∈ args, n.Tells t) :
    (call f args distinct tag).Tells t := by
  by_cases hcontext : f.category = .context
  · exact context_tells known arity hcontext
  · have hf := FunctionRegistry.renderable_of_get? known
    refine tells_of_tracks (by rintro ⟨_, _, ⟨⟩, _⟩) (fun hsign => ?_) rfl ?_
    · obtain ⟨⟨id, hid, -⟩, -⟩ := negative_call_iff.mp hsign
      exact hcontext (hf.context.mpr (name_of_contextId? hid))
    · have hcategory : ¬(f.category == .context) = true := by simpa using hcontext
      rw [mask_call, sql, sql, if_neg hcategory, if_neg hcategory]
      exact .bind (passes_arguments h) fun hxys =>
        .bind (call_tracks known hxys.1 hxys.2 _) (·.withCast)

end Call

private theorem geometry_tells {type : GeometryType} (h : ∀ n ∈ ns, n.Tells t) :
    (geometry type ns tag).Tells t := by
  refine tells_of_tracks (by rintro ⟨_, _, ⟨⟩, _⟩) nofun rfl ?_
  rw [mask, sql, sql]
  exact .bind (passes_sqlAll h) fun hxys => .bind (geometry_tracks hxys _) (·.withCast)

/-- A minus sign opens a comment where its operand begins with one. -/
theorem minus_tells (h : n.Tells t) : (operation .sub [n] none tag).Tells t := by
  have hdoubled : (operation .sub [n] none tag).Doubled t.options ↔
      n.Negative t.options ∨ n.Doubled t.options := by
    refine exists_renders_iff.trans (or_congr ⟨?_, fun hn => ⟨n, tag, rfl, hn⟩⟩ ?_)
    · rintro ⟨_, _, ⟨⟩, hn⟩
      exact hn
    · simp [renderedParts, children, Doubled]
  have hsql : ∀ m tag, sql t (operation .sub [m] none tag) =
      m.sql t >>= fun a => t.withCast tag.cast none ("(-" ++ a ++ ")") := by
    intro m tag
    rw [sql, sqlAll, sqlAll]
    cases m.sql t with
    | error => rfl
    | ok a => simp only [ok_bind, pure_eq_ok, Engine.comparison, operation_minus]
  intro a ha
  rw [hsql] at ha
  rw [mask, maskAll, maskAll, hsql]
  obtain ⟨body, hbody, ha⟩ := of_bind ha
  obtain ⟨body', hbody', htold⟩ := h body hbody
  have hopened : opened t.options [n] ∪ {o | o = .dashes ∧ body.toList.head? = some '-'} =
      opened t.options [operation .sub [n] none tag] := by
    ext o
    simp [hdoubled, htold.signed]
    tauto
  have hframes : Frames _ ("(-" ++ body ++ ")") ("(-" ++ body' ++ ")") :=
    ⟨minus_passes htold.passes, by simp⟩
  obtain ⟨b, hb, hframes⟩ := hframes.withCast a ha
  refine ⟨b, ?_, hopened ▸ hframes.passes, iff_of_false hframes.unsigned (by rintro ⟨⟩)⟩
  rw [hbody', ok_bind]
  exact hb

/-- Of the operators between two operands only the minus sign takes one. -/
theorem eq_sub_of_accepts (hshape : op.shape = .binary) (harity : op.arity.accepts 1 = true) :
    op = .sub := by
  cases op <;> first | rfl | exact absurd harity (by decide) | exact absurd hshape (by decide)

private theorem operation_tells {qualifier : Option Qualifier}
    (arity : op.arity.accepts ns.length = true) (h : ∀ n ∈ ns, n.Tells t) :
    (operation op ns qualifier tag).Tells t := by
  by_cases hminus : ∃ m, op = .sub ∧ ns = [m] ∧ qualifier = none
  · obtain ⟨m, rfl, rfl, rfl⟩ := hminus
    exact minus_tells (h m mem_cons_self)
  · have hdoubles : ¬(operation op ns qualifier tag).Doubles t.options := by
      rintro ⟨m, _, ⟨⟩, -⟩
      exact hminus ⟨m, rfl, rfl, rfl⟩
    have hone : qualifier = none → op.shape = .binary → ns.length ≠ 1 := by
      rintro hqualifier hshape hlength
      rw [hlength] at arity
      obtain ⟨m, rfl⟩ := length_eq_one_iff.mp hlength
      exact hminus ⟨m, eq_sub_of_accepts hshape arity, rfl, hqualifier⟩
    refine tells_of_tracks hdoubles nofun rfl ?_
    rw [mask, sql, sql]
    refine .bind (Q := fun xs ys => Passes (opened t.options ns) xs ys ∧ ns.length = xs.length)
      (fun hxs => ?_) fun hxys => .bind (comparison_tracks hxys.1 (hxys.2 ▸ hone) _) (·.withCast)
    obtain ⟨ys, hys, hxys⟩ := passes_sqlAll h hxs
    exact ⟨ys, hys, hxys, length_of_sqlAll hxs⟩

private theorem case_tells (hc : ∀ b ∈ bs, b.1.Tells t) (hr : ∀ b ∈ bs, b.2.Tells t)
    (ho : ∀ n ∈ o, n.Tells t) : (case bs o tag).Tells t := by
  refine tells_of_tracks (by rintro ⟨_, _, ⟨⟩, _⟩) nofun opened_append ?_
  rw [mask, sql, sql]
  simp only [sqlBranches_eq, bind_assoc, ok_bind]
  exact .bind (passes_branches hc hr) fun hxys =>
    .bind (passes_sqlOption ho) fun hoo => (caseSql_frames hxys hoo).withCast

private theorem array_tells (h : ∀ n ∈ ns, n.Tells t) : (array ns tag).Tells t := by
  refine tells_of_tracks (by rintro ⟨_, _, ⟨⟩, _⟩) nofun rfl ?_
  rw [mask, sql, sql]
  exact .bind (passes_sqlAll h) fun hxys => (array_frames hxys).withCast

private theorem list_tells (h : ∀ n ∈ ns, n.Tells t) : (list ns).Tells t := by
  refine tells_of_tracks (by rintro ⟨_, _, ⟨⟩, _⟩) nofun rfl ?_
  rw [mask, sql, sql]
  exact .bind (passes_sqlAll h) fun hxys => .ok (list_frames hxys)

private theorem sort_tells {direction : Option SortDirection} {nulls : Option NullsOrder}
    (h : n.Tells t) :
    (sort n direction nulls).Tells t := by
  intro a ha
  rw [sql] at ha
  obtain ⟨body, hbody, ha⟩ := of_bind ha
  cases ha
  obtain ⟨body', hbody', htold⟩ := h body hbody
  obtain ⟨hpasses, hsigned⟩ := sortSql_passes direction nulls htold.passes
  have hopened : opened t.options [sort n direction nulls] = opened t.options [n] :=
    opened_singleton (by rintro ⟨_, _, ⟨⟩, _⟩)
  refine ⟨_, ?_, hopened ▸ hpasses, hsigned.trans (htold.signed.trans negative_sort_iff.symm)⟩
  rw [mask, sql, hbody']
  rfl

private theorem short_tells {source : Short} (h : n.Tells t) : (short source n).Tells t := by
  intro a ha
  rw [sql_short] at ha
  obtain ⟨b, hb, htold⟩ := h a ha
  have hopened : opened t.options [short source n] = opened t.options [n] :=
    opened_singleton (by rintro ⟨_, _, ⟨⟩, _⟩)
  exact ⟨b,
    by rw [mask, sql_short, hb], hopened ▸ htold.passes, htold.signed.trans negative_short_iff.symm⟩

private theorem compound_tells {op : SetOperator} {all : Bool} {left right : Node}
    (hl : left.Tells t) (hr : right.Tells t) : (compound role op all left right tag).Tells t := by
  refine tells_of_tracks (by rintro ⟨_, _, ⟨⟩, _⟩) nofun
    (opened_append : opened _ ([left] ++ [right]) = _) ?_
  rw [mask, sql, sql]
  exact .bind (hl _) fun hll => .bind (hr _) fun hrr =>
    ((setSql_frames op all (hll.passes.append hrr.passes)).wrap role).withCast

private theorem join_tells {type : JoinType} (condition : o.isSome = type.hasCondition)
    (hn : n.Tells t) (ho : ∀ m ∈ o, m.Tells t) : (join type n o).Tells t := by
  refine tells_of_tracks (by rintro ⟨_, _, ⟨⟩, _⟩) nofun
    (opened_append : opened _ ([n] ++ o.toList) = _) ?_
  rw [mask, sql, sql]
  refine .bind (hn _) fun hnn => ?_
  have hrelation := aliasedSql_passes (isSome_alias?_mask t.engine.keeps n) hnn.passes
  cases type
  case cross | lateral =>
    obtain rfl : o = none := by simpa [JoinType.hasCondition] using condition
    refine .ok (joinSql_frames _ (fun _ => rfl) (hrelation.append ?_))
    exact opened_nil ▸ .nil
  all_goals
    exact .bind (passes_sqlOption ho) fun hoo =>
      .ok (joinSql_frames _ (by simp) (hrelation.append hoo))

private theorem view_tells (name : String) (isCte : Bool) (label : Option String) :
    (view name isCte label).Tells t := by
  refine tells_of_tracks (by rintro ⟨_, _, ⟨⟩, _⟩) nofun opened_nil ?_
  rw [mask, sql, sql]
  exact .ok (frames_quoteIdent name "")

private theorem select_tells {c : Clauses Node} (nonempty : c.columns ≠ [])
    (h : ∀ n ∈ c.parts, n.Tells t) :
    (select role c tag).Tells t := by
  obtain ⟨withs, source, joins, distinct, columns, filter, groupBy, having, orderBy, limit,
    offset⟩ := c
  simp only [Clauses.parts, mem_append, Option.mem_toList] at h
  refine tells_of_tracks (by rintro ⟨_, _, ⟨⟩, _⟩) nofun rfl ?_
  simp only [renderedParts, children, Clauses.parts, opened_append]
  rw [mask, sql, sql]
  refine .bind (passes_sqlCtes fun n hn => h n (by simp [hn])) fun hwiths => ?_
  refine .bind (Q := fun xs ys => Passes (opened t.options columns) xs ys ∧ xs ≠ []) (fun hxs => ?_)
    fun hcolumns => ?_
  · obtain ⟨ys, hys, hxys⟩ := passes_sqlAliasedAll (fun n hn => h n (by simp [hn])) hxs
    refine ⟨ys, hys, hxys, ?_⟩
    rintro rfl
    rw [sqlAliasedAll_eq, mapM_eq_ok_iff, forall₂_nil_right_iff] at hxs
    exact nonempty hxs
  refine .bind (passes_sqlAliasedOption fun n hn => h n (by simp_all)) fun hsource => ?_
  refine .bind (passes_sqlAll fun n hn => h n (by simp [hn])) fun hjoins => ?_
  refine .bind (passes_sqlOption fun n hn => h n (by simp_all)) fun hfilter => ?_
  refine .bind (passes_sqlAll fun n hn => h n (by simp [hn])) fun hgroupBy => ?_
  refine .bind (passes_sqlOption fun n hn => h n (by simp_all)) fun hhaving => ?_
  refine .bind (passes_sqlAll fun n hn => h n (by simp [hn])) fun horderBy => ?_
  refine Frames.withCast (Frames.wrap ?_ role)
  exact clausesSql_frames t.engine hwiths hsource hjoins rfl hcolumns.1 hcolumns.2 hfilter hgroupBy
    hhaving horderBy rfl rfl

end Node

/-- What holds of the parts of a select in the scopes where they are built holds of all of them. -/
theorem Clauses.forall_parts {P : Node → Prop} {c : Clauses Node} {s s₁ s₂ s₃ : Scope}
    (afterWiths : s.afterCtes c.withs = .ok s₁) (afterJoins : s₂.afterJoins c.joins = .ok s₃)
    (withs : ∀ before n after t, c.withs = before ++ n :: after → s.afterCtes before = .ok t → P n)
    (source : ∀ n ∈ c.source, P n)
    (joins : ∀ before n after t, c.joins = before ++ n :: after →
      s₂.afterJoins before = .ok t → P n)
    (values : ∀ n ∈ c.values, P n) : ∀ n ∈ c.parts, P n := by
  intro n hn
  simp only [Clauses.parts_eq, List.mem_append, Option.mem_toList] at hn
  obtain ((hn | hn) | hn) | hn := hn
  · obtain ⟨before, after, t, hsplit, ht⟩ := exists_split_of_mem afterWiths hn
    exact withs before n after t hsplit ht
  · exact source n hn
  · obtain ⟨before, after, t, hsplit, ht⟩ := exists_split_of_mem afterJoins hn
    exact joins before n after t hsplit ht
  · exact values n hn

open Node in
/-- The SQL of a built tree keeps its skeleton when the texts of the user are left out, and opens a
comment only where two minus signs stand next to each other. -/
theorem Built.tells {options : ParseOptions} {r : List String} {place : Place} {s : Scope}
    {n : Node} (t : Target) (h : Built options r place s n) : n.Tells t := by
  induction h with
  | constant => exact constant_tells _ _
  | column => exact column_tells _ _
  | bound _ _ _ _ _ _ _ ih => exact parameter_tells (by rintro _ ⟨⟩; exact ih)
  | free => exact parameter_tells (by simp)
  | call known _ arity _ _ ih => exact call_tells known.1 arity ih
  | geometry _ _ _ ih => exact geometry_tells ih
  | operation _ arity _ _ _ ih => exact operation_tells arity ih
  | case _ _ _ _ _ ihc ihr iho => exact case_tells ihc ihr iho
  | array _ _ ih => exact array_tells ih
  | list _ _ ih => exact list_tells ih
  | sort _ ih => exact sort_tells ih
  | short _ _ _ ih => exact short_tells ih
  | select _ _ afterWiths _ afterJoins _ _ _ nonempty _ _ _ ihwiths ihsource ihjoins ihvalues =>
    exact select_tells nonempty
      (Clauses.forall_parts afterWiths afterJoins ihwiths ihsource ihjoins ihvalues)
  | compound _ _ _ _ ihl ihr => exact compound_tells ihl ihr
  | view => exact view_tells _ _ _
  | join _ _ condition _ ih iho => exact join_tells condition ih iho

/-- The SQL of a tree with its alias opens the comments of the tree. -/
theorem Node.Tells.aliased {t : Target} {n : Node} {a : String} (h : n.Tells t)
    (ha : n.sqlAliased t = .ok a) :
    Passes (opened t.options [n]) [a] [a] := by
  obtain ⟨_, -, hpasses⟩ := h.sqlAliased ha
  exact hpasses.refl

namespace Query

variable {value : Json} {parse : ParseOptions} {query : Query}

theorem tells_of_read (h : read value parse = .ok query) (t : Target) : query.root.Tells t := by
  obtain hroot | hvalue := read_built h
  · exact hroot.tells t
  · exact hvalue.tells t

private theorem squeeze_sqlAliased (hread : read value parse = .ok query) {t : Target}
    {text : String} (htext : query.root.sqlAliased t = .ok text) : Text.squeeze text = text :=
  (((tells_of_read hread t).aliased htext).solid text List.mem_cons_self).squeeze

/-- Making single spaces does no harm. It keeps the items of every text and their order, with one
space between two of them where there were blanks, and none at the ends; what it makes it leaves as
it is. The SQL of a query that was read stays as it is. -/
theorem squeeze_harmless :
    (∀ s : String, Text.squeeze (Text.squeeze s) = Text.squeeze s ∧
      (∃ items tail, Text.Layout s.toList items tail) ∧
      ∀ items tail, Text.Layout s.toList items tail →
        Text.Layout (Text.squeeze s).toList (Text.spaceItems false items) []) ∧
    ∀ value parse query (engine : Engine) options text, read value parse = .ok query →
      query.root.sqlAliased ⟨engine, options⟩ = .ok text → Text.squeeze text = text :=
  ⟨fun s => ⟨Text.squeeze_squeeze s, Text.Layout.exists s.toList, fun _ _ h => h.squeeze⟩,
    fun _ _ _ _ _ _ hread htext => squeeze_sqlAliased hread htext⟩

/-- Blanks stay in a string and in a name, and single spaces are made of others. -/
theorem squeeze_harmless_quoted :
    ∃ query,
      read (.object [("type", .string "select"), ("from", .string "v\t w"), ("columns", .array
        [.string " a  'b  "])]) {} = .ok query ∧
      query.root.sqlAliased ⟨.trino, {}⟩ = .ok "SELECT ' a  ''b  ' FROM \"v\t w\"" ∧
      Text.squeeze "SELECT ' a  ''b  ' FROM \"v\t w\"" = "SELECT ' a  ''b  ' FROM \"v\t w\"" ∧
      Text.squeeze "  SELECT ' a  ''b  '\n FROM\"v\t w\" " =
        "SELECT ' a  ''b  ' FROM\"v\t w\"" := by
  let tree : Node := .select .root
    { source := some (.view "v\t w" false none), columns := [.constant (.string " a  'b  ") {}] } {}
  have hread :
    read (.object [("type", .string "select"), ("from", .string "v\t w"), ("columns", .array
      [.string " a  'b  "])]) {} = .ok ⟨tree, {}⟩ := by
    cbv
  have htext : tree.sqlAliased ⟨.trino, {}⟩ = .ok "SELECT ' a  ''b  ' FROM \"v\t w\"" := by
    cbv
  exact ⟨_, hread, htext, squeeze_harmless.2 _ _ _ _ _ _ hread htext, by decide⟩

/-- The SQL of a query that was read is the SQL of its root. -/
theorem sql_of_read (hread : read value parse = .ok query) {engine : String} {e : Engine}
    (he : EngineRegistry.standard.get? engine = some e) (options : SqlOptions) :
    query.sql engine options = query.root.sqlAliased ⟨e, options⟩ := by
  simp only [Query.sql, he]
  cases htext : query.root.sqlAliased ⟨e, options⟩ with
  | error => rfl
  | ok text => exact congrArg Except.ok (squeeze_sqlAliased hread htext)

/-- A query that was read has SQL for known engines only. -/
theorem sql_eq_ok (hread : read value parse = .ok query) {engine : String} {options : SqlOptions}
    {sql : String} (h : query.sql engine options = .ok sql) :
    ∃ e, EngineRegistry.standard.get? engine = some e ∧
      query.root.sqlAliased ⟨e, options⟩ = .ok sql := by
  cases he : EngineRegistry.standard.get? engine with
  | none =>
    simp only [Query.sql, he] at h
    cases h
  | some e => exact ⟨e, rfl, (sql_of_read hread he options).symm.trans h⟩

/-- The SQL of a query that was read never opens a comment with a slash and a star. It opens one
with two dashes exactly if a minus sign with one operand is rendered, and the operand is a negative
number. -/
theorem sql_comments {value : Json} {parse : ParseOptions} {query : Query}
    (hread : read value parse = .ok query) {engine : String} {options : SqlOptions} {sql : String}
    (hsql : query.sql engine options = .ok sql) :
    ¬Opens .slashStar sql ∧
      (Opens .dashes sql ↔ ∃ operand tag,
        query.root.Renders options (.operation .sub [operand] none tag) ∧
        operand.Negative options) := by
  obtain ⟨e, -, htext⟩ := sql_eq_ok hread hsql
  have hopens := ((tells_of_read hread ⟨e, options⟩).aliased htext).opens
  have hdoubled : query.root.Doubled options ↔ ∃ operand tag,
      query.root.Renders options (.operation .sub [operand] none tag) ∧
          operand.Negative options := by
    constructor
    · rintro ⟨_, hrenders, operand, tag, rfl, hnegative⟩
      exact ⟨operand, tag, hrenders, hnegative⟩
    · rintro ⟨operand, tag, hrenders, hnegative⟩
      exact ⟨_, hrenders, operand, tag, rfl, hnegative⟩
  rw [← hdoubled]
  exact ⟨by simpa using hopens .slashStar, by simpa using hopens .dashes⟩

/-- A parameter that stands for a negative number opens a comment after a minus sign. -/
theorem sql_comments_parameter :
    ∃ query,
      read (.object [("type", .string "operator"), ("value", .string "-"), ("operands", .array
        [.object [("type", .string "parameter"), ("value", .string "p")]])])
        { parameters := some [("p", .int (-5))] } = .ok query ∧
      (query.sql "trino" {}).toOption = some "(--5)" ∧
      ¬Opens .slashStar "(--5)" ∧
      (Opens .dashes "(--5)" ↔ ∃ operand tag,
        query.root.Renders {} (.operation .sub [operand] none tag) ∧
        operand.Negative {}) := by
  refine exists_ok_of_map (by decide +kernel) fun query hread hquery => ?_
  cases hsql : query.sql "trino" {} with
  | error e =>
    rw [hsql] at hquery
    cases hquery
  | ok sql =>
    rw [hsql] at hquery
    cases hquery
    exact sql_comments hread hsql

/-- A minus sign before a negative number comments out the rest of the query. -/
theorem minus_comments_out :
    ∃ query,
      read (.object [("type", .string "select"), ("from", .string "v"), ("columns", .array
        [.object [("type", .string "operator"), ("value", .string "-"),
          ("operands", .array [.int (-5)])]])])
        {} = .ok query ∧
      (query.sql "pg" {}).toOption = some "SELECT (--5) FROM \"v\"" ∧
      Opens .dashes "SELECT (--5) FROM \"v\"" :=
  exists_ok_of_map (by decide +kernel) fun _ _ _ => by decide

end Query

end AnalyticQuery
