import AnalyticQuery.Geo
import AnalyticQuery.Proofs.Ql.Fields

/-!
# Intersections in query values

What the search for equations between places does to a query value: it goes through the value from
the outside in, stops at the equations that it finds, and leaves everything else in its place. A
value without such an equation stays as it is.
-/

namespace AnalyticQuery

open List Result

namespace Fields

variable {depth : Nat} {values : List (Json × Refs)}

variable {g : Json → Json}

/-- Fields with each value changed. -/
def mapValues (g : Json → Json) (F : Fields) : Fields := F.map fun field => (field.1, g field.2)

@[simp] theorem mapValues_nil : mapValues g [] = [] := rfl

@[simp] theorem mapValues_cons (key : String) (v : Json) (F : Fields) :
    mapValues g ((key, v) :: F) = (key, g v) :: mapValues g F := rfl

@[simp] theorem mapValues_append (F G : Fields) :
    mapValues g (F ++ G) = mapValues g F ++ mapValues g G :=
  map_append

@[simp] theorem mapValues_optionField (key : String) (v : Option Json) :
    mapValues g (optionField key v) = optionField key (v.map g) := by
  cases v <;> rfl

theorem mapValues_listField {h : Json → Json}
    (hg : ∀ items, g (.array items) = .array (items.map h)) (key : String) (items : List Json) :
    mapValues g (listField key items) = listField key (items.map h) := by
  cases items <;> simp [listField, hg]

theorem mapValues_flagField (hg : g (.bool true) = .bool true) (key : String) (flag : Bool) :
    mapValues g (flagField key flag) = flagField key flag := by
  cases flag <;> simp [flagField, hg]

@[simp] theorem get?_mapValues (F : Fields) (key : String) :
    get? (mapValues g F) key = (get? F key).map g := by
  induction F with
  | nil => rfl
  | cons field F ih =>
    rw [mapValues_cons, get?_cons, get?_cons, ih]
    split <;> rfl

@[simp] theorem contains_eq_isSome (F : Fields) (key : String) :
    contains F key = (get? F key).isSome := by
  induction F with
  | nil => rfl
  | cons field F ih =>
    obtain ⟨k, v⟩ := field
    rw [contains, any_cons, ← contains, ih, get?_cons]
    by_cases h : k = key <;> simp [h]

end Fields

/-- A value with those directly inside it changed. -/
def Json.mapInside (g : Json → Json) : Json → Json
  | .array items => .array (items.map g)
  | .object F => .object (Fields.mapValues g F)
  | other => other

private theorem Json.mapInside_of_eq {g : Json → Json} {v : Json}
    (h : ∀ w ∈ Geo.inside v, g w = w) : v.mapInside g = v := by
  cases v with
  | array items =>
    have hitems : items.map g = items.map id := map_congr_left h
    rw [mapInside, hitems, map_id]
  | object F =>
    have hfields : Fields.mapValues g F = F.map id :=
      map_congr_left fun field hfield => Prod.ext rfl (h field.2 (mem_map_of_mem hfield))
    rw [mapInside, hfields, map_id]
  | _ => rfl

/-- A value inside a value is less deep. -/
theorem Json.depth_lt_of_inside {v w : Json} (h : w ∈ Geo.inside v) : w.depth < v.depth := by
  cases v with
  | array items => exact depth_lt_of_mem h
  | object F =>
    have hle : w.depth ≤ depthFields F := by
      induction F with
      | nil => cases h
      | cons field F ih =>
        obtain ⟨key, u⟩ := field
        rw [depthFields]
        obtain rfl | h := mem_cons.mp h
        · omega
        · have := ih h
          omega
    rw [depth]
    omega
  | _ => cases h

namespace Geo

variable {catalog : Catalog} {refs : Refs} {v : Json}

/-! ## One value -/

/-- A value with its equations turned into intersections. -/
def crossed (catalog : Catalog) (refs : Refs) (v : Json) : Json := (intersected catalog refs v).1

private theorem intersectedItems_eq (refs : Refs) (items : List Json) :
    intersectedItems catalog refs items =
      (items.map (crossed catalog refs),
        (items.map fun v => (intersected catalog refs v).2).sum) := by
  induction items with
  | nil => rfl
  | cons item items ih =>
    rw [intersectedItems, ih]
    rfl

private theorem intersectedFields_eq (refs : Refs) (F : Fields) :
    intersectedFields catalog refs F =
      (F.mapValues (crossed catalog refs),
        (F.map fun field => (intersected catalog refs field.2).2).sum) := by
  induction F with
  | nil => rfl
  | cons field F ih =>
    rw [intersectedFields, ih]
    rfl

/-- An intersection takes the place of the value that it stands for, whose parts are not
searched. -/
theorem intersected_of_some {shapes : Json}
    (h : intersection catalog (refsInside refs v) v = .ok (some shapes)) :
    intersected catalog refs v = (shapes, 1) := by
  rw [intersected.eq_def]
  dsimp only
  rw [h]

/-- A value that no intersection stands for keeps its kind, and its parts are searched. -/
theorem intersected_eq
    (h : ∀ shapes, intersection catalog (refsInside refs v) v ≠ .ok (some shapes)) :
    crossed catalog refs v = v.mapInside (crossed catalog (refsInside refs v)) ∧
      (intersected catalog refs v).2 =
        ((inside v).map fun w => (intersected catalog (refsInside refs v) w).2).sum := by
  rw [crossed, intersected.eq_def]
  dsimp only
  split
  · next shapes hshapes => exact absurd hshapes (h shapes)
  · split
    · rw [intersectedItems_eq]
      exact ⟨rfl, rfl⟩
    · rw [intersectedFields_eq]
      exact ⟨rfl, by rw [inside, map_map]; rfl⟩
    · next hitems hfields =>
      cases v with
      | array items => exact absurd rfl (hitems items)
      | object F => exact absurd rfl (hfields F)
      | _ => exact ⟨rfl, rfl⟩

theorem crossed_array (items : List Json) :
    crossed catalog refs (.array items) = .array (items.map (crossed catalog refs)) :=
  (intersected_eq fun _ h => by cases h).1

/-! ## Values without equations between places -/

/-- A value in which no equation between places of different types is found. -/
inductive Quiet (catalog : Catalog) : Refs → Json → Prop
  | intro {refs : Refs} {v : Json} (here : intersection catalog (refsInside refs v) v = .ok none)
      (below : ∀ w ∈ inside v, Quiet catalog (refsInside refs v) w) : Quiet catalog refs v

theorem quiet_iff : Quiet catalog refs v ↔ intersection catalog (refsInside refs v) v = .ok none ∧
    ∀ w ∈ inside v, Quiet catalog (refsInside refs v) w :=
  ⟨fun ⟨here, below⟩ => ⟨here, below⟩, fun h => .intro h.1 h.2⟩

@[simp] theorem quiet_array (items : List Json) :
    Quiet catalog refs (.array items) ↔ ∀ v ∈ items, Quiet catalog refs v := by
  rw [quiet_iff]
  exact and_iff_right rfl

@[simp] theorem quiet_string (text : String) : Quiet catalog refs (.string text) := .intro rfl nofun

@[simp] theorem quiet_bool (b : Bool) : Quiet catalog refs (.bool b) := .intro rfl nofun

@[simp] theorem quiet_number (number : Number) :
    Quiet catalog refs (.number number) := .intro rfl nofun

@[simp] theorem quiet_null : Quiet catalog refs .null := .intro rfl nofun

/-- The search changes nothing in a value without equations between places. -/
theorem intersected_of_quiet (h : Quiet catalog refs v) : intersected catalog refs v = (v, 0) := by
  induction h with
  | @intro refs v here below ih =>
    obtain ⟨hvalue, hcount⟩ := intersected_eq fun shapes hshapes => by
      rw [here] at hshapes
      cases hshapes
    have hsum : ((inside v).map fun w => (intersected catalog (refsInside refs v) w).2).sum =
        0 := by
      rw [sum_eq_zero]
      intro count hmem
      obtain ⟨w, hw, rfl⟩ := mem_map.mp hmem
      rw [ih w hw]
    exact Prod.ext (hvalue.trans (Json.mapInside_of_eq fun w hw => congrArg Prod.fst (ih w hw)))
      (hcount.trans hsum)

/-! ## The check -/

/-- A value on which the search does not fail: where an equation between places is found, both types
are types of places, and where none is found, the same holds of the values inside. -/
inductive Checked (catalog : Catalog) : Refs → Json → Prop
  | intro {refs : Refs} {v : Json} {outcome : Option Json}
      (here : intersection catalog (refsInside refs v) v = .ok outcome)
      (below : outcome = none → ∀ w ∈ inside v, Checked catalog (refsInside refs v) w) :
        Checked catalog refs v

private theorem check_succ (h : check catalog (depth + 1) values = .ok ()) :
    ∃ next, List.Forall₂ (fun p ws => ∃ outcome,
        intersection catalog (refsInside p.2 p.1) p.1 = .ok outcome ∧
          ws = if outcome.isSome then [] else (inside p.1).map (·, refsInside p.2 p.1))
            values next ∧
      (next.flatten = [] ∨ check catalog depth next.flatten = .ok ()) := by
  obtain ⟨next, hnext, h⟩ := of_bind h
  refine ⟨next, (mapM_eq_ok_iff.mp hnext).imp ?_, ?_⟩
  · rintro ⟨w, refs⟩ ws hws
    obtain ⟨outcome, houtcome, hws⟩ := of_bind hws
    refine ⟨outcome, houtcome, ?_⟩
    cases outcome <;> cases hws <;> rfl
  · split at h
    · next hempty => exact .inl (isEmpty_iff.mp hempty)
    · exact .inr h

/-- The check passes only on values on which the search does not fail. -/
theorem checked_of_check (hdepth : ∀ p ∈ values, p.1.depth ≤ depth)
    (h : check catalog depth values = .ok ()) : ∀ p ∈ values, Checked catalog p.2 p.1 := by
  induction depth generalizing values with
  | zero =>
    intro p hp
    have hle := hdepth p hp
    cases hv : p.1 <;> simp [hv, Json.depth] at hle
  | succ depth ih =>
    obtain ⟨next, hnext, hrest⟩ := check_succ h
    intro p hp
    obtain ⟨ws, hws, outcome, houtcome, rfl⟩ := exists_of_forall₂ hnext hp
    refine .intro houtcome ?_
    rintro rfl w hw
    have hmem : (w, refsInside p.2 p.1) ∈ next.flatten :=
      mem_flatten.mpr ⟨_, hws, mem_map_of_mem hw⟩
    obtain hrest | hrest := hrest
    · rw [hrest] at hmem
      cases hmem
    · refine ih ?_ hrest _ hmem
      -- each value of the next level stands inside one of this level
      intro q hq
      obtain ⟨us, hus, hq⟩ := mem_flatten.mp hq
      obtain ⟨p', hp', outcome', -, rfl⟩ := exists_of_forall₂ hnext.flip hus
      cases outcome' with
      | some => cases hq
      | none =>
        obtain ⟨u, hu, rfl⟩ := mem_map.mp hq
        have hlt := Json.depth_lt_of_inside hu
        have hle := hdepth p' hp'
        dsimp only
        omega

/-- The check passes on values without equations between places. -/
theorem check_of_quiet (h : ∀ p ∈ values, Quiet catalog p.2 p.1) (depth : Nat) :
    check catalog depth values = .ok () := by
  induction depth generalizing values with
  | zero => rfl
  | succ depth ih =>
    let next := values.map fun p => (inside p.1).map (·, refsInside p.2 p.1)
    refine bind_eq_ok.mpr ⟨next, mapM_eq_ok_iff.mpr (forall₂_map_right_iff.mpr ?_), ?_⟩
    · refine forall₂_same.mpr fun p hp => ?_
      obtain ⟨here, -⟩ := quiet_iff.mp (h p hp)
      exact bind_eq_ok.mpr ⟨none, here, rfl⟩
    split
    · rfl
    · refine ih fun q hq => ?_
      obtain ⟨ws, hws, hq⟩ := mem_flatten.mp hq
      obtain ⟨p, hp, rfl⟩ := mem_map.mp hws
      obtain ⟨w, hw, rfl⟩ := mem_map.mp hq
      obtain ⟨-, below⟩ := quiet_iff.mp (h p hp)
      exact below w hw

/-- A value on which the search does not fail and finds nothing is without equations between
places. -/
theorem quiet_of_checked (h : Checked catalog refs v)
    (hcount : (intersected catalog refs v).2 = 0) :
    Quiet catalog refs v := by
  induction h with
  | @intro refs v outcome here below ih =>
    cases outcome with
    | some shapes =>
      rw [intersected_of_some here] at hcount
      cases hcount
    | none =>
      obtain ⟨-, hsum⟩ := intersected_eq fun shapes hshapes => by
        rw [here] at hshapes
        cases hshapes
      rw [hcount, eq_comm, sum_eq_zero_iff] at hsum
      exact .intro here fun w hw => ih rfl w hw (hsum _ (mem_map_of_mem hw))

end Geo

end AnalyticQuery
