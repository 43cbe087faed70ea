import AnalyticQuery.Error
import Mathlib.Data.List.Forall2

/-!
# Outcomes of steps

What a sequence of steps that can fail says about each step once the whole succeeds, and how it is
run where each step is known to succeed.
-/

namespace AnalyticQuery.Result

open List

universe u v

variable {ε : Type u} {α β : Type v}

/-- Where two steps succeed, the first does, and the second does on its value. -/
theorem of_bind {x : Except ε α} {f : α → Except ε β} {b : β} (h : (x >>= f) = .ok b) :
    ∃ a, x = .ok a ∧ f a = .ok b := by
  cases x with
  | error e => cases h
  | ok a => exact ⟨a, rfl, h⟩

/-- Two steps succeed exactly when the first does and the second does on its value. -/
theorem bind_eq_ok {x : Except ε α} {f : α → Except ε β} {b : β} :
    (x >>= f) = .ok b ↔ ∃ a, x = .ok a ∧ f a = .ok b := by
  refine ⟨of_bind, ?_⟩
  rintro ⟨a, rfl, h⟩
  exact h

/-- After a step that succeeds comes the next one. -/
@[simp] theorem ok_bind (a : α) (f : α → Except ε β) : (Except.ok a >>= f) = f a := rfl

/-- After a step that fails nothing is done. -/
@[simp] theorem error_bind (e : ε) (f : α → Except ε β) :
    (Except.error e >>= f) = .error e := rfl

/-- Returning a value succeeds with it. -/
@[simp] theorem pure_eq_ok (a : α) : (pure a : Except ε α) = .ok a := rfl

/-- Throwing an error fails with it. -/
@[simp] theorem throw_eq_error (e : ε) : (throw e : Except ε α) = .error e := rfl

/-- A step whose outcome has a known image succeeds, with what holds of every such outcome. -/
theorem exists_ok_of_map {x : Except ε α} {f : α → β} {b : β} {P : α → Prop}
    (h : x.toOption.map f = some b) (hP : ∀ a, x = .ok a → f a = b → P a) :
    ∃ a, x = .ok a ∧ f a = b ∧ P a := by
  cases x with
  | error e => cases h
  | ok a => exact ⟨a, rfl, Option.some.inj h, hP a rfl (Option.some.inj h)⟩

/-- A step over a list succeeds exactly when it succeeds on each item, with the values in order. -/
theorem mapM_eq_ok_iff {f : α → Except ε β} {xs : List α} {ys : List β} :
    xs.mapM f = .ok ys ↔ List.Forall₂ (fun x y => f x = .ok y) xs ys := by
  induction xs generalizing ys with
  | nil => simp [eq_comm]
  | cons x xs ih =>
    rw [mapM_cons, bind_eq_ok]
    constructor
    · rintro ⟨y, hy, h⟩
      obtain ⟨zs, hz, h⟩ := of_bind h
      cases h
      exact .cons hy (ih.mp hz)
    · intro h
      cases h with
      | cons hy hz => exact ⟨_, hy, by rw [ih.mpr hz]; rfl⟩

/-- Every value of a step over a list is the step's value on some item. -/
theorem exists_of_mapM_eq_ok {f : α → Except ε β} {xs : List α} {ys : List β}
    (h : xs.mapM f = .ok ys) : ∀ y ∈ ys, ∃ x ∈ xs, f x = .ok y := by
  rw [mapM_eq_ok_iff] at h
  induction h with
  | nil => simp
  | cons hy _ ih =>
    rintro z (_ | ⟨_, hz⟩)
    · exact ⟨_, mem_cons_self, hy⟩
    · obtain ⟨x, hx, hf⟩ := ih z hz
      exact ⟨x, mem_cons_of_mem _ hx, hf⟩

/-- What is related to a list item by item is related to each item. -/
theorem exists_of_forall₂ {R : α → β → Prop} {xs : List α} {ys : List β} {x : α}
    (h : List.Forall₂ R xs ys) (hx : x ∈ xs) : ∃ y ∈ ys, R x y := by
  induction h with
  | nil => cases hx
  | cons hy _ ih =>
    obtain rfl | hx := mem_cons.mp hx
    · exact ⟨_, mem_cons_self, hy⟩
    · obtain ⟨y, hmem, hR⟩ := ih hx
      exact ⟨y, mem_cons_of_mem _ hmem, hR⟩

/-- Relations between the items of lists are composed item by item. -/
theorem forall₂_comp {γ : Type v} {R : α → β → Prop} {S : β → γ → Prop} {T : α → γ → Prop}
    {xs : List α} {ys : List β} {zs : List γ} (h : List.Forall₂ R xs ys) (h' : List.Forall₂ S ys zs)
    (hT : ∀ {x y z}, R x y → S y z → T x z) : List.Forall₂ T xs zs := by
  induction h generalizing zs with
  | nil =>
    cases h'
    exact .nil
  | cons hR _ ih =>
    cases h' with
    | cons hS h' => exact .cons (hT hR hS) (ih h')

/-- A step over a list has a value for each item. -/
theorem exists_of_mem {f : α → Except ε β} {xs : List α} {ys : List β} {x : α}
    (h : xs.mapM f = .ok ys) (hx : x ∈ xs) : ∃ y ∈ ys, f x = .ok y :=
  exists_of_forall₂ (mapM_eq_ok_iff.mp h) hx

/-! ## Reasons to fail -/

/-- Whether a step fails exactly if there is a reason to, and then for such a reason. -/
def FailsBy (x : Except ε α) (reason : ε → Prop) : Prop :=
  match x with
  | .ok _ => ∀ e, ¬reason e
  | .error e => reason e

section FailsBy

variable {x : Except ε α} {f : α → Except ε β} {P Q : ε → Prop}

theorem failsBy_ok (a : α) : FailsBy (Except.ok a : Except ε α) fun _ => False := fun _ h => h

theorem FailsBy.congr (h : FailsBy x P) (hPQ : ∀ e, P e ↔ Q e) : FailsBy x Q := by
  cases x with
  | ok a => exact fun e he => h e ((hPQ e).mpr he)
  | error e => exact (hPQ e).mp h

/-- Two steps fail for the reasons of the first, and for those of the second after the first. -/
theorem FailsBy.bind (h : FailsBy x P) (hf : ∀ a, x = .ok a → FailsBy (f a) Q) :
    FailsBy (x >>= f) fun e => P e ∨ Q e := by
  cases x with
  | error e => exact .inl h
  | ok a =>
    have hQ := hf a rfl
    rw [ok_bind]
    cases hfa : f a with
    | error e =>
      rw [hfa] at hQ
      exact .inr hQ
    | ok b =>
      rw [hfa] at hQ
      exact fun e he => he.elim (h e) (hQ e)

/-- What comes after a step and never fails adds no reason. -/
theorem FailsBy.bind_ok (h : FailsBy x P) (hf : ∀ a, x = .ok a → FailsBy (f a) fun _ => False) :
    FailsBy (x >>= f) P :=
  (h.bind hf).congr fun _ => or_iff_left id

/-- A step over a list fails for the reasons that it has on some item. -/
theorem FailsBy.mapM {xs : List α} {R : α → ε → Prop} (h : ∀ a ∈ xs, FailsBy (f a) (R a)) :
    FailsBy (xs.mapM f) fun e => ∃ a ∈ xs, R a e := by
  induction xs with
  | nil => exact fun e he => by simp at he
  | cons a xs ih =>
    obtain ⟨ha, hxs⟩ := forall_mem_cons.mp h
    rw [mapM_cons]
    refine (ha.bind fun b _ => (ih hxs).bind_ok fun bs _ => failsBy_ok _).congr fun e => ?_
    simp

theorem FailsBy.reason (h : FailsBy x P) {e : ε} (hx : x = .error e) : P e := by
  rw [hx] at h
  exact h

theorem FailsBy.error_iff (h : FailsBy x P) : (∃ e, x = .error e) ↔ ∃ e, P e := by
  cases x with
  | ok a =>
    constructor
    · rintro ⟨e, he⟩
      cases he
    · rintro ⟨e, he⟩
      exact absurd he (h e)
  | error e => exact ⟨fun _ => ⟨e, h⟩, fun _ => ⟨e, rfl⟩⟩

end FailsBy

/-! ## Outcomes side by side -/

/-- The failures that are excused where two outcomes are compared: some of the first, some of the
second. -/
structure Excuses (ε : Type u) where
  first : ε → Prop
  second : ε → Prop

namespace Excuses

/-- No failure is excused. -/
def none : Excuses ε := ⟨fun _ => False, fun _ => False⟩

/-- Some failures of the first outcome are excused. -/
def ofFirst (lax : ε → Prop) : Excuses ε := ⟨lax, fun _ => False⟩

/-- All failures are excused, so that outcomes are compared where both succeed. -/
def all : Excuses ε := ⟨fun _ => True, fun _ => True⟩

end Excuses

/-- Whether two outcomes agree: both succeed with values in a relation or both fail in the same way,
up to the failures that are excused. -/
inductive Agree (lax : Excuses ε) (R : α → β → Prop) : Except ε α → Except ε β → Prop
  | ok {a b} (h : R a b) : Agree lax R (.ok a) (.ok b)
  | error (e) : Agree lax R (.error e) (.error e)
  | excused {e} (y) (h : lax.first e) : Agree lax R (.error e) y
  | excusedSecond {e} (x) (h : lax.second e) : Agree lax R x (.error e)

section Agree

variable {γ δ : Type v} {lax : Excuses ε} {Q : α → β → Prop} {R : γ → δ → Prop} {x : Except ε α}
  {y : Except ε β}

/-- Steps that agree, with steps after them that agree. -/
theorem Agree.bind {f : α → Except ε γ} {g : β → Except ε δ} (h : Agree lax Q x y)
    (hf : ∀ a b, x = .ok a → y = .ok b → Q a b → Agree lax R (f a) (g b)) :
    Agree lax R (x >>= f) (y >>= g) := by
  cases h with
  | ok hab => exact hf _ _ rfl rfl hab
  | error e => exact .error e
  | excused y he => exact .excused _ he
  | excusedSecond x he => exact .excusedSecond _ he

/-- One and the same step, with steps after it that agree. -/
theorem Agree.same {f : α → Except ε γ} {g : α → Except ε δ}
    (hf : ∀ a, x = .ok a → Agree lax R (f a) (g a)) : Agree lax R (x >>= f) (x >>= g) := by
  cases x with
  | ok a => exact hf a rfl
  | error e => exact .error e

theorem Agree.imp {R' : α → β → Prop} (h : Agree lax Q x y)
    (hR : ∀ a b, x = .ok a → y = .ok b → Q a b → R' a b) : Agree lax R' x y := by
  cases h with
  | ok hab => exact .ok (hR _ _ rfl rfl hab)
  | error e => exact .error e
  | excused y he => exact .excused _ he
  | excusedSecond x he => exact .excusedSecond _ he

theorem Agree.refl (x : Except ε α) : Agree lax Eq x x := by
  cases x with
  | ok a => exact .ok rfl
  | error e => exact .error e

/-- Outcomes that agree on equal values are equal, where no failure is excused. -/
theorem Agree.eq {x y : Except ε α} (h : Agree .none Eq x y) : x = y := by
  cases h with
  | ok hab => rw [hab]
  | error e => rfl
  | excused y he => exact he.elim
  | excusedSecond x he => exact he.elim

/-- Outcomes that agree without excuses agree with any. -/
theorem Agree.excuse (h : Agree .none Q x y) : Agree lax Q x y := by
  cases h with
  | ok hab => exact .ok hab
  | error e => exact .error e
  | excused y he => exact he.elim
  | excusedSecond x he => exact he.elim

/-- The second of two outcomes that agree succeeds where the first does, unless its failures are
excused. -/
theorem Agree.exists_ok {lax : ε → Prop} {a : α} (h : Agree (.ofFirst lax) Q x y) (hx : x = .ok a) :
    ∃ b, y = .ok b ∧ Q a b := by
  cases h with
  | ok hab =>
    cases hx
    exact ⟨_, rfl, hab⟩
  | error e => cases hx
  | excused y he => cases hx
  | excusedSecond x he => exact he.elim

/-- The values of two outcomes that agree are in the relation. -/
theorem Agree.related {a : α} {b : β} (h : Agree lax Q x y) (hx : x = .ok a) (hy : y = .ok b) :
    Q a b := by
  subst hx hy
  cases h with
  | ok hab => exact hab

/-- Where all failures are excused, outcomes agree if their values are in the relation. -/
theorem Agree.all_of (h : ∀ a b, x = .ok a → y = .ok b → Q a b) : Agree .all Q x y := by
  cases x with
  | error e => exact .excused _ trivial
  | ok a =>
    cases y with
    | error e => exact .excusedSecond _ trivial
    | ok b => exact .ok (h a b rfl rfl)

/-- Outcomes that agree on the image of a value. -/
theorem Agree.eq_map {f : α → β} (h : Agree .none (fun a b => b = f a) x y) : y = x.map f := by
  cases h with
  | ok hab => rw [hab]; rfl
  | error e => rfl
  | excused y he => exact he.elim
  | excusedSecond x he => exact he.elim

end Agree

/-! ## States handed from item to item -/

variable {σ : Type v} {step : σ → α → Except ε σ} {P : σ → α → Prop}

/-- What holds of each item in the state before it holds of one more item in front. -/
theorem split_cons {s t : σ} {x : α} {xs : List α} (hx : P s x) (hs : step s x = .ok t)
    (h : ∀ before y after u, xs = before ++ y :: after → before.foldlM step t = .ok u → P u y) :
    ∀ before y after u, x :: xs = before ++ y :: after → before.foldlM step s = .ok u → P u y := by
  intro before y after u hsplit hu
  cases before with
  | nil =>
    obtain ⟨rfl, -⟩ := List.cons.inj hsplit
    cases hu
    exact hx
  | cons z before =>
    obtain ⟨rfl, htail⟩ := List.cons.inj hsplit
    rw [foldlM_cons, hs] at hu
    exact h before y after u htail hu

/-- What holds of each item in the state before it, read off the front item and the rest. -/
theorem of_split_cons {s t : σ} {x : α} {xs : List α} (hs : step s x = .ok t)
    (h : ∀ before y after u, x :: xs = before ++ y :: after →
      before.foldlM step s = .ok u → P u y) :
    P s x ∧
      ∀ before y after u, xs = before ++ y :: after → before.foldlM step t = .ok u → P u y := by
  refine ⟨h [] x xs s rfl rfl, ?_⟩
  intro before y after u hsplit hu
  refine h (x :: before) y after u (by rw [hsplit, cons_append]) ?_
  rw [foldlM_cons, hs]
  exact hu

/-- Where a list is gone through, so is each of its front parts. -/
theorem exists_foldlM_of_append {s t : σ} {xs ys : List α} (h : (xs ++ ys).foldlM step s = .ok t) :
    ∃ u, xs.foldlM step s = .ok u ∧ ys.foldlM step u = .ok t := by
  rw [foldlM_append] at h
  exact of_bind h

/-- Where a list is gone through, each of its items is reached in some state. -/
theorem exists_split_of_mem {s t : σ} {x : α} {xs : List α} (h : xs.foldlM step s = .ok t)
    (hx : x ∈ xs) : ∃ before after u, xs = before ++ x :: after ∧ before.foldlM step s = .ok u := by
  obtain ⟨before, after, rfl⟩ := append_of_mem hx
  obtain ⟨u, hu, -⟩ := exists_foldlM_of_append h
  exact ⟨before, after, u, rfl, hu⟩

end AnalyticQuery.Result
