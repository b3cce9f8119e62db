import Mathlib.Data.List.Forall2
import UiLowering.Proofs.Lowered

/-!
# Two lowerings side by side

Two lowerings are alike up to a relation if they have values that the relation holds of, or if both
have a fault.  Their notices and the contents of their faults may differ.

The relation is used where two lowerings cannot be equal but should not be told apart by their
values: in two scopes, or for two calls of which one is a rewriting of the other.
-/

set_option autoImplicit false

namespace UiLowering.Lowered

variable {α β γ δ : Type} {R : α → β → Prop} {S : γ → δ → Prop} {x : Lowered α} {y : Lowered β}

theorem result_bind_of_ok {f : α → Lowered γ} {value : α} (h : x.result = .ok value) :
    (x >>= f).result = (f value).result := by
  rw [result_bind, h]
  rfl

theorem result_bind_of_error {f : α → Lowered γ} {fault : Fault} (h : x.result = .error fault) :
    (x >>= f).result = .error fault := by
  rw [result_bind, h]
  rfl

/-- Two results have values that `R` relates, or both have a fault. -/
inductive Alike (R : α → β → Prop) (x : Lowered α) (y : Lowered β) : Prop where
  | ok {value : α} {other : β} (hvalue : x.result = .ok value) (hother : y.result = .ok other)
      (h : R value other)
  | error {fault other : Fault} (hfault : x.result = .error fault)
      (hother : y.result = .error other)

theorem alike_pure {value : α} {other : β} (h : R value other) :
    (pure value : Lowered α).Alike R (pure other) :=
  .ok rfl rfl h

theorem alike_note (notice other : Notice) : (note notice).Alike Eq (note other) := .ok rfl rfl rfl

@[refl] theorem alike_refl (x : Lowered α) : x.Alike Eq x := by
  cases h : x.result with
  | ok value => exact .ok h h rfl
  | error fault => exact .error h h

/-- Two lowerings are alike if their first steps are, and what follows is so on related values. -/
theorem Alike.bind {f : α → Lowered γ} {g : β → Lowered δ} (h : x.Alike R y)
    (hf : ∀ value other, R value other → (f value).Alike S (g other)) :
    (x >>= f).Alike S (y >>= g) := by
  cases h with
  | ok hvalue hother h =>
    cases hf _ _ h with
    | ok hvalue' hother' h' =>
      exact .ok ((result_bind_of_ok hvalue).trans hvalue')
        ((result_bind_of_ok hother).trans hother') h'
    | error hfault' hother' =>
      exact .error ((result_bind_of_ok hvalue).trans hfault')
        ((result_bind_of_ok hother).trans hother')
  | error hfault hother =>
    exact .error (result_bind_of_error hfault) (result_bind_of_error hother)

/-- The same value goes into both of the next steps. -/
theorem Alike.bind_eq {x y : Lowered α} {f : α → Lowered γ} {g : α → Lowered δ} (h : x.Alike Eq y)
    (hf : ∀ value, (f value).Alike S (g value)) : (x >>= f).Alike S (y >>= g) :=
  h.bind fun value _ hvalue => hvalue ▸ hf value

theorem alike_all {xs ys : List (Lowered α)} (h : List.Forall₂ (Alike Eq) xs ys) :
    (all xs).Alike Eq (all ys) := by
  induction h with
  | nil => exact alike_refl _
  | cons hx _ ih => exact hx.bind_eq fun value => ih.bind_eq fun values => alike_refl _

/-- Two lists are lowered alike if their elements are, one by one. -/
theorem alike_all_map {T : α → β → Prop} {xs : List α} {ys : List β} {f : α → Lowered γ}
    {g : β → Lowered γ} (h : List.Forall₂ T xs ys) (hf : ∀ x y, T x y → (f x).Alike Eq (g y)) :
    (all (xs.map f)).Alike Eq (all (ys.map g)) :=
  alike_all (List.forall₂_map_left_iff.2 (List.forall₂_map_right_iff.2 (h.imp hf)))

/-- What is alike has the same value. -/
theorem Alike.result_eq_ok_iff {x y : Lowered α} (h : x.Alike Eq y) {value : α} :
    x.result = .ok value ↔ y.result = .ok value := by
  cases h with
  | ok hvalue hother h => rw [hvalue, hother, h]
  | error hfault hother =>
    rw [hfault, hother]
    constructor
    · intro hvalue
      cases hvalue
    · intro hvalue
      cases hvalue

end UiLowering.Lowered
