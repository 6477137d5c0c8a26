import Mathlib.Data.List.Perm.Basic

/-! Folds whose steps commute on the states that keep an invariant. -/

set_option autoImplicit false

namespace FdbGo.Foundation

variable {State Item : Type} {step : State → Item → State} {items : List Item} {state : State}

theorem foldl_keeps (invariant : State → Prop) (allowed : Item → Prop)
    (keeps : ∀ state item, invariant state → allowed item → invariant (step state item)) (start : invariant state)
    (legal : ∀ item ∈ items, allowed item) : invariant (items.foldl step state) := by
  induction items generalizing state with
  | nil => exact start
  | cons item rest ih =>
    exact ih (keeps state item start (legal item List.mem_cons_self))
      (List.forall_mem_cons.mp legal).2

theorem foldl_perm (invariant : State → Prop) (allowed : Item → Prop)
    (keeps : ∀ state item, invariant state → allowed item → invariant (step state item))
    (commutes : ∀ state first second, invariant state → allowed first → allowed second →
      step (step state first) second = step (step state second) first) {others : List Item} (perm : items.Perm others)
    (start : invariant state) (legal : ∀ item ∈ items, allowed item) :
    items.foldl step state = others.foldl step state := by
  induction perm generalizing state with
  | nil => rfl
  | cons item _ ih =>
    exact ih (keeps state item start (legal item List.mem_cons_self))
      (List.forall_mem_cons.mp legal).2
  | swap first second rest =>
    have firstLegal := legal first (by simp)
    have secondLegal := legal second (by simp)
    simp only [List.foldl_cons, commutes state first second start firstLegal secondLegal]
  | trans earlier _ firstIH secondIH =>
    rw [firstIH start legal]
    exact secondIH start fun item member => legal item (earlier.mem_iff.mpr member)

end FdbGo.Foundation
