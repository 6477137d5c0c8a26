import Mathlib.Data.List.Forall2

/-! Lists that are related member by member. -/

set_option autoImplicit false

namespace FdbGo.Foundation

variable {A B C : Type} {R : A → B → Prop} {S : B → C → Prop} {T : A → C → Prop} {as : List A} {bs : List B} {cs : List C}

theorem exists_related (related : List.Forall₂ R as bs) {b : B} (member : b ∈ bs) : ∃ a ∈ as, R a b := by
  induction related with
  | nil => exact absurd member List.not_mem_nil
  | cons here _ ih =>
    cases List.mem_cons.mp member with
    | inl isHead => exact ⟨_, List.mem_cons_self, isHead ▸ here⟩
    | inr later =>
      obtain ⟨a, isA, there⟩ := ih later
      exact ⟨a, List.mem_cons_of_mem _ isA, there⟩

theorem related_trans (first : List.Forall₂ R as bs) (second : List.Forall₂ S bs cs)
    (both : ∀ a ∈ as, ∀ b c, R a b → S b c → T a c) : List.Forall₂ T as cs := by
  induction first generalizing cs with
  | nil =>
    cases second
    exact .nil
  | cons here _ ih =>
    cases second with
    | cons there rest =>
      exact .cons (both _ List.mem_cons_self _ _ here there) (ih rest (List.forall_mem_cons.mp both).2)

end FdbGo.Foundation
