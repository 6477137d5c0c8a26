import FdbGo.Foundation.Clauses
import Mathlib.Order.Nat

/-! Query predicates: trees of connectives over leaves, in three-valued logic. -/

set_option autoImplicit false

namespace FdbGo.Query

open Foundation

inductive TriBool where
  | triFalse
  | triUnknown
  | triTrue
  deriving DecidableEq, Repr

/-- The predicates. A connective may be an atomic one, which normalization leaves as it is. -/
inductive Predicate (Leaf : Type) where
  | leaf (leaf : Leaf)
  | constant (value : TriBool)
  | and (subPredicates : List (Predicate Leaf)) (atomic : Bool)
  | or (subPredicates : List (Predicate Leaf)) (atomic : Bool)
  | not (child : Predicate Leaf) (atomic : Bool)

variable {Leaf : Type}

def isAtomic : Predicate Leaf → Bool
  | .and _ atomic | .or _ atomic | .not _ atomic => atomic
  | .leaf _ | .constant _ => false

def TriBool.not : TriBool → TriBool
  | .triTrue => .triFalse
  | .triFalse => .triTrue
  | .triUnknown => .triUnknown

mutual
/-- `Eval`, where no leaf fails. -/
def Predicate.eval (value : Leaf → TriBool) : Predicate Leaf → TriBool
  | .leaf leaf => value leaf
  | .constant v => v
  | .and subPredicates _ => evalAnd value subPredicates false
  | .or subPredicates _ => evalOr value subPredicates false
  | .not child _ => (child.eval value).not

/-- The scan of `AndPredicate.Eval`. -/
def evalAnd (value : Leaf → TriBool) : List (Predicate Leaf) → Bool → TriBool
  | [], sawUnknown => if sawUnknown then .triUnknown else .triTrue
  | sp :: sps, sawUnknown =>
    match sp.eval value with
    | .triFalse => .triFalse
    | .triUnknown => evalAnd value sps true
    | .triTrue => evalAnd value sps sawUnknown

/-- The scan of `OrPredicate.Eval`. -/
def evalOr (value : Leaf → TriBool) : List (Predicate Leaf) → Bool → TriBool
  | [], sawUnknown => if sawUnknown then .triUnknown else .triFalse
  | sp :: sps, sawUnknown =>
    match sp.eval value with
    | .triTrue => .triTrue
    | .triUnknown => evalOr value sps true
    | .triFalse => evalOr value sps sawUnknown
end

mutual
/-- `PredicateEquals`, given how leaves compare. -/
def predicateEquals (same : Leaf → Leaf → Bool) : Predicate Leaf → Predicate Leaf → Bool
  | .leaf a, .leaf b => same a b
  | .constant a, .constant b => decide (a = b)
  | .and as aAtomic, .and bs bAtomic => decide (aAtomic = bAtomic) && (eachFound same as bs && bs.all (someEquals same as))
  | .or as aAtomic, .or bs bAtomic => decide (aAtomic = bAtomic) && (eachFound same as bs && bs.all (someEquals same as))
  | .not a aAtomic, .not b bAtomic => decide (aAtomic = bAtomic) && predicateEquals same a b
  | _, _ => false

/-- Whether `semanticSetsEqual` finds every predicate of the left on the right. -/
def eachFound (same : Leaf → Leaf → Bool) : List (Predicate Leaf) → List (Predicate Leaf) → Bool
  | [], _ => true
  | left :: lefts, bs => bs.any (predicateEquals same left) && eachFound same lefts bs

/-- Whether a predicate of the right is matched from the left. -/
def someEquals (same : Leaf → Leaf → Bool) : List (Predicate Leaf) → Predicate Leaf → Bool
  | [], _ => false
  | left :: lefts, right => predicateEquals same left right || someEquals same lefts right
end

/-! ## The order of the truth values -/

namespace TriBool

def rank : TriBool → Nat
  | triFalse => 0
  | triUnknown => 1
  | triTrue => 2

private theorem rank_injective : Function.Injective rank := by
  intro a b same
  cases a <;> cases b <;> first | rfl | cases same

instance : LinearOrder TriBool := LinearOrder.lift' rank rank_injective

instance : BoundedOrder TriBool where
  top := triTrue
  bot := triFalse
  le_top a := by cases a <;> decide
  bot_le a := by cases a <;> decide

@[simp] theorem not_not (a : TriBool) : a.not.not = a := by
  cases a <;> rfl

theorem not_inf (a b : TriBool) : (a ⊓ b).not = a.not ⊔ b.not := by
  cases a <;> cases b <;> rfl

theorem not_sup (a b : TriBool) : (a ⊔ b).not = a.not ⊓ b.not := by
  cases a <;> cases b <;> rfl

end TriBool

/-! ## Meaning -/

section Meaning

variable (value : Leaf → TriBool) (sps : List (Predicate Leaf))

/-- The scan is the meet of the values, and of `UNKNOWN` where it was seen before. -/
theorem evalAnd_eq (sawUnknown : Bool) :
    evalAnd value sps sawUnknown =
      (if sawUnknown then .triUnknown else .triTrue) ⊓ meetAll (Predicate.eval value) sps := by
  induction sps generalizing sawUnknown with
  | nil => cases sawUnknown <;> rfl
  | cons sp sps ih =>
    simp only [evalAnd, meetAll_cons, ih]
    generalize meetAll (Predicate.eval value) sps = rest
    cases sp.eval value <;> cases sawUnknown <;> cases rest <;> rfl

private theorem evalOr_eq (sawUnknown : Bool) :
    evalOr value sps sawUnknown =
      (if sawUnknown then .triUnknown else .triFalse) ⊔ joinAll (Predicate.eval value) sps := by
  induction sps generalizing sawUnknown with
  | nil => cases sawUnknown <;> rfl
  | cons sp sps ih =>
    simp only [evalOr, joinAll_cons, ih]
    generalize joinAll (Predicate.eval value) sps = rest
    cases sp.eval value <;> cases sawUnknown <;> cases rest <;> rfl

theorem eval_and (atomic : Bool) : (Predicate.and sps atomic).eval value = meetAll (Predicate.eval value) sps := by
  rw [Predicate.eval, evalAnd_eq]
  exact top_inf_eq _

theorem eval_or (atomic : Bool) : (Predicate.or sps atomic).eval value = joinAll (Predicate.eval value) sps := by
  rw [Predicate.eval, evalOr_eq]
  exact bot_sup_eq _

theorem eval_not (child : Predicate Leaf) (atomic : Bool) :
    (Predicate.not child atomic).eval value = (child.eval value).not := by
  rw [Predicate.eval]

variable {value} {same : Leaf → Leaf → Bool}

mutual
theorem eval_eq_of_equals (respects : ∀ a b, same a b = true → value a = value b) : ∀ a b : Predicate Leaf,
    predicateEquals same a b = true → a.eval value = b.eval value
  | .leaf a, .leaf b, equal => by
      rw [predicateEquals] at equal
      rw [Predicate.eval, Predicate.eval, respects a b equal]
  | .constant a, .constant b, equal => by
      rw [predicateEquals, decide_eq_true_eq] at equal
      rw [equal]
  | .and as _, .and bs _, equal => by
      rw [predicateEquals, Bool.and_eq_true, Bool.and_eq_true] at equal
      rw [eval_and, eval_and]
      have rights := List.all_eq_true.mp equal.2.2
      exact le_antisymm (meetAll_anti fun b member => someEquals_value respects as b (rights b member))
        (meetAll_anti (eachFound_values respects as bs equal.2.1))
  | .or as _, .or bs _, equal => by
      rw [predicateEquals, Bool.and_eq_true, Bool.and_eq_true] at equal
      rw [eval_or, eval_or]
      have rights := List.all_eq_true.mp equal.2.2
      refine le_antisymm (joinAll_mono fun a member => ?_) (joinAll_mono fun b member => ?_)
      · obtain ⟨b, isB, agree⟩ := eachFound_values respects as bs equal.2.1 a member
        exact ⟨b, isB, agree.ge⟩
      · obtain ⟨a, isA, agree⟩ := someEquals_value respects as b (rights b member)
        exact ⟨a, isA, agree.ge⟩
  | .not a _, .not b _, equal => by
      rw [predicateEquals, Bool.and_eq_true] at equal
      rw [eval_not, eval_not, eval_eq_of_equals respects a b equal.2]

theorem eachFound_values (respects : ∀ a b, same a b = true → value a = value b) : ∀ as bs : List (Predicate Leaf), eachFound same as bs = true →
    ∀ a ∈ as, ∃ b ∈ bs, b.eval value = a.eval value
  | [], _, _ => List.forall_mem_nil _
  | left :: lefts, bs, found => by
      rw [eachFound, Bool.and_eq_true, List.any_eq_true] at found
      refine List.forall_mem_cons.mpr ⟨?_, eachFound_values respects lefts bs found.2⟩
      obtain ⟨b, isB, equal⟩ := found.1
      exact ⟨b, isB, by rw [eval_eq_of_equals respects left b equal]⟩

theorem someEquals_value (respects : ∀ a b, same a b = true → value a = value b) : ∀ (as : List (Predicate Leaf)) (b : Predicate Leaf), someEquals same as b = true →
    ∃ a ∈ as, a.eval value = b.eval value
  | left :: lefts, b, found => by
      rw [someEquals, Bool.or_eq_true] at found
      cases found with
      | inl equal => exact ⟨left, List.mem_cons_self, eval_eq_of_equals respects left b equal⟩
      | inr later =>
        obtain ⟨a, member, agree⟩ := someEquals_value respects lefts b later
        exact ⟨a, List.mem_cons_of_mem _ member, agree⟩
end

end Meaning

end FdbGo.Query
