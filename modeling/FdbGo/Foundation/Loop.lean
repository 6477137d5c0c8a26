import Mathlib.Data.Nat.Init

/-! Guarded loops. A loop of the source becomes a guard, a body and a bound on
its rounds. The single rule below discharges the invariant and the bound at
once, so no development that uses a loop repeats the induction on its fuel. -/

set_option autoImplicit false

namespace FdbGo.Foundation.Loop

/-- Run `body` while `guard` holds, for at most `fuel` rounds. -/
def run {State : Type} (guard : State → Bool) (body : State → State) : Nat → State → State
  | 0, state => state
  | fuel + 1, state => if guard state then run guard body fuel (body state) else state

/-- A loop whose body keeps `invariant` and lowers `measure` ends, within a
bound of `measure` rounds, in a state that has the invariant and fails the
guard. -/
theorem run_spec {State : Type} {guard : State → Bool} {body : State → State} (invariant : State → Prop)
    (measure : State → Nat) (step : ∀ state, invariant state → guard state = true →
      invariant (body state) ∧ measure (body state) < measure state) {fuel : Nat} {state last : State}
    (start : invariant state) (enough : measure state ≤ fuel) (ends : run guard body fuel state = last) :
    invariant last ∧ guard last = false := by
  subst ends
  induction fuel generalizing state with
  | zero =>
    refine ⟨start, ?_⟩
    cases active : guard state with
    | false => exact active
    | true =>
      have lower := (step state start active).2
      omega
  | succ fuel ih =>
    cases active : guard state with
    | false =>
      simp only [run, active, Bool.false_eq_true, ↓reduceIte]
      exact ⟨start, trivial⟩
    | true =>
      obtain ⟨kept, lower⟩ := step state start active
      simp only [run, active, ↓reduceIte]
      exact ih kept (by omega)

end FdbGo.Foundation.Loop
