import Mathlib.Logic.Basic

/-! Outcomes of computations that may fail. Two of them agree when both fail or
both succeed, the causes or the results being related. A round of a loop makes progress when it
takes some of what is left, or fails for a reason other than running out of
rounds. -/

set_option autoImplicit false

namespace FdbGo.Foundation

variable {Error OtherError Result OtherResult : Type} {causes : Error → OtherError → Prop}
  {related : Result → OtherResult → Prop}

theorem ite_related {R : Result → OtherResult → Prop} {condition : Prop} [Decidable condition] {a b : Result}
    {a' b' : OtherResult} (yes : condition → R a a') (no : ¬ condition → R b b') :
    R (if condition then a else b) (if condition then a' else b') := by
  by_cases holds : condition
  · rw [if_pos holds, if_pos holds]
    exact yes holds
  · rw [if_neg holds, if_neg holds]
    exact no holds

/-- Both fail for related causes, or both succeed with related results. -/
inductive Agree (causes : Error → OtherError → Prop) (related : Result → OtherResult → Prop) :
    Except Error Result → Except OtherError OtherResult → Prop where
  | error {cause : Error} {otherCause : OtherError} (holds : causes cause otherCause) :
      Agree causes related (.error cause) (.error otherCause)
  | ok {result : Result} {otherResult : OtherResult} (holds : related result otherResult) :
      Agree causes related (.ok result) (.ok otherResult)

variable {outcome second first : Except Error Result} {condition : Prop}

namespace Agree

theorem ite [Decidable condition] {otherFirst otherSecond : Except OtherError OtherResult}
    (yes : condition → Agree causes related first otherFirst) (no : ¬ condition → Agree causes related second otherSecond) :
    Agree causes related (if condition then first else second)
      (if condition then otherFirst else otherSecond) :=
  ite_related yes no

theorem map {other : Except OtherError Result} (agree : Agree causes Eq outcome other) (f : Result → OtherResult) :
    Agree causes (fun image result => image = f result) (outcome.map f) other := by
  cases agree with
  | error holds => exact .error holds
  | ok same => exact .ok (congrArg f same)

end Agree

variable {f : Result → OtherResult} {exhausted : Error} {Item : Type}

/-- Outcomes that are equal under a map: the same error, or results with the same image. -/
theorem map_eq_map {other : Except Error Result} (same : outcome.map f = other.map f) :
    (∃ cause, outcome = .error cause ∧ other = .error cause) ∨
      ∃ result otherResult, outcome = .ok result ∧ other = .ok otherResult ∧ f result = f otherResult := by
  cases outcome with
  | error cause =>
    cases other with
    | error otherCause => exact .inl ⟨cause, rfl, congrArg Except.error (Except.error.inj same).symm⟩
    | ok otherResult => cases same
  | ok result =>
    cases other with
    | error otherCause => cases same
    | ok otherResult => exact .inr ⟨result, otherResult, rfl, rfl, Except.ok.inj same⟩

/-- A sequence that succeeded succeeded in both parts. -/
theorem bind_eq_ok {next : Result → Except Error OtherResult} {final : OtherResult}
    (ran : outcome >>= next = .ok final) : ∃ result, outcome = .ok result ∧ next result = .ok final := by
  cases outcome with
  | error cause => cases ran
  | ok result => exact ⟨result, rfl, ran⟩

/-- Success takes at least one and at most `left`; a failure is not `exhausted`. -/
inductive Progress (exhausted : Error) (size : Result → Nat) (left : Nat) :
    Except Error Result → Prop where
  | error {cause : Error} (other : cause ≠ exhausted) : Progress exhausted size left (.error cause)
  | ok {result : Result} (positive : 0 < size result) (within : size result ≤ left) :
      Progress exhausted size left (.ok result)

theorem Progress.ite {size : Result → Nat} {left : Nat} [Decidable condition]
    (yes : condition → Progress exhausted size left first) (no : ¬ condition → Progress exhausted size left second) :
    Progress exhausted size left (if condition then first else second) :=
  iteInduction yes no

/-- The result has the property, if there is one. -/
def Succeeds (P : Result → Prop) (outcome : Except Error Result) : Prop := ∀ result, outcome = .ok result → P result

variable {items : List Item}

namespace Succeeds

variable {P : Result → Prop} {Q : OtherResult → Prop}

theorem ok {result : Result} (holds : P result) : Succeeds P (.ok result : Except Error Result) := by
  intro found same
  cases same
  exact holds

theorem error {cause : Error} : Succeeds P (.error cause : Except Error Result) := nofun

theorem getD {each : Item → Prop} {outcome : Except Error (List Item)}
    (succeeds : Succeeds (fun items => ∀ item ∈ items, each item) outcome) :
    ∀ item ∈ outcome.toOption.getD [], each item := by
  cases outcome with
  | error cause => exact nofun
  | ok items => exact succeeds items rfl

theorem bind {next : Result → Except Error OtherResult} (first : Succeeds P outcome)
    (then_ : ∀ result, P result → Succeeds Q (next result)) : Succeeds Q (outcome >>= next) := by
  cases outcome with
  | error cause => exact error
  | ok result => exact then_ result (first result rfl)

theorem map (first : Succeeds P outcome) (then_ : ∀ result, P result → Q (f result)) : Succeeds Q (outcome.map f) := by
  cases outcome with
  | error cause => exact error
  | ok result => exact ok (then_ result (first result rfl))

theorem ite [Decidable condition] (yes : condition → Succeeds P first) (no : ¬ condition → Succeeds P second) :
    Succeeds P (if condition then first else second) :=
  iteInduction yes no

theorem mapM {f : Item → Except Error Result} (each : ∀ item ∈ items, Succeeds P (f item)) :
    Succeeds (fun results => ∀ result ∈ results, P result) (items.mapM f) := by
  induction items with
  | nil => exact ok fun result never => absurd never List.not_mem_nil
  | cons item items ih =>
    rw [List.mapM_cons]
    refine (each item List.mem_cons_self).bind fun result holds => ?_
    exact (ih (List.forall_mem_cons.mp each).2).bind fun results rest => ok (List.forall_mem_cons.mpr ⟨holds, rest⟩)

end Succeeds

theorem mapM_eq_ok (f : Item → Except Error Result) (orElse : Result) {results : List Result}
    (ran : items.mapM f = .ok results) :
    results = items.map (fun item => (f item).toOption.getD orElse) ∧
      ∀ item ∈ items, f item = .ok ((f item).toOption.getD orElse) := by
  induction items generalizing results with
  | nil =>
    cases ran
    exact ⟨rfl, fun item never => absurd never List.not_mem_nil⟩
  | cons item items ih =>
    rw [List.mapM_cons] at ran
    obtain ⟨result, first, ran⟩ := bind_eq_ok ran
    obtain ⟨later, rest, ran⟩ := bind_eq_ok ran
    cases ran
    obtain ⟨same, each⟩ := ih rest
    refine ⟨by rw [List.map_cons, first, same]; rfl, List.forall_mem_cons.mpr ⟨?_, each⟩⟩
    rw [first]
    rfl

end FdbGo.Foundation
