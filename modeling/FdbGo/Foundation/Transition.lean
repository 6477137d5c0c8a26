import Mathlib.Logic.Relation

/-! Runs of a step function, and pools of threads that share a state. -/

set_option autoImplicit false

namespace FdbGo.Foundation

section Gives

variable {State Result : Type} {P : State → Prop} {c : Prop} [Decidable c] {first second : Option State}

/-- What a step leads to, if it can be taken, has the property. -/
def Gives (P : State → Prop) (next : Option State) : Prop := ∀ s, next = some s → P s

namespace Gives

theorem none : Gives P none := nofun

theorem some {s : State} (holds : P s) : Gives P (some s) := by
  intro next same
  cases same
  exact holds

theorem ite (yes : c → Gives P first) (no : ¬ c → Gives P second) : Gives P (if c then first else second) :=
  iteInduction yes no

theorem map {f : Result → State} {next : Option Result} (gives : Gives (fun result => P (f result)) next) :
    Gives P (next.map f) := by
  intro s mapped
  obtain ⟨result, given, rfl⟩ := Option.map_eq_some_iff.mp mapped
  exact gives result given

end Gives

end Gives

section Runs

variable {State Action : Type} {step : State → Action → Option State}

def guarded (allowed : State → Action → Bool) (step : State → Action → Option State) (s : State)
    (a : Action) : Option State :=
  if allowed s a then step s a else none

variable {s' s : State}

/-- A guarded step is a step that the guard allows. -/
theorem guarded_eq_some_iff {allowed : State → Action → Bool} {a : Action} :
    guarded allowed step s a = some s' ↔ allowed s a = true ∧ step s a = some s' := by
  unfold guarded
  split
  case isTrue holds => simp [holds]
  case isFalse fails => simp [fails]

def Reaches (step : State → Action → Option State) : State → State → Prop :=
  Relation.ReflTransGen fun s s' => ∃ a, step s a = some s'

theorem reaches_of_foldlM {actions : List Action} (ran : actions.foldlM step s = some s') : Reaches step s s' := by
  induction actions generalizing s with
  | nil =>
    obtain rfl := Option.some.inj ran
    exact .refl
  | cons a actions ih =>
    rw [List.foldlM_cons] at ran
    obtain ⟨next, stepped, rest⟩ := Option.bind_eq_some_iff.mp ran
    exact (ih rest).head ⟨a, stepped⟩

theorem Reaches.keeps (reaches : Reaches step s s') {inv : State → Prop}
    (preserved : ∀ s a s', inv s → step s a = some s' → inv s') (start : inv s) : inv s' := by
  induction reaches with
  | refl => exact start
  | tail _ stepped ih =>
    obtain ⟨a, stepped⟩ := stepped
    exact preserved _ a _ ih stepped

end Runs

section Threads

variable {Thread : Type} {ok ok' : Nat → Thread → Prop} {threads : List Thread} {t : Thread} {u : Thread} {i j : Nat}

theorem thread_set_cases (found : (threads.set i t)[j]? = some u) : j = i ∧ u = t ∨ j ≠ i ∧ threads[j]? = some u := by
  rw [List.getElem?_set] at found
  split at found
  case isTrue same =>
    subst same
    split at found
    case isTrue => exact .inl ⟨rfl, (Option.some.inj found).symm⟩
    case isFalse => cases found
  case isFalse differs => exact .inr ⟨Ne.symm differs, found⟩

theorem thread_append_cases (found : (threads ++ [t])[j]? = some u) :
    j = threads.length ∧ u = t ∨ threads[j]? = some u := by
  rw [List.getElem?_append] at found
  split at found
  case isTrue => exact .inr found
  case isFalse outside =>
    rw [List.getElem?_singleton] at found
    split at found
    case isTrue here => exact .inl ⟨by omega, (Option.some.inj found).symm⟩
    case isFalse => cases found

def AllThreads (ok : Nat → Thread → Prop) (threads : List Thread) : Prop :=
  ∀ i t, threads[i]? = some t → ok i t

/-- One thread moves; the others keep what they rely on. -/
theorem AllThreads.set (all : AllThreads ok threads) (stable : ∀ j u, threads[j]? = some u → ok j u → ok' j u)
    (moved : ok' i t) : AllThreads ok' (threads.set i t) := by
  intro j u found
  cases thread_set_cases found with
  | inl here =>
    obtain ⟨rfl, rfl⟩ := here
    exact moved
  | inr other => exact stable j u other.2 (all j u other.2)

theorem AllThreads.append (all : AllThreads ok threads) (stable : ∀ j u, threads[j]? = some u → ok j u → ok' j u)
    (begun : ok' threads.length t) : AllThreads ok' (threads ++ [t]) := by
  intro j u found
  cases thread_append_cases found with
  | inl new =>
    obtain ⟨rfl, rfl⟩ := new
    exact begun
  | inr old => exact stable j u old (all j u old)

end Threads

end FdbGo.Foundation
