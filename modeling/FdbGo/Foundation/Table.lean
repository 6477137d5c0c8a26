import FdbGo.Foundation.Ordered
import Mathlib.Algebra.BigOperators.Group.List.Basic
import Mathlib.Algebra.Ring.Int.Defs
import Mathlib.Data.List.Nodup

/-! Finite tables of rows by key, and sums over their rows. -/

set_option autoImplicit false

namespace FdbGo.Foundation

structure Table (K V : Type) where
  rows : List (K × V)
  nodup : (rows.map Prod.fst).Nodup

namespace Table

variable {K V : Type}

def empty : Table K V := ⟨[], List.nodup_nil⟩

variable {rows : List (K × V)} {t : Table K V} {k : K}

theorem nodup_filter (nodup : (rows.map Prod.fst).Nodup) (p : K × V → Bool) : ((rows.filter p).map Prod.fst).Nodup :=
  nodup.sublist (List.filter_sublist.map Prod.fst)

def total (f : V → Int) (t : Table K V) : Int := (t.rows.map fun row => f row.2).sum

theorem total_congr {f g : V → Int} (same : ∀ row ∈ t.rows, f row.2 = g row.2) : t.total f = t.total g :=
  congrArg List.sum (List.map_congr_left same)

def part (f : V → Int) (v : Option V) : Int := (v.map f).getD 0

theorem sum_rows (f : V → Int) (k : K) (v : Option V) (others : List (K × V)) :
    (((v.toList.map fun v => (k, v)) ++ others).map fun row => f row.2).sum = part f v + (others.map fun row => f row.2).sum := by
  rw [List.map_append, List.sum_append]
  cases v with
  | none => rfl
  | some v => exact congrArg (· + _) (List.sum_singleton (x := f v))

variable [DecidableEq K]

def get (t : Table K V) (k : K) : Option V := t.rows.lookup k

def set (t : Table K V) (k : K) (v : Option V) : Table K V where
  rows := (v.toList.map fun v => (k, v)) ++ t.rows.filter fun row => decide (row.1 ≠ k)
  nodup := by
    have rest := nodup_filter t.nodup fun row => decide (row.1 ≠ k)
    cases v with
    | none => exact rest
    | some v =>
      refine List.nodup_cons.mpr ⟨fun member => ?_, rest⟩
      obtain ⟨row, inside, same⟩ := List.mem_map.mp member
      exact of_decide_eq_true (List.mem_filter.mp inside).2 same

theorem perm_lookup (nodup : (rows.map Prod.fst).Nodup) (k : K) :
    rows.Perm (((rows.lookup k).toList.map fun v => (k, v)) ++ rows.filter fun row => decide (row.1 ≠ k)) := by
  induction rows with
  | nil => exact .refl _
  | cons row rows ih =>
    obtain ⟨key, v⟩ := row
    rw [List.map_cons, List.nodup_cons] at nodup
    by_cases same : key = k
    · subst same
      have rest : rows.filter (fun row => decide (row.1 ≠ key)) = rows := by
        refine List.filter_eq_self.mpr fun row member => decide_eq_true fun again => nodup.1 ?_
        exact List.mem_map.mpr ⟨row, member, again⟩
      have dropped : ((key, v) :: rows).filter (fun row => decide (row.1 ≠ key)) = rows :=
        (List.filter_cons_of_neg (by simp)).trans rest
      rw [dropped, List.lookup_cons_self]
      exact .refl _
    · have differs : (k == key) = false := by simpa using Ne.symm same
      have kept : ((key, v) :: rows).filter (fun row => decide (row.1 ≠ k)) =
          (key, v) :: rows.filter fun row => decide (row.1 ≠ k) := List.filter_cons_of_pos (decide_eq_true same)
      rw [List.lookup_cons, differs, kept]
      exact ((ih nodup.2).cons _).trans List.perm_middle.symm

theorem perm_get (t : Table K V) (k : K) :
    t.rows.Perm (((t.get k).toList.map fun v => (k, v)) ++ t.rows.filter fun row => decide (row.1 ≠ k)) :=
  perm_lookup t.nodup k

theorem total_set (f : V → Int) (t : Table K V) (k : K) (v : Option V) :
    (t.set k v).total f = t.total f - part f (t.get k) + part f v := by
  have before := ((t.perm_get k).map fun row => f row.2).sum_eq
  rw [sum_rows] at before
  have after : (t.set k v).total f = _ := sum_rows f k v _
  rw [after, total, before]
  omega

theorem mem_set {v : Option V} {row : K × V} (member : row ∈ (t.set k v).rows) : row ∈ t.rows ∨ v = some row.2 := by
  cases List.mem_append.mp member with
  | inl new =>
    cases v with
    | none => cases new
    | some v =>
      cases List.mem_singleton.mp new
      exact .inr rfl
  | inr old => exact .inl (List.mem_filter.mp old).1

theorem mem_of_lookup {v : V} (found : rows.lookup k = some v) : (k, v) ∈ rows := by
  induction rows with
  | nil => cases found
  | cons row rows ih =>
    obtain ⟨key, value⟩ := row
    by_cases same : k = key
    · subst same
      rw [List.lookup_cons_self, Option.some.injEq] at found
      rw [found]
      exact List.mem_cons_self
    · have differs : (k == key) = false := by simpa using same
      rw [List.lookup_cons, differs] at found
      exact List.mem_cons_of_mem _ (ih found)

theorem mem_of_get {v : V} (found : t.get k = some v) : (k, v) ∈ t.rows := mem_of_lookup found

end Table

end FdbGo.Foundation
