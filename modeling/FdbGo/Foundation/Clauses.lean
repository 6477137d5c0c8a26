import Mathlib.Data.Multiset.Lattice
import Mathlib.Order.Lattice

/-! Joins of meets in a bounded distributive lattice. A clause is the meet of its atoms, and
a list of clauses the join of them. -/

set_option autoImplicit false

namespace FdbGo.Foundation

variable {A L : Type} [DistribLattice L] [BoundedOrder L] {v : A → L}

def meetAll (v : A → L) (items : List A) : L := (items.map v : Multiset L).inf

def joinAll (v : A → L) (items : List A) : L := (items.map v : Multiset L).sup

@[simp] theorem meetAll_nil (v : A → L) : meetAll v [] = ⊤ := Multiset.inf_zero

@[simp] theorem joinAll_nil (v : A → L) : joinAll v [] = ⊥ := Multiset.sup_zero

@[simp] theorem meetAll_cons (v : A → L) (item : A) (items : List A) :
    meetAll v (item :: items) = v item ⊓ meetAll v items := by
  rw [meetAll, List.map_cons, ← Multiset.cons_coe, Multiset.inf_cons]
  rfl

@[simp] theorem joinAll_cons (v : A → L) (item : A) (items : List A) :
    joinAll v (item :: items) = v item ⊔ joinAll v items := by
  rw [joinAll, List.map_cons, ← Multiset.cons_coe, Multiset.sup_cons]
  rfl

theorem meetAll_append (v : A → L) (items others : List A) :
    meetAll v (items ++ others) = meetAll v items ⊓ meetAll v others := by
  rw [meetAll, List.map_append, ← Multiset.coe_add, Multiset.inf_add]
  rfl

theorem joinAll_append (v : A → L) (items others : List A) :
    joinAll v (items ++ others) = joinAll v items ⊔ joinAll v others := by
  rw [joinAll, List.map_append, ← Multiset.coe_add, Multiset.sup_add]
  rfl

variable {items : List A} {others : List A} {bound : L} {item : A}

theorem le_joinAll (member : item ∈ items) : v item ≤ joinAll v items :=
  Multiset.le_sup (Multiset.mem_coe.mpr (List.mem_map_of_mem member))

theorem joinAll_le (below : ∀ item ∈ items, v item ≤ bound) : joinAll v items ≤ bound := by
  refine Multiset.sup_le.mpr fun value member => ?_
  obtain ⟨item, isItem, rfl⟩ := List.mem_map.mp (Multiset.mem_coe.mp member)
  exact below item isItem

theorem meetAll_le (member : item ∈ items) : meetAll v items ≤ v item :=
  Multiset.inf_le (Multiset.mem_coe.mpr (List.mem_map_of_mem member))

theorem le_meetAll (above : ∀ item ∈ items, bound ≤ v item) : bound ≤ meetAll v items := by
  refine Multiset.le_inf.mpr fun value member => ?_
  obtain ⟨item, isItem, rfl⟩ := List.mem_map.mp (Multiset.mem_coe.mp member)
  exact above item isItem

/-- A meet over more values is lower. -/
theorem meetAll_anti (included : ∀ other ∈ others, ∃ item ∈ items, v item = v other) :
    meetAll v items ≤ meetAll v others := by
  refine le_meetAll fun other isOther => ?_
  obtain ⟨item, isItem, same⟩ := included other isOther
  rw [← same]
  exact meetAll_le isItem

/-- A join over more or higher values is higher. -/
theorem joinAll_mono (included : ∀ item ∈ items, ∃ other ∈ others, v item ≤ v other) :
    joinAll v items ≤ joinAll v others := by
  refine joinAll_le fun item isItem => ?_
  obtain ⟨other, isOther, le⟩ := included item isItem
  exact le.trans (le_joinAll isOther)

/-! ## The dual order -/

theorem joinAll_toDual (v : A → L) (items : List A) :
    joinAll (fun item => OrderDual.toDual (v item)) items = OrderDual.toDual (meetAll v items) := by
  induction items with
  | nil => rfl
  | cons item items ih =>
    rw [joinAll_cons, ih, meetAll_cons]
    rfl

theorem meetAll_toDual (v : A → L) (items : List A) :
    meetAll (fun item => OrderDual.toDual (v item)) items = OrderDual.toDual (joinAll v items) := by
  induction items with
  | nil => rfl
  | cons item items ih =>
    rw [meetAll_cons, ih, joinAll_cons]
    rfl

/-! ## Clauses -/

def clausesValue (v : A → L) (clauses : List (List A)) : L := joinAll (meetAll v) clauses

theorem clausesValue_append (v : A → L) (clauses others : List (List A)) :
    clausesValue v (clauses ++ others) = clausesValue v clauses ⊔ clausesValue v others :=
  joinAll_append _ _ _

/-- Every clause of the left joined with every clause of the right. -/
def cross (left right : List (List A)) : List (List A) := right.flatMap fun r => left.map fun l => l ++ r

theorem length_cross (left right : List (List A)) : (cross left right).length = left.length * right.length := by
  simp [cross, List.length_flatMap, Nat.mul_comm]

theorem mem_cross {left right : List (List A)} {clause : List A} :
    clause ∈ cross left right ↔ ∃ r ∈ right, ∃ l ∈ left, l ++ r = clause := by
  simp only [cross, List.mem_flatMap, List.mem_map]

theorem clausesValue_extend (v : A → L) (left : List (List A)) (r : List A) :
    clausesValue v (left.map fun l => l ++ r) = clausesValue v left ⊓ meetAll v r := by
  induction left with
  | nil => simp [clausesValue]
  | cons l left ih =>
    simp only [clausesValue] at ih ⊢
    rw [List.map_cons, joinAll_cons, ih, meetAll_append, joinAll_cons, inf_sup_right]

theorem clausesValue_cross (v : A → L) (left right : List (List A)) :
    clausesValue v (cross left right) = clausesValue v left ⊓ clausesValue v right := by
  induction right with
  | nil => simp [cross, clausesValue]
  | cons r right ih =>
    rw [cross] at ih
    rw [cross, List.flatMap_cons, clausesValue_append, ih, clausesValue_extend, ← inf_sup_left]
    rfl

end FdbGo.Foundation
