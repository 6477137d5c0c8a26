import FdbGo.RecordLayer.TransactionProperties

/-! Items kept in a part of the keyspace, one row for each, in the order of their indices. -/

set_option autoImplicit false

namespace FdbGo.RecordLayer

open Client Foundation Snapshot

variable {Item K : Type} [LinearOrder K]

/-- How items are written as rows, and the keys that hold no other rows. -/
structure Layout (Item K : Type) [LinearOrder K] where
  index : Item → K
  value : Item → Bytes
  key : K → Key
  region : Key → Bool
  monotone : StrictMono key
  inside : ∀ k, region (key k) = true

namespace Layout

variable {l : Layout Item K} {d : Snapshot} {items : List Item} {b e : Key}

def row (l : Layout Item K) (item : Item) : KeyValue := { key := l.key (l.index item), value := l.value item }

structure Holds (l : Layout Item K) (d : Snapshot) (items : List Item) : Prop where
  ordered : Ordered l.index items
  rows : d.rows.filter (fun kv => l.region kv.key) = items.map l.row

def Spans (l : Layout Item K) (b e : Key) : Prop := ∀ k, b ≤ k → k < e → l.region k = true

theorem ordered_rows (ordered : Ordered l.index items) : Ordered KeyValue.key (items.map l.row) := by
  refine List.pairwise_map.mpr (ordered.imp ?_)
  intro item next less
  exact l.monotone less

/-- The rows of the region are those of the items, and no others. -/
theorem Holds.mem_iff (holds : l.Holds d items) {kv : KeyValue} :
    kv ∈ items.map l.row ↔ kv ∈ d.rows ∧ l.region kv.key = true := by
  rw [← holds.rows, List.mem_filter]

theorem Holds.of_mem_iff (ordered : Ordered l.index items)
    (members : ∀ kv, kv ∈ d.rows ∧ l.region kv.key = true ↔ ∃ item ∈ items, l.row item = kv) : l.Holds d items := by
  refine ⟨ordered, (d.ordered.filter _).ext (ordered_rows ordered) fun kv => ?_⟩
  rw [List.mem_filter, List.mem_map]
  exact members kv

section

variable (holds : l.Holds d items)

include holds

theorem Holds.within (spans : l.Spans b e) :
    d.within b e =
      (items.filter fun item => decide (b ≤ l.key (l.index item) ∧ l.key (l.index item) < e)).map l.row := by
  have ordered := (d.within_ordered b e).ext
    (ordered_rows (l := l) (holds.ordered.filter
      fun item => decide (b ≤ l.key (l.index item) ∧ l.key (l.index item) < e)))
  refine ordered fun kv => ?_
  rw [mem_within, List.mem_map]
  constructor
  · intro found
    obtain ⟨member, above, below⟩ := found
    obtain ⟨item, isItem, rfl⟩ := List.mem_map.mp (holds.mem_iff.mpr ⟨member, spans _ above below⟩)
    exact ⟨item, List.mem_filter.mpr ⟨isItem, decide_eq_true ⟨above, below⟩⟩, rfl⟩
  · intro found
    obtain ⟨item, isItem, rfl⟩ := found
    obtain ⟨isItem, bounds⟩ := List.mem_filter.mp isItem
    exact ⟨(holds.mem_iff.mp (List.mem_map_of_mem isItem)).1, of_decide_eq_true bounds⟩

/-- An item is read under its key. -/
theorem Holds.get {item : Item} (member : item ∈ items) : d.get (l.key (l.index item)) = some (l.value item) :=
  get_eq_of_mem (holds.mem_iff.mp (List.mem_map_of_mem member)).1

theorem Holds.get_none {k : K} (absent : ∀ item ∈ items, l.index item ≠ k) : d.get (l.key k) = none := by
  rw [Option.eq_none_iff_forall_ne_some]
  intro v found
  have member := get_eq_some_iff.mp found
  obtain ⟨item, isItem, same⟩ := List.mem_map.mp (holds.mem_iff.mpr ⟨member, l.inside k⟩)
  exact absent item isItem (l.monotone.injective (congrArg KeyValue.key same))

theorem Holds.set (item : Item) : l.Holds (d.set (l.key (l.index item)) (l.value item)) (put l.index item items) := by
  refine .of_mem_iff (holds.ordered.put item) fun kv => ?_
  rw [mem_rows_set]
  constructor
  · intro found
    obtain ⟨isNew | ⟨old, differs⟩, inside⟩ := found
    · exact ⟨item, mem_put.mpr (.inl rfl), isNew.symm⟩
    · obtain ⟨other, isOther, rfl⟩ := List.mem_map.mp (holds.mem_iff.mpr ⟨old, inside⟩)
      exact ⟨other, mem_put.mpr (.inr ⟨isOther, fun same => differs (congrArg l.key same)⟩), rfl⟩
  · intro found
    obtain ⟨other, isOther, rfl⟩ := found
    refine ⟨?_, l.inside _⟩
    cases mem_put.mp isOther with
    | inl new => exact .inl (by rw [new]; rfl)
    | inr old =>
      exact .inr ⟨(holds.mem_iff.mp (List.mem_map_of_mem old.1)).1,
        fun same => old.2 (l.monotone.injective same)⟩

theorem Holds.clearRange (b e : Key) :
    l.Holds (d.clearRange b e)
      (items.filter fun item => !decide (b ≤ l.key (l.index item) ∧ l.key (l.index item) < e)) := by
  refine .of_mem_iff (holds.ordered.filter _) fun kv => ?_
  rw [mem_rows_clearRange]
  simp only [List.mem_filter, Bool.not_eq_true', decide_eq_false_iff_not]
  constructor
  · intro found
    obtain ⟨⟨member, outside⟩, inside⟩ := found
    obtain ⟨item, isItem, rfl⟩ := List.mem_map.mp (holds.mem_iff.mpr ⟨member, inside⟩)
    exact ⟨item, ⟨isItem, outside⟩, rfl⟩
  · intro found
    obtain ⟨item, ⟨isItem, outside⟩, rfl⟩ := found
    exact ⟨⟨(holds.mem_iff.mp (List.mem_map_of_mem isItem)).1, outside⟩, l.inside _⟩

theorem Holds.clear (k : K) :
    l.Holds (d.clearRange (l.key k) (keyAfter (l.key k)))
      (items.filter fun item => decide (l.index item ≠ k)) := by
  have cleared := holds.clearRange (l.key k) (keyAfter (l.key k))
  simp only [within_keyAfter_iff, l.monotone.injective.eq_iff, ← decide_not] at cleared
  exact cleared

theorem Holds.congr {d' : Snapshot} (same : ∀ k, l.region k = true → d'.get k = d.get k) : l.Holds d' items := by
  refine .of_mem_iff holds.ordered fun kv => ?_
  rw [← List.mem_map, holds.mem_iff]
  refine and_congr_left fun inside => ?_
  rw [← get_eq_some_iff (k := kv.key), ← get_eq_some_iff (k := kv.key), same _ inside]

end

/-! ## Changing the rows -/

/-- The region's rows become these items and no other key changes. -/
structure Rewrites (l : Layout Item K) (d d' : Snapshot) (items : List Item) : Prop where
  holds : l.Holds d' items
  outside : ∀ k, l.region k = false → d'.get k = d.get k

variable {d' : Snapshot}

theorem ne_key_of_outside {k : Key} (outside : l.region k = false) (i : K) : k ≠ l.key i := fun same => by
  have inside := l.inside i
  rw [← same, outside] at inside
  cases inside

theorem Rewrites.refl (holds : l.Holds d items) : l.Rewrites d d items := ⟨holds, fun _ _ => rfl⟩

theorem Rewrites.of_eq (same : d' = d) (holds : l.Holds d items) : l.Rewrites d d' items := by
  rw [same]
  exact .refl holds

theorem Rewrites.set (rewrites : l.Rewrites d d' items) (item : Item) :
    l.Rewrites d (d'.set (l.key (l.index item)) (l.value item)) (put l.index item items) := by
  refine ⟨rewrites.holds.set item, fun k outside => ?_⟩
  rw [get_set, Function.update_of_ne (ne_key_of_outside outside _), rewrites.outside k outside]

theorem Rewrites.clear (rewrites : l.Rewrites d d' items) (k : K) :
    l.Rewrites d (d'.clearRange (l.key k) (keyAfter (l.key k))) (items.filter fun item => decide (l.index item ≠ k)) := by
  refine ⟨rewrites.holds.clear k, fun other outside => ?_⟩
  rw [get_clearRange_point, Function.update_of_ne (ne_key_of_outside outside _), rewrites.outside other outside]

theorem Rewrites.frame {Other J : Type} [LinearOrder J] {m : Layout Other J} {others : List Other}
    (rewrites : l.Rewrites d d' items) (apart : ∀ k, m.region k = true → l.region k = false)
    (holds : m.Holds d others) : m.Holds d' others :=
  holds.congr fun k inside => rewrites.outside k (apart k inside)

end Layout

end FdbGo.RecordLayer
