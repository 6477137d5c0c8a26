import FdbGo.Client.KeyProperties
import FdbGo.Client.SnapshotCache

/-! The database at a read version: finitely many rows, one for each key that has one. -/

set_option autoImplicit false

namespace FdbGo.Client

open Foundation

structure Snapshot where
  rows : List KeyValue
  ordered : Ordered KeyValue.key rows

instance : EmptyCollection Snapshot := ⟨⟨[], List.Pairwise.nil⟩⟩

namespace Snapshot

variable {d : Snapshot} {b m e k : Key}

def get (d : Snapshot) (k : Key) : Option Bytes :=
  (d.rows.find? fun kv => decide (kv.key = k)).map KeyValue.value

def within (d : Snapshot) (b e : Key) : List KeyValue :=
  d.rows.filter fun kv => decide (b ≤ kv.key ∧ kv.key < e)

/-- The first rows of `[b, e)`, or in reverse the last ones, always in ascending order.
A budget of zero or less is no budget. -/
def page (d : Snapshot) (b e : Key) (budget : Int) (reverse : Bool) : List KeyValue :=
  let rows := d.within b e
  if budget ≤ 0 then rows
  else if reverse then rows.drop (rows.length - budget.toNat)
  else rows.take budget.toNat

/-- A key has the value of its row. -/
theorem get_eq_some_iff {v : Bytes} : d.get k = some v ↔ { key := k, value := v } ∈ d.rows := by
  have distinct : d.rows.Pairwise fun first second => first.key ≠ second.key :=
    d.ordered.imp fun less => less.ne
  constructor
  · intro found
    obtain ⟨kv, isFound, rfl⟩ := Option.map_eq_some_iff.mp found
    obtain rfl : kv.key = k := by simpa using List.find?_some isFound
    exact List.mem_of_find?_eq_some isFound
  · intro member
    have found := @find_of_distinct KeyValue _ _ _ KeyValue.key distinct _ member
    simp only [get, found, Option.map_some]

theorem mem_within {kv : KeyValue} : kv ∈ d.within b e ↔ kv ∈ d.rows ∧ b ≤ kv.key ∧ kv.key < e := by
  simp only [within, List.mem_filter, decide_eq_true_eq]

theorem within_ordered (d : Snapshot) (b e : Key) : Ordered KeyValue.key (d.within b e) :=
  d.ordered.filter _

theorem within_eq_nil (empty : e ≤ b) : d.within b e = [] := by
  rw [within, List.filter_eq_nil_iff]
  intro kv _
  simp only [decide_eq_true_eq, not_and, not_lt]
  exact fun above => empty.trans above

theorem within_append_within (low : b ≤ m) (high : m ≤ e) : d.within b m ++ d.within m e = d.within b e := by
  have ordered : Ordered KeyValue.key (d.within b m ++ d.within m e) := by
    refine ordered_append.mpr ⟨d.within_ordered b m, d.within_ordered m e, ?_⟩
    intro kv member next nextMember
    exact (mem_within.mp member).2.2.trans_le (mem_within.mp nextMember).2.1
  refine ordered.ext (d.within_ordered b e) fun kv => ?_
  simp only [List.mem_append, mem_within]
  constructor
  · intro parts
    cases parts with
    | inl lower => exact ⟨lower.1, lower.2.1, lower.2.2.trans_le high⟩
    | inr upper => exact ⟨upper.1, low.trans upper.2.1, upper.2.2⟩
  · intro whole
    cases lt_or_ge kv.key m with
    | inl below => exact .inl ⟨whole.1, whole.2.1, below⟩
    | inr above => exact .inr ⟨whole.1, above, whole.2.2⟩

theorem within_filter (d : Snapshot) (b e lo hi : Key) :
    (d.within b e).filter (fun kv => decide (lo ≤ kv.key ∧ kv.key < hi)) = d.within (max b lo) (min e hi) := by
  rw [within, List.filter_filter, within]
  refine List.filter_congr fun kv _ => ?_
  simp only [← Bool.decide_and, decide_eq_decide, max_le_iff, lt_min_iff]
  tauto

theorem within_slice (low : b ≤ m) {e' : Key} (high : e' ≤ e) :
    ((d.within b e).take ((d.within b e).findIdx fun kv => decide (e' ≤ kv.key))).drop
      ((d.within b e).findIdx fun kv => decide (m ≤ kv.key)) = d.within m e' := by
  rw [(d.within_ordered b e).slice_eq, within_filter, max_eq_right low, min_eq_right high]

theorem within_point (d : Snapshot) (k : Key) :
    d.within k (keyAfter k) = ((d.get k).map fun value => { key := k, value := value }).toList := by
  refine (d.within_ordered k (keyAfter k)).ext (by cases d.get k <;> simp [Ordered]) fun kv => ?_
  rw [mem_within, within_keyAfter_iff]
  simp only [Option.mem_toList, Option.map_eq_some_iff]
  constructor
  · intro here
    obtain ⟨member, rfl⟩ := here
    exact ⟨kv.value, get_eq_some_iff.mpr member, rfl⟩
  · intro found
    obtain ⟨value, isValue, rfl⟩ := found
    exact ⟨get_eq_some_iff.mp isValue, rfl⟩

end Snapshot

end FdbGo.Client
