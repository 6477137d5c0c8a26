import FdbGo.Client.Writes
import FdbGo.Client.WriteConflictProperties
import FdbGo.Foundation.Fragments
import Mathlib.Logic.Function.Basic

/-! What the write map's stores hold after each operation: the cleared ranges as a
set of keys, the entries as a function of the key. -/

set_option autoImplicit false

namespace FdbGo.Client

open Foundation

/-! ## Ranges -/

/-- Ranges that are not empty, in order, and do not touch. -/
structure SeparateRanges (s : List KeyRange) : Prop where
  nonempty : ∀ r ∈ s, r.beginKey < r.endKey
  apart : s.Pairwise fun first second => first.endKey < second.beginKey

variable {b e : Key}

namespace SeparateRanges

variable {s : List KeyRange}

theorem nil : SeparateRanges [] := ⟨by simp, List.Pairwise.nil⟩

theorem fragments (separate : SeparateRanges s) : Fragments KeyRange.beginKey KeyRange.endKey s :=
  ⟨separate.nonempty, separate.apart.imp le_of_lt⟩

/-- Ranges are apart if both parts are and the first ends below the second. -/
theorem append_iff {lower upper : List KeyRange} :
    SeparateRanges (lower ++ upper) ↔ SeparateRanges lower ∧ SeparateRanges upper ∧
      ∀ r ∈ lower, ∀ next ∈ upper, r.endKey < next.beginKey := by
  constructor
  · intro separate
    obtain ⟨lowerApart, upperApart, across⟩ := List.pairwise_append.mp separate.apart
    exact ⟨⟨fun r member => separate.nonempty r (List.mem_append_left upper member), lowerApart⟩,
      ⟨fun r member => separate.nonempty r (List.mem_append_right lower member), upperApart⟩, across⟩
  · rintro ⟨lowerSeparate, upperSeparate, across⟩
    exact ⟨List.forall_mem_append.mpr ⟨lowerSeparate.nonempty, upperSeparate.nonempty⟩,
      List.pairwise_append.mpr ⟨lowerSeparate.apart, upperSeparate.apart, across⟩⟩

theorem rangeContaining_isSome (separate : SeparateRanges s) (k : Key) :
    (rangeContaining s k).isSome = true ↔ Covered s k := by
  obtain ⟨lower, upper, rfl, index, below, above⟩ := separate.fragments.ordered_last.split_gt k
  obtain ⟨-, upperSeparate, -⟩ := append_iff.mp separate
  have notLower : ¬ Covered lower k := by
    rintro ⟨r, member, -, before⟩
    exact absurd before (below r member).not_gt
  rw [covered_append, or_iff_right notLower]
  unfold rangeContaining
  rw [index, List.getElem?_append_right le_rfl, Nat.sub_self]
  cases upper with
  | nil => simpa using covered_nil k
  | cons r upper =>
    have ends := above r List.mem_cons_self
    simp only [List.getElem?_cons_zero, covered_cons]
    split
    case isTrue begins => simp [KeyRange.Covers, begins, ends]
    case isFalse later =>
      have notUpper : ¬ Covered upper k := by
        rintro ⟨next, member, begins, -⟩
        have apart := (List.pairwise_cons.mp upperSeparate.apart).1 next member
        exact absurd (ends.trans apart) begins.not_gt
      simp [KeyRange.Covers, later, notUpper]

/-- The ranges fall apart at a new range `[b, e)`: those that end before it, those it
overlaps or touches, and those that begin after it. -/
structure Around (s lower mid upper : List KeyRange) (b e : Key) : Prop where
  split : s = lower ++ (mid ++ upper)
  low : (s.findIdx fun r => decide (b ≤ r.endKey)) = lower.length
  high : (s.findIdx fun r => decide (e < r.beginKey)) = lower.length + mid.length
  below : ∀ r ∈ lower, r.endKey < b
  touching : ∀ r ∈ mid, b ≤ r.endKey ∧ r.beginKey ≤ e
  above : ∀ r ∈ upper, e < r.beginKey

theorem split_around (separate : SeparateRanges s) (nonempty : b < e) :
    ∃ lower mid upper, Around s lower mid upper b e := by
  obtain ⟨lower, rest, rfl, lowIndex, below, notBelow⟩ := separate.fragments.ordered_last.split_ge b
  obtain ⟨lowerSeparate, restSeparate, -⟩ := append_iff.mp separate
  obtain ⟨mid, upper, rfl, highIndex, notAbove, above⟩ := restSeparate.fragments.ordered.split_gt e
  refine ⟨lower, mid, upper, rfl, lowIndex, ?_, below, ?_, above⟩
  · have skipped : ∀ r ∈ lower, decide (e < r.beginKey) = false := by
      intro r member
      have before := (lowerSeparate.nonempty r member).trans (below r member)
      simpa using (before.trans nonempty).le
    rw [List.findIdx_append, if_neg, highIndex, Nat.add_comm]
    rw [List.findIdx_lt_length]
    rintro ⟨r, member, found⟩
    simp [skipped r member] at found
  · intro r member
    exact ⟨notBelow r (List.mem_append_left upper member), notAbove r member⟩

/-- The range in the place of those that `[b, e)` overlaps or touches. -/
def joined (mid : List KeyRange) (b e : Key) : KeyRange where
  beginKey := mid.head?.elim b fun r => min r.beginKey b
  endKey := mid.getLast?.elim e fun r => max r.endKey e

variable {lower mid upper : List KeyRange} {b e : Key}

theorem Around.addRangeOwned_eq (around : Around s lower mid upper b e) :
    addRangeOwned s b e = lower ++ joined mid b e :: upper := by
  obtain ⟨rfl, lowIndex, highIndex, -, -, -⟩ := around
  unfold addRangeOwned
  simp only [lowIndex, highIndex]
  rw [replace_append]
  congr 2
  cases mid with
  | nil =>
    simp only [List.length_nil, Nat.add_zero, lt_irrefl, false_and, ↓reduceIte]
    -- Whatever stands at the two indexes, the new range stays as it is.
    generalize (lower ++ ([] ++ upper))[lower.length]? = found
    generalize (lower ++ ([] ++ upper))[lower.length - 1]? = before
    cases found <;> cases before <;> rfl
  | cons first mid =>
    obtain ⟨last, atLast⟩ : ∃ last, (first :: mid).getLast? = some last :=
      ⟨_, List.getLast?_eq_some_getLast (List.cons_ne_nil first mid)⟩
    have firstAt : (lower ++ (first :: mid ++ upper))[lower.length]? = some first := by simp
    have lastAt : (lower ++ (first :: mid ++ upper))[lower.length + (first :: mid).length - 1]? =
        some last := by
      rw [Nat.add_sub_assoc (by simp), List.getElem?_append_right (by omega), Nat.add_sub_cancel_left,
        List.getElem?_append_left (by simp), ← List.getLast?_eq_getElem?, atLast]
    have inside : lower.length < lower.length + (first :: mid).length := by simp
    have minimum : (if first.beginKey < b then first.beginKey else b) = min first.beginKey b := by
      grind
    have maximum : (if e < last.endKey then last.endKey else e) = max last.endKey e := by grind
    simp only [firstAt, lastAt, inside, true_and, minimum, maximum, joined, atLast, List.head?_cons,
      Option.elim_some]

/-- The joined ranges lie between the begin of the first and the end of the last. -/
theorem between {first last : KeyRange} (separate : SeparateRanges s) (atFirst : s.head? = some first)
    (atLast : s.getLast? = some last) {r : KeyRange} (member : r ∈ s) :
    first.beginKey ≤ r.beginKey ∧ r.endKey ≤ last.endKey := by
  constructor
  · obtain ⟨rest, rfl⟩ := List.head?_eq_some_iff.mp atFirst
    cases member with
    | head => exact le_rfl
    | tail _ inRest =>
      have apart := (List.pairwise_cons.mp separate.apart).1 r inRest
      exact ((separate.nonempty first List.mem_cons_self).trans apart).le
  · obtain ⟨rest, rfl⟩ := List.getLast?_eq_some_iff.mp atLast
    cases List.mem_append.mp member with
    | inl inRest =>
      obtain ⟨-, lastSeparate, across⟩ := append_iff.mp separate
      have apart := across r inRest last (List.mem_singleton_self last)
      exact (apart.trans (lastSeparate.nonempty last (List.mem_singleton_self last))).le
    | inr isLast => rw [List.mem_singleton.mp isLast]

theorem Around.spec (around : Around s lower mid upper b e) (separate : SeparateRanges s) (nonempty : b < e) :
    SeparateRanges (lower ++ joined mid b e :: upper) ∧
      ∀ k, Covered (lower ++ joined mid b e :: upper) k ↔ Covered s k ∨ b ≤ k ∧ k < e := by
  obtain ⟨rfl, -, -, below, touching, above⟩ := around
  generalize isMerged : joined mid b e = merged
  have beginKey := congrArg KeyRange.beginKey isMerged.symm
  have endKey := congrArg KeyRange.endKey isMerged.symm
  obtain ⟨lowerSeparate, restSeparate, lowerAcross⟩ := append_iff.mp separate
  obtain ⟨midSeparate, upperSeparate, upperAcross⟩ := append_iff.mp restSeparate
  have bounds : merged.beginKey ≤ b ∧ e ≤ merged.endKey ∧
      (∀ r ∈ lower, r.endKey < merged.beginKey) ∧ (∀ r ∈ upper, merged.endKey < r.beginKey) ∧
      ∀ k, merged.Covers k ↔ Covered mid k ∨ b ≤ k ∧ k < e := by
    cases mid with
    | nil =>
      simp only [joined, List.head?_nil, List.getLast?_nil, Option.elim_none] at beginKey endKey
      refine ⟨beginKey.le, endKey.ge, beginKey ▸ below, endKey ▸ above, fun k => ?_⟩
      rw [KeyRange.Covers, beginKey, endKey, or_iff_right (covered_nil k)]
    | cons first mid =>
      obtain ⟨last, atLast⟩ : ∃ last, (first :: mid).getLast? = some last :=
        ⟨_, List.getLast?_eq_some_getLast (List.cons_ne_nil first mid)⟩
      have firstTouches := touching first List.mem_cons_self
      have lastMember := List.mem_of_getLast? atLast
      have lastTouches := touching last lastMember
      simp only [joined, List.head?_cons, atLast, Option.elim_some] at beginKey endKey
      refine ⟨beginKey ▸ min_le_right _ _, endKey ▸ le_max_right _ _, ?_, ?_, fun k => ?_⟩
      · intro r member
        have apart := lowerAcross r member first (List.mem_append_left upper List.mem_cons_self)
        rw [beginKey]
        exact lt_min apart (below r member)
      · intro r member
        rw [endKey]
        exact max_lt (upperAcross last lastMember r member) (above r member)
      · rw [KeyRange.Covers, beginKey, endKey]
        constructor
        · intro inside
          -- A key of the joined range outside `[b, e)` is in the first or in the last one.
          by_cases before : k < b
          · exact .inl ⟨first, List.mem_cons_self, by grind, before.trans_le firstTouches.1⟩
          · by_cases past : e ≤ k
            · exact .inl ⟨last, lastMember, lastTouches.2.trans past, by grind⟩
            · exact .inr ⟨not_lt.mp before, not_le.mp past⟩
        · intro covered
          cases covered with
          | inl inMid =>
            obtain ⟨r, member, begins, ends⟩ := inMid
            have ends' := midSeparate.between rfl atLast member
            exact ⟨(min_le_left _ _).trans (ends'.1.trans begins),
              (ends.trans_le ends'.2).trans_le (le_max_left _ _)⟩
          | inr isNew =>
            exact ⟨(min_le_right _ _).trans isNew.1, isNew.2.trans_le (le_max_right _ _)⟩
  obtain ⟨begins, ends, lowerEnds, upperBegins, merges⟩ := bounds
  have mergedNonempty : merged.beginKey < merged.endKey := (begins.trans_lt nonempty).trans_le ends
  constructor
  · refine append_iff.mpr ⟨lowerSeparate, ⟨?_, List.pairwise_cons.mpr ⟨upperBegins, upperSeparate.apart⟩⟩, ?_⟩
    · intro r member
      cases member with
      | head => exact mergedNonempty
      | tail _ inUpper => exact upperSeparate.nonempty r inUpper
    · intro r inLower next member
      cases member with
      | head => exact lowerEnds r inLower
      | tail _ inUpper => exact lowerAcross r inLower next (List.mem_append_right mid inUpper)
  · intro k
    rw [covered_append, covered_cons, merges, covered_append, covered_append]
    tauto

/-- The cleared ranges stay apart, and they cover the new range as well. -/
theorem addRangeOwned_spec (separate : SeparateRanges s) (nonempty : b < e) :
    SeparateRanges (addRangeOwned s b e) ∧
      ∀ k, Covered (addRangeOwned s b e) k ↔ Covered s k ∨ b ≤ k ∧ k < e := by
  obtain ⟨lower, mid, upper, around⟩ := separate.split_around nonempty
  rw [around.addRangeOwned_eq]
  exact around.spec separate nonempty

end SeparateRanges

/-! ## Entries -/

namespace RywWrites

variable {w : RywWrites}

def entries (w : RywWrites) : List RywWrite := if w.isSorted then w.sorted else w.writes.getD []

/-- Each key has at most one entry, and the sorted store is sorted. -/
structure Indexed (w : RywWrites) : Prop where
  ordered : w.isSorted = true → Ordered RywWrite.key w.sorted
  distinct : w.isSorted = false → (w.writes.getD []).Pairwise fun first second => first.key ≠ second.key

theorem Indexed.empty : Indexed {} := ⟨fun sorted => absurd sorted Bool.false_ne_true, fun _ => List.Pairwise.nil⟩

variable {x : RywWrite} {k : Key}

section

variable (indexed : w.Indexed)

include indexed

theorem entry_eq_some_iff {e : RywEntry} : w.entry k = some e ↔ { key := k, e := e } ∈ w.entries := by
  unfold entry entries
  cases sorted : w.isSorted with
  | true =>
    have found := (indexed.ordered sorted).find_eq_some_iff { key := k, e := e }
    simp only [Bool.not_true, Bool.false_eq_true, ↓reduceIte, ← found, writeIndex]
    cases w.sorted[w.sorted.findIdx fun x => decide (k ≤ x.key)]? with
    | none => simp
    | some x =>
      obtain ⟨key, entry⟩ := x
      simp
  | false =>
    simp only [Bool.not_false, ↓reduceIte, Bool.false_eq_true, Option.map_eq_some_iff]
    constructor
    · rintro ⟨x, found, rfl⟩
      have same : x.key = k := by simpa using List.find?_some found
      rw [← same]
      exact List.mem_of_find?_eq_some found
    · intro member
      exact ⟨_, find_of_distinct (indexed.distinct sorted) member, rfl⟩

theorem entry_eq_none_iff : w.entry k = none ↔ ∀ x ∈ w.entries, x.key ≠ k := by
  rw [Option.eq_none_iff_forall_ne_some]
  constructor
  · rintro missing ⟨key, e⟩ member rfl
    exact missing e ((entry_eq_some_iff indexed).mpr member)
  · intro missing e found
    exact missing _ ((entry_eq_some_iff indexed).mp found) rfl

theorem entry_congr {w' : RywWrites} (indexed' : w'.Indexed)
    (same : ∀ e, { key := k, e := e } ∈ w'.entries ↔ { key := k, e := e } ∈ w.entries) : w'.entry k = w.entry k := by
  refine Option.ext fun e => ?_
  rw [entry_eq_some_iff indexed', entry_eq_some_iff indexed]
  exact same e

private theorem mem_putEntry {e : RywEntry} :
    x ∈ (w.putEntry k e).entries ↔ x = { key := k, e := e } ∨ x ∈ w.entries ∧ x.key ≠ k := by
  unfold putEntry entries
  cases sorted : w.isSorted with
  | true =>
    simp only [Bool.not_true, Bool.false_eq_true, ↓reduceIte, (indexed.ordered sorted).putAt_eq_put]
    exact mem_put
  | false => simp

theorem Indexed.putEntry (k : Key) (e : RywEntry) : (w.putEntry k e).Indexed := by
  unfold RywWrites.putEntry
  cases sorted : w.isSorted with
  | true =>
    simp only [Bool.not_true, Bool.false_eq_true, ↓reduceIte, (indexed.ordered sorted).putAt_eq_put]
    exact ⟨fun _ => (indexed.ordered sorted).put _, fun unsorted => absurd unsorted.symm Bool.false_ne_true⟩
  | false =>
    refine ⟨fun isSorted => absurd isSorted Bool.false_ne_true, fun _ => ?_⟩
    refine List.pairwise_cons.mpr ⟨?_, (indexed.distinct sorted).filter _⟩
    intro x member
    simpa using Ne.symm (by simpa using (List.mem_filter.mp member).2)

theorem entry_putEntry (k : Key) (e : RywEntry) : (w.putEntry k e).entry = Function.update w.entry k (some e) := by
  funext other
  by_cases same : other = k
  · subst same
    rw [Function.update_self, entry_eq_some_iff (indexed.putEntry other e), mem_putEntry indexed]
    exact .inl rfl
  · rw [Function.update_of_ne same]
    refine entry_congr indexed (indexed.putEntry k e) fun found => ?_
    rw [mem_putEntry indexed]
    simp [same]

/-- The index still finds every entry after a sort. -/
theorem Indexed.ensureSorted : w.ensureSorted.Indexed := by
  unfold RywWrites.ensureSorted
  cases sorted : w.isSorted with
  | true => simpa [sorted] using indexed
  | false =>
    refine ⟨fun _ => ?_, fun unsorted => absurd unsorted.symm Bool.false_ne_true⟩
    have perm := List.mergeSort_perm (w.writes.getD []) fun a b => decide (a.key ≤ b.key)
    have distinct := perm.symm.pairwise (indexed.distinct sorted) fun apart => apart.symm
    exact ((mergeSort_pairwise _).and distinct).imp fun both => lt_of_le_of_ne both.1 both.2

end

theorem mem_ensureSorted : x ∈ w.ensureSorted.entries ↔ x ∈ w.entries := by
  unfold RywWrites.ensureSorted entries
  cases sorted : w.isSorted with
  | true => simp [sorted]
  | false => simp [List.mem_mergeSort]

variable (indexed : w.Indexed)

include indexed

theorem entry_ensureSorted : w.ensureSorted.entry = w.entry := by
  funext k
  exact entry_congr indexed indexed.ensureSorted fun e => mem_ensureSorted

omit indexed in
theorem ensureSorted_isSorted (w : RywWrites) : w.ensureSorted.isSorted = true := by
  unfold RywWrites.ensureSorted
  split
  case isTrue sorted => exact sorted
  case isFalse => rfl

private theorem mem_deleteEntry : x ∈ (w.deleteEntry k).1.entries ↔ x ∈ w.entries ∧ x.key ≠ k := by
  unfold deleteEntry entries
  cases sorted : w.isSorted with
  | true => simp [(indexed.ordered sorted).deleteKey_eq_filter]
  | false => cases w.writes <;> simp

theorem Indexed.deleteEntry (k : Key) : (w.deleteEntry k).1.Indexed := by
  unfold RywWrites.deleteEntry
  cases sorted : w.isSorted with
  | true =>
    simp only [Bool.not_true, Bool.false_eq_true, ↓reduceIte, (indexed.ordered sorted).deleteKey_eq_filter]
    exact ⟨fun _ => (indexed.ordered sorted).filter _, fun unsorted => absurd unsorted.symm Bool.false_ne_true⟩
  | false =>
    refine ⟨fun isSorted => absurd isSorted Bool.false_ne_true, fun _ => ?_⟩
    have distinct := indexed.distinct sorted
    cases writes : w.writes with
    | none => exact List.Pairwise.nil
    | some items =>
      rw [writes] at distinct
      exact distinct.filter _

theorem entry_deleteEntry (k : Key) : (w.deleteEntry k).1.entry = Function.update w.entry k none := by
  funext other
  by_cases same : other = k
  · subst same
    rw [Function.update_self, entry_eq_none_iff (indexed.deleteEntry other)]
    intro x member
    exact ((mem_deleteEntry indexed).mp member).2
  · rw [Function.update_of_ne same]
    refine entry_congr indexed (indexed.deleteEntry k) fun found => ?_
    rw [mem_deleteEntry indexed]
    simp [same]

omit indexed in
theorem foldl_removeUnreadable (removed : List RywWrite) (w : RywWrites) :
    ∃ keys, removed.foldl (fun w x => if x.e.unreadable then w.removeUnreadableKey x.key else w) w =
      { w with unreadableKeys := keys } := by
  induction removed generalizing w with
  | nil => exact ⟨w.unreadableKeys, rfl⟩
  | cons x rest ih =>
    rw [List.foldl_cons]
    cases x.e.unreadable with
    | true =>
      obtain ⟨keys, folded⟩ := ih (w.removeUnreadableKey x.key)
      exact ⟨keys, folded⟩
    | false => exact ih w

theorem deleteEntries_eq (nonempty : b < e) (written : w.numWrites > 0) :
    ∃ keys, w.deleteEntries b e =
      { w.ensureSorted with
        sorted := w.ensureSorted.sorted.filter (fun x => decide (x.key < b ∨ e ≤ x.key))
        unreadableKeys := keys } := by
  have ordered := indexed.ensureSorted.ordered w.ensureSorted_isSorted
  have deleted := ordered.deleteRange_eq nonempty.le
  unfold deleteEntries
  rw [if_pos written]
  dsimp only
  split
  case isTrue =>
    obtain ⟨keys, removed⟩ := foldl_removeUnreadable
      ((w.ensureSorted.sorted.take (w.ensureSorted.writeIndex e)).drop (w.ensureSorted.writeIndex b))
      w.ensureSorted
    refine ⟨keys, ?_⟩
    rw [removed]
    dsimp only
    rw [← deleted]
    rfl
  case isFalse outside =>
    refine ⟨w.ensureSorted.unreadableKeys, ?_⟩
    have kept : w.ensureSorted.sorted.filter (fun x => decide (x.key < b ∨ e ≤ x.key)) =
        w.ensureSorted.sorted := by
      rw [List.filter_eq_self]
      intro x member
      by_contra inside
      simp only [decide_eq_true_eq, not_or, not_lt, not_le] at inside
      -- The entries before the end of the range are all before its begin.
      have beforeEnd : x ∈ w.ensureSorted.sorted.take (w.ensureSorted.writeIndex e) := by
        rw [writeIndex, take_findIdx (ordered.ascending_ge e)]
        exact List.mem_filter.mpr ⟨member, by simpa using inside.2⟩
      have beforeBegin := List.take_subset_take_left w.ensureSorted.sorted (not_lt.mp outside) beforeEnd
      rw [writeIndex, take_findIdx (ordered.ascending_ge b)] at beforeBegin
      exact absurd inside.1 (by simpa using (List.mem_filter.mp beforeBegin).2)
    rw [kept]

omit indexed in
theorem deleteEntries_none (unwritten : ¬ w.numWrites > 0) : w.deleteEntries b e = w ∧ w.entries = [] := by
  refine ⟨by rw [deleteEntries, if_neg unwritten], ?_⟩
  simp only [numWrites, gt_iff_lt, not_lt, Nat.le_zero] at unwritten
  unfold entries
  split
  case isTrue sorted => simpa [sorted] using unwritten
  case isFalse unsorted => simpa [unsorted] using unwritten

theorem Indexed.deleteEntries (nonempty : b < e) : (w.deleteEntries b e).Indexed := by
  by_cases written : w.numWrites > 0
  · obtain ⟨keys, deleted⟩ := deleteEntries_eq indexed nonempty written
    rw [deleted]
    have ordered := indexed.ensureSorted.ordered w.ensureSorted_isSorted
    exact ⟨fun _ => ordered.filter _,
      fun unsorted => absurd (w.ensureSorted_isSorted.symm.trans unsorted).symm Bool.false_ne_true⟩
  · rw [(deleteEntries_none written).1]
    exact indexed

private theorem mem_deleteEntries (nonempty : b < e) :
    x ∈ (w.deleteEntries b e).entries ↔ x ∈ w.entries ∧ (x.key < b ∨ e ≤ x.key) := by
  by_cases written : w.numWrites > 0
  · obtain ⟨keys, deleted⟩ := deleteEntries_eq indexed nonempty written
    rw [deleted, ← mem_ensureSorted (w := w)]
    simp only [entries, w.ensureSorted_isSorted, ↓reduceIte, List.mem_filter, decide_eq_true_eq]
  · obtain ⟨same, none⟩ := deleteEntries_none (b := b) (e := e) written
    simp [same, none]

theorem entry_deleteEntries (nonempty : b < e) (k : Key) :
    (w.deleteEntries b e).entry k = if b ≤ k ∧ k < e then none else w.entry k := by
  split
  case isTrue inside =>
    rw [entry_eq_none_iff (indexed.deleteEntries nonempty)]
    rintro x member rfl
    have outside := ((mem_deleteEntries indexed nonempty).mp member).2
    exact outside.elim inside.1.not_gt inside.2.not_ge
  case isFalse outside =>
    refine entry_congr indexed (indexed.deleteEntries nonempty) fun found => ?_
    rw [mem_deleteEntries indexed nonempty]
    have : k < b ∨ e ≤ k := by grind
    simp [this]

end RywWrites

end FdbGo.Client
