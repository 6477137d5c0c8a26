import FdbGo.RecordLayer.Layout
import FdbGo.RecordLayer.RangeSet

/-! The rows of a range set denote a set of keys, and every operation acts on it. -/

set_option autoImplicit false

namespace FdbGo.RecordLayer.RangeSet

open Client Foundation FdbGo.Tuple Stretch

def rangeKey (ss : Bytes) (b : Key) : Key := ss ++ wires false [.bytes b]

variable {other b : Key}

/-- The keys of ranges lie in the order of their begins. -/
theorem rangeKey_lt (ss : Bytes) : rangeKey ss b < rangeKey ss other ↔ b < other := bytesKey_lt ss

theorem rangeKey_le (ss : Bytes) : rangeKey ss b ≤ rangeKey ss other ↔ b ≤ other := bytesKey_le ss

def layout (ss : Bytes) : Layout (Stretch Key) Key where
  index := Stretch.low
  value := high
  key := rangeKey ss
  region k := decide (subspaceBegin ss ≤ k ∧ k < subspaceEnd ss)
  monotone _ _ less := (rangeKey_lt ss).mpr less
  inside b := decide_eq_true (subspace_inside ss (.bytes b) [])

theorem pack_bytes (ss : Bytes) (b : Key) (t : Transaction) :
    (subspacePack ss [.bytes b] : Tx Error Bytes).run t = (.ok (rangeKey ss b), t) :=
  subspacePack_eq ss rfl t

theorem unpackBegin_row (ss : Bytes) (range : Stretch Key) (t : Transaction) :
    (unpackBegin ss ((layout ss).row range)).run t = (.ok range.low, t) := by
  have unpacked := @subspaceUnpack_wires ss [.bytes range.low] rfl
  simp only [unpackBegin, Layout.row, layout, rangeKey, unpacked, elements, Value.element]
  rfl

/-! ## Reading around a range -/

variable {ss : Bytes} {t : Transaction} {ranges : List (Stretch Key)} {b e : Key}

def lastUpTo (ranges : List (Stretch Key)) (b : Key) : Option (Stretch Key) :=
  (ranges.filter fun range => decide (range.low ≤ b)).getLast?

def Uncovered (ranges : List (Stretch Key)) (b e : Key) : Prop :=
  ∀ k, b ≤ k → k < e → ¬ Within Stretch.low high ranges k

def inner (ranges : List (Stretch Key)) (b e : Key) : List (Stretch Key) :=
  ranges.filter fun range => decide (b < range.low ∧ range.low < e)

theorem before_read (holds : (layout ss).Holds t.view ranges) (b : Key) :
    (Tx.snapshotGetRange (subspaceBegin ss) (rangeSetKeyAfter (rangeKey ss b)) 1 true : Tx Error _).run t =
      (.ok ((lastUpTo ranges b).map (layout ss).row).toList, t) := by
  have after : rangeSetKeyAfter (rangeKey ss b) = keyAfter (rangeKey ss b) := rfl
  have spans : (layout ss).Spans (subspaceBegin ss) (keyAfter (rangeKey ss b)) := by
    intro k above below
    have inside := (subspace_inside ss (.bytes b) []).2
    exact decide_eq_true ⟨above, (lt_keyAfter_iff.mp below).trans_lt inside⟩
  have chosen : (fun range : Stretch Key => decide (subspaceBegin ss ≤ (layout ss).key ((layout ss).index range) ∧
      (layout ss).key ((layout ss).index range) < keyAfter (rangeKey ss b))) =
      fun range => decide (range.low ≤ b) := by
    funext range
    have inside := (subspace_inside ss (.bytes range.low) []).1
    rw [decide_eq_decide, lt_keyAfter_iff]
    exact ⟨fun both => (rangeKey_le ss).mp both.2, fun le => ⟨inside, (rangeKey_le ss).mpr le⟩⟩
  rw [Tx.snapshotGetRange, after]
  simp only [if_true, Snapshot.page_last, holds.within spans, chosen, List.getLast?_map]
  rfl

private theorem after_within (holds : (layout ss).Holds t.view ranges) (b e : Key) :
    t.view.within (rangeSetKeyAfter (rangeKey ss b)) (rangeKey ss e) =
      (inner ranges b e).map (layout ss).row := by
  have after : rangeSetKeyAfter (rangeKey ss b) = keyAfter (rangeKey ss b) := rfl
  have spans : (layout ss).Spans (keyAfter (rangeKey ss b)) (rangeKey ss e) := by
    intro k above below
    have low := (subspace_inside ss (.bytes b) []).1
    have high := (subspace_inside ss (.bytes e) []).2
    exact decide_eq_true ⟨low.trans (keyAfter_le_iff.mp above).le, below.trans high⟩
  have chosen : (fun range : Stretch Key => decide (keyAfter (rangeKey ss b) ≤ (layout ss).key ((layout ss).index range) ∧
      (layout ss).key ((layout ss).index range) < rangeKey ss e)) =
      fun range => decide (b < range.low ∧ range.low < e) := by
    funext range
    rw [decide_eq_decide, keyAfter_le_iff]
    exact and_congr (rangeKey_lt ss) (rangeKey_lt ss)
  rw [after, holds.within spans, chosen, inner]

theorem after_read (holds : (layout ss).Holds t.view ranges) (b e : Key) (one : Bool) :
    (Tx.snapshotGetRange (rangeSetKeyAfter (rangeKey ss b)) (rangeKey ss e) (if one then 1 else 0) false :
        Tx Error _).run t =
      (.ok (if one then ((inner ranges b e).map (layout ss).row).take 1 else (inner ranges b e).map (layout ss).row), t) := by
  rw [← after_within holds]
  cases one <;> rfl

theorem inner_fragments (fragments : Fragments Stretch.low high ranges) (b e : Key) :
    Fragments Stretch.low high (inner ranges b e) :=
  ⟨fun range member => fragments.nonempty range (List.mem_of_mem_filter member), fragments.apart.filter _⟩

/-- The end of the range that covers `b`, or `b` itself. -/
def startFrom (ranges : List (Stretch Key)) (b : Key) : Key :=
  match lastUpTo ranges b with
  | some range => if b < range.high then range.high else b
  | none => b

theorem startFrom_none (none : lastUpTo ranges b = .none) : startFrom ranges b = b := by
  rw [startFrom, none]

variable {range last : Stretch Key} {joined : List (Stretch Key)}

theorem startFrom_some (found : lastUpTo ranges b = some range) :
    startFrom ranges b = if b < range.high then range.high else b := by
  rw [startFrom, found]

/-- Where the walk over a range starts: the keys before it are covered, and no range
reaches over it. -/
structure Starts (ranges : List (Stretch Key)) (b cur : Key) : Prop where
  after : b ≤ cur
  covered : ∀ k, b ≤ k → k < cur → Within Stretch.low high ranges k
  passed : ∀ range ∈ ranges, range.low ≤ b → range.high ≤ cur
  ahead : ∀ range ∈ ranges, b < range.low → cur ≤ range.low

theorem lastUpTo_spec (fragments : Fragments Stretch.low high ranges)
    (found : lastUpTo ranges b = some range) :
    range ∈ ranges ∧ range.low ≤ b ∧ (∀ other ∈ ranges, other.low ≤ b → other = range ∨ other.high ≤ range.low) ∧
      ∀ other ∈ ranges, b < other.low → range.high ≤ other.low := by
  obtain ⟨isRange, isLow⟩ := List.mem_filter.mp (List.mem_of_getLast? found)
  obtain ⟨best, floor⟩ := exists_floor isRange (of_decide_eq_true isLow)
  obtain rfl : range = best := Option.some.inj (found.symm.trans (floor.getLast_filter fragments.ordered))
  refine ⟨floor.member, floor.below, fun other isOther otherLow => ?_, fun other isOther above =>
    fragments.last_le_first floor.member isOther (floor.below.trans_lt above)⟩
  rcases (floor.greatest other isOther otherLow).lt_or_eq with earlier | same
  · exact .inr (fragments.last_le_first isOther floor.member earlier)
  · exact .inl (fragments.ordered.eq_of_key_eq isOther floor.member same)

theorem starts (fragments : Fragments Stretch.low high ranges) (b : Key) :
    Starts ranges b (startFrom ranges b) := by
  unfold startFrom
  cases found : lastUpTo ranges b with
  | none =>
    have none : ∀ range ∈ ranges, ¬ range.low ≤ b := by
      have empty := List.getLast?_eq_none_iff.mp found
      simpa using empty
    exact ⟨le_rfl, fun k from_ upTo => absurd upTo from_.not_gt,
      fun range member low => absurd low (none range member), fun range _ above => above.le⟩
  | some last =>
    obtain ⟨member, low, before, after⟩ := lastUpTo_spec fragments found
    have nonempty := fragments.nonempty last member
    dsimp only
    split
    case isTrue inside =>
      refine ⟨inside.le, fun k from_ upTo => ⟨last, member, low.trans from_, upTo⟩, fun range isRange rangeLow => ?_, after⟩
      cases before range isRange rangeLow with
      | inl same => exact same ▸ le_rfl
      | inr earlier => exact earlier.trans nonempty.le
    case isFalse outside =>
      refine ⟨le_rfl, fun k from_ upTo => absurd upTo from_.not_gt, fun range isRange rangeLow => ?_,
        fun range _ above => above.le⟩
      cases before range isRange rangeLow with
      | inl same => exact same ▸ not_lt.mp outside
      | inr earlier => exact (earlier.trans low)

def gaps (ranges : List (Stretch Key)) (b e : Key) : List (Stretch Key) :=
  gapsFrom Stretch.low high e (startFrom ranges b) (inner ranges b e)

section Gaps

variable (fragments : Fragments Stretch.low high ranges)

include fragments

theorem inner_ahead : ∀ range ∈ inner ranges b e, startFrom ranges b ≤ range.low := by
  intro range member
  obtain ⟨isRange, bounds⟩ := List.mem_filter.mp member
  exact (starts fragments b).ahead range isRange (of_decide_eq_true bounds).1

/-- The gaps are apart from each other. -/
theorem gaps_separated : Separated (gaps ranges b e) :=
  gapsFrom_separated (inner_fragments fragments b e) (inner_ahead fragments)

/-- A key lies in a gap exactly if it is asked for and no range covers it. -/
theorem within_gaps (k : Key) :
    Within Stretch.low high (gaps ranges b e) k ↔
      b ≤ k ∧ k < e ∧ ¬ Within Stretch.low high ranges k := by
  have start := starts fragments b
  rw [gaps, within_gapsFrom (inner_fragments fragments b e) (inner_ahead fragments)
    fun range member => (of_decide_eq_true (List.mem_filter.mp member).2).2]
  constructor
  · intro found
    obtain ⟨after, before, free⟩ := found
    refine ⟨start.after.trans after, before, fun covered => free ?_⟩
    obtain ⟨range, member, low, high⟩ := covered
    have above : b < range.low :=
      not_le.mp fun le => absurd (high.trans_le (start.passed range member le)) after.not_gt
    exact ⟨range, List.mem_filter.mpr ⟨member, decide_eq_true ⟨above, low.trans_lt before⟩⟩, low, high⟩
  · intro found
    obtain ⟨after, before, free⟩ := found
    refine ⟨not_lt.mp fun early => free (start.covered k after early), before, fun covered => free ?_⟩
    obtain ⟨range, member, bounds⟩ := covered
    exact ⟨range, List.mem_of_mem_filter member, bounds⟩

theorem mem_gaps_iff (gap : Stretch Key) :
    gap ∈ gaps ranges b e ↔ MaximalGap (Within Stretch.low high ranges) b e gap :=
  (gaps_separated fragments).mem_iff_maximalGap (within_gaps fragments) gap

private theorem gaps_clear {gap : Stretch Key} (member : gap ∈ gaps ranges b e) (isRange : range ∈ ranges) :
    range.high ≤ gap.low ∨ gap.high ≤ range.low := by
  refine fragments.apart_of_free ((gaps_separated fragments).nonempty gap member) ?_ isRange
  intro k from_ upTo
  exact ((within_gaps fragments k).mp ⟨gap, member, from_, upTo⟩).2.2

theorem within_iff (b : Key) : Within Stretch.low high ranges b ↔ startFrom ranges b ≠ b := by
  have start := starts fragments b
  refine ⟨fun covered same => ?_, fun differs => start.covered b le_rfl (lt_of_le_of_ne start.after differs.symm)⟩
  obtain ⟨range, member, low, high⟩ := covered
  exact absurd (high.trans_le (start.passed range member low)) same.le.not_gt

theorem free_iff (nonempty : b < e) : (startFrom ranges b = b ∧ inner ranges b e = []) ↔ Uncovered ranges b e := by
  constructor
  · intro free k from_ upTo
    have alone : gaps ranges b e = [⟨b, e⟩] := by rw [gaps, free.1, free.2, gapsFrom, if_pos nonempty]
    exact ((within_gaps fragments k).mp ⟨⟨b, e⟩, alone ▸ List.mem_cons_self, from_, upTo⟩).2.2
  · intro free
    refine ⟨not_not.mp (mt (within_iff fragments b).mpr (free b le_rfl nonempty)),
      List.eq_nil_iff_forall_not_mem.mpr fun range member => ?_⟩
    obtain ⟨isRange, bounds⟩ := List.mem_filter.mp member
    obtain ⟨above, below⟩ := of_decide_eq_true bounds
    exact free range.low above.le below ⟨range, isRange, le_rfl, fragments.nonempty range isRange⟩

theorem gaps_of_free (nonempty : b < e) (free : Uncovered ranges b e) : gaps ranges b e = [⟨b, e⟩] := by
  obtain ⟨begins, none⟩ := (free_iff fragments nonempty).mpr free
  rw [gaps, begins, none, gapsFrom, if_pos nonempty]

end Gaps

/-! ## The loops -/

def setRow (ss : Bytes) (range : Stretch Key) : Mutation :=
  { typ := .setValue, key := rangeKey ss range.low, value := range.high }

theorem layout_set (holds : (layout ss).Holds t.view ranges) (range : Stretch Key) :
    (layout ss).Holds (t.mutate (setRow ss range)).view (put Stretch.low range ranges) := by
  rw [Transaction.view_mutate]
  exact holds.set range

/-- The transaction once the gaps are filled. -/
def filled (ss : Bytes) (t : Transaction) (gaps : List (Stretch Key)) : Transaction :=
  { t with
    mutations := t.mutations ++ gaps.map (setRow ss)
    writes := t.writes ++ gaps.map fun gap => ⟨rangeKey ss gap.low, rangeKey ss gap.high⟩ }

theorem filled_nil (ss : Bytes) (t : Transaction) : filled ss t [] = t := by
  simp only [filled, List.map_nil, List.append_nil]

theorem filled_cons (ss : Bytes) (t : Transaction) (gap : Stretch Key) (gaps : List (Stretch Key)) :
    filled ss ((t.mutate (setRow ss gap)).addWrite (rangeKey ss gap.low) (rangeKey ss gap.high)) gaps =
      filled ss t (gap :: gaps) := by
  simp only [filled, Transaction.mutate, Transaction.addWrite, List.map_cons, List.append_assoc, List.singleton_append]

private theorem filled_holds {gaps : List (Stretch Key)} (holds : (layout ss).Holds t.view ranges) :
    (layout ss).Holds (filled ss t gaps).view
      (gaps.foldl (fun ranges gap => put Stretch.low gap ranges) ranges) := by
  induction gaps generalizing t ranges with
  | nil =>
    rw [filled_nil]
    exact holds
  | cons gap gaps ih =>
    rw [← filled_cons]
    exact ih (layout_set holds gap)

private theorem fillGaps_eq (items : List (Stretch Key)) (cur : Key) (changed : Bool) (t : Transaction) :
    (fillGaps ss e (rangeKey ss e) (rangeKey ss cur) changed (items.map (layout ss).row)).run t =
      (.ok (changed || !(gapsFrom Stretch.low high e cur items).isEmpty),
        filled ss t (gapsFrom Stretch.low high e cur items)) := by
  induction items generalizing cur changed t with
  | nil =>
    rw [List.map_nil, fillGaps, gapsFrom]
    by_cases less : cur < e
    · have keyLess := (rangeKey_lt ss).mpr less
      rw [if_pos keyLess, if_pos less, Tx.run_bind_ok (Tx.run_set _ _),
        Tx.run_bind_ok (Tx.run_addWriteConflictRange keyLess.le), Bool.or_comm]
      rfl
    · rw [if_neg (mt (rangeKey_lt ss).mp less), if_neg less, filled_nil, Bool.or_comm]
      rfl
  | cons item rest ih =>
    rw [List.map_cons, fillGaps, gapsFrom]
    by_cases less : cur < item.low
    · have keyLess : rangeKey ss cur < ((layout ss).row item).key := (rangeKey_lt ss).mpr less
      rw [if_pos keyLess, if_pos less, Tx.run_bind_ok (unpackBegin_row ss item t), Tx.run_bind_ok (Tx.run_set _ _),
        Tx.run_bind_ok (Tx.run_addWriteConflictRange keyLess.le), Tx.run_bind_ok (Tx.run_pure _), ← filled_cons,
        Bool.or_comm]
      exact (Tx.run_bind_ok (pack_bytes ss item.high _) _).trans (ih item.high true _)
    · have keyNotLess : ¬ rangeKey ss cur < ((layout ss).row item).key := mt (rangeKey_lt ss).mp less
      rw [if_neg keyNotLess, if_neg less, Tx.run_bind_ok (Tx.run_pure _)]
      exact (Tx.run_bind_ok (pack_bytes ss item.high t) _).trans (ih item.high changed t)

def limited (limit : Int) (gaps : List (Stretch Key)) : List (Stretch Key) :=
  if 0 < limit then gaps.take limit.toNat else gaps

private theorem limited_of_le {limit : Int} {gaps : List (Stretch Key)} (fits : 0 < limit → (gaps.length : Int) ≤ limit) :
    limited limit gaps = gaps := by
  unfold limited
  split
  · exact List.take_of_length_le (by omega)
  · rfl

theorem missingLoop_spec {limit : Int} (items : List (Stretch Key)) {cur : Key} {results : List (Stretch Key)}
    (room : 0 < limit → (results.length : Int) < limit) (t : Transaction) :
    (missingLoop ss e limit cur results (items.map (layout ss).row)).run t =
      (.ok (limited limit (results ++ gapsFrom Stretch.low high e cur items)), t) := by
  induction items generalizing cur results with
  | nil =>
    rw [List.map_nil, missingLoop, gapsFrom]
    by_cases less : cur < e
    · have fits : limit ≤ 0 ∨ (results.length : Int) < limit :=
        (le_or_gt limit 0).imp_right room
      have more : 0 < limit → ((results ++ [(⟨cur, e⟩ : Stretch Key)]).length : Int) ≤ limit := by
        rw [List.length_append, List.length_singleton]
        omega
      rw [if_pos less, if_pos less, if_pos fits, limited_of_le more]
      rfl
    · rw [if_neg less, if_neg less, List.append_nil, limited_of_le fun positive => (room positive).le]
      rfl
  | cons item rest ih =>
    rw [List.map_cons, missingLoop, gapsFrom, Tx.run_bind_ok (unpackBegin_row ss item t)]
    by_cases less : cur < item.low
    · rw [if_pos less, if_pos less]
      dsimp only
      have length : (results ++ [(⟨cur, item.low⟩ : Stretch Key)]).length = results.length + 1 := by simp
      rw [List.append_cons results ⟨cur, item.low⟩ (gapsFrom _ _ _ _ _)]
      generalize results ++ [(⟨cur, item.low⟩ : Stretch Key)] = longer at length ⊢
      by_cases full : 0 < limit ∧ limit ≤ (longer.length : Int)
      · have exactly : limit.toNat = longer.length := by
          have := room full.1
          omega
        rw [if_pos full, limited, if_pos full.1, exactly, List.take_left' rfl]
        rfl
      · rw [if_neg full]
        exact ih (by omega)
    · rw [if_neg less, if_neg less]
      exact ih room

/-! ## The operations -/

/-- The set of keys that the ranges cover, with what a reachable range set has besides: if
it covers any key, it covers a valid one. -/
structure Stored (ss : Bytes) (d : Snapshot) (ranges : List (Stretch Key)) : Prop where
  holds : (layout ss).Holds d ranges
  fragments : Fragments Stretch.low high ranges
  anchored : ranges = [] ∨ ∃ k, rangeSetCheckKey k = none ∧ Within Stretch.low high ranges k

/-- Ranges that cover `[b, e)` besides what the old ones cover. -/
def Joins (ranges joined : List (Stretch Key)) (b e : Key) : Prop :=
  ∀ k, Within Stretch.low high joined k ↔
    Within Stretch.low high ranges k ∨ b ≤ k ∧ k < e

theorem Stored.of_joins {d : Snapshot} (holds : (layout ss).Holds d joined)
    (fragments : Fragments Stretch.low high joined) (joins : Joins ranges joined b e)
    (valid : rangeSetCheckKey b = none) (nonempty : b < e) : Stored ss d joined :=
  ⟨holds, fragments, .inr ⟨b, valid, (joins b).mpr (.inr ⟨le_rfl, nonempty⟩)⟩⟩

/-- From `t` to `t'` the range `[b, e)` is covered too; the keys covered anew are written. -/
structure Grows (ss : Bytes) (t t' : Transaction) (ranges joined : List (Stretch Key)) (b e : Key) : Prop where
  stored : Stored ss t'.view joined
  joins : Joins ranges joined b e
  written : ∀ k, b ≤ k → k < e → ¬ Within Stretch.low high ranges k → t'.Writes (rangeKey ss k)
  kept : ∀ k, ¬ t'.Writes k → t'.view.get k = t.view.get k

theorem Grows.of_addRead {t' : Transaction} {low high : Key}
    (grows : Grows ss (t.addRead low high) t' ranges joined b e) : Grows ss t t' ranges joined b e :=
  ⟨grows.stored, grows.joins, grows.written, grows.kept⟩

theorem covers_iff (ranges : List (Stretch Key)) (b : Key) :
    ((lastUpTo ranges b).map (layout ss).row).any (fun kv => decide (b < kv.value)) = true ↔
      startFrom ranges b ≠ b := by
  cases found : lastUpTo ranges b with
  | none => simp [startFrom_none found]
  | some last =>
    rw [startFrom_some found, Option.map_some, Option.any_some, decide_eq_true_eq]
    change b < last.high ↔ _
    by_cases covers : b < last.high
    · rw [if_pos covers]
      exact ⟨fun _ => covers.ne', fun _ => covers⟩
    · rw [if_neg covers]
      exact ⟨fun inside => absurd inside covers, fun differs => absurd rfl differs⟩

theorem contains_spec (stored : Stored ss t.view ranges) {key : Key} (valid : rangeSetCheckKey key = none) :
    ∃ found, (contains ss key).run t = (.ok found, t.addRead (rangeKey ss key) (keyAfter (rangeKey ss key))) ∧
      (found = true ↔ Within Stretch.low high ranges key) := by
  have checked : (Tx.check (rangeSetCheckKey key)).run t = (.ok (), t) := by rw [valid]; rfl
  have read := before_read (t := t.addRead (rangeKey ss key) (keyAfter (rangeKey ss key))) stored.holds key
  refine ⟨_, ?_, (@covers_iff ss ranges key).trans (within_iff stored.fragments key).symm⟩
  rw [contains, Tx.run_bind_ok checked, Tx.run_bind_ok (pack_bytes ss key t),
    Tx.run_bind_ok (Tx.run_addReadConflictKey _), Tx.run_bind_ok read]
  cases lastUpTo ranges key <;> rfl

section

variable (fragments : Fragments Stretch.low high ranges)

include fragments

private theorem joins_gaps (b e : Key) :
    Fragments Stretch.low high
        ((gaps ranges b e).foldl (fun ranges gap => put Stretch.low gap ranges) ranges) ∧
      Joins ranges ((gaps ranges b e).foldl (fun ranges gap => put Stretch.low gap ranges) ranges) b e := by
  obtain ⟨whole, within⟩ := fragments.foldl_put (gaps_separated fragments).fragments
    fun gap member range isRange => gaps_clear fragments member isRange
  refine ⟨whole, fun k => ?_⟩
  rw [within k, within_gaps fragments k]
  tauto

private theorem joins_extended (nonempty : b < e) (free : Uncovered ranges b e) (member : last ∈ ranges)
    (touches : last.high = b) :
    Fragments Stretch.low high (put Stretch.low ⟨last.low, e⟩ ranges) ∧
      Joins ranges (put Stretch.low ⟨last.low, e⟩ ranges) b e := by
  have lastNonempty : last.low < b := touches ▸ fragments.nonempty last member
  refine ⟨fragments.put (lastNonempty.trans nonempty) fun range isRange differs => ?_, fun k => ?_⟩
  · cases lt_or_gt_of_ne differs with
    | inl earlier =>
      have before : range.high ≤ last.low := fragments.last_le_first isRange member earlier
      exact .inl before
    | inr later =>
      have after : b ≤ range.low := touches ▸ fragments.last_le_first member isRange later
      cases fragments.apart_of_free nonempty free isRange with
      | inl before => exact absurd ((fragments.nonempty range isRange).trans_le before) after.not_gt
      | inr beyond => exact .inr beyond
  · rw [within_put]
    constructor
    · intro found
      cases found with
      | inl new =>
        cases lt_or_ge k b with
        | inl early => exact .inl ⟨last, member, new.1, touches ▸ early⟩
        | inr late => exact .inr ⟨late, new.2⟩
      | inr old =>
        obtain ⟨range, isRange, _, bounds⟩ := old
        exact .inl ⟨range, isRange, bounds⟩
    · intro found
      cases found with
      | inl old =>
        obtain ⟨range, isRange, low, high⟩ := old
        by_cases same : range.low = last.low
        · obtain rfl := fragments.ordered.eq_of_key_eq isRange member same
          exact .inl ⟨low, high.trans (touches ▸ nonempty)⟩
        · exact .inr ⟨range, isRange, same, low, high⟩
      | inr new => exact .inl ⟨lastNonempty.le.trans new.1, new.2⟩

end

private theorem firstSeen_eq (ranges : List (Stretch Key)) (b : Key) (t : Transaction) :
    (firstSeen ss b (rangeKey ss b) ((lastUpTo ranges b).map (layout ss).row)).run t =
      (.ok (rangeKey ss (startFrom ranges b)), t) := by
  cases found : lastUpTo ranges b with
  | none =>
    rw [startFrom_none found]
    rfl
  | some last =>
    rw [startFrom_some found, Option.map_some, firstSeen]
    by_cases covers : b < last.high
    · rw [if_pos covers, if_pos (show b < ((layout ss).row last).value from covers)]
      exact pack_bytes ss last.high t
    · rw [if_neg covers, if_neg (show ¬ b < ((layout ss).row last).value from covers)]
      rfl

theorem fill_eq (ranges : List (Stretch Key)) (b e : Key) (t : Transaction) :
    (insertBetween ss b e false (rangeKey ss b) (rangeKey ss e)
        ((lastUpTo ranges b).map (layout ss).row) ((inner ranges b e).map (layout ss).row)).run t =
      (.ok (!(gaps ranges b e).isEmpty), filled ss t (gaps ranges b e)) := by
  rw [insertBetween, if_neg Bool.false_ne_true]
  exact (Tx.run_bind_ok (firstSeen_eq ranges b t) _).trans (fillGaps_eq _ _ false t)

theorem filled_grows (stored : Stored ss t.view ranges) (valid : rangeSetCheckKey b = none) (nonempty : b < e) :
    ∃ joined, Grows ss t (filled ss t (gaps ranges b e)) ranges joined b e := by
  obtain ⟨fragments, joins⟩ := joins_gaps stored.fragments b e
  refine ⟨_, .of_joins (filled_holds stored.holds) fragments joins valid nonempty, joins, fun k from_ upTo free => ?_,
    fun k => Transaction.get_kept rfl rfl⟩
  obtain ⟨gap, member, low, high⟩ := (within_gaps stored.fragments k).mpr ⟨from_, upTo, free⟩
  exact .inr ⟨_, List.mem_append_right _ (List.mem_map_of_mem member), (rangeKey_le ss).mpr low, (rangeKey_lt ss).mpr high⟩

variable (fragments : Fragments Stretch.low high ranges)

include fragments

theorem gaps_isEmpty (b e : Key) :
    (!(gaps ranges b e).isEmpty) = true ↔ ∃ k, b ≤ k ∧ k < e ∧ ¬ Within Stretch.low high ranges k := by
  rw [Bool.not_eq_true', List.isEmpty_eq_false_iff_exists_mem]
  constructor
  · intro some_
    obtain ⟨gap, member⟩ := some_
    have gapNonempty := (gaps_separated fragments).nonempty gap member
    exact ⟨gap.low, (within_gaps fragments gap.low).mp ⟨gap, member, le_rfl, gapNonempty⟩⟩
  · intro free
    obtain ⟨k, bounds⟩ := free
    obtain ⟨gap, member, _⟩ := (within_gaps fragments k).mpr bounds
    exact ⟨gap, member⟩

/-- The range that ends at `b`, if there is one, is read and extended. -/
theorem consolidate_cases (free : ¬ Within Stretch.low high ranges b) (t : Transaction) :
    (∃ last ∈ ranges, last.high = b ∧
      (consolidate b e (rangeKey ss b) ((lastUpTo ranges b).map (layout ss).row)).run t =
        (.ok (), (t.addRead (rangeKey ss last.low) (keyAfter (rangeKey ss last.low))).mutate (setRow ss ⟨last.low, e⟩))) ∨
    (∀ last ∈ ranges, last.high ≠ b) ∧
      (consolidate b e (rangeKey ss b) ((lastUpTo ranges b).map (layout ss).row)).run t =
        (.ok (), t.mutate (setRow ss ⟨b, e⟩)) := by
  cases found : lastUpTo ranges b with
  | none =>
    have none : ∀ range ∈ ranges, ¬ range.low ≤ b := by
      simpa using List.getLast?_eq_none_iff.mp found
    exact .inr ⟨fun range member ends => none range member (ends ▸ (fragments.nonempty range member).le), rfl⟩
  | some last =>
    obtain ⟨member, low, before, _⟩ := lastUpTo_spec fragments found
    rw [Option.map_some, consolidate]
    by_cases touches : last.high = b
    · rw [if_pos (show ((layout ss).row last).value = b from touches),
        Tx.run_bind_ok (Tx.run_addReadConflictKey _)]
      exact .inl ⟨last, member, touches, rfl⟩
    · rw [if_neg (show ¬ ((layout ss).row last).value = b from touches)]
      refine .inr ⟨fun range isRange ends => ?_, rfl⟩
      cases before range isRange (ends ▸ (fragments.nonempty range isRange).le) with
      | inl same => exact touches (same ▸ ends)
      | inr earlier =>
        exact free ⟨last, member, low, (ends ▸ earlier).trans_lt (fragments.nonempty last member)⟩

/-- The transaction once the range that begins at `low` and ends at `b` is extended to `e`. -/
def extended (ss : Bytes) (t : Transaction) (low b e : Key) : Transaction :=
  ((t.addRead (rangeKey ss low) (keyAfter (rangeKey ss low))).mutate (setRow ss ⟨low, e⟩)).addWrite
    (rangeKey ss b) (rangeKey ss e)

omit fragments in
theorem extended_grows (stored : Stored ss t.view ranges) (valid : rangeSetCheckKey b = none) (nonempty : b < e)
    (free : Uncovered ranges b e) (member : last ∈ ranges) (ends : last.high = b) :
    ∃ joined, Grows ss t (extended ss t last.low b e) ranges joined b e := by
  obtain ⟨fragments, joins⟩ := joins_extended stored.fragments nonempty free member ends
  refine ⟨_, .of_joins (layout_set (t := t.addRead _ _) stored.holds ⟨last.low, e⟩) fragments joins valid nonempty,
    joins, fun k from_ upTo _ => ?_, fun k => Transaction.get_kept rfl rfl⟩
  exact .inr ⟨_, List.mem_append_right _ List.mem_cons_self, (rangeKey_le ss).mpr from_, (rangeKey_lt ss).mpr upTo⟩

/-- How the insertion into an empty place ends: it is taken, or a range that ends there is
extended, or the range has a row of its own. -/
inductive Tested (ss : Bytes) (ranges : List (Stretch Key)) (b e : Key) (t : Transaction) :
    Except (Failure Error) Bool × Transaction → Prop where
  | taken (taken : ¬ Uncovered ranges b e) : Tested ss ranges b e t (.ok false, t)
  | extends_ (free : Uncovered ranges b e) {last : Stretch Key} (member : last ∈ ranges) (ends : last.high = b) :
      Tested ss ranges b e t (.ok true, extended ss t last.low b e)
  | alone (free : Uncovered ranges b e) (none : ∀ last ∈ ranges, last.high ≠ b) :
      Tested ss ranges b e t (.ok true, filled ss t [⟨b, e⟩])

theorem tested (nonempty : b < e) (t : Transaction) :
    Tested ss ranges b e t ((insertBetween ss b e true (rangeKey ss b) (rangeKey ss e)
      ((lastUpTo ranges b).map (layout ss).row) (((inner ranges b e).map (layout ss).row).take 1)).run t) := by
  have isFree := free_iff fragments nonempty
  rw [insertBetween, if_pos rfl]
  by_cases free : Uncovered ranges b e
  · obtain ⟨begins, none⟩ := isFree.mpr free
    have uncovered := Bool.eq_false_iff.mpr (mt (@covers_iff ss ranges b).mp (not_not_intro begins))
    have ends := (rangeKey_le ss).mpr nonempty.le
    rw [uncovered, none, List.map_nil, List.take_nil, List.isEmpty_nil, Bool.not_true, Bool.or_false,
      if_neg Bool.false_ne_true]
    rcases consolidate_cases fragments (free b le_rfl nonempty) t with ⟨last, member, touches, ran⟩ | ⟨none, ran⟩
    · rw [Tx.run_bind_ok ran, Tx.run_bind_ok (Tx.run_addWriteConflictRange ends)]
      exact .extends_ free member touches
    · rw [Tx.run_bind_ok ran, Tx.run_bind_ok (Tx.run_addWriteConflictRange ends)]
      exact .alone free none
  · have stops : (((lastUpTo ranges b).map (layout ss).row).any (fun kv => decide (b < kv.value)) ||
        !(((inner ranges b e).map (layout ss).row).take 1).isEmpty) = true := by
      rw [Bool.or_eq_true, covers_iff]
      by_contra neither
      push Not at neither
      refine free (isFree.mp ⟨neither.1, ?_⟩)
      simpa using neither.2
    rw [if_pos stops]
    exact .taken free

end FdbGo.RecordLayer.RangeSet
