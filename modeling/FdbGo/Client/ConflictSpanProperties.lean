import FdbGo.Client.ConflictSpans

/-! The walk over a range emits spans of exactly the keys that conflict one by one. -/

set_option autoImplicit false

namespace FdbGo.Client

open Foundation Boundary

/-! ## The position of the walk -/

/-- The writes before the position and the cleared ranges that end there are passed. -/
structure Positioned (w : RywWrites) (walk : SpanWalk) : Prop where
  writes : ∃ passed, w.sorted = passed ++ walk.writes ∧ ∀ x ∈ passed, x.key < walk.cur.materialize
  ahead : ∀ x ∈ walk.writes, walk.cur.materialize ≤ x.key
  cleared : ∃ passed, w.cleared = passed ++ walk.cleared ∧
    ∀ r ∈ passed, r.endKey ≤ walk.cur.materialize

def stops (w : RywWrites) (endKey : Key) : List Key :=
  (w.sorted.flatMap fun x => [x.key, keyAfter x.key]) ++
    (w.cleared.flatMap fun r => [r.beginKey, r.endKey]) ++ [endKey]

private theorem length_stops (w : RywWrites) (endKey : Key) :
    (stops w endKey).length = 2 * w.sorted.length + 2 * w.cleared.length + 1 := by
  simp only [stops, List.length_append, List.length_flatMap, List.length_cons, List.length_nil, Nat.zero_add,
    Nat.reduceAdd, List.map_const', List.sum_replicate_nat]
  omega

variable {x : RywWrite} {hi : Boundary}

namespace Positioned

variable {w : RywWrites} {walk : SpanWalk}

section

variable (positioned : Positioned w walk)

include positioned

theorem mem_sorted (member : x ∈ walk.writes) : x ∈ w.sorted := by
  obtain ⟨passed, split, -⟩ := positioned.writes
  exact split ▸ List.mem_append_right passed member

private theorem mem_cleared {r : KeyRange} (member : r ∈ walk.cleared) : r ∈ w.cleared := by
  obtain ⟨passed, split, -⟩ := positioned.cleared
  exact split ▸ List.mem_append_right passed member

private theorem entry_none (indexed : w.Indexed) (sorted : w.isSorted = true) {k : Key} (from_ : walk.cur.materialize ≤ k)
    (before : ∀ x ∈ walk.writes, k < x.key) : w.entry k = none := by
  obtain ⟨passed, split, past⟩ := positioned.writes
  rw [RywWrites.entry_eq_none_iff indexed, RywWrites.entries, sorted, if_pos rfl, split]
  refine List.forall_mem_append.mpr ⟨fun x inPassed => ?_, fun x inAhead => (before x inAhead).ne'⟩
  exact ((past x inPassed).trans_le from_).ne

private theorem covered_iff {k : Key} (from_ : walk.cur.materialize ≤ k) : Covered w.cleared k ↔ Covered walk.cleared k := by
  obtain ⟨passed, split, past⟩ := positioned.cleared
  rw [split, covered_append]
  refine or_iff_right ?_
  rintro ⟨r, member, -, before⟩
  exact absurd ((past r member).trans from_) (not_le.mpr before)

/-- The walk meets the written keys in order. -/
theorem ordered_writes (indexed : w.Indexed) (sorted : w.isSorted = true) : Ordered RywWrite.key walk.writes := by
  obtain ⟨passed, split, -⟩ := positioned.writes
  have all := indexed.ordered sorted
  rw [split] at all
  exact (ordered_append.mp all).2.1

theorem clearedAhead : Positioned w { walk with cleared := walk.clearedAhead } where
  writes := positioned.writes
  ahead := positioned.ahead
  cleared := by
    obtain ⟨passed, split, past⟩ := positioned.cleared
    refine ⟨passed ++ walk.cleared.takeWhile fun r =>
      compare { key := r.endKey } walk.cur != .gt, ?_, ?_⟩
    · rw [List.append_assoc, SpanWalk.clearedAhead, List.takeWhile_append_dropWhile]
      exact split
    · refine List.forall_mem_append.mpr ⟨past, fun r skipped => ?_⟩
      have ends := List.mem_takeWhile_imp skipped
      rw [bne, compare_beq_gt, ← decide_not, decide_eq_true_eq, not_lt] at ends
      simpa using ends

private theorem advance (dst : List ConflictSpan) (forward : walk.cur.materialize < hi.materialize)
    (before : ∀ x ∈ walk.writes, hi.materialize ≤ x.key) : Positioned w { walk with dst := dst, cur := hi } where
  writes := by
    obtain ⟨passed, split, past⟩ := positioned.writes
    exact ⟨passed, split, fun x member => (past x member).trans forward⟩
  ahead := before
  cleared := by
    obtain ⟨passed, split, past⟩ := positioned.cleared
    exact ⟨passed, split, fun r member => (past r member).trans forward.le⟩

private theorem pass (indexed : w.Indexed) (sorted : w.isSorted = true) {rest : List RywWrite}
    (next : walk.writes = x :: rest) (here : x.key = walk.cur.materialize) (dst : List ConflictSpan) :
    Positioned w
      { walk with dst := dst, cur := Boundary.keyAfter { key := x.key }, writes := rest } := by
  have moved : (Boundary.keyAfter { key := x.key }).materialize = keyAfter walk.cur.materialize := by
    rw [materialize_keyAfter, materialize_plain, here]
  have ordered := positioned.ordered_writes indexed sorted
  rw [next] at ordered
  refine ⟨?_, fun y member => ?_, ?_⟩
  · obtain ⟨passed, split, past⟩ := positioned.writes
    refine ⟨passed ++ [x], by rw [split, next]; simp, ?_⟩
    rw [moved]
    refine List.forall_mem_append.mpr ⟨fun y inPassed => (past y inPassed).trans (lt_keyAfter _), ?_⟩
    exact List.forall_mem_singleton.mpr (here ▸ lt_keyAfter _)
  · rw [moved, ← here]
    exact keyAfter_le_iff.mpr ((List.pairwise_cons.mp ordered).1 y member)
  · obtain ⟨passed, split, past⟩ := positioned.cleared
    refine ⟨passed, split, fun r member => ?_⟩
    rw [moved]
    exact (past r member).trans (lt_keyAfter _).le

end

private theorem writeHere_eq_some (found : walk.writeHere = some x) :
    ∃ rest, walk.writes = x :: rest ∧ x.key = walk.cur.materialize := by
  unfold SpanWalk.writeHere at found
  cases isWrites : walk.writes with
  | nil =>
    rw [isWrites] at found
    cases found
  | cons y rest =>
    rw [isWrites] at found
    dsimp only at found
    split at found
    case isTrue here =>
      obtain rfl := Option.some.inj found
      exact ⟨rest, rfl, by simpa using equal_iff.mp here⟩
    case isFalse => cases found

variable (positioned : Positioned w walk)

include positioned

private theorem beyond (indexed : w.Indexed) (sorted : w.isSorted = true)
    (none : walk.writeHere = none) : ∀ x ∈ walk.writes, walk.cur.materialize < x.key := by
  have ordered := positioned.ordered_writes indexed sorted
  have ahead := positioned.ahead
  unfold SpanWalk.writeHere at none
  cases isWrites : walk.writes with
  | nil => simp
  | cons y rest =>
    rw [isWrites] at ordered ahead none
    have first : walk.cur.materialize < y.key := by
      refine lt_of_le_of_ne (ahead y List.mem_cons_self) fun same => ?_
      have here : equal { key := y.key } walk.cur = true := equal_iff.mpr (by simp [same])
      simp [here] at none
    intro x member
    exact first.trans_le (ordered.head_le x member)

theorem gapEnd_spec (indexed : w.Indexed) (sorted : w.isSorted = true)
    {endKey : Key} (unfinished : walk.cur.materialize < endKey) (none : walk.writeHere = none) :
    walk.cur.materialize < (walk.gapEnd { key := endKey }).materialize ∧
      (walk.gapEnd { key := endKey }).materialize ≤ endKey ∧
      (∀ x ∈ walk.writes, (walk.gapEnd { key := endKey }).materialize ≤ x.key) ∧
      (walk.gapEnd { key := endKey }).materialize ∈ stops w endKey := by
  have ordered := positioned.ordered_writes indexed sorted
  have beyond := positioned.beyond indexed sorted none
  have stop : ∀ x ∈ walk.writes, x.key ∈ stops w endKey := by
    intro x member
    simp only [stops, List.mem_append, List.mem_flatMap]
    exact .inl (.inl ⟨x, positioned.mem_sorted member, List.mem_cons_self⟩)
  have final : endKey ∈ stops w endKey := by simp [stops]
  unfold SpanWalk.gapEnd
  cases isWrites : walk.writes with
  | nil => simpa using ⟨unfinished, final⟩
  | cons y rest =>
    rw [isWrites] at ordered beyond stop
    have later := ordered.head_le
    simp only [compare_beq_lt, materialize_plain, decide_eq_true_eq]
    split
    case isTrue inside =>
      rw [materialize_plain]
      exact ⟨beyond y List.mem_cons_self, inside.le, later, stop y List.mem_cons_self⟩
    case isFalse outside =>
      rw [materialize_plain]
      exact ⟨unfinished, le_rfl, fun x member => (not_lt.mp outside).trans (later x member), final⟩

theorem clearedGap_spec (separate : SeparateRanges w.cleared) (forward : walk.cur.materialize < hi.materialize)
    (endKey : Key) :
    walk.cur.materialize < (walk.clearedGap hi).2.materialize ∧
      (walk.clearedGap hi).2.materialize ≤ hi.materialize ∧
      (∀ k, walk.cur.materialize ≤ k → k < (walk.clearedGap hi).2.materialize →
        (Covered w.cleared k ↔ (walk.clearedGap hi).1 = true)) ∧
      ((walk.clearedGap hi).2 = hi ∨ (walk.clearedGap hi).2.materialize ∈ stops w endKey) := by
  have skipped := positioned.clearedAhead
  have covered := fun k from_ => skipped.covered_iff (k := k) from_
  have stop : ∀ r ∈ walk.clearedAhead, r.beginKey ∈ stops w endKey ∧ r.endKey ∈ stops w endKey := by
    intro r member
    simp only [stops, List.mem_append, List.mem_flatMap]
    exact ⟨.inl (.inr ⟨r, skipped.mem_cleared member, by simp⟩),
      .inl (.inr ⟨r, skipped.mem_cleared member, by simp⟩)⟩
  have tail : SeparateRanges walk.clearedAhead := by
    obtain ⟨passed, split, -⟩ := skipped.cleared
    rw [split] at separate
    exact (SeparateRanges.append_iff.mp separate).2.1
  have open_ : ∀ r rest, walk.clearedAhead = r :: rest → walk.cur.materialize < r.endKey := by
    intro r rest next
    have some_ : walk.clearedAhead ≠ [] := by simp [next]
    have head := List.head_dropWhile_not
      (fun r : KeyRange => compare { key := r.endKey } walk.cur != .gt) some_
    rw [bne_eq_false_iff_eq, compare_eq, cmp_eq_gt_iff, materialize_plain] at head
    have isHead : walk.clearedAhead.head some_ = r := by simp [next]
    exact isHead ▸ head
  unfold SpanWalk.clearedGap
  cases next : walk.clearedAhead with
  | nil =>
    refine ⟨forward, le_rfl, fun k from_ _ => ?_, .inl rfl⟩
    rw [covered k from_]
    simpa [next] using covered_nil k
  | cons r rest =>
    have ends := open_ r rest next
    rw [next] at covered stop tail
    have apart := (List.pairwise_cons.mp tail.apart).1
    have nonempty := tail.nonempty r List.mem_cons_self
    obtain ⟨beginStop, endStop⟩ := stop r List.mem_cons_self
    simp only [bne, compare_beq_gt, compare_beq_lt, materialize_plain,
      ← decide_not, decide_eq_true_eq, not_lt]
    split
    case isTrue begun =>
      -- The position is inside the range, which lasts to its end or to that of the gap.
      have inside : ∀ k, walk.cur.materialize ≤ k → k < r.endKey → Covered (r :: rest) k :=
        fun k from_ before => ⟨r, List.mem_cons_self, begun.trans from_, before⟩
      dsimp only
      split
      case isTrue shorter =>
        rw [materialize_plain]
        exact ⟨ends, shorter.le, fun k from_ before => by
          simpa [covered k from_] using inside k from_ before, .inr endStop⟩
      case isFalse longer =>
        exact ⟨forward, le_rfl, fun k from_ before => by
          simpa [covered k from_] using inside k from_ (before.trans_le (not_lt.mp longer)), .inl rfl⟩
    case isFalse later =>
      have outside : ∀ k, k < r.beginKey → ¬ Covered (r :: rest) k := by
        rintro k before ⟨other, member, begins, -⟩
        cases List.mem_cons.mp member with
        | inl isFirst => exact absurd (isFirst ▸ begins) (not_le.mpr before)
        | inr inRest =>
          exact absurd begins (not_le.mpr ((before.trans nonempty).trans (apart other inRest)))
      dsimp only
      split
      case isTrue shorter =>
        rw [materialize_plain]
        exact ⟨not_le.mp later, shorter.le, fun k from_ before => by
          simpa [covered k from_] using outside k before, .inr beginStop⟩
      case isFalse longer =>
        exact ⟨forward, le_rfl, fun k from_ before => by
          simpa [covered k from_] using outside k (before.trans_le (not_lt.mp longer)), .inl rfl⟩

end Positioned

/-! ## Rounds of the walk -/

private theorem stops_decrease {stops : List Key} {position stop : Key} (member : stop ∈ stops) (forward : position < stop) :
    (stops.filter fun k => decide (stop < k)).length < (stops.filter fun k => decide (position < k)).length := by
  have fewer : (stops.filter fun k => decide (stop < k)).Sublist
      (stops.filter fun k => decide (position < k)) :=
    List.monotone_filter_right stops fun k later => by
      simp only [decide_eq_true_eq] at later ⊢
      exact forward.trans later
  refine lt_of_le_of_ne fewer.length_le fun same => ?_
  have dropped : stop ∈ stops.filter fun k => decide (stop < k) := by
    rw [fewer.eq_of_length same]
    exact List.mem_filter.mpr ⟨member, by simpa using forward⟩
  simp at dropped

structure Walking (w : RywWrites) (dst : List ConflictSpan) (low high : Key) (walk : SpanWalk) : Prop where
  emitted : ∃ out, walk.dst = dst ++ out ∧ Emitted w.conflictForKey low walk.cur.materialize out
  positioned : Positioned w walk
  above : low ≤ walk.cur.materialize
  below : walk.cur.materialize ≤ high

namespace Walking

variable {w : RywWrites} {dst : List ConflictSpan} {low high : Key} {walk : SpanWalk}

variable (walking : Walking w dst low high walk)

include walking

theorem emitted_next {conflict : Bool} (forward : walk.cur.materialize < hi.materialize)
    (whole : ∀ k, walk.cur.materialize ≤ k → k < hi.materialize → w.conflictForKey k = conflict) :
    ∃ out, (if conflict then emit dst.length walk.dst walk.cur hi else walk.dst) = dst ++ out ∧
      Emitted w.conflictForKey low hi.materialize out := by
  obtain ⟨out, isDst, emitted⟩ := walking.emitted
  cases conflict with
  | false => exact ⟨out, isDst, emitted.skip forward whole⟩
  | true =>
    rw [if_pos rfl, isDst, emit_append]
    exact ⟨_, rfl, emitted.emit rfl walking.above forward whole⟩

private theorem step_write (indexed : w.Indexed) (sorted : w.isSorted = true) (unfinished : walk.cur.materialize < high)
    (found : walk.writeHere = some x) : Walking w dst low high (walk.step dst.length { key := high }) ∧
      walk.cur.materialize < (walk.step dst.length { key := high }).cur.materialize ∧
      (walk.step dst.length { key := high }).cur.materialize ∈ stops w high := by
  obtain ⟨rest, next, here⟩ := Positioned.writeHere_eq_some found
  have member := walking.positioned.mem_sorted (next ▸ List.mem_cons_self)
  have moved : (Boundary.keyAfter { key := x.key }).materialize = keyAfter x.key := by
    rw [materialize_keyAfter, materialize_plain]
  have forward : walk.cur.materialize < (Boundary.keyAfter { key := x.key }).materialize := by
    rw [moved, ← here]
    exact lt_keyAfter _
  have entry : w.entry x.key = some x.e := by
    rw [RywWrites.entry_eq_some_iff indexed, RywWrites.entries, sorted]
    exact member
  have whole : ∀ k, walk.cur.materialize ≤ k → k < (Boundary.keyAfter { key := x.key }).materialize →
      w.conflictForKey k = x.e.isDependentLocked := by
    intro k from_ before
    rw [moved] at before
    rw [within_keyAfter_iff.mp ⟨here ▸ from_, before⟩, RywWrites.conflictForKey, entry]
  simp only [SpanWalk.step, found, next, List.tail_cons]
  refine ⟨⟨walking.emitted_next forward whole, walking.positioned.pass indexed sorted next here _,
    walking.above.trans forward.le, ?_⟩, forward, ?_⟩
  · rw [moved, keyAfter_le_iff, here]
    exact unfinished
  · rw [moved]
    simp only [stops, List.mem_append, List.mem_flatMap]
    exact .inl (.inl ⟨x, member, by simp⟩)

private theorem step_gap (indexed : w.Indexed) (sorted : w.isSorted = true) (separate : SeparateRanges w.cleared)
    (unfinished : walk.cur.materialize < high) (missing : walk.writeHere = none) :
    Walking w dst low high (walk.step dst.length { key := high }) ∧
      walk.cur.materialize < (walk.step dst.length { key := high }).cur.materialize ∧
      (walk.step dst.length { key := high }).cur.materialize ∈ stops w high := by
  obtain ⟨gapForward, gapBelow, gapBefore, gapStop⟩ :=
    walking.positioned.gapEnd_spec indexed sorted unfinished missing
  obtain ⟨forward, shorter, cleared, stop⟩ :=
    walking.positioned.clearedGap_spec separate gapForward high
  have whole : ∀ k, walk.cur.materialize ≤ k →
      k < (walk.clearedGap (walk.gapEnd { key := high })).2.materialize →
      w.conflictForKey k = !(walk.clearedGap (walk.gapEnd { key := high })).1 := by
    intro k from_ before
    have noEntry := walking.positioned.entry_none indexed sorted from_ fun x member =>
      (before.trans_le shorter).trans_le (gapBefore x member)
    rw [RywWrites.conflictForKey, noEntry, Bool.not_inj_iff, Bool.eq_iff_iff,
      RywWrites.isCleared_iff separate]
    exact cleared k from_ before
  have emitted := walking.emitted_next forward whole
  simp only [SpanWalk.step, missing]
  refine ⟨⟨?_, walking.positioned.clearedAhead.advance _ forward fun x member =>
    shorter.trans (gapBefore x member), walking.above.trans forward.le, shorter.trans gapBelow⟩, forward, ?_⟩
  · obtain ⟨out, isDst, emitted⟩ := emitted
    refine ⟨out, ?_, emitted⟩
    rw [← isDst]
    cases (walk.clearedGap (walk.gapEnd { key := high })).1 <;> rfl
  · cases stop with
    | inl same =>
      rw [same]
      exact gapStop
    | inr isStop => exact isStop

private theorem step (indexed : w.Indexed) (sorted : w.isSorted = true) (separate : SeparateRanges w.cleared)
    (unfinished : walk.cur.materialize < high) : Walking w dst low high (walk.step dst.length { key := high }) ∧
      walk.cur.materialize < (walk.step dst.length { key := high }).cur.materialize ∧
      (walk.step dst.length { key := high }).cur.materialize ∈ stops w high := by
  cases found : walk.writeHere with
  | none => exact walking.step_gap indexed sorted separate unfinished found
  | some x => exact walking.step_write indexed sorted unfinished found

end Walking

/-! ## The whole walk -/

namespace RywWrites

variable {w : RywWrites}

private theorem conflictForKey_ensureSorted (indexed : w.Indexed) : w.ensureSorted.conflictForKey = w.conflictForKey := by
  funext k
  simp only [conflictForKey, isCleared, entry_ensureSorted indexed, ensureSorted_cleared]

private theorem positioned_start (indexed : w.Indexed) (sorted : w.isSorted = true)
    (separate : SeparateRanges w.cleared) (dst : List ConflictSpan) (low : Key) :
    Positioned w
      { dst := dst, cur := { key := low }, writes := w.sorted.drop (w.writeIndex low),
        cleared := w.cleared.drop (w.cleared.findIdx fun r => decide (low < r.endKey)) } := by
  obtain ⟨before, after, split, index, below, above⟩ := (indexed.ordered sorted).split_ge low
  obtain ⟨past, left, clearedSplit, clearedIndex, pastBelow, -⟩ := separate.fragments.ordered_last.split_gt low
  rw [writeIndex, index, clearedIndex]
  refine ⟨⟨before, ?_, ?_⟩, ?_, ⟨past, ?_, ?_⟩⟩
  · rw [split, List.drop_left]
  · exact below
  · rw [split, List.drop_left]
    exact above
  · rw [clearedSplit, List.drop_left]
  · exact pastBelow

/-- The spans of a range in any version whose entries are indexed and whose cleared ranges
are separate, resolved dependent entries included: not empty, in order, apart from each
other and within the range, and they hold the keys that conflict one by one. -/
theorem conflict_spans_pointwise (indexed : w.Indexed) (separate : SeparateRanges w.cleared) {low high : Key}
    (nonempty : low < high)
    (dst : List ConflictSpan) :
    ∃ spans, w.appendConflictSpans dst low high = dst ++ spans ∧
      SeparateRanges (spans.map ConflictSpan.range) ∧
      (∀ span ∈ spans, low ≤ span.range.beginKey ∧ span.range.endKey ≤ high) ∧
      ∀ k, low ≤ k → k < high →
        ((∃ span ∈ spans, span.range.beginKey ≤ k ∧ k < span.range.endKey) ↔ w.conflictForKey k = true) := by
  rw [appendConflictSpans, if_neg (not_le.mpr nonempty)]
  have sorted := w.ensureSorted_isSorted
  have indexed' := indexed.ensureSorted
  have separate' : SeparateRanges w.ensureSorted.cleared := by simpa using separate
  have guard : ∀ walk : SpanWalk, (walk.cur.compare { key := high } == .lt) = true ↔
      walk.cur.materialize < high := by
    intro walk
    rw [compare_beq_lt, materialize_plain, decide_eq_true_eq]
  obtain ⟨walking, finished⟩ := Loop.run_spec
    (fun walk => Walking w.ensureSorted dst low high walk)
    (fun walk => ((stops w.ensureSorted high).filter fun k => decide (walk.cur.materialize < k)).length)
    (fun walk walking active => by
      obtain ⟨kept, forward, stop⟩ := walking.step indexed' sorted separate' ((guard walk).mp active)
      exact ⟨kept, stops_decrease stop forward⟩)
    ⟨⟨[], (List.append_nil dst).symm, Emitted.start _ _⟩,
      positioned_start indexed' sorted separate' dst low, le_rfl, nonempty.le⟩
    ((List.length_filter_le _ _).trans (length_stops _ _).le) rfl
  obtain ⟨out, isDst, emitted⟩ := walking.emitted
  have arrived := le_antisymm walking.below
    (not_lt.mp fun less => Bool.false_ne_true (finished.symm.trans ((guard _).mpr less)))
  rw [arrived, conflictForKey_ensureSorted indexed] at emitted
  refine ⟨out, isDst, emitted.separate, emitted.inside, fun k from_ before => ?_⟩
  have covered := emitted.covered k
  simp only [Covered, List.mem_map, exists_exists_and_eq_and, KeyRange.Covers, from_, before, and_self, true_and] at covered
  exact covered

/-- An atomic mutation resolved in a copy of the write map stays a dependent write, before a
cleared key: the spans hold the first and leave out the second. -/
theorem conflict_spans_resolved_and_cleared :
    ∃ spans, (({} : RywWrites).putEntry [2] { value := some [7], dependent := true } |>.clearWith [3] true
        ).appendConflictSpans [] [1] [4] = [] ++ spans ∧
      SeparateRanges (spans.map ConflictSpan.range) ∧
      (∀ span ∈ spans, [1] ≤ span.range.beginKey ∧ span.range.endKey ≤ [4]) ∧
      ∀ k, [1] ≤ k → k < [4] →
        ((∃ span ∈ spans, span.range.beginKey ≤ k ∧ k < span.range.endKey) ↔
          (({} : RywWrites).putEntry [2] { value := some [7], dependent := true } |>.clearWith [3] true
            ).conflictForKey k = true) := by
  have clears := clearWith_clears (Indexed.empty.putEntry [2] { value := some [7], dependent := true }) [3] true
  refine conflict_spans_pointwise clears.indexed ?_ (by decide) []
  rw [clears.cleared]
  exact (SeparateRanges.nil.addRangeOwned_spec (lt_keyAfter [3])).1

end RywWrites

end FdbGo.Client
