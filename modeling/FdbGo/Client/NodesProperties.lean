import FdbGo.Client.KeyProperties
import FdbGo.Client.Nodes
import Mathlib.Tactic.Tauto

/-! The pointwise meaning of the node set, and what each mutator does to it. -/

set_option autoImplicit false

namespace FdbGo.Client

open Foundation

/-- What the nodes say about one key, read off the segment that contains it. -/
def denote (seq : List Node) (p : Key) : NodeFlags := (segmentAt seq p).toNodeFlags

/-- The nodes are strictly ordered, the sentinels are there, and a conflict that
follows a node covers the node. -/
structure WellFormed (seq : List Node) : Prop where
  ordered : Ordered Node.key seq
  first : ∃ node ∈ seq, node.key = allKeysBegin
  last : { key := allKeysEnd } ∈ seq
  after : { key := afterAllKeys } ∈ seq
  bounded : ∀ node ∈ seq, node.key ≤ afterAllKeys
  conflicts : ∀ node ∈ seq, node.followingConflict = true → node.isConflict = true

theorem wellFormed_sentinels : WellFormed rywNodeSentinels where
  ordered := by
    unfold Ordered
    decide
  first := ⟨_, List.mem_cons_self, rfl⟩
  last := by simp [rywNodeSentinels]
  after := by simp [rywNodeSentinels]
  bounded := by decide
  conflicts := by decide

theorem allKeysEnd_lt_afterAllKeys : allKeysEnd < afterAllKeys := by decide

/-- The flags a node gives to a key of which it is the floor. -/
def Node.flagsAt (node : Node) (p : Key) : NodeFlags :=
  if node.op = true ∧ node.key = p then
    { op := true, cleared := false, conflict := node.isConflict, unreadable := node.isUnreadable }
  else
    { op := false, cleared := node.followingCleared, conflict := node.followingConflict,
      unreadable := node.followingUnreadable }

variable {node : Node} {p : Key} {e : Node}

/-- Away from its own key a node gives the flags that follow it. -/
theorem Node.flagsAt_of_ne (apart : node.op = true → node.key ≠ p) :
    node.flagsAt p =
      { op := false, cleared := node.followingCleared, conflict := node.followingConflict,
        unreadable := node.followingUnreadable } := by
  rw [Node.flagsAt, if_neg]
  rintro ⟨op, same⟩
  exact apart op same

variable {n : Node} {q : Key}

theorem Node.flagsAt_later (range : (node.flagsAt p).op = false) (begins : node.key ≤ p) (later : p ≤ q) :
    node.flagsAt q = node.flagsAt p := by
  have apart : node.op = true → node.key ≠ p := by
    intro op same
    simp [Node.flagsAt, op, same] at range
  have apartLater : node.op = true → node.key ≠ q := by
    intro op same
    exact apart op (le_antisymm begins (same ▸ later))
  rw [Node.flagsAt_of_ne apart, Node.flagsAt_of_ne apartLater]

theorem Node.flagsAt_op_of_lt (past : node.key < p) : (node.flagsAt p).op = false := by
  rw [Node.flagsAt_of_ne fun _ => past.ne]

theorem Node.flagsAt_cleared (operation : (node.flagsAt p).op = true) : (node.flagsAt p).cleared = false := by
  unfold Node.flagsAt at operation ⊢
  split <;> simp_all

namespace WellFormed

variable {seq : List Node}

/-- Every key has a last node at or before it. -/
theorem exists_floor (wf : WellFormed seq) (p : Key) : ∃ e, Floor Node.key seq p e := by
  obtain ⟨node, member, empty⟩ := wf.first
  exact Foundation.exists_floor member (empty ▸ nil_le p)

theorem floor_split (wf : WellFormed seq) (floor : Floor Node.key seq p e) (inside : p < afterAllKeys) :
    ∃ lower n upper, seq = lower ++ e :: n :: upper ∧
      (seq.findIdx fun nd => decide (p < nd.key)) = lower.length + 1 ∧ ∀ other ∈ n :: upper, p < other.key := by
  obtain ⟨lower, upper, split, index, above⟩ := floor.split wf.ordered
  have last : { key := afterAllKeys } ∈ upper := (above _).mpr ⟨wf.after, inside⟩
  cases upper with
  | nil => exact absurd last List.not_mem_nil
  | cons n upper => exact ⟨lower, n, upper, split, index, fun other member => ((above other).mp member).2⟩

theorem next_le (wf : WellFormed seq) {lower upper : List Node} (split : seq = lower ++ e :: n :: upper) :
    ∀ other ∈ n :: upper, n.key ≤ other.key :=
  Ordered.head_le (List.pairwise_cons.mp (ordered_append.mp (split ▸ wf.ordered)).2.1).2

end WellFormed

/-! ## Iterator positions -/

/-- The iterator stands on the segment that contains `p`. -/
structure NodeIter.At (seq : List Node) (p : Key) (e n : Node) (it : NodeIter) : Prop where
  s_eq : it.s = seq
  split : ∃ lower upper, seq = lower ++ e :: n :: upper ∧ it.cur = lower.length
  next_eq : it.next = n
  offset_eq : it.offset = (!e.op || e.key != p)
  begins : e.key ≤ p
  ends : p < n.key

namespace NodeIter.At

variable {seq : List Node} {p q : Key} {e n : Node} {it : NodeIter}

variable (here : At seq p e n it)

include here

theorem entry_eq : it.entry = e := by
  obtain ⟨lower, upper, split, cur⟩ := here.split
  rw [entry, here.s_eq, cur, split]
  simp

theorem floor (wf : WellFormed seq) : Floor Node.key seq p e := by
  obtain ⟨lower, upper, rfl, -⟩ := here.split
  exact wf.ordered.floor_of_split here.begins fun other member =>
    here.ends.trans_le (wf.next_le rfl other member)

private theorem next_least (wf : WellFormed seq) {other : Node}
    (member : other ∈ seq) (past : p < other.key) : n.key ≤ other.key := by
  obtain ⟨lower, upper, rfl, -⟩ := here.split
  rcases List.mem_append.mp member with inLower | inRest
  · exact absurd past ((wf.ordered.around.1 other inLower).trans_le here.begins).not_gt
  · rcases List.mem_cons.mp inRest with rfl | inNext
    · exact absurd past here.begins.not_gt
    · exact wf.next_le rfl other inNext

theorem offset_false (operation : it.offset = false) : e.op = true ∧ e.key = p := by
  have offset := here.offset_eq
  rw [operation] at offset
  simpa using offset.symm

theorem seg_flags : it.seg.toNodeFlags = e.flagsAt p := by
  simp only [seg, isOperation, isClearedRange, isConflictRange, NodeIter.isUnreadable, here.entry_eq,
    here.offset_eq, Node.flagsAt]
  cases e.op <;> by_cases same : e.key = p <;> simp [same]

theorem isOperation_eq : it.isOperation = (e.flagsAt p).op :=
  congrArg NodeFlags.op here.seg_flags

theorem isClearedRange_eq : it.isClearedRange = (e.flagsAt p).cleared :=
  congrArg NodeFlags.cleared here.seg_flags

theorem isConflictRange_eq : it.isConflictRange = (e.flagsAt p).conflict :=
  congrArg NodeFlags.conflict here.seg_flags

theorem isUnreadable_eq : it.isUnreadable = (e.flagsAt p).unreadable :=
  congrArg NodeFlags.unreadable here.seg_flags

theorem isUnmodifiedRange_eq : it.isUnmodifiedRange = (!(e.flagsAt p).op && !(e.flagsAt p).cleared) := by
  rw [← here.isOperation_eq, ← here.isClearedRange_eq]
  simp only [isUnmodifiedRange, isOperation, isClearedRange]
  cases it.offset <;> simp

theorem endKey_eq : it.endKey.materialize = if it.offset then n.key else keyAfter e.key := by
  rw [endKey, here.entry_eq, nextEntry, here.next_eq]
  split <;> rfl

theorem beginKey_eq : it.beginKey.materialize = if it.offset = true ∧ e.op = true then keyAfter e.key else e.key := by
  rw [beginKey, here.entry_eq]
  cases it.offset <;> cases e.op <;> rfl

theorem lt_endKey : p < it.endKey.materialize := by
  rw [here.endKey_eq]
  split
  case isTrue => exact here.ends
  case isFalse operation =>
    rw [(here.offset_false (by simpa using operation)).2]
    exact lt_keyAfter p

theorem endKey_le_next : it.endKey.materialize ≤ n.key := by
  rw [here.endKey_eq]
  split
  case isTrue => exact le_rfl
  case isFalse => exact keyAfter_le_iff.mpr (here.begins.trans_lt here.ends)

theorem no_node_iff : (!it.keyAtBegin || !it.beginKey.equal { key := p }) = true ↔ e.key ≠ p := by
  rw [Bool.or_eq_true, Bool.not_eq_true', Bool.not_eq_true', ← Bool.not_eq_true, ← Bool.not_eq_true,
    Boundary.equal_iff, here.beginKey_eq, Boundary.materialize_plain, keyAtBegin, here.entry_eq,
    here.offset_eq]
  by_cases same : e.key = p
  · cases e.op <;> simp [same]
  · cases e.op <;> simp [same]

theorem inside (later : p ≤ q) (before : q < it.endKey.materialize) : At seq q e n it := by
  refine ⟨here.s_eq, here.split, here.next_eq, ?_, here.begins.trans later,
    before.trans_le here.endKey_le_next⟩
  cases offset : it.offset with
  | false =>
    obtain ⟨op, same⟩ := here.offset_false offset
    rw [here.endKey_eq, offset, if_neg Bool.false_ne_true, lt_keyAfter_iff, same] at before
    simp [op, same, le_antisymm later before]
  | true =>
    rcases later.lt_or_eq with less | rfl
    · simp [(here.begins.trans_lt less).ne]
    · exact offset ▸ here.offset_eq

private theorem exists_next (wf : WellFormed seq) {lower upper : List Node} (split : seq = lower ++ e :: n :: upper)
    (inside : n.key < afterAllKeys) : ∃ m rest, upper = m :: rest ∧ n.key < m.key := by
  have halves : seq = (lower ++ [e]) ++ n :: upper := by simp [split]
  obtain ⟨below, above⟩ := (halves ▸ wf.ordered).around
  rcases List.mem_append.mp (halves ▸ wf.after) with inLower | inRest
  · exact absurd (below _ inLower) inside.not_gt
  · rcases List.mem_cons.mp inRest with rfl | inUpper
    · exact absurd inside (lt_irrefl _)
    · cases upper with
      | nil => exact absurd inUpper List.not_mem_nil
      | cons m rest => exact ⟨m, rest, rfl, above m List.mem_cons_self⟩

theorem inc (wf : WellFormed seq) (more : it.endKey.materialize < afterAllKeys) :
    ∃ e' n', At seq it.endKey.materialize e' n' it.inc ∧
      (e' = e ∧ n' = n ∧ it.inc.cur = it.cur ∧ it.offset = false ∧ it.inc.offset = true ∨
        e' = n ∧ it.inc.cur = it.cur + 1 ∧ n.key = it.endKey.materialize) := by
  obtain ⟨lower, upper, split, cur⟩ := here.split
  have endEq := here.endKey_eq
  unfold NodeIter.inc
  split
  case isTrue stays =>
    simp only [here.entry_eq, nextEntry, here.next_eq, Bool.and_eq_true, Bool.not_eq_true',
      ← Bool.not_eq_true, equalsKeyAfter_iff] at stays
    obtain ⟨operation, apart⟩ := stays
    rw [if_neg (by simpa using operation)] at endEq
    refine ⟨e, n, ⟨here.s_eq, here.split, here.next_eq, ?_, ?_, ?_⟩,
      .inl ⟨rfl, rfl, rfl, by simpa using operation, rfl⟩⟩
    · rw [endEq]
      simp [(lt_keyAfter e.key).ne]
    · rw [endEq]
      exact (lt_keyAfter e.key).le
    · exact here.endKey_le_next.lt_of_ne fun same => apart (same ▸ endEq)
  case isFalse moves =>
    have atNext : n.key = it.endKey.materialize := by
      rw [endEq]
      split
      case isTrue => rfl
      case isFalse operation =>
        simp only [here.entry_eq, nextEntry, here.next_eq, operation, Bool.not_false,
          Bool.true_and, Bool.not_eq_true', Bool.not_eq_false] at moves
        exact equalsKeyAfter_iff.mp moves
    obtain ⟨m, rest, rfl, above⟩ := here.exists_next wf split (atNext ▸ more)
    refine ⟨n, m, ⟨here.s_eq, ⟨lower ++ [e], rest, by simp [split], by simp [cur]⟩, ?_, ?_, ?_, ?_⟩,
      .inr ⟨rfl, rfl, atNext⟩⟩
    · simp [here.s_eq, split, cur]
    · simp [here.s_eq, split, cur, atNext]
    · exact atNext.le
    · exact atNext ▸ above

theorem inc_beginKey (wf : WellFormed seq) (more : it.endKey.materialize < afterAllKeys) :
    it.inc.beginKey.materialize = it.endKey.materialize := by
  obtain ⟨e', n', there, ⟨rfl, -, -, operation, offset⟩ | ⟨rfl, -, atNext⟩⟩ := here.inc wf more
  · have op := (here.offset_false operation).1
    rw [there.beginKey_eq, if_pos ⟨offset, op⟩, here.endKey_eq, operation,
      if_neg Bool.false_ne_true]
  · rw [there.beginKey_eq, if_neg, atNext]
    rw [there.offset_eq]
    cases e'.op <;> simp [atNext]

theorem endKey_le (wf : WellFormed seq) (inside : p < allKeysEnd) : it.endKey.materialize ≤ allKeysEnd :=
  here.endKey_le_next.trans (here.next_least wf wf.last inside)

end NodeIter.At

/-- The segments left from the iterator's position on, at most. -/
def NodeIter.remaining (it : NodeIter) : Nat := 2 * (it.s.length - it.cur) - it.offset.toNat

variable {seq : List Node} {it : NodeIter}

theorem NodeIter.At.inc_remaining (here : At seq p e n it) (wf : WellFormed seq)
    (more : it.endKey.materialize < afterAllKeys) : it.inc.remaining < it.remaining := by
  obtain ⟨lower, upper, split, cur⟩ := here.split
  have room : it.cur + 2 ≤ it.s.length := by
    rw [here.s_eq, split, cur]
    simp
  obtain ⟨e', n', there, moved⟩ := here.inc wf more
  have sameSeq : it.inc.s = it.s := there.s_eq.trans here.s_eq.symm
  unfold remaining
  rw [sameSeq]
  rcases moved with ⟨-, -, cur, before, after⟩ | ⟨-, cur, -⟩
  · simp only [cur, before, after, Bool.toNat_true, Bool.toNat_false]
    omega
  · have := it.offset.toNat_le
    rw [cur]
    omega

theorem NodeIter.skip_at (wf : WellFormed seq) (inside : p < afterAllKeys) (it : NodeIter) (same : it.s = seq) :
    ∃ e n, At seq p e n (it.skip p) := by
  obtain ⟨e, floor⟩ := wf.exists_floor p
  obtain ⟨lower, n, upper, split, index, above⟩ := wf.floor_split floor inside
  have above' : (if seq.length - 1 < seq.findIdx (fun nd => decide (p < nd.key)) then seq.length - 1
      else seq.findIdx fun nd => decide (p < nd.key)) = lower.length + 1 := by
    rw [index, if_neg]
    simp only [split, List.length_append, List.length_cons]
    omega
  refine ⟨e, n, ⟨same, ⟨lower, upper, split, ?_⟩, ?_, ?_, floor.below, above n List.mem_cons_self⟩⟩
  · simp only [skip, same, above']
    simp
  · simp only [skip, same, above']
    simp [split]
  · simp only [skip, same, above']
    simp [split]

theorem NodeIter.At.moveTo (wf : WellFormed seq) (here : At seq p e n it) (later : p < q) (inside : q < afterAllKeys) :
    ∃ e' n', At seq q e' n' (it.moveTo q) := by
  rw [NodeIter.moveTo, Boundary.compare_eq, Boundary.materialize_plain]
  split
  case h_1 same =>
    rw [cmp_eq_eq_iff] at same
    obtain ⟨e', n', there, -⟩ := here.inc wf (same ▸ inside)
    exact ⟨e', n', same ▸ there⟩
  case h_2 => exact skip_at wf inside it here.s_eq
  case h_3 more =>
    rw [cmp_eq_gt_iff] at more
    exact ⟨e, n, here.inside later.le more⟩

/-- A scan that moves its iterator on while its segment ends before `endKey` gets to a
segment that does not. -/
theorem scan_reaches (wf : WellFormed seq) {Scan : Type} (it : Scan → NodeIter) {step : Scan → Scan}
    (moves : ∀ scan, it (step scan) = (it scan).inc) {endKey : Key} (inKeyspace : endKey ≤ allKeysEnd)
    (kept : Scan → Prop) (stands : ∀ scan, kept scan → ∃ p e n, NodeIter.At seq p e n (it scan))
    (keeps : ∀ scan, kept scan → (it scan).endKey.materialize < endKey → kept (step scan)) {scan last : Scan}
    (start : kept scan)
    (ends : Loop.run (fun scan => (it scan).endKey.compare { key := endKey } == .lt) step (2 * seq.length) scan = last) :
    kept last ∧ endKey ≤ (it last).endKey.materialize := by
  have enough : (it scan).remaining ≤ 2 * seq.length := by
    obtain ⟨p, e, n, here⟩ := stands scan start
    rw [NodeIter.remaining, here.s_eq]
    omega
  obtain ⟨held, stopped⟩ := Loop.run_spec kept (fun scan => (it scan).remaining) (fun scan holds active => by
    rw [Boundary.compare_beq_lt, decide_eq_true_eq, Boundary.materialize_plain] at active
    obtain ⟨p, e, n, here⟩ := stands scan holds
    refine ⟨keeps scan holds active, ?_⟩
    rw [moves]
    exact here.inc_remaining wf ((active.trans_le inKeyspace).trans allKeysEnd_lt_afterAllKeys)) start enough ends
  rw [Boundary.compare_beq_lt, decide_eq_false_iff_not, not_lt, Boundary.materialize_plain] at stopped
  exact ⟨held, stopped⟩

namespace WellFormed

variable {seq : List Node}

private theorem ends_with_sentinels (wf : WellFormed seq) :
    ∃ lower, seq = lower ++ [{ key := allKeysEnd }, { key := afterAllKeys }] := by
  have floor : Floor Node.key seq allKeysEnd { key := allKeysEnd } :=
    ⟨wf.last, le_rfl, fun _ _ below => below⟩
  obtain ⟨lower, upper, split, -, above⟩ := floor.split wf.ordered
  have onlyAfter : upper = [{ key := afterAllKeys }] := by
    have upperOrdered : Ordered Node.key upper := by
      have ordered := wf.ordered
      rw [split] at ordered
      exact (List.pairwise_cons.mp (ordered_append.mp ordered).2.1).2
    refine upperOrdered.ext (List.pairwise_singleton _ _) ?_
    intro node
    rw [above, List.mem_singleton]
    constructor
    · rintro ⟨member, past⟩
      have same : node.key = afterAllKeys :=
        le_antisymm (wf.bounded node member) (keyAfter_le_iff.mpr past)
      exact wf.ordered.eq_of_key_eq member wf.after same
    · rintro rfl
      exact ⟨wf.after, allKeysEnd_lt_afterAllKeys⟩
  exact ⟨lower, by rw [split, onlyAfter]⟩

/-- A key has the flags that its last node gives it. -/
theorem denote_eq (wf : WellFormed seq) (floor : Floor Node.key seq p e) : denote seq p = e.flagsAt p := by
  by_cases inside : p < afterAllKeys
  · obtain ⟨e', n, here⟩ := NodeIter.skip_at wf inside { s := seq } rfl
    rw [floor.unique wf.ordered (here.floor wf)]
    exact here.seg_flags
  · have past : afterAllKeys ≤ p := not_lt.mp inside
    have atLast : e = { key := afterAllKeys } :=
      wf.ordered.eq_of_key_eq floor.member wf.after
        (le_antisymm (wf.bounded e floor.member) (floor.greatest _ wf.after past))
    obtain ⟨lower, split⟩ := wf.ends_with_sentinels
    have noneAbove : (seq.findIdx fun nd => decide (p < nd.key)) = seq.length := by
      rw [List.findIdx_eq_length]
      intro node member
      simpa using (wf.bounded node member).trans past
    have atEnd : (NodeIter.skip { s := seq } p).entry = { key := allKeysEnd } := by
      have clamped : seq.length - 1 < seq.length := by simp [split]
      simp only [NodeIter.entry, NodeIter.skip, noneAbove, if_pos clamped]
      simp [split]
    have offset : (NodeIter.skip { s := seq } p).offset = true := by
      have entry := atEnd
      simp only [NodeIter.entry, NodeIter.skip] at entry ⊢
      rw [entry]
      rfl
    simp only [denote, segmentAt, NodeIter.seg, NodeIter.isOperation, NodeIter.isClearedRange,
      NodeIter.isConflictRange, NodeIter.isUnreadable, atEnd, offset, atLast]
    rfl

end WellFormed

end FdbGo.Client
