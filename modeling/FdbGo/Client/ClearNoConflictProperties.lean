import FdbGo.Client.MutatorProperties

/-! Clearing without a conflict. The clear keeps each key's conflict flag, so it
leaves a node wherever that flag changes, the flag alternating from node to
node. -/

set_option autoImplicit false

namespace FdbGo.Client

open Foundation Boundary

def clearedFlags (conflict : Bool) : NodeFlags where
  op := false
  cleared := true
  conflict := conflict
  unreadable := false

/-- The nodes left at the boundaries where the conflict flag changes. -/
def toggleNodes (conflicted : Bool) : List Boundary → List Node
  | [] => []
  | b :: rest => rangeNode b.materialize (clearedFlags conflicted) :: toggleNodes (!conflicted) rest

/-- The conflict flag after the last change at or before a key. -/
def flagAfter (conflicted : Bool) : List Boundary → Key → Bool
  | [], _ => !conflicted
  | b :: rest, p => if b.materialize ≤ p then flagAfter (!conflicted) rest p else !conflicted

private theorem insertToggles_eq (conflicted : Bool) (seq : List Node) (ranges : List Boundary) :
    insertToggles conflicted seq ranges = insertNodes seq (toggleNodes conflicted ranges) := by
  induction ranges generalizing conflicted seq with
  | nil => rfl
  | cons b rest ih => exact ih (!conflicted) _

variable {ranges : List Boundary} {p : Key} {conflicted insertBegin : Bool} {scan : ToggleScan} {b : Boundary}
    {beginKey q : Key} {node : Node}

theorem mem_toggleNodes (member : node ∈ toggleNodes conflicted ranges) :
    ∃ b ∈ ranges, ∃ flag, node = rangeNode b.materialize (clearedFlags flag) := by
  induction ranges generalizing conflicted with
  | nil => exact absurd member List.not_mem_nil
  | cons b rest ih =>
    rcases List.mem_cons.mp member with rfl | inRest
    · exact ⟨b, List.mem_cons_self, conflicted, rfl⟩
    · obtain ⟨other, inside, flag, same⟩ := ih inRest
      exact ⟨other, List.mem_cons_of_mem b inside, flag, same⟩

theorem exists_toggleNode (conflicted : Bool) (member : b ∈ ranges) :
    ∃ node ∈ toggleNodes conflicted ranges, node.key = b.materialize := by
  induction ranges generalizing conflicted with
  | nil => exact absurd member List.not_mem_nil
  | cons head rest ih =>
    rcases List.mem_cons.mp member with rfl | inRest
    · exact ⟨_, List.mem_cons_self, rfl⟩
    · obtain ⟨node, inside, same⟩ := ih (!conflicted) inRest
      exact ⟨node, List.mem_cons_of_mem _ inside, same⟩

private theorem ordered_toggleNodes (ordered : Ordered materialize ranges)
    (conflicted : Bool) : Ordered Node.key (toggleNodes conflicted ranges) := by
  induction ranges generalizing conflicted with
  | nil => exact List.Pairwise.nil
  | cons b rest ih =>
    obtain ⟨above, restOrdered⟩ := List.pairwise_cons.mp ordered
    refine List.pairwise_cons.mpr ⟨?_, ih restOrdered (!conflicted)⟩
    intro node member
    obtain ⟨other, inRest, flag, rfl⟩ := mem_toggleNodes member
    exact above other inRest

theorem flagAfter_of_none (conflicted : Bool)
    (none : ∀ b ∈ ranges, p < b.materialize) : flagAfter conflicted ranges p = !conflicted := by
  cases ranges with
  | nil => rfl
  | cons b rest => exact if_neg (none b List.mem_cons_self).not_ge

theorem flagAfter_of_all (conflicted : Bool) (all : ∀ b ∈ ranges, b.materialize ≤ p) (later : p ≤ q) :
    flagAfter conflicted ranges q = flagAfter conflicted ranges p := by
  induction ranges generalizing conflicted with
  | nil => rfl
  | cons b rest ih =>
    have here := all b List.mem_cons_self
    rw [flagAfter, flagAfter, if_pos here, if_pos (here.trans later)]
    exact ih (!conflicted) (List.forall_mem_cons.mp all).2

private theorem flagAfter_append_lt (conflicted : Bool) (before : p < b.materialize) :
    flagAfter conflicted (ranges ++ [b]) p = flagAfter conflicted ranges p := by
  induction ranges generalizing conflicted with
  | nil => exact if_neg before.not_ge
  | cons head rest ih =>
    rw [List.cons_append, flagAfter, flagAfter, ih]

private theorem flagAfter_append_ge (conflicted : Bool) (all : ∀ other ∈ ranges, other.materialize ≤ p)
    (past : b.materialize ≤ p) : flagAfter conflicted (ranges ++ [b]) p = !flagAfter conflicted ranges p := by
  induction ranges generalizing conflicted with
  | nil => exact if_pos past
  | cons head rest ih =>
    have here := all head List.mem_cons_self
    rw [List.cons_append, flagAfter, flagAfter, if_pos here, if_pos here]
    exact ih (!conflicted) (List.forall_mem_cons.mp all).2

private theorem toggle_floor (ordered : Ordered materialize ranges) (conflicted : Bool)
    (floor : Floor Node.key (toggleNodes conflicted ranges) p node) :
    node.flagsAt p = clearedFlags (flagAfter conflicted ranges p) := by
  induction ranges generalizing conflicted with
  | nil => exact absurd floor.member List.not_mem_nil
  | cons b rest ih =>
    obtain ⟨above, restOrdered⟩ := List.pairwise_cons.mp ordered
    obtain ⟨member, below, greatest⟩ := floor
    have begins : b.materialize ≤ p := by
      rcases List.mem_cons.mp member with rfl | inRest
      · exact below
      · obtain ⟨other, inRanges, flag, rfl⟩ := mem_toggleNodes inRest
        exact (above other inRanges).le.trans below
    rw [flagAfter, if_pos begins]
    rcases List.mem_cons.mp member with rfl | inRest
    · have none : ∀ other ∈ rest, p < other.materialize := by
        intro other inRanges
        by_contra notPast
        obtain ⟨toggle, inToggles, atOther⟩ := exists_toggleNode (!conflicted) inRanges
        have least := greatest toggle (List.mem_cons_of_mem _ inToggles) (atOther ▸ not_lt.mp notPast)
        rw [atOther] at least
        exact absurd (above other inRanges) least.not_gt
      rw [flagAfter_of_none _ none, Bool.not_not]
      exact rangeNode_flagsAt rfl _ _
    · exact ih restOrdered (!conflicted) ⟨inRest, below, fun other inOthers =>
        greatest other (List.mem_cons_of_mem _ inOthers)⟩

/-! ## The scan -/

/-- The boundaries collected so far give each key before the end of the scan's
segment its conflict flag. -/
structure ToggleScan.Reached (seq : List Node) (beginKey endKey : Key) (conflicted insertBegin : Bool)
    (scan : ToggleScan) (p : Key) (e n : Node) : Prop where
  here : NodeIter.At seq p e n scan.it
  late : beginKey ≤ p
  early : p < endKey
  last : scan.lastConflicted = scan.it.isConflictRange
  ordered : Ordered materialize scan.conflictRanges
  range : ∀ b ∈ scan.conflictRanges, beginKey ≤ b.materialize ∧ b.materialize ≤ p
  fresh : insertBegin = false → ∀ b ∈ scan.conflictRanges, beginKey < b.materialize
  starts : insertBegin = true → ∃ b ∈ scan.conflictRanges, b.materialize = beginKey
  flags : ∀ q, beginKey ≤ q → q < scan.it.endKey.materialize →
    flagAfter conflicted scan.conflictRanges q = (denote seq q).conflict

variable {e : Node} {seq : List Node} {endKey : Key} {n : Node} {it : NodeIter}

theorem NodeIter.At.denote_conflict (wf : WellFormed seq) (here : At seq p e n it) (later : p ≤ q)
    (before : q < it.endKey.materialize) : (denote seq q).conflict = it.isConflictRange := by
  have there := here.inside later before
  rw [wf.denote_eq (there.floor wf), there.isConflictRange_eq]

theorem ToggleScan.step_it (scan : ToggleScan) : scan.step.it = scan.it.inc := by
  simp only [ToggleScan.step]
  split <;> rfl

theorem ToggleScan.step_reached (wf : WellFormed seq)
    (reached : Reached seq beginKey endKey conflicted insertBegin scan p e n) (inKeyspace : endKey ≤ allKeysEnd)
    (more : scan.it.endKey.materialize < endKey) :
    ∃ p' e' n', Reached seq beginKey endKey conflicted insertBegin scan.step p' e' n' := by
  have inside := (more.trans_le inKeyspace).trans allKeysEnd_lt_afterAllKeys
  have later := reached.here.lt_endKey
  obtain ⟨e', n', there, -⟩ := reached.here.inc wf inside
  have begins := reached.here.inc_beginKey wf inside
  refine ⟨scan.it.endKey.materialize, e', n', ?_⟩
  have all : ∀ b ∈ scan.conflictRanges, b.materialize ≤ scan.it.endKey.materialize :=
    fun b member => (reached.range b member).2.trans later.le
  -- Past the old segment the collected boundaries still give its flag.
  have carried : ∀ q, scan.it.endKey.materialize ≤ q →
      flagAfter conflicted scan.conflictRanges q = scan.lastConflicted := by
    intro q past
    rw [flagAfter_of_all _ (fun b member => (reached.range b member).2) (later.le.trans past),
      reached.flags p reached.late later, reached.here.denote_conflict wf le_rfl later, reached.last]
  simp only [ToggleScan.step]
  split
  case isTrue changed =>
    have flipped : scan.it.inc.isConflictRange = !scan.lastConflicted := by
      rw [bne_iff_ne] at changed
      exact Bool.eq_not.mpr changed.symm
    refine ⟨there, reached.late.trans later.le, more, rfl, ?ordered, ?range, ?fresh, ?starts, ?flags⟩
    case ordered =>
      refine ordered_append.mpr ⟨reached.ordered, List.pairwise_singleton _ _, ?_⟩
      intro b member other isNew
      rw [List.mem_singleton.mp isNew, begins]
      exact (reached.range b member).2.trans_lt later
    case range =>
      refine List.forall_mem_append.mpr ⟨fun b old => ⟨(reached.range b old).1, all b old⟩, ?_⟩
      rw [List.forall_mem_singleton, begins]
      exact ⟨reached.late.trans later.le, le_rfl⟩
    case fresh =>
      refine fun kept => List.forall_mem_append.mpr ⟨reached.fresh kept, ?_⟩
      rw [List.forall_mem_singleton, begins]
      exact reached.late.trans_lt later
    case starts =>
      intro inserted
      obtain ⟨b, member, same⟩ := reached.starts inserted
      exact ⟨b, List.mem_append_left _ member, same⟩
    case flags =>
      intro q late before
      rcases lt_or_ge q scan.it.endKey.materialize with old | new
      · rw [flagAfter_append_lt _ (begins ▸ old)]
        exact reached.flags q late old
      · rw [flagAfter_append_ge _ (fun b member => (all b member).trans new) (begins ▸ new),
          carried q new, there.denote_conflict wf new before, flipped]
  case isFalse unchanged =>
    have same : scan.lastConflicted = scan.it.inc.isConflictRange := by
      rw [bne_iff_ne] at unchanged
      exact not_not.mp unchanged
    refine ⟨there, reached.late.trans later.le, more, same, reached.ordered, ?range, reached.fresh,
      reached.starts, ?flags⟩
    case range =>
      intro b member
      exact ⟨(reached.range b member).1, all b member⟩
    case flags =>
      intro q late before
      rcases lt_or_ge q scan.it.endKey.materialize with old | new
      · exact reached.flags q late old
      · rw [carried q new, there.denote_conflict wf new before, same]

variable {first : Node}

variable {beginKey : Key}

/-- Where the scan's iterator stands after its last step: on the segment of the
end. That segment has the last conflict flag, unless it starts at the end, right
after an operation. -/
theorem ToggleScan.Reached.atEnd (wf : WellFormed seq)
    (reached : Reached seq beginKey endKey conflicted insertBegin scan p e n) (inKeyspace : endKey ≤ allKeysEnd)
    (ends : endKey ≤ scan.it.endKey.materialize)
    (moved : it = if scan.it.endKey.equal { key := endKey } then scan.it.inc else scan.it) :
    ∃ last n', NodeIter.At seq endKey last n' it ∧
      (last.key ≠ endKey → (last.flagsAt endKey).conflict = scan.lastConflicted ∨
        last.isConflict = true ∧ last.followingConflict = false ∧
          it.beginKey.equal { key := endKey } = true ∧ it.keyAtBegin = false) := by
  have inside := (reached.here.endKey_le wf (reached.early.trans_le inKeyspace)).trans_lt
    allKeysEnd_lt_afterAllKeys
  rcases ends.lt_or_eq with past | same
  · have apart : scan.it.endKey.equal { key := endKey } = false := by
      rw [← Bool.not_eq_true, equal_iff]
      exact past.ne'
    rw [apart, if_neg Bool.false_ne_true] at moved
    subst moved
    have there := reached.here.inside reached.early.le past
    refine ⟨e, n, there, fun _ => .inl ?_⟩
    rw [← there.isConflictRange_eq, reached.last]
  · have atEnd : scan.it.endKey.equal { key := endKey } = true := equal_iff.mpr same.symm
    rw [atEnd, if_pos rfl] at moved
    subst moved
    have begins := reached.here.inc_beginKey wf inside
    obtain ⟨e', n', there, moved⟩ := reached.here.inc wf inside
    rw [← same] at there begins moved
    refine ⟨e', n', there, ?_⟩
    intro apart
    rcases moved with ⟨rfl, -, -, operation, offset⟩ | ⟨rfl, -, atNext⟩
    · obtain ⟨op, atKey⟩ := reached.here.offset_false operation
      have wasConflict : scan.lastConflicted = e'.isConflict := by
        rw [reached.last, reached.here.isConflictRange_eq]
        simp [Node.flagsAt, op, atKey]
      have nowConflict : (e'.flagsAt endKey).conflict = e'.followingConflict := by
        rw [Node.flagsAt_of_ne fun _ => apart]
      rw [wasConflict, nowConflict]
      have conflicts := wf.conflicts e' (reached.here.floor wf).member
      have notAtBegin : scan.it.inc.keyAtBegin = false := by
        simp [NodeIter.keyAtBegin, there.entry_eq, offset, op]
      have beginsHere : scan.it.inc.beginKey.equal { key := endKey } = true :=
        equal_iff.mpr begins
      revert conflicts
      cases e'.isConflict <;> cases e'.followingConflict <;> simp [notAtBegin, beginsHere]
    · exact absurd atNext apart

theorem ToggleScan.Reached.mem_range (reached : Reached seq beginKey endKey conflicted insertBegin scan p e n) :
    ∀ node ∈ toggleNodes conflicted scan.conflictRanges, beginKey ≤ node.key ∧ node.key < endKey := by
  intro node member
  obtain ⟨b, inRanges, flag, rfl⟩ := mem_toggleNodes member
  exact ⟨(reached.range b inRanges).1, (reached.range b inRanges).2.trans_lt reached.early⟩

theorem clearNoConflict_overwrite (wf : WellFormed seq) (inKeyspace : endKey ≤ allKeysEnd)
    (floor : Floor Node.key seq beginKey first)
    (begins : insertBegin = false → first.flagsAt beginKey = clearedFlags (!conflicted))
    (reached : ToggleScan.Reached seq beginKey endKey conflicted insertBegin scan p e n) {last : Node}
    (lastFloor : Floor Node.key seq endKey last) {insertEnd coalesce : Bool}
    (inserts : insertEnd = true → last.key ≠ endKey)
    (ends : insertEnd = false → last.key ≠ endKey → last.flagsAt endKey = clearedFlags scan.lastConflicted)
    (coalesces : coalesce = true → last.flagsAt endKey = clearedFlags scan.lastConflicted) :
    Rewrites seq (overwrite seq beginKey endKey (!insertBegin) coalesce
        (toggleNodes conflicted scan.conflictRanges)
        (if insertEnd then [rangeNode endKey (last.flagsAt endKey)] else []))
      beginKey endKey fun q => clearedFlags (flagAfter conflicted scan.conflictRanges q) := by
  have target : clearedFlags (flagAfter conflicted scan.conflictRanges endKey) =
      clearedFlags scan.lastConflicted := by
    have later := reached.here.lt_endKey
    rw [flagAfter_of_all _ (fun b member => (reached.range b member).2) reached.early.le,
      reached.flags p reached.late later, reached.here.denote_conflict wf le_rfl later, reached.last]
  rw [← target] at ends coalesces
  refine overwrite_range wf (reached.late.trans_lt reached.early) inKeyspace (by simp [clearedFlags])
    (ordered_toggleNodes reached.ordered conflicted) reached.mem_range ?fresh ?conflicts ?covers lastFloor inserts
    ends coalesces
  case fresh =>
    intro kept node member
    obtain ⟨b, inRanges, flag, rfl⟩ := mem_toggleNodes member
    exact reached.fresh (by simpa using kept) b inRanges
  case conflicts =>
    intro node member
    obtain ⟨b, inRanges, flag, rfl⟩ := mem_toggleNodes member
    exact id
  case covers =>
    intro q late
    by_cases some : ∃ b ∈ scan.conflictRanges, b.materialize ≤ q
    · obtain ⟨b, inRanges, below⟩ := some
      obtain ⟨node, inToggles, atB⟩ := exists_toggleNode conflicted inRanges
      obtain ⟨best, bestFloor⟩ := exists_floor inToggles (atB ▸ below)
      exact ⟨best, .inl bestFloor.member, bestFloor.below, bestFloor.greatest,
        toggle_floor reached.ordered conflicted bestFloor⟩
    · have none : ∀ b ∈ scan.conflictRanges, q < b.materialize := by
        intro b member
        by_contra below
        exact some ⟨b, member, not_lt.mp below⟩
      have kept : insertBegin = false := by
        by_contra inserted
        obtain ⟨b, member, atBegin⟩ := reached.starts (by simpa using inserted)
        exact absurd (none b member) (atBegin ▸ late).not_gt
      have same := begins kept
      refine ⟨first, .inr ⟨by simp [kept], floor⟩, floor.below.trans late, ?_, ?_⟩
      · intro other member below
        obtain ⟨b, inRanges, flag, rfl⟩ := mem_toggleNodes member
        exact absurd below (none b inRanges).not_ge
      · rw [Node.flagsAt_later (same ▸ rfl) floor.below late, same, flagAfter_of_none _ none]

theorem insertNodes_tail (seq nodes : List Node) (insertEnd : Bool) (endNode : Node) :
    insertNodes seq (nodes ++ if insertEnd then [endNode] else []) =
      if insertEnd then insertNode (insertNodes seq nodes) endNode else insertNodes seq nodes := by
  cases insertEnd with
  | false => simp
  | true => simp [insertNodes]

/-- The scan starts with the begin of the range as its only boundary, or with
none when the begin is already cleared. -/
theorem toggleScan_start (wf : WellFormed seq) (nonempty : beginKey < endKey)
    (here : NodeIter.At seq beginKey first n it) (insertBegin : Bool) :
    ToggleScan.Reached seq beginKey endKey
      (if insertBegin then it.isConflictRange else !it.isConflictRange) insertBegin
      { it := it, lastConflicted := it.isConflictRange,
        conflictRanges := if insertBegin then [{ key := beginKey }] else [] }
      beginKey first n := by
  have flags : ∀ q, beginKey ≤ q → q < it.endKey.materialize →
      (denote seq q).conflict = it.isConflictRange :=
    fun q late before => here.denote_conflict wf late before
  cases insertBegin with
  | false =>
    refine ⟨here, le_rfl, nonempty, rfl, List.Pairwise.nil, by simp, by simp, by simp, ?_⟩
    intro q late before
    simp [flagAfter, flags q late before]
  | true =>
    refine ⟨here, le_rfl, nonempty, rfl, List.pairwise_singleton _ _, by simp, by simp, by simp, ?_⟩
    intro q late before
    simp [flagAfter, late, flags q late before]

section End

variable {seq : List Node} {endKey : Key} {last n : Node} {it : NodeIter}

variable (there : NodeIter.At seq endKey last n it)

include there

theorem insertEnd_apart (inserted : ((it.isUnmodifiedRange || it.isUnreadable) &&
        (!it.keyAtBegin || !it.beginKey.equal { key := endKey }) ||
      it.entry.isConflict && !it.entry.followingConflict && it.beginKey.equal { key := endKey } &&
        !it.keyAtBegin) = true) : last.key ≠ endKey := by
  rw [← there.no_node_iff]
  revert inserted
  cases it.keyAtBegin <;> cases it.beginKey.equal { key := endKey } <;> simp

variable {lastConflicted : Bool}

/-- Where no node comes at the end of the range, the flags there are those the
clear leaves. -/
theorem insertEnd_flags (conflict : (last.flagsAt endKey).conflict = lastConflicted ∨
      last.isConflict = true ∧ last.followingConflict = false ∧
        it.beginKey.equal { key := endKey } = true ∧ it.keyAtBegin = false)
    (absent : ((it.isUnmodifiedRange || it.isUnreadable) &&
        (!it.keyAtBegin || !it.beginKey.equal { key := endKey }) ||
      it.entry.isConflict && !it.entry.followingConflict && it.beginKey.equal { key := endKey } &&
        !it.keyAtBegin) = false) (apart : last.key ≠ endKey) : last.flagsAt endKey = clearedFlags lastConflicted := by
  rw [Bool.or_eq_false_iff, there.no_node_iff.mpr apart, Bool.and_true, Bool.or_eq_false_iff,
    there.isUnmodifiedRange_eq, there.isUnreadable_eq, there.entry_eq] at absent
  obtain ⟨⟨modified, readable⟩, settled⟩ := absent
  have same : (last.flagsAt endKey).conflict = lastConflicted := by
    rcases conflict with same | ⟨before, after, atEnd, notAtBegin⟩
    · exact same
    · simp [before, after, atEnd, notAtBegin] at settled
  have range : (last.flagsAt endKey).op = false := by rw [Node.flagsAt_of_ne fun _ => apart]
  rw [← same]
  generalize last.flagsAt endKey = flags at modified readable range ⊢
  rcases flags with ⟨_ | _, _ | _, _ | _, _ | _⟩ <;> simp_all [clearedFlags]

theorem coalesce_flags (coalesced : (it.isClearedRange && it.beginKey.equal { key := endKey } &&
      it.isConflictRange == lastConflicted && !it.isUnreadable) = true) :
    last.flagsAt endKey = clearedFlags lastConflicted := by
  have consistent := last.flagsAt_cleared (p := endKey)
  rw [there.isClearedRange_eq, there.isConflictRange_eq, there.isUnreadable_eq] at coalesced
  generalize last.flagsAt endKey = flags at coalesced consistent ⊢
  rcases flags with ⟨_ | _, _ | _, _ | _, _ | _⟩ <;> simp_all [clearedFlags]

end End

/-- A clear without a conflict makes its range cleared and readable, and keeps
each key's conflict flag. -/
theorem applyClearNoConflict_rewrites (wf : WellFormed seq) (nonempty : beginKey < endKey)
    (inKeyspace : endKey ≤ allKeysEnd) :
    Rewrites seq (applyClearNoConflict seq beginKey endKey) beginKey endKey
      fun p => clearedFlags (denote seq p).conflict := by
  have inside : endKey < afterAllKeys := inKeyspace.trans_lt allKeysEnd_lt_afterAllKeys
  obtain ⟨first, n, here⟩ := NodeIter.skip_at wf (nonempty.trans inside) { s := seq } rfl
  have floor := here.floor wf
  simp only [applyClearNoConflict]
  generalize NodeIter.skip { s := seq } beginKey = it at here ⊢
  have start := toggleScan_start wf nonempty here (!it.isClearedRange || it.isUnreadable)
  have begins : (!it.isClearedRange || it.isUnreadable) = false → first.flagsAt beginKey =
      clearedFlags (!(if !it.isClearedRange || it.isUnreadable then it.isConflictRange
        else !it.isConflictRange)) := by
    intro kept
    rw [kept, if_neg Bool.false_ne_true, Bool.not_not]
    have consistent := first.flagsAt_cleared (p := beginKey)
    rw [here.isClearedRange_eq, here.isUnreadable_eq] at kept
    rw [here.isConflictRange_eq]
    generalize first.flagsAt beginKey = flags at consistent kept ⊢
    rcases flags with ⟨_ | _, _ | _, _ | _, _ | _⟩ <;> simp_all [clearedFlags]
  generalize (if !it.isClearedRange || it.isUnreadable then it.isConflictRange
    else !it.isConflictRange) = conflicted at start begins ⊢
  generalize (!it.isClearedRange || it.isUnreadable) = insertBegin at start begins ⊢
  generalize final : Loop.run _ _ _ _ = scan
  obtain ⟨⟨p, e, n, reached⟩, ends⟩ := scan_reaches wf ToggleScan.it ToggleScan.step_it inKeyspace
    (fun scan => ∃ p e n, scan.Reached seq beginKey endKey conflicted insertBegin p e n)
    (fun scan kept => kept.imp fun p => .imp fun e => .imp fun n reached => reached.here)
    (by
      rintro scan ⟨p, e, n, reached⟩ more
      exact scan.step_reached wf reached inKeyspace more) ⟨_, _, _, start⟩ final
  obtain ⟨last, n', there, conflict⟩ := reached.atEnd wf inKeyspace ends rfl
  generalize (if scan.it.endKey.equal { key := endKey } then scan.it.inc else scan.it) = it'
    at there conflict ⊢
  rw [endNode_eq there]
  have cleared := clearNoConflict_overwrite wf inKeyspace floor begins reached (there.floor wf)
    (insertEnd_apart there) (fun absent apart => insertEnd_flags there (conflict apart) absent apart)
    (coalesce_flags there)
  rw [insertToggles_eq, ← insertNodes_tail]
  refine cleared.congr fun q late early => ?_
  exact congrArg clearedFlags (reached.flags q late (early.trans_le ends))

end FdbGo.Client
