import FdbGo.Client.MutatorProperties

/-! Adding a conflict range. The scan collects edits by position. They are applied
from the last, so the list they produce is the front of the old one rewritten,
followed by the part the scan has not reached. -/

set_option autoImplicit false

namespace FdbGo.Client

open Foundation Node

def Node.raise (node : Node) : Node := { node with followingConflict := true, isConflict := true }

def NodeFlags.raise (flags : NodeFlags) : NodeFlags := { flags with conflict := true }

theorem Node.raise_flagsAt (node : Node) (p : Key) : node.raise.flagsAt p = (node.flagsAt p).raise := by
  unfold flagsAt raise NodeFlags.raise
  dsimp only
  split <;> rfl

def Node.raised (node : Node) : Bool := node.followingConflict && node.isConflict

variable {lower seen upper seq : List Node} {first e n node : Node} {p beginKey endKey : Key} {scan : ConflictScan}
    {it : NodeIter}

theorem Node.raise_of_raised (already : node.raised = true) : node.raise = node := by
  simp only [raised, Bool.and_eq_true] at already
  cases node
  simp_all [raise]

def beginNode (first : Node) (beginKey : Key) : Node where
  key := beginKey
  op := (first.flagsAt beginKey).op
  followingCleared := first.followingCleared
  followingConflict := true
  isConflict := true
  followingUnreadable := first.followingUnreadable
  isUnreadable := first.isUnreadable

private theorem beginNode_flagsAt (begins : first.key ≤ beginKey) (late : beginKey ≤ p) :
    (beginNode first beginKey).flagsAt p = (first.flagsAt p).raise := by
  by_cases operation : (first.flagsAt beginKey).op = true
  · have here : first.op = true ∧ first.key = beginKey := by
      unfold flagsAt at operation
      split at operation
      case isTrue both => exact both
      case isFalse => exact absurd operation Bool.false_ne_true
    simp [flagsAt, beginNode, here, NodeFlags.raise]
    split <;> rfl
  · have range : (first.flagsAt beginKey).op = false := by simpa using operation
    have apart : first.op = true → first.key ≠ p := by
      intro op same
      have atBegin : first.key = beginKey := le_antisymm begins (same ▸ late)
      simp [flagsAt, op, atBegin] at range
    rw [flagsAt_of_ne (by simp [beginNode, range]), flagsAt_of_ne apart]
    rfl

/-- The nodes the edits leave in the place of the floor of the begin. -/
def beginPart (first : Node) (beginKey : Key) : List Node :=
  if first.raised then [first]
  else if first.key = beginKey then [beginNode first beginKey]
  else [first, beginNode first beginKey]

/-- The part of the nodes up to the scan's position, after the edits. -/
def raisedFront (lower : List Node) (first : Node) (beginKey : Key) (seen : List Node) : List Node :=
  lower ++ beginPart first beginKey ++ seen.map raise

/-- The nodes of the rewritten front inside the range. -/
def raisedNodes (first : Node) (beginKey : Key) (seen : List Node) : List Node :=
  (if first.raised then [] else [beginNode first beginKey]) ++ seen.map raise

/-- The nodes of a raised part: its begin, unless that is raised already, and the old ones, raised. -/
theorem mem_raisedNodes : node ∈ raisedNodes first beginKey seen ↔
    node = beginNode first beginKey ∧ first.raised = false ∨ ∃ old ∈ seen, node = old.raise := by
  simp only [raisedNodes, List.mem_append, List.mem_map, eq_comm]
  cases first.raised <;> simp

theorem mem_raisedFront : node ∈ raisedFront lower first beginKey seen ↔
    node ∈ lower ∨ node = first ∧ (first.raised = true ∨ first.key ≠ beginKey) ∨
      node ∈ raisedNodes first beginKey seen := by
  have part : node ∈ beginPart first beginKey ↔
      node = first ∧ (first.raised = true ∨ first.key ≠ beginKey) ∨
        node = beginNode first beginKey ∧ first.raised = false := by
    unfold beginPart
    cases first.raised with
    | true => simp
    | false => by_cases same : first.key = beginKey <;> simp [same]
  simp only [raisedFront, List.mem_append, List.mem_map, part, mem_raisedNodes]
  grind

private theorem raisedFront_ordered (ordered : Ordered Node.key (lower ++ first :: seen)) (begins : first.key ≤ beginKey)
    (past : ∀ node ∈ seen, beginKey < node.key) : Ordered Node.key (raisedFront lower first beginKey seen) := by
  obtain ⟨lowerOrdered, tailOrdered, -⟩ := ordered_append.mp ordered
  obtain ⟨belowFirst, aboveFirst⟩ := ordered.around
  have partRange : ∀ node ∈ beginPart first beginKey, first.key ≤ node.key ∧ node.key ≤ beginKey := by
    intro node member
    unfold beginPart at member
    split at member
    · simp_all
    · split at member
      · simp_all [beginNode]
      · rcases List.mem_cons.mp member with rfl | inRest
        · exact ⟨le_rfl, begins⟩
        · obtain rfl := List.mem_singleton.mp inRest
          exact ⟨begins, le_rfl⟩
  have partOrdered : Ordered Node.key (beginPart first beginKey) := by
    unfold beginPart
    split
    · exact List.pairwise_singleton _ _
    · split
      · exact List.pairwise_singleton _ _
      case isFalse apart =>
        refine List.pairwise_cons.mpr ⟨?_, List.pairwise_singleton _ _⟩
        intro node member
        rw [List.mem_singleton.mp member]
        exact begins.lt_of_ne apart
  have raisedOrdered : Ordered Node.key (seen.map raise) :=
    List.pairwise_map.mpr (List.pairwise_cons.mp tailOrdered).2
  refine ordered_append.mpr ⟨ordered_append.mpr ⟨lowerOrdered, partOrdered, ?_⟩, raisedOrdered, ?_⟩
  · intro node inLower other inPart
    exact (belowFirst node inLower).trans_le (partRange other inPart).1
  · intro node member other inRaised
    obtain ⟨source, inSeen, rfl⟩ := List.mem_map.mp inRaised
    rcases List.mem_append.mp member with inLower | inPart
    · exact (belowFirst node inLower).trans (aboveFirst source inSeen)
    · exact (partRange node inPart).2.trans_lt (past source inSeen)

/-! ## The scan -/

private theorem applyEdits_append (edits : List NodeEdit) (edit : NodeEdit) (seq : List Node) :
    applyEdits (edits ++ [edit]) seq = applyEdits edits (edit.apply seq) := by
  simp [applyEdits]

private theorem raisedFront_append (lower : List Node) (first : Node) (beginKey : Key) (seen : List Node)
    (node : Node) (rest : List Node) :
    raisedFront lower first beginKey (seen ++ [node]) ++ rest =
      raisedFront lower first beginKey seen ++ node.raise :: rest := by
  simp [raisedFront]

/-- The scan has passed the nodes `seen`, and its edits rewrite the nodes up to its
position whatever follows them. -/
structure ConflictScan.Reached (lower : List Node) (first : Node) (beginKey endKey : Key)
    (scan : ConflictScan) (p : Key) (e n : Node) (seen upper : List Node) : Prop where
  here : NodeIter.At (lower ++ first :: (seen ++ n :: upper)) p e n scan.it
  late : beginKey ≤ p
  early : p < endKey
  position : scan.it.cur = lower.length + seen.length
  passed : ∀ node ∈ seen, beginKey < node.key ∧ node.key ≤ p
  edited : ∀ rest, applyEdits scan.edits (lower ++ first :: (seen ++ rest)) =
    raisedFront lower first beginKey seen ++ rest

theorem ConflictScan.step_reached (reached : Reached lower first beginKey endKey scan p e n seen upper)
    (wf : WellFormed (lower ++ first :: (seen ++ n :: upper))) (inKeyspace : endKey ≤ allKeysEnd)
    (more : scan.it.endKey.materialize < endKey) :
    ∃ p' e' n' seen' upper', seen' ++ n' :: upper' = seen ++ n :: upper ∧
      Reached lower first beginKey endKey scan.step p' e' n' seen' upper' := by
  have inside := (more.trans_le inKeyspace).trans allKeysEnd_lt_afterAllKeys
  have later := reached.here.lt_endKey
  obtain ⟨e', n', there, ⟨rfl, rfl, cur, operation, offset⟩ | ⟨rfl, cur, atNext⟩⟩ :=
    reached.here.inc wf inside
  · have op := (reached.here.offset_false operation).1
    have between : scan.step = { scan with it := scan.it.inc } := by
      rw [ConflictScan.step, if_neg]
      simp [NodeIter.keyAtBegin, there.entry_eq, offset, op]
    refine ⟨scan.it.endKey.materialize, e', n', seen, upper, rfl, ?_⟩
    rw [between]
    refine ⟨there, reached.late.trans later.le, more, cur.trans reached.position, ?_, reached.edited⟩
    intro node member
    exact ⟨(reached.passed node member).1, (reached.passed node member).2.trans later.le⟩
  · obtain ⟨lower', upper', split, position⟩ := there.split
    have tail : upper = n' :: upper' := by
      have whole : (lower ++ first :: seen) ++ e' :: upper = lower' ++ e' :: n' :: upper' := by
        simpa using split
      have sameLength : (lower ++ first :: seen).length = lower'.length := by
        have := reached.position
        simp only [List.length_append, List.length_cons]
        omega
      exact (List.cons_inj_right e').mp (List.append_inj whole sameLength).2
    subst tail
    have atBegin : scan.it.inc.keyAtBegin = true := by
      rw [NodeIter.keyAtBegin, there.entry_eq, there.offset_eq, atNext]
      cases e'.op <;> simp
    have there' : NodeIter.At (lower ++ first :: ((seen ++ [e']) ++ n' :: upper'))
        scan.it.endKey.materialize e' n' scan.it.inc := by simpa using there
    have position' : scan.it.inc.cur = lower.length + (seen ++ [e']).length := by
      rw [cur, reached.position, List.length_append, List.length_singleton, Nat.add_assoc]
    have passed' : ∀ node ∈ seen ++ [e'],
        beginKey < node.key ∧ node.key ≤ scan.it.endKey.materialize := by
      refine List.forall_mem_append.mpr ⟨fun node inSeen => ?_, List.forall_mem_singleton.mpr ?_⟩
      · exact (reached.passed node inSeen).imp_right fun before => before.trans later.le
      · rw [atNext]
        exact ⟨reached.late.trans_lt later, le_rfl⟩
    refine ⟨scan.it.endKey.materialize, e', n', seen ++ [e'], upper', by simp, ?_⟩
    unfold ConflictScan.step
    simp only [atBegin, there.entry_eq, Bool.true_and]
    split
    case isTrue fresh =>
      refine ⟨there', reached.late.trans later.le, more, position', passed', ?_⟩
      intro rest
      have place : scan.it.inc.cur = (lower ++ first :: seen).length := by
        rw [cur, reached.position]
        simp only [List.length_append, List.length_cons]
        omega
      have edit : NodeEdit.apply { pos := scan.it.inc.cur, replace := true, node := e'.raise }
          (lower ++ first :: ((seen ++ [e']) ++ rest)) =
            lower ++ first :: (seen ++ e'.raise :: rest) := by
        have around : lower ++ first :: ((seen ++ [e']) ++ rest) =
            (lower ++ first :: seen) ++ e' :: rest := by simp
        rw [NodeEdit.apply, if_pos rfl, around, set_append_cons place]
        simp
      rw [raisedFront_append, ← reached.edited, ← edit, ← applyEdits_append]
      rfl
    case isFalse settled =>
      have already : e'.raised = true := by
        simp only [raised]
        revert settled
        cases e'.followingConflict <;> cases e'.isConflict <;> simp
      refine ⟨there', reached.late.trans later.le, more, position', passed', ?_⟩
      intro rest
      rw [raisedFront_append, raise_of_raised already, ← reached.edited]
      simp

/-! ## The result -/

/-- The node the conflict range puts at its end, after the entry `e`. -/
def endNode (e : Node) (endKey : Key) : Node where
  key := endKey
  followingCleared := e.followingCleared
  followingUnreadable := e.followingUnreadable
  isUnreadable := e.isUnreadable

/-- The nodes added at the end of a conflict range, between the last entry before
the end and the next node. -/
def endPart (e n : Node) (endKey : Key) : List Node :=
  if e.raised = false ∧ n.key ≠ endKey then [endNode e endKey] else []

theorem mem_endPart : node ∈ endPart e n endKey ↔ node = endNode e endKey ∧ e.raised = false ∧ n.key ≠ endKey := by
  unfold endPart
  split <;> simp_all

/-- Where the scan ends: `seen` are the nodes strictly inside the range, `e` is the
last entry before its end and `n` the first node from its end on. -/
structure ConflictEnd (lower : List Node) (first : Node) (seen : List Node) (e n : Node)
    (upper : List Node) (beginKey endKey : Key) : Prop where
  wf : WellFormed (lower ++ first :: (seen ++ n :: upper))
  floor : Floor Node.key (lower ++ first :: seen) endKey e
  begins : first.key ≤ beginKey
  nonempty : beginKey < endKey
  inKeyspace : endKey ≤ allKeysEnd
  passed : ∀ node ∈ seen, beginKey < node.key ∧ node.key < endKey
  ends : endKey ≤ n.key

theorem halves : lower ++ first :: (seen ++ n :: upper) = (lower ++ first :: seen) ++ n :: upper := by
  simp

private theorem endPart_key (member : node ∈ endPart e n endKey) : node.key = endKey := by
  rw [(mem_endPart.mp member).1]
  rfl

namespace ConflictEnd

variable (ending : ConflictEnd lower first seen e n upper beginKey endKey)

include ending

theorem halves_ordered : Ordered Node.key (lower ++ first :: seen) ∧ Ordered Node.key (n :: upper) := by
  obtain ⟨head, tail, -⟩ := ordered_append.mp (halves ▸ ending.wf.ordered)
  exact ⟨head, tail⟩

theorem head_before : ∀ node ∈ lower ++ first :: seen, node.key < endKey := by
  intro node member
  simp only [List.mem_append, List.mem_cons] at member
  rcases member with inLower | rfl | inSeen
  · exact ((ending.halves_ordered.1.around.1 node inLower).trans_le ending.begins).trans ending.nonempty
  · exact ending.begins.trans_lt ending.nonempty
  · exact (ending.passed node inSeen).2

theorem tail_after : ∀ node ∈ n :: upper, endKey ≤ node.key := by
  intro node member
  exact ending.ends.trans (ending.halves_ordered.2.head_le node member)

theorem mem_range : ∀ node ∈ raisedNodes first beginKey seen, beginKey ≤ node.key ∧ node.key < endKey := by
  intro node member
  rcases mem_raisedNodes.mp member with ⟨rfl, -⟩ | ⟨source, inSeen, rfl⟩
  · exact ⟨le_rfl, ending.nonempty⟩
  · exact ⟨(ending.passed source inSeen).1.le, (ending.passed source inSeen).2⟩

private theorem front_before : ∀ node ∈ raisedFront lower first beginKey seen, node.key < endKey := by
  intro node member
  rcases mem_raisedFront.mp member with inLower | ⟨rfl, -⟩ | inRange
  · exact ending.head_before node (by simp [inLower])
  · exact ending.head_before node (by simp)
  · exact (ending.mem_range node inRange).2

private theorem ordered : Ordered Node.key (raisedFront lower first beginKey seen ++ (endPart e n endKey ++ n :: upper)) := by
  obtain ⟨headOrdered, tailOrdered⟩ := ending.halves_ordered
  refine ordered_append.mpr ⟨raisedFront_ordered headOrdered ending.begins
    (fun node member => (ending.passed node member).1), ordered_append.mpr ⟨?_, tailOrdered, ?_⟩, ?_⟩
  · unfold endPart
    split
    · exact List.pairwise_singleton _ _
    · exact List.Pairwise.nil
  · intro node member other inTail
    obtain ⟨-, -, apart⟩ := mem_endPart.mp member
    rw [endPart_key member]
    exact (ending.ends.lt_of_ne apart.symm).trans_le (tailOrdered.head_le other inTail)
  · intro node member other inRest
    refine (ending.front_before node member).trans_le ?_
    rcases List.mem_append.mp inRest with inEnd | inTail
    · exact (endPart_key inEnd).ge
    · exact ending.tail_after other inTail

/-- The range's nodes are the raised ones, and of the old ones those outside it stay. -/
theorem members (node : Node) :
    node ∈ raisedFront lower first beginKey seen ++ (endPart e n endKey ++ n :: upper) ↔
      node ∈ raisedNodes first beginKey seen ∨ node ∈ endPart e n endKey ∨
        node ∈ lower ++ first :: (seen ++ n :: upper) ∧
          (node.key < beginKey ∨ node.key = beginKey ∧ first.raised = true ∨ endKey < node.key ∨
            node.key = endKey ∧ false = false ∧ endPart e n endKey = []) := by
  obtain ⟨headOrdered, tailOrdered⟩ := ending.halves_ordered
  have begins := ending.begins
  have nonempty := ending.nonempty
  have inLower : node ∈ lower → node.key < beginKey := fun member =>
    (headOrdered.around.1 node member).trans_le begins
  have inSeen := ending.passed node
  have inTail : node ∈ n :: upper → endKey < node.key ∨ node.key = endKey ∧ endPart e n endKey = [] := by
    intro member
    rcases (ending.tail_after node member).lt_or_eq with late | here
    · exact .inl late
    · rcases List.mem_cons.mp member with rfl | inUpper
      · exact .inr ⟨here.symm, by simp [endPart, here]⟩
      · exact .inl (ending.ends.trans_lt ((List.pairwise_cons.mp tailOrdered).1 node inUpper))
  rw [halves, List.mem_append, mem_raisedFront, List.mem_append, List.mem_append, List.mem_append,
    List.mem_cons (a := node) (b := first)]
  grind

/-- Inside the range a key keeps its old flags, up to the conflict. From its end on, those
of the last entry before the end are taken. -/
theorem covers (late : beginKey ≤ p) : ∃ node,
    (node ∈ raisedNodes first beginKey seen ∨ first.raised = true ∧
      Floor Node.key (lower ++ first :: (seen ++ n :: upper)) beginKey node) ∧ node.key ≤ p ∧
      (∀ other ∈ raisedNodes first beginKey seen, other.key ≤ p → other.key ≤ node.key) ∧
      node.flagsAt p = (if p < endKey then denote (lower ++ first :: (seen ++ n :: upper)) p
        else e.flagsAt p).raise := by
  have headOrdered := ending.halves_ordered.1
  obtain ⟨beforeFirst, afterFirst⟩ := headOrdered.around
  have inHead : first ∈ lower ++ first :: seen := by simp
  obtain ⟨old, floor⟩ := exists_floor inHead (ending.begins.trans late)
  have target : (if p < endKey then denote (lower ++ first :: (seen ++ n :: upper)) p
      else e.flagsAt p) = old.flagsAt p := by
    split
    case isTrue early =>
      refine ending.wf.denote_eq ?_
      rw [halves]
      exact (floor_append_iff fun other member => early.trans_le (ending.tail_after other member)).mpr floor
    case isFalse =>
      rw [floor.unique headOrdered ⟨ending.floor.member, (ending.head_before e ending.floor.member).le.trans
        (not_lt.mp ‹_›), fun other member _ => ending.floor.greatest other member
          (ending.head_before other member).le⟩]
  rw [target]
  by_cases inSeen : old ∈ seen
  · refine ⟨old.raise, .inl (mem_raisedNodes.mpr (.inr ⟨old, inSeen, rfl⟩)), floor.below, ?_,
      old.raise_flagsAt p⟩
    intro other member below
    rcases mem_raisedNodes.mp member with ⟨rfl, -⟩ | ⟨source, inSource, rfl⟩
    · exact (ending.passed old inSeen).1.le
    · exact floor.greatest source (by simp [inSource]) below
  · have isFirst : old = first := by
      have least := floor.greatest first inHead (ending.begins.trans late)
      have member := floor.member
      simp only [List.mem_append, List.mem_cons] at member
      rcases member with inLower | same | inTail
      · exact absurd (beforeFirst old inLower) least.not_gt
      · exact same
      · exact absurd inTail inSeen
    subst isFirst
    have seenAbove : ∀ node ∈ seen, p < node.key := by
      intro node member
      by_contra below
      have least := floor.greatest node (by simp [member]) (not_lt.mp below)
      exact absurd (afterFirst node member) least.not_gt
    cases already : old.raised with
    | true =>
      have atBegin : Floor Node.key (lower ++ old :: (seen ++ n :: upper)) beginKey old := by
        refine ending.wf.ordered.floor_of_split ending.begins (List.forall_mem_append.mpr ⟨?_, fun other inTail => ?_⟩)
        · exact fun other inSeen => (ending.passed other inSeen).1
        · exact ending.nonempty.trans_le (ending.tail_after other inTail)
      refine ⟨old, .inr ⟨rfl, atBegin⟩, floor.below, ?_, ?_⟩
      · intro other member below
        rcases mem_raisedNodes.mp member with ⟨-, fresh⟩ | ⟨source, inSource, rfl⟩
        · exact absurd already (by simp [fresh])
        · exact absurd below (seenAbove source inSource).not_ge
      · rw [← raise_flagsAt, raise_of_raised already]
    | false =>
      refine ⟨beginNode old beginKey, .inl (mem_raisedNodes.mpr (.inl ⟨rfl, already⟩)), late, ?_,
        beginNode_flagsAt ending.begins late⟩
      intro other member below
      rcases mem_raisedNodes.mp member with ⟨rfl, -⟩ | ⟨source, inSource, rfl⟩
      · exact le_rfl
      · exact absurd below (seenAbove source inSource).not_ge

private theorem overwrite : ∃ old, Overwrite (lower ++ first :: (seen ++ n :: upper))
    (raisedFront lower first beginKey seen ++ (endPart e n endKey ++ n :: upper)) beginKey endKey
    first.raised false (raisedNodes first beginKey seen) (endPart e n endKey)
    (fun q => (if q < endKey then denote (lower ++ first :: (seen ++ n :: upper)) q
      else e.flagsAt q).raise) old := by
  have conflicts : ∀ node ∈ raisedNodes first beginKey seen,
      node.followingConflict = true → node.isConflict = true := by
    intro node member
    rcases mem_raisedNodes.mp member with ⟨rfl, -⟩ | ⟨source, -, rfl⟩
    · exact fun _ => rfl
    · exact fun _ => rfl
  by_cases gap : n.key = endKey
  · have floor : Floor Node.key (lower ++ first :: (seen ++ n :: upper)) endKey n :=
      gap ▸ floor_self Node.key (by simp)
    exact ⟨n, ending.nonempty, ending.inKeyspace, ending.ordered, ending.members, by simp, ending.mem_range,
      conflicts, fun _ => ending.covers, floor, .inr (.inl ⟨by simp [endPart, gap], rfl, gap⟩)⟩
  · have tailPast : ∀ node ∈ n :: upper, endKey < node.key := by
      intro node member
      exact (ending.ends.lt_of_ne (Ne.symm gap)).trans_le (ending.halves_ordered.2.head_le node member)
    have floor : Floor Node.key (lower ++ first :: (seen ++ n :: upper)) endKey e := by
      rw [halves]
      exact (floor_append_iff tailPast).mpr ending.floor
    have before := ending.head_before e ending.floor.member
    refine ⟨e, ending.nonempty, ending.inKeyspace, ending.ordered, ending.members, by simp, ending.mem_range,
      conflicts, fun _ => ending.covers, floor, ?_⟩
    cases already : e.raised with
    | false =>
      have unmarked : e.followingConflict = false := by
        have conflicts := ending.wf.conflicts e floor.member
        simp only [raised] at already
        revert conflicts already
        cases e.followingConflict <;> simp
      refine .inl ⟨endNode e endKey, by simp [endPart, already, gap], before.ne, rfl, by simp [endNode], ?_⟩
      rw [flagsAt_of_ne (by simp [endNode]), flagsAt_of_ne fun _ => before.ne]
      simp [endNode, unmarked]
    | true =>
      refine .inr (.inr ⟨by simp [endPart, already], fun here => absurd here before.ne, ?_⟩)
      rw [if_neg (lt_irrefl endKey), ← raise_flagsAt, raise_of_raised already]

end ConflictEnd

theorem fresh_iff (node : Node) : (!node.followingConflict || !node.isConflict) = !node.raised := by
  simp [raised, Bool.not_and]

private theorem beginEdits_apply (here : NodeIter.At (lower ++ first :: n :: upper) beginKey first n it)
    (position : it.cur = lower.length) (rest : List Node) :
    applyEdits (beginEdits it beginKey) (lower ++ first :: rest) =
      raisedFront lower first beginKey [] ++ rest := by
  have node : Node.mk beginKey it.isOperation first.followingCleared true true
      first.followingUnreadable first.isUnreadable = beginNode first beginKey := by
    rw [here.isOperation_eq]
    rfl
  have around : lower ++ first :: rest = (lower ++ [first]) ++ rest := by simp
  simp only [beginEdits, here.entry_eq, node, fresh_iff, raisedFront, beginPart, List.map_nil,
    List.append_nil]
  cases first.raised with
  | true => simp [applyEdits]
  | false =>
    by_cases same : first.key = beginKey
    · simp [applyEdits, NodeEdit.apply, position, same]
    · simp only [same, beq_iff_eq, Bool.not_false, ↓reduceIte, Bool.false_eq_true]
      simp only [applyEdits, List.foldr_cons, List.foldr_nil, NodeEdit.apply, Bool.false_eq_true,
        ↓reduceIte, around]
      rw [insertAt_append (by simp [position])]
      simp

private theorem endEdits_eq (wf : WellFormed seq) (here : NodeIter.At seq p e n it)
    (early : p < endKey) (inKeyspace : endKey ≤ allKeysEnd) (ends : endKey ≤ it.endKey.materialize) :
    endEdits it endKey =
      (endPart e n endKey).map fun node => { pos := it.cur + 1, replace := false, node := node } := by
  have inside := (here.endKey_le wf (early.trans_le inKeyspace)).trans_lt allKeysEnd_lt_afterAllKeys
  have gap : (!it.inc.keyAtBegin || !it.inc.beginKey.equal { key := endKey }) = true ↔
      n.key ≠ endKey := by
    rcases ends.lt_or_eq with past | same
    · have apart : it.inc.beginKey.equal { key := endKey } = false := by
        rw [← Bool.not_eq_true, Boundary.equal_iff, here.inc_beginKey wf inside]
        exact past.ne'
      simp [apart, (past.trans_le here.endKey_le_next).ne']
    · obtain ⟨e', n', there, moved⟩ := here.inc wf inside
      rw [← same] at there moved
      rw [there.no_node_iff]
      rcases moved with ⟨rfl, rfl, -⟩ | ⟨rfl, -, -⟩
      · have eBefore := here.begins.trans_lt early
        exact ⟨fun _ => there.ends.ne', fun _ => eBefore.ne⟩
      · exact Iff.rfl
  simp only [endEdits, here.entry_eq, fresh_iff]
  unfold endPart
  cases e.raised with
  | true => simp
  | false =>
    by_cases atEnd : n.key = endKey
    · have closed := (not_congr gap).mpr (not_not.mpr atEnd)
      simp [closed, atEnd]
    · simp [gap.mpr atEnd, atEnd]
      rfl

theorem ConflictScan.step_it (scan : ConflictScan) : scan.step.it = scan.it.inc := by
  simp only [ConflictScan.step]
  split <;> rfl

theorem ConflictScan.Reached.result (reached : Reached lower first beginKey endKey scan p e n seen upper)
    (wf : WellFormed (lower ++ first :: (seen ++ n :: upper))) (inKeyspace : endKey ≤ allKeysEnd)
    (ends : endKey ≤ scan.it.endKey.materialize) :
    applyEdits (scan.edits ++ endEdits scan.it endKey) (lower ++ first :: (seen ++ n :: upper)) =
      raisedFront lower first beginKey seen ++ (endPart e n endKey ++ n :: upper) := by
  have ending : applyEdits (endEdits scan.it endKey) (lower ++ first :: (seen ++ n :: upper)) =
      lower ++ first :: (seen ++ (endPart e n endKey ++ n :: upper)) := by
    rw [endEdits_eq wf reached.here reached.early inKeyspace ends]
    unfold endPart
    split
    · simp only [List.map_cons, List.map_nil, applyEdits, List.foldr_cons, List.foldr_nil,
        NodeEdit.apply, Bool.false_eq_true, ↓reduceIte, halves]
      rw [insertAt_append (by simp [reached.position]; omega)]
      simp
    · simp [applyEdits]
  rw [← reached.edited, ← ending, applyEdits, List.foldr_append]
  rfl

theorem ConflictScan.Reached.ending (reached : Reached lower first beginKey endKey scan p e n seen upper)
    (wf : WellFormed (lower ++ first :: (seen ++ n :: upper))) (inKeyspace : endKey ≤ allKeysEnd)
    (begins : first.key ≤ beginKey) (ends : endKey ≤ scan.it.endKey.materialize) :
    ConflictEnd lower first seen e n upper beginKey endKey := by
  have nextAfter := ends.trans reached.here.endKey_le_next
  have floor := reached.here.floor wf
  have ordered := wf.ordered
  rw [halves] at floor ordered
  obtain ⟨headOrdered, tailOrdered, -⟩ := ordered_append.mp ordered
  have tailPast : ∀ node ∈ n :: upper, p < node.key := by
    intro node member
    exact reached.here.ends.trans_le (Ordered.head_le tailOrdered node member)
  have headFloor := (floor_append_iff tailPast).mp floor
  have headBelow : ∀ node ∈ lower ++ first :: seen, node.key ≤ p := by
    intro node member
    simp only [List.mem_append, List.mem_cons] at member
    rcases member with inLower | rfl | inSeen
    · exact ((Ordered.around headOrdered).1 node inLower).le.trans (begins.trans reached.late)
    · exact begins.trans reached.late
    · exact (reached.passed node inSeen).2
  refine ⟨wf, ⟨headFloor.member, headFloor.below.trans reached.early.le, ?_⟩, begins,
    reached.late.trans_lt reached.early, inKeyspace, ?_, nextAfter⟩
  · intro other member _
    exact headFloor.greatest other member (headBelow other member)
  · intro node member
    exact ⟨(reached.passed node member).1, (reached.passed node member).2.trans_lt reached.early⟩

/-- A conflict range sets the conflict flag of its keys and changes nothing else. -/
theorem applyConflictRange_rewrites (wf : WellFormed seq) (nonempty : beginKey < endKey)
    (inKeyspace : endKey ≤ allKeysEnd) :
    Rewrites seq (applyConflictRange seq beginKey endKey) beginKey endKey
      fun p => (denote seq p).raise := by
  have inside : endKey < afterAllKeys := inKeyspace.trans_lt allKeysEnd_lt_afterAllKeys
  obtain ⟨first, n, here⟩ := NodeIter.skip_at wf (nonempty.trans inside) { s := seq } rfl
  obtain ⟨lower, upper, split, position⟩ := here.split
  have begins := here.begins
  have here' : NodeIter.At (lower ++ first :: n :: upper) beginKey first n
      (NodeIter.skip { s := seq } beginKey) := by
    rw [← split]
    exact here
  have start : ConflictScan.Reached lower first beginKey endKey
      { it := NodeIter.skip { s := seq } beginKey,
        edits := beginEdits (NodeIter.skip { s := seq } beginKey) beginKey } beginKey first n []
      upper :=
    ⟨here', le_rfl, nonempty, by simp [position], by simp, beginEdits_apply here' position⟩
  simp only [applyConflictRange]
  generalize final : Loop.run _ _ _ _ = scan
  obtain ⟨⟨p, e, n', seen, upper', whole, reached⟩, ends⟩ := scan_reaches wf ConflictScan.it ConflictScan.step_it
    inKeyspace
    (fun scan => ∃ p e n' seen upper', seq = lower ++ first :: (seen ++ n' :: upper') ∧
      scan.Reached lower first beginKey endKey p e n' seen upper')
    (by
      rintro scan ⟨p, e, n', seen, upper', rfl, reached⟩
      exact ⟨p, e, n', reached.here⟩)
    (by
      rintro scan ⟨p, e, n', seen, upper', rfl, reached⟩ more
      obtain ⟨p', e', n'', seen', upper'', whole, next⟩ := scan.step_reached reached wf inKeyspace more
      exact ⟨p', e', n'', seen', upper'', by rw [whole], next⟩)
    ⟨beginKey, first, n, [], upper, split, start⟩ final
  subst whole
  have ending := reached.ending wf inKeyspace begins ends
  rw [reached.result wf inKeyspace ends]
  obtain ⟨old, wipe⟩ := ending.overwrite
  refine (wipe.rewrites wf).congr fun p late early => ?_
  rw [if_pos early]

end FdbGo.Client
