import FdbGo.Client.NodesProperties

/-! Each mutator's effect on the pointwise meaning of the nodes. -/

set_option autoImplicit false

namespace FdbGo.Client

open Foundation Node

/-! ## Inserting and removing -/

variable {seq : List Node}

section

variable (ordered : Ordered Node.key seq)

include ordered

theorem insertNode_eq_put (node : Node) : insertNode seq node = put Node.key node seq :=
  ordered.putAt_eq_put node

private theorem removeRange_eq {beginB endB : Boundary} (nonempty : beginB.materialize ≤ endB.materialize) :
    removeRange seq beginB endB = seq.filter fun node =>
      decide (node.key < beginB.materialize ∨ endB.materialize ≤ node.key) := by
  have search : ∀ b : Boundary,
      (fun nd : Node => Boundary.compare { key := nd.key } b != .lt) =
        fun nd => decide (b.materialize ≤ nd.key) := by
    intro b
    funext nd
    rw [Boundary.compare_eq, Boundary.materialize_plain, Bool.eq_iff_iff, bne_iff_ne, ne_eq,
      cmp_eq_lt_iff, not_lt, decide_eq_true_eq]
  rw [removeRange, search beginB, search endB]
  exact ordered.deleteRange_eq nonempty

def insertNodes (seq nodes : List Node) : List Node := nodes.foldl insertNode seq

private theorem ordered_insertNodes (nodes : List Node) : Ordered Node.key (insertNodes seq nodes) := by
  induction nodes generalizing seq with
  | nil => exact ordered
  | cons node nodes ih => exact ih (insertNode_eq_put ordered node ▸ ordered.put node)

private theorem mem_insertNodes {nodes : List Node} (nodesOrdered : Ordered Node.key nodes) {other : Node} :
    other ∈ insertNodes seq nodes ↔
      other ∈ nodes ∨ other ∈ seq ∧ ∀ node ∈ nodes, other.key ≠ node.key := by
  induction nodes generalizing seq with
  | nil => simp [insertNodes]
  | cons node nodes ih =>
    obtain ⟨above, nodesOrdered⟩ := List.pairwise_cons.mp nodesOrdered
    have step : insertNodes seq (node :: nodes) = insertNodes (put Node.key node seq) nodes := by
      rw [← insertNode_eq_put ordered]
      rfl
    rw [step, ih (ordered.put node) nodesOrdered, mem_put]
    simp only [List.mem_cons, forall_eq_or_imp]
    constructor
    · rintro (inNodes | ⟨rfl | ⟨member, apart⟩, fresh⟩)
      · exact .inl (.inr inNodes)
      · exact .inl (.inl rfl)
      · exact .inr ⟨member, apart, fresh⟩
    · rintro ((rfl | inNodes) | ⟨member, apart, fresh⟩)
      · exact .inr ⟨.inl rfl, fun node inNodes => (above node inNodes).ne⟩
      · exact .inl inNodes
      · exact .inr ⟨.inr ⟨member, apart⟩, fresh⟩

end

/-! ## Overwriting a range

The mutators share one shape: of the nodes of a range they keep at most the one at
its begin, and put nodes inside the range and at most one at its end. -/

/-- What gives the keys of the range the flags `target`, and leaves the others as they
were. The floor of the end either goes on at a node of its own, or has the flags of the
range's last keys. -/
structure Overwrite (seq seq' : List Node) (beginKey endKey : Key) (keepBegin coalesce : Bool)
    (mid tail : List Node) (target : Key → NodeFlags) (old : Node) : Prop where
  nonempty : beginKey < endKey
  inKeyspace : endKey ≤ allKeysEnd
  ordered : Ordered Node.key seq'
  members : ∀ node, node ∈ seq' ↔ node ∈ mid ∨ node ∈ tail ∨ node ∈ seq ∧
    (node.key < beginKey ∨ node.key = beginKey ∧ keepBegin = true ∨ endKey < node.key ∨
      node.key = endKey ∧ coalesce = false ∧ tail = [])
  marked : coalesce = true →
    target endKey ≠ { op := false, cleared := false, conflict := false, unreadable := false }
  midRange : ∀ node ∈ mid, beginKey ≤ node.key ∧ node.key < endKey
  midConflicts : ∀ node ∈ mid, node.followingConflict = true → node.isConflict = true
  covers : ∀ p, beginKey ≤ p → ∃ node,
    (node ∈ mid ∨ keepBegin = true ∧ Floor Node.key seq beginKey node) ∧ node.key ≤ p ∧
      (∀ other ∈ mid, other.key ≤ p → other.key ≤ node.key) ∧ node.flagsAt p = target p
  floor : Floor Node.key seq endKey old
  resumes :
    (∃ node, tail = [node] ∧ old.key ≠ endKey ∧ node.key = endKey ∧
      (node.followingConflict = true → node.isConflict = true) ∧
      node.flagsAt endKey = old.flagsAt endKey) ∨
    (tail = [] ∧ coalesce = false ∧ old.key = endKey) ∨
    (tail = [] ∧ (old.key = endKey → coalesce = true) ∧ old.flagsAt endKey = target endKey)

/-- What a mutator does to the meaning of the nodes. -/
def Rewrites (seq seq' : List Node) (beginKey endKey : Key) (target : Key → NodeFlags) : Prop :=
  WellFormed seq' ∧
    ∀ p, denote seq' p = if beginKey ≤ p ∧ p < endKey then target p else denote seq p

/-- Of the target only the part inside the range matters. -/
theorem Rewrites.congr {seq seq' : List Node} {beginKey endKey : Key} {target target' : Key → NodeFlags}
    (rewrites : Rewrites seq seq' beginKey endKey target)
    (same : ∀ p, beginKey ≤ p → p < endKey → target p = target' p) :
    Rewrites seq seq' beginKey endKey target' := by
  refine ⟨rewrites.1, fun p => ?_⟩
  rw [rewrites.2 p]
  split
  case isTrue range => exact same p range.1 range.2
  case isFalse => rfl

variable {node : Node} {p : Key}

namespace Overwrite

variable {seq seq' : List Node} {beginKey endKey : Key} {keepBegin coalesce : Bool} {mid tail : List Node}
  {target : Key → NodeFlags} {old : Node}

variable (wipe : Overwrite seq seq' beginKey endKey keepBegin coalesce mid tail target old)

include wipe

theorem tail_node : ∀ node ∈ tail,
    node.key = endKey ∧ (node.followingConflict = true → node.isConflict = true) := by
  intro node member
  rcases wipe.resumes with ⟨last, rfl, -, atEnd, consistent, -⟩ | ⟨rfl, -⟩ | ⟨rfl, -⟩
  · rw [List.mem_singleton.mp member]
    exact ⟨atEnd, consistent⟩
  · exact absurd member List.not_mem_nil
  · exact absurd member List.not_mem_nil

theorem floor_within (late : beginKey ≤ p) (early : ∀ node ∈ seq', endKey ≤ node.key → p < node.key) :
    ∃ e, Floor Node.key seq' p e ∧ e.flagsAt p = target p := by
  obtain ⟨e, source, below, greatest, flags⟩ := wipe.covers p late
  have member : e ∈ seq' := by
    rw [wipe.members]
    rcases source with inMid | ⟨keep, floor⟩
    · exact .inl inMid
    · refine .inr (.inr ⟨floor.member, ?_⟩)
      rcases floor.below.lt_or_eq with less | same
      · exact .inl less
      · exact .inr (.inl ⟨same, keep⟩)
  refine ⟨e, ⟨member, below, ?_⟩, flags⟩
  intro other otherMember otherBelow
  have otherEarly : other.key < endKey := by
    by_contra atEnd
    exact absurd otherBelow (early other otherMember (not_lt.mp atEnd)).not_ge
  rcases (wipe.members _).mp otherMember with inMid | inTail | ⟨inSeq, kept⟩
  · exact greatest other inMid otherBelow
  · exact absurd (wipe.tail_node other inTail).1 otherEarly.ne
  · have otherAtBegin : other.key ≤ beginKey := by grind
    rcases source with inMid | ⟨keep, floor⟩
    · exact otherAtBegin.trans (wipe.midRange e inMid).1
    · exact floor.greatest other inSeq otherAtBegin

private theorem floor_resumes : ∃ e, Floor Node.key seq' endKey e ∧ ∀ p, endKey ≤ p → e.flagsAt p = old.flagsAt p := by
  rcases wipe.resumes with ⟨node, rfl, apart, atEnd, -, agree⟩ | ⟨empty, retained, atEnd⟩ |
      ⟨empty, removed, same⟩
  · have member : node ∈ seq' :=
      (wipe.members _).mpr (.inr (.inl List.mem_cons_self))
    have oldRange := flagsAt_op_of_lt (wipe.floor.below.lt_of_ne apart)
    refine ⟨node, ⟨member, atEnd.le, fun _ _ below => below.trans_eq atEnd.symm⟩, ?_⟩
    intro p late
    rw [flagsAt_later (agree ▸ oldRange) atEnd.le late, agree,
      flagsAt_later oldRange wipe.floor.below late]
  · have member : old ∈ seq' :=
      (wipe.members _).mpr
        (.inr (.inr ⟨wipe.floor.member, .inr (.inr (.inr ⟨atEnd, retained, empty⟩))⟩))
    exact ⟨old, ⟨member, atEnd.le, fun _ _ below => below.trans_eq atEnd.symm⟩, fun _ _ => rfl⟩
  · have gap : ∀ node ∈ seq',
        endKey ≤ node.key → endKey < node.key := by
      intro node member atEnd
      refine atEnd.lt_of_ne fun here => ?_
      rcases (wipe.members _).mp member with inMid | inTail | ⟨inSeq, kept⟩
      · exact absurd here (wipe.midRange node inMid).2.ne'
      · exact absurd (empty ▸ inTail) List.not_mem_nil
      · have oldHere : old.key = endKey :=
          le_antisymm wipe.floor.below (here ▸ wipe.floor.greatest node inSeq here.ge)
        have gone := removed oldHere
        have nonempty := wipe.nonempty
        grind
    obtain ⟨e, floor, flags⟩ := wipe.floor_within wipe.nonempty.le gap
    have before : e.key < endKey :=
      floor.below.lt_of_ne fun here => (gap e floor.member here.ge).ne here.symm
    have range := flagsAt_op_of_lt before
    refine ⟨e, floor, ?_⟩
    intro p late
    rw [flagsAt_later range floor.below late, flags, ← same,
      flagsAt_later ((same.trans flags.symm) ▸ range) wipe.floor.below late]

private theorem mem_outside (outside : node.key < beginKey ∨ endKey < node.key) : node ∈ seq' ↔ node ∈ seq := by
  have nonempty := wipe.nonempty
  rw [wipe.members]
  constructor
  · rintro (inMid | inTail | ⟨inSeq, -⟩)
    · have range := wipe.midRange node inMid
      grind
    · have atEnd := (wipe.tail_node node inTail).1
      grind
    · exact inSeq
  · intro inSeq
    exact .inr (.inr ⟨inSeq, by grind⟩)

variable (wf : WellFormed seq)

include wf

private theorem wellFormed : WellFormed seq' where
  ordered := wipe.ordered
  first := by
    obtain ⟨node, member, empty⟩ := wf.first
    rcases (nil_le beginKey).lt_or_eq with positive | atBegin
    · exact ⟨node, (wipe.members _).mpr (.inr (.inr ⟨member, .inl (empty ▸ positive)⟩)), empty⟩
    · obtain ⟨e, source, below, -⟩ := wipe.covers beginKey le_rfl
      have emptyKey : e.key = allKeysBegin := le_antisymm (below.trans_eq atBegin.symm) (nil_le e.key)
      refine ⟨e, (wipe.members _).mpr ?_, emptyKey⟩
      rcases source with inMid | ⟨keep, floor⟩
      · exact .inl inMid
      · exact .inr (.inr ⟨floor.member, .inr (.inl ⟨emptyKey.trans atBegin, keep⟩)⟩)
  last := by
    rw [wipe.members]
    refine .inr (.inr ⟨wf.last, ?_⟩)
    rcases wipe.inKeyspace.lt_or_eq with inside | atEnd
    · exact .inr (.inr (.inl inside))
    · have oldEnd : old = { key := allKeysEnd } := by
        refine wipe.floor.unique wf.ordered ⟨wf.last, atEnd.ge, ?_⟩
        intro other _ below
        exact below.trans_eq atEnd
      refine .inr (.inr (.inr ⟨atEnd.symm, ?_⟩))
      rcases wipe.resumes with ⟨-, -, apart, -⟩ | ⟨empty, retained, -⟩ | ⟨-, coalesced, same⟩
      · exact absurd (by rw [oldEnd, atEnd]) apart
      · exact ⟨retained, empty⟩
      · rw [oldEnd] at same
        exact absurd same.symm (wipe.marked (coalesced (by rw [oldEnd, atEnd])))
  after := by
    rw [wipe.members]
    exact .inr (.inr ⟨wf.after, .inr (.inr (.inl
      (wipe.inKeyspace.trans_lt allKeysEnd_lt_afterAllKeys)))⟩)
  bounded := by
    intro node member
    have endBound := wipe.inKeyspace.trans allKeysEnd_lt_afterAllKeys.le
    rcases (wipe.members _).mp member with inMid | inTail | ⟨inSeq, -⟩
    · exact (wipe.midRange node inMid).2.le.trans endBound
    · exact (wipe.tail_node node inTail).1.le.trans endBound
    · exact wf.bounded node inSeq
  conflicts := by
    intro node member
    rcases (wipe.members _).mp member with inMid | inTail | ⟨inSeq, -⟩
    · exact wipe.midConflicts node inMid
    · exact (wipe.tail_node node inTail).2
    · exact wf.conflicts node inSeq

/-- The nodes outside the closed range stay, so the keys before the range keep their
floor. A key past it has its old floor there, or the floor of the range's end. -/
theorem rewrites : Rewrites seq seq' beginKey endKey target := by
  have wf' := wipe.wellFormed wf
  refine ⟨wf', fun p => ?_⟩
  split
  case isTrue inside =>
    obtain ⟨e, floor, flags⟩ := wipe.floor_within inside.1 fun node _ atEnd => inside.2.trans_le atEnd
    rw [wf'.denote_eq floor, flags]
  case isFalse outside =>
    obtain ⟨e, floor⟩ := wf.exists_floor p
    rw [wf.denote_eq floor]
    by_cases early : p < beginKey
    · have floor' : Floor Node.key seq' p e := by
        refine ⟨(wipe.mem_outside (.inl (floor.below.trans_lt early))).mpr floor.member, floor.below, ?_⟩
        intro other member below
        exact floor.greatest other ((wipe.mem_outside (.inl (below.trans_lt early))).mp member) below
      rw [wf'.denote_eq floor']
    · have late : endKey ≤ p := not_lt.mp fun less => outside ⟨not_lt.mp early, less⟩
      by_cases past : endKey < e.key
      · have floor' : Floor Node.key seq' p e := by
          refine ⟨(wipe.mem_outside (.inr past)).mpr floor.member, floor.below, ?_⟩
          intro other member below
          by_cases otherPast : endKey < other.key
          · exact floor.greatest other ((wipe.mem_outside (.inr otherPast)).mp member) below
          · exact (not_lt.mp otherPast).trans past.le
        rw [wf'.denote_eq floor']
      · obtain ⟨new, newFloor, agree⟩ := wipe.floor_resumes
        have atEnd : Floor Node.key seq endKey e :=
          ⟨floor.member, not_lt.mp past, fun other member below =>
            floor.greatest other member (below.trans late)⟩
        have floor' : Floor Node.key seq' p new := by
          refine ⟨newFloor.member, newFloor.below.trans late, ?_⟩
          intro other member below
          by_cases otherPast : endKey < other.key
          · have upper := floor.greatest other ((wipe.mem_outside (.inr otherPast)).mp member) below
            exact absurd (otherPast.trans_le upper) past
          · exact newFloor.greatest other member (not_lt.mp otherPast)
        rw [wf'.denote_eq floor', agree p late, wipe.floor.unique wf.ordered atEnd]

end Overwrite

/-! ## Overwriting by removals and insertions

The clears and the unreadable range remove the nodes of the range and insert the new
ones. -/

def overwrite (seq : List Node) (beginKey endKey : Key) (keepBegin coalesce : Bool)
    (mid tail : List Node) : List Node :=
  insertNodes
    (removeRange seq { key := beginKey, after := keepBegin } { key := endKey, after := coalesce })
    (mid ++ tail)

section Inserted

variable {seq mid tail : List Node} {beginKey endKey : Key} {keepBegin coalesce : Bool}
  (ordered : Ordered Node.key seq) (nonempty : beginKey < endKey)

include ordered nonempty

theorem removeRange_filter : removeRange seq { key := beginKey, after := keepBegin } { key := endKey, after := coalesce } =
      seq.filter fun node =>
        decide (node.key < (if keepBegin then keyAfter beginKey else beginKey) ∨
          (if coalesce then keyAfter endKey else endKey) ≤ node.key) := by
  have after : ∀ (key : Key) (flag : Bool), Boundary.materialize { key := key, after := flag } =
      if flag then keyAfter key else key := by
    intro key flag
    cases flag <;> rfl
  rw [removeRange_eq ordered, after, after]
  rw [after, after]
  have low : (if keepBegin then keyAfter beginKey else beginKey) ≤ endKey := by
    split
    · exact keyAfter_le_iff.mpr nonempty
    · exact nonempty.le
  refine low.trans ?_
  split
  · exact (lt_keyAfter endKey).le
  · exact le_rfl

private theorem ordered_overwrite : Ordered Node.key (overwrite seq beginKey endKey keepBegin coalesce mid tail) :=
  ordered_insertNodes (removeRange_filter ordered nonempty ▸ ordered.filter _) (mid ++ tail)

private theorem mem_overwrite (midOrdered : Ordered Node.key mid) (tailOrdered : Ordered Node.key tail)
    (midRange : ∀ node ∈ mid, beginKey ≤ node.key ∧ node.key < endKey)
    (midFresh : keepBegin = true → ∀ node ∈ mid, beginKey < node.key)
    (tailKey : ∀ node ∈ tail, node.key = endKey) :
    node ∈ overwrite seq beginKey endKey keepBegin coalesce mid tail ↔
      node ∈ mid ∨ node ∈ tail ∨ node ∈ seq ∧
        (node.key < beginKey ∨ node.key = beginKey ∧ keepBegin = true ∨ endKey < node.key ∨
          node.key = endKey ∧ coalesce = false ∧ tail = []) := by
  have inserted : Ordered Node.key (mid ++ tail) := by
    refine ordered_append.mpr ⟨midOrdered, tailOrdered, ?_⟩
    intro node inMid last inTail
    rw [tailKey last inTail]
    exact (midRange node inMid).2
  rw [overwrite, mem_insertNodes (removeRange_filter ordered nonempty ▸ ordered.filter _) inserted,
    removeRange_filter ordered nonempty]
  simp only [List.mem_append, List.mem_filter, decide_eq_true_eq]
  have low : node.key < (if keepBegin then keyAfter beginKey else beginKey) ↔
      node.key < beginKey ∨ node.key = beginKey ∧ keepBegin = true := by
    cases keepBegin <;> simp [lt_keyAfter_iff, le_iff_lt_or_eq]
  have high : (if coalesce then keyAfter endKey else endKey) ≤ node.key ↔
      endKey < node.key ∨ node.key = endKey ∧ coalesce = false := by
    cases coalesce with
    | false => simp [le_iff_lt_or_eq, eq_comm]
    | true => simp [keyAfter_le_iff]
  rw [low, high]
  constructor
  · rintro ((inMid | inTail) | ⟨⟨member, kept⟩, fresh⟩)
    · exact .inl inMid
    · exact .inr (.inl inTail)
    · refine .inr (.inr ⟨member, ?_⟩)
      rcases kept with (early | atBegin) | late | ⟨atEnd, retained⟩
      · exact .inl early
      · exact .inr (.inl atBegin)
      · exact .inr (.inr (.inl late))
      · refine .inr (.inr (.inr ⟨atEnd, retained, List.eq_nil_iff_forall_not_mem.mpr ?_⟩))
        intro last inTail
        exact fresh last (.inr inTail) (atEnd.trans (tailKey last inTail).symm)
  · rintro (inMid | inTail | ⟨member, kept⟩)
    · exact .inl (.inl inMid)
    · exact .inl (.inr inTail)
    · refine .inr ⟨⟨member, or_assoc.mpr (kept.imp_right (Or.imp_right (Or.imp_right fun atEnd => ⟨atEnd.1, atEnd.2.1⟩)))⟩, ?_⟩
      rintro other (inMid | inTail)
      · have range := midRange other inMid
        have fresh := fun keep => midFresh keep other inMid
        grind
      · have atEnd := tailKey other inTail
        grind

end Inserted

/-- The node that gives `flags` to every key from `key` on. -/
def rangeNode (key : Key) (flags : NodeFlags) : Node where
  key := key
  followingCleared := flags.cleared
  followingConflict := flags.conflict
  isConflict := flags.conflict
  followingUnreadable := flags.unreadable
  isUnreadable := flags.unreadable

theorem rangeNode_flagsAt {flags : NodeFlags} (range : flags.op = false) (key p : Key) :
    (rangeNode key flags).flagsAt p = flags := by
  rw [flagsAt_of_ne (by simp [rangeNode])]
  cases flags
  simp_all [rangeNode]

variable {beginKey endKey key : Key} {coalesce : Bool} {e : Node}
    {versionstamp insertBegin addConflict insertEnd offset : Bool}

/-- The floor of the end goes on at a node of its own where it says something else than
the range's last keys. -/
theorem overwrite_range (wf : WellFormed seq) (nonempty : beginKey < endKey) (inKeyspace : endKey ≤ allKeysEnd)
    {mid : List Node} {keepBegin : Bool} {target : Key → NodeFlags} {last : Node}
    (marked : target endKey ≠ { op := false, cleared := false, conflict := false, unreadable := false })
    (midOrdered : Ordered Node.key mid) (midRange : ∀ node ∈ mid, beginKey ≤ node.key ∧ node.key < endKey)
    (midFresh : keepBegin = true → ∀ node ∈ mid, beginKey < node.key)
    (midConflicts : ∀ node ∈ mid, node.followingConflict = true → node.isConflict = true)
    (covers : ∀ p, beginKey ≤ p → ∃ node,
      (node ∈ mid ∨ keepBegin = true ∧ Floor Node.key seq beginKey node) ∧ node.key ≤ p ∧
        (∀ other ∈ mid, other.key ≤ p → other.key ≤ node.key) ∧ node.flagsAt p = target p)
    (floor : Floor Node.key seq endKey last) (inserts : insertEnd = true → last.key ≠ endKey)
    (ends : insertEnd = false → last.key ≠ endKey → last.flagsAt endKey = target endKey)
    (coalesces : coalesce = true → last.flagsAt endKey = target endKey) :
    Rewrites seq (overwrite seq beginKey endKey keepBegin coalesce mid
      (if insertEnd then [rangeNode endKey (last.flagsAt endKey)] else [])) beginKey endKey target := by
  have tailOrdered : Ordered Node.key (if insertEnd then [rangeNode endKey (last.flagsAt endKey)] else []) := by
    cases insertEnd <;> simp [Ordered]
  refine Overwrite.rewrites ⟨nonempty, inKeyspace, ordered_overwrite wf.ordered nonempty, fun node => mem_overwrite
    wf.ordered nonempty midOrdered tailOrdered midRange midFresh (by cases insertEnd <;> simp [rangeNode]),
    fun _ => marked, midRange, midConflicts, covers, floor, ?_⟩ wf
  cases insertEnd with
  | true =>
    have apart := inserts rfl
    refine .inl ⟨_, rfl, apart, rfl, id, ?_⟩
    exact rangeNode_flagsAt (flagsAt_op_of_lt (floor.below.lt_of_ne apart)) _ _
  | false =>
    by_cases here : last.key = endKey
    · cases coalesce with
      | true => exact .inr (.inr ⟨rfl, fun _ => rfl, coalesces rfl⟩)
      | false => exact .inr (.inl ⟨rfl, rfl, here⟩)
    · exact .inr (.inr ⟨rfl, fun atEnd => absurd atEnd here, ends rfl here⟩)

theorem overwrite_const (wf : WellFormed seq) (nonempty : beginKey < endKey) (inKeyspace : endKey ≤ allKeysEnd) (flags : NodeFlags)
    (range : flags.op = false) (marked : flags.cleared = true ∨ flags.unreadable = true) {first last : Node}
    (firstFloor : Floor Node.key seq beginKey first) (lastFloor : Floor Node.key seq endKey last)
    (begins : insertBegin = true ↔ first.flagsAt beginKey ≠ flags)
    (ends : insertEnd = true ↔ last.flagsAt endKey ≠ flags ∧ last.key ≠ endKey)
    (coalesces : coalesce = true → last.flagsAt endKey = flags) :
    Rewrites seq (overwrite seq beginKey endKey (!insertBegin) coalesce
        (if insertBegin then [rangeNode beginKey flags] else [])
        (if insertEnd then [rangeNode endKey (last.flagsAt endKey)] else [])) beginKey endKey fun _ => flags := by
  refine overwrite_range wf nonempty inKeyspace ?marked ?ordered ?range ?fresh ?conflicts ?covers lastFloor
    (fun inserted => (ends.mp inserted).2) ?ends coalesces
  case marked =>
    rintro rfl
    simp at marked
  case ordered => cases insertBegin <;> simp [Ordered]
  case range => cases insertBegin <;> simp [rangeNode, nonempty]
  case fresh => cases insertBegin <;> simp
  case conflicts => cases insertBegin <;> simp [rangeNode]
  case covers =>
    intro p late
    cases insertBegin with
    | true =>
      exact ⟨rangeNode beginKey flags, .inl List.mem_cons_self, late, by simp,
        rangeNode_flagsAt range beginKey p⟩
    | false =>
      have same : first.flagsAt beginKey = flags := by simpa using begins
      refine ⟨first, .inr ⟨rfl, firstFloor⟩, firstFloor.below.trans late, by simp, ?_⟩
      rw [flagsAt_later (same ▸ range) firstFloor.below late, same]
  case ends =>
    intro absent apart
    by_contra differs
    exact Bool.false_ne_true (absent.symm.trans (ends.mpr ⟨differs, apart⟩))

theorem replaceRange_eq_overwrite {beginNode endNode : Node} :
    replaceRange seq beginKey endKey insertBegin insertEnd coalesce beginNode endNode =
      overwrite seq beginKey endKey (!insertBegin) coalesce
        (if insertBegin then [beginNode] else []) (if insertEnd then [endNode] else []) := by
  cases insertBegin <;> cases insertEnd <;> rfl

theorem endNode_eq {n : Node} {it : NodeIter} (here : NodeIter.At seq p e n it) :
    { key := p, followingCleared := it.isClearedRange, followingConflict := it.isConflictRange,
      isConflict := it.isConflictRange, followingUnreadable := it.isUnreadable,
      isUnreadable := it.isUnreadable } = rangeNode p (e.flagsAt p) := by
  rw [here.isClearedRange_eq, here.isConflictRange_eq, here.isUnreadable_eq]
  rfl

theorem applyClear_rewrites (wf : WellFormed seq) (nonempty : beginKey < endKey) (inKeyspace : endKey ≤ allKeysEnd) :
    Rewrites seq (applyClear seq beginKey endKey true) beginKey endKey
      fun _ => { op := false, cleared := true, conflict := true, unreadable := false } := by
  have inside : endKey < afterAllKeys := inKeyspace.trans_lt allKeysEnd_lt_afterAllKeys
  obtain ⟨first, n, here⟩ := NodeIter.skip_at wf (nonempty.trans inside) { s := seq } rfl
  obtain ⟨last, n', there⟩ := here.moveTo wf nonempty inside
  have firstFloor := here.floor wf
  have lastFloor := there.floor wf
  simp only [applyClear, Bool.not_true, Bool.false_eq_true, ↓reduceIte]
  rw [endNode_eq there, replaceRange_eq_overwrite]
  refine overwrite_const wf nonempty inKeyspace
    { op := false, cleared := true, conflict := true, unreadable := false } rfl (.inl rfl)
    firstFloor lastFloor ?begins ?ends ?coalesces
  case begins =>
    rw [here.isClearedRange_eq, here.isConflictRange_eq, here.isUnreadable_eq]
    have consistent := first.flagsAt_cleared (p := beginKey)
    generalize first.flagsAt beginKey = flags at consistent ⊢
    rcases flags with ⟨_ | _, _ | _, _ | _, _ | _⟩ <;> simp_all
  case ends =>
    rw [Bool.and_eq_true, there.no_node_iff, there.isUnmodifiedRange_eq, there.isConflictRange_eq,
      there.isUnreadable_eq]
    refine and_congr_left fun apart => ?_
    have range := flagsAt_op_of_lt (lastFloor.below.lt_of_ne apart)
    generalize last.flagsAt endKey = flags at range ⊢
    rcases flags with ⟨_ | _, _ | _, _ | _, _ | _⟩ <;> simp_all
  case coalesces =>
    rw [there.isClearedRange_eq, there.isConflictRange_eq, there.isUnreadable_eq]
    have consistent := last.flagsAt_cleared (p := endKey)
    generalize last.flagsAt endKey = flags at consistent ⊢
    rcases flags with ⟨_ | _, _ | _, _ | _, _ | _⟩ <;> simp_all

theorem applyUnreadableRange_rewrites (wf : WellFormed seq) (nonempty : beginKey < endKey)
    (inKeyspace : endKey ≤ allKeysEnd) :
    Rewrites seq (applyUnreadableRange seq beginKey endKey) beginKey endKey
      fun _ => { op := false, cleared := false, conflict := false, unreadable := true } := by
  have inside : endKey < afterAllKeys := inKeyspace.trans_lt allKeysEnd_lt_afterAllKeys
  obtain ⟨first, n, here⟩ := NodeIter.skip_at wf (nonempty.trans inside) { s := seq } rfl
  obtain ⟨last, n', there⟩ := here.moveTo wf nonempty inside
  have firstFloor := here.floor wf
  have lastFloor := there.floor wf
  simp only [applyUnreadableRange]
  rw [endNode_eq there, replaceRange_eq_overwrite]
  refine overwrite_const wf nonempty inKeyspace
    { op := false, cleared := false, conflict := false, unreadable := true } rfl (.inr rfl)
    firstFloor lastFloor ?begins ?ends ?coalesces
  case begins =>
    rw [here.isUnmodifiedRange_eq, here.isConflictRange_eq, here.isUnreadable_eq]
    generalize first.flagsAt beginKey = flags
    rcases flags with ⟨_ | _, _ | _, _ | _, _ | _⟩ <;> simp
  case ends =>
    rw [Bool.and_eq_true, there.no_node_iff, there.isClearedRange_eq, there.isConflictRange_eq,
      there.isUnreadable_eq]
    refine and_congr_left fun apart => ?_
    have range := flagsAt_op_of_lt (lastFloor.below.lt_of_ne apart)
    generalize last.flagsAt endKey = flags at range ⊢
    rcases flags with ⟨_ | _, _ | _, _ | _, _ | _⟩ <;> simp_all
  case coalesces =>
    rw [there.isUnmodifiedRange_eq, there.isConflictRange_eq, there.isUnreadable_eq]
    generalize last.flagsAt endKey = flags
    rcases flags with ⟨_ | _, _ | _, _ | _, _ | _⟩ <;> simp

/-! ## Writing one key -/

theorem applyMutate_eq (wf : WellFormed seq) (inside : key < allKeysEnd) (floor : Floor Node.key seq key e)
    (addConflict versionstamp : Bool) :
    applyMutate seq key addConflict versionstamp =
      put Node.key (mutatedEntry key e (!e.op || e.key != key) addConflict versionstamp) seq := by
  obtain ⟨lower, n, upper, split, index, above⟩ :=
    wf.floor_split floor (inside.trans allKeysEnd_lt_afterAllKeys)
  have ordered := wf.ordered
  rw [split] at ordered
  have entry : seq.getD lower.length default = e := by simp [split]
  have room : ¬ seq.length < lower.length + 2 := by
    simp only [split, List.length_append, List.length_cons]
    omega
  simp only [applyMutate, index, Nat.add_sub_cancel, entry, if_neg room]
  by_cases same : e.key = key
  · rw [if_pos (by simp [same]), split, set_append_cons rfl]
    simp only [same, bne_self_eq_false, beq_self_eq_true, Bool.not_true]
    exact ordered.set_eq_put (by simp [same, mutatedEntry])
  · have apart : (e.key == key) = false := by simp [same]
    rw [if_neg (by simp [same])]
    simp only [apart, bne, Bool.not_false]
    have around : lower ++ e :: n :: upper = (lower ++ [e]) ++ n :: upper := by simp
    rw [split, around, insertAt_append (by simp)]
    have below := floor.below.lt_of_ne same
    exact insert_eq_put (List.forall_mem_append.mpr ⟨fun other inLower => (ordered.around.1 other inLower).trans below,
      List.forall_mem_singleton.mpr below⟩) above

theorem mutatedEntry_flagsAt (key : Key) (e : Node) (addConflict versionstamp : Bool) :
    (mutatedEntry key e (!e.op || e.key != key) addConflict versionstamp).flagsAt key =
      { op := true, cleared := false, conflict := (e.flagsAt key).conflict || addConflict,
        unreadable := (e.flagsAt key).unreadable || versionstamp } := by
  unfold flagsAt mutatedEntry
  by_cases same : e.key = key
  · cases e.op <;> simp [same, Bool.or_comm]
  · cases e.op <;> simp [same, Bool.or_comm]

private theorem mutatedEntry_flagsAt_later (begins : e.key ≤ key) (past : key < p) :
    (mutatedEntry key e offset addConflict versionstamp).flagsAt p = e.flagsAt p := by
  rw [flagsAt_of_ne fun _ => (begins.trans_lt past).ne]
  exact flagsAt_of_ne fun _ => past.ne

private theorem mutatedEntry_conflicts (conflicts : e.followingConflict = true → e.isConflict = true) :
    (mutatedEntry key e offset addConflict versionstamp).followingConflict = true →
      (mutatedEntry key e offset addConflict versionstamp).isConflict = true := by
  simp only [mutatedEntry]
  intro following
  cases offset <;> simp [following, conflicts following]

/-- Putting a node at a key changes that key alone when the node hands on the
flags its floor gave to the keys after it. -/
theorem put_overwrite (wf : WellFormed seq) (node : Node) (inside : node.key < allKeysEnd)
    (conflicts : node.followingConflict = true → node.isConflict = true)
    (floor : Floor Node.key seq node.key e) (later : ∀ p, node.key < p → node.flagsAt p = e.flagsAt p) :
    ∃ old, Overwrite seq (put Node.key node seq) node.key (keyAfter node.key) false false [node] []
      node.flagsAt old := by
  have past := lt_keyAfter node.key
  have wipe : ∀ old, Floor Node.key seq (keyAfter node.key) old →
      (old.key = keyAfter node.key ∨
        old.key ≠ keyAfter node.key ∧ old.flagsAt (keyAfter node.key) = node.flagsAt (keyAfter node.key)) →
      Overwrite seq (put Node.key node seq) node.key (keyAfter node.key) false false [node] []
        node.flagsAt old := by
    intro old oldFloor resumes
    refine ⟨past, keyAfter_le_iff.mpr inside, wf.ordered.put node, ?members, by simp, by simp [past],
      by simpa using conflicts, ?covers, oldFloor, ?resumes⟩
    case members =>
      intro other
      have apart : other.key ≠ node.key ↔ other.key < node.key ∨ keyAfter node.key ≤ other.key := by
        rw [keyAfter_le_iff, ne_iff_lt_or_gt]
      simp [mem_put, apart, le_iff_lt_or_eq, eq_comm]
    case covers =>
      intro p late
      exact ⟨node, .inl List.mem_cons_self, late, by simp, rfl⟩
    case resumes =>
      rcases resumes with here | ⟨apart, same⟩
      · exact .inr (.inl ⟨rfl, rfl, here⟩)
      · exact .inr (.inr ⟨rfl, fun here => absurd here apart, same⟩)
  by_cases next : ∃ other ∈ seq, other.key = keyAfter node.key
  · obtain ⟨other, member, atNext⟩ := next
    exact ⟨other, wipe other ⟨member, atNext.le, fun _ _ below => below.trans_eq atNext.symm⟩ (.inl atNext)⟩
  · refine ⟨e, wipe e ⟨floor.member, floor.below.trans past.le, ?_⟩
      (.inr ⟨(floor.below.trans_lt past).ne, (later _ past).symm⟩)⟩
    intro other member below
    exact floor.greatest other member
      (lt_keyAfter_iff.mp (below.lt_of_ne fun same => next ⟨other, member, same⟩))

/-- A write gives its key an operation and adds to its conflict and unreadable
flags. No other key changes. -/
theorem applyMutate_rewrites (wf : WellFormed seq) (inside : key < allKeysEnd) (addConflict versionstamp : Bool) :
    Rewrites seq (applyMutate seq key addConflict versionstamp) key (keyAfter key)
      fun _ => { op := true, cleared := false, conflict := (denote seq key).conflict || addConflict,
                 unreadable := (denote seq key).unreadable || versionstamp } := by
  obtain ⟨e, floor⟩ := wf.exists_floor key
  rw [applyMutate_eq wf inside floor, wf.denote_eq floor, ← mutatedEntry_flagsAt key e]
  obtain ⟨old, wipe⟩ := put_overwrite wf
    (mutatedEntry key e (!e.op || e.key != key) addConflict versionstamp) inside
    (mutatedEntry_conflicts (wf.conflicts e floor.member)) floor
    fun p past => mutatedEntry_flagsAt_later floor.below past
  refine (wipe.rewrites wf).congr fun p late early => ?_
  rw [le_antisymm (lt_keyAfter_iff.mp early) late]
  rfl

end FdbGo.Client
