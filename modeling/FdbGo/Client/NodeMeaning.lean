import FdbGo.Client.ClearNoConflictProperties
import FdbGo.Client.ConflictRangeProperties
import FdbGo.Foundation.Fold

/-! The meaning of every node set the mutators can reach, and of one more
mutation of it. -/

set_option autoImplicit false

namespace FdbGo.Client

open Foundation

def nodesAfter (log : List NodeOp) : List Node := log.foldl applyOp rywNodeSentinels

def NodeOp.target (op : NodeOp) (seq : List Node) (p : Key) : NodeFlags :=
  match op.kind with
  | .mutate =>
    { op := true, cleared := false, conflict := (denote seq p).conflict || op.addConflict,
      unreadable := (denote seq p).unreadable || op.versionstamp }
  | .clear => clearedFlags ((denote seq p).conflict || op.addConflict)
  | .conflict => (denote seq p).raise
  | .unreadable => { op := false, cleared := false, conflict := false, unreadable := true }

def NodeOp.upperKey (op : NodeOp) : Key :=
  if op.kind = .mutate then keyAfter op.beginKey else op.endKey

variable {seq : List Node} {target : Key → NodeFlags} {log : List NodeOp} {seq' : List Node} {beginKey endKey : Key}

theorem applyOp_rewrites (wf : WellFormed seq) {op : NodeOp} (legal : op.InKeyspace) :
    Rewrites seq (applyOp seq op) op.beginKey op.upperKey (op.target seq) := by
  obtain ⟨inside, range⟩ := legal
  unfold applyOp NodeOp.target NodeOp.upperKey
  cases kind : op.kind with
  | mutate =>
    refine (applyMutate_rewrites wf inside op.addConflict op.versionstamp).congr ?_
    intro p late early
    rw [le_antisymm (lt_keyAfter_iff.mp early) late]
  | clear =>
    obtain ⟨nonempty, inKeyspace⟩ := range (by simp [kind])
    cases op.addConflict with
    | true =>
      refine (applyClear_rewrites wf nonempty inKeyspace).congr ?_
      intro p _ _
      simp [clearedFlags]
    | false =>
      refine (applyClearNoConflict_rewrites wf nonempty inKeyspace).congr ?_
      intro p _ _
      simp
  | conflict =>
    obtain ⟨nonempty, inKeyspace⟩ := range (by simp [kind])
    exact applyConflictRange_rewrites wf nonempty inKeyspace
  | unreadable =>
    obtain ⟨nonempty, inKeyspace⟩ := range (by simp [kind])
    exact applyUnreadableRange_rewrites wf nonempty inKeyspace

theorem foldl_applyOp_wellFormed (wf : WellFormed seq) (legal : ∀ op ∈ log, op.InKeyspace) :
    WellFormed (log.foldl applyOp seq) :=
  foldl_keeps WellFormed NodeOp.InKeyspace (fun _ _ wf legal => (applyOp_rewrites wf legal).1) wf legal

theorem nodesAfter_wellFormed (legal : ∀ op ∈ log, op.InKeyspace) : WellFormed (nodesAfter log) :=
  foldl_applyOp_wellFormed wellFormed_sentinels legal

theorem denote_sentinels (p : Key) :
    denote rywNodeSentinels p = { op := false, cleared := false, conflict := false, unreadable := false } := by
  obtain ⟨e, floor⟩ := wellFormed_sentinels.exists_floor p
  rw [wellFormed_sentinels.denote_eq floor]
  have member := floor.member
  simp only [rywNodeSentinels, List.mem_cons, List.not_mem_nil, or_false] at member
  rcases member with rfl | rfl | rfl <;> rfl

/-- The node keys are strictly sorted and the three sentinels are there. -/
def SentinelsInOrder (seq : List Node) : Prop :=
  Ordered Node.key seq ∧
    ∀ key ∈ [allKeysBegin, allKeysEnd, afterAllKeys], ∃ node ∈ seq, node.key = key

theorem WellFormed.sentinelsInOrder (wf : WellFormed seq) : SentinelsInOrder seq := by
  refine ⟨wf.ordered, ?_⟩
  intro key member
  simp only [List.mem_cons, List.not_mem_nil, or_false] at member
  rcases member with rfl | rfl | rfl
  · exact wf.first
  · exact ⟨_, wf.last, rfl⟩
  · exact ⟨_, wf.after, rfl⟩

/-- The keys of `[beginKey, endKey)` get the flags `target`, all others keep
theirs, and the nodes stay in order around the sentinels. -/
def ChangesOnly (seq seq' : List Node) (beginKey endKey : Key) (target : Key → NodeFlags) : Prop :=
  SentinelsInOrder seq' ∧
    ∀ p, denote seq' p = if beginKey ≤ p ∧ p < endKey then target p else denote seq p

theorem Rewrites.changesOnly (rewrites : Rewrites seq seq' beginKey endKey target) :
    ChangesOnly seq seq' beginKey endKey target :=
  ⟨rewrites.1.sentinelsInOrder, rewrites.2⟩

/-- The pointwise meaning of every mutator, on every node set the mutators can
reach. -/
theorem mutators_meaning (log : List NodeOp) (legal : ∀ op ∈ log, op.InKeyspace) :
    SentinelsInOrder (nodesAfter log) ∧
    (∀ (key : Key) (addConflict versionstamp : Bool), key < allKeysEnd →
      SentinelsInOrder (applyMutate (nodesAfter log) key addConflict versionstamp) ∧
      ∀ p, denote (applyMutate (nodesAfter log) key addConflict versionstamp) p =
        if p = key then
          { op := true, cleared := false,
            conflict := (denote (nodesAfter log) p).conflict || addConflict,
            unreadable := (denote (nodesAfter log) p).unreadable || versionstamp }
        else denote (nodesAfter log) p) ∧
    ∀ beginKey endKey : Key, beginKey < endKey → endKey ≤ allKeysEnd →
      ChangesOnly (nodesAfter log) (applyClear (nodesAfter log) beginKey endKey true) beginKey endKey
        (fun _ => { op := false, cleared := true, conflict := true, unreadable := false }) ∧
      ChangesOnly (nodesAfter log) (applyClear (nodesAfter log) beginKey endKey false) beginKey endKey
        (fun p => { op := false, cleared := true, conflict := (denote (nodesAfter log) p).conflict,
                    unreadable := false }) ∧
      ChangesOnly (nodesAfter log) (applyConflictRange (nodesAfter log) beginKey endKey) beginKey endKey
        (fun p => { denote (nodesAfter log) p with conflict := true }) ∧
      ChangesOnly (nodesAfter log) (applyUnreadableRange (nodesAfter log) beginKey endKey) beginKey
        endKey (fun _ => { op := false, cleared := false, conflict := false, unreadable := true }) := by
  have wf := nodesAfter_wellFormed legal
  refine ⟨wf.sentinelsInOrder, ?_, ?_⟩
  · intro key addConflict versionstamp inside
    have rewrites := applyMutate_rewrites wf inside addConflict versionstamp
    refine ⟨rewrites.1.sentinelsInOrder, fun p => ?_⟩
    rw [rewrites.2 p]
    by_cases same : p = key
    · rw [if_pos (within_keyAfter_iff.mpr same), if_pos same, same]
    · rw [if_neg (mt within_keyAfter_iff.mp same), if_neg same]
  · intro beginKey endKey nonempty inKeyspace
    exact ⟨(applyClear_rewrites wf nonempty inKeyspace).changesOnly,
      (applyClearNoConflict_rewrites wf nonempty inKeyspace).changesOnly,
      (applyConflictRange_rewrites wf nonempty inKeyspace).changesOnly,
      (applyUnreadableRange_rewrites wf nonempty inKeyspace).changesOnly⟩

/-- A write over a cleared range, then a clear of that write without a conflict. -/
theorem mutators_meaning_write_in_clear :
    denote (applyClear (nodesAfter
        [{ kind := .clear, beginKey := [97], endKey := [99], addConflict := true },
         { kind := .mutate, beginKey := [98], versionstamp := true }]) [98] [98, 0] false) [98] =
      { op := false, cleared := true, conflict := true, unreadable := false } := by
  have meaning := ((mutators_meaning
    [{ kind := .clear, beginKey := [97], endKey := [99], addConflict := true },
     { kind := .mutate, beginKey := [98], versionstamp := true }] (by decide)).2.2
    [98] [98, 0] (by decide) (by decide)).2.1.2 [98]
  rw [meaning]
  decide

end FdbGo.Client
