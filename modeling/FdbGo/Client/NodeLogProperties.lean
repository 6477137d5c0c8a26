import FdbGo.Client.NodeLog
import FdbGo.Client.NodeMeaning
import Mathlib.Data.List.TakeWhile

/-! The lazy write map refines the eager one. -/

set_option autoImplicit false

namespace FdbGo.Client

open Foundation

/-! ## Writes commute -/

def Node.following (node : Node) : Bool × Bool × Bool :=
  (node.followingCleared, node.followingConflict, node.followingUnreadable)

variable {key : Key} {seq out : List Node} {cur : Option Node} {sort : List NodeOp → List NodeOp}
    {group log : List NodeOp} {state : MergeState} {second first : Key} {floor e' e : Node}

/-- The node a write leaves depends on the flags of its key and on what the key's
floor says about the keys after it. -/
theorem mutatedEntry_congr {addConflict versionstamp : Bool} (flags : e.flagsAt key = e'.flagsAt key)
    (following : e.following = e'.following) :
    mutatedEntry key e (!e.op || e.key != key) addConflict versionstamp =
      mutatedEntry key e' (!e'.op || e'.key != key) addConflict versionstamp := by
  have first := mutatedEntry_flagsAt key e addConflict versionstamp
  have second := mutatedEntry_flagsAt key e' addConflict versionstamp
  rw [flags, ← second] at first
  simp only [Node.following, Prod.mk.injEq] at following
  simp only [Node.flagsAt, mutatedEntry, and_self, ↓reduceIte, NodeFlags.mk.injEq, true_and] at first
  simp only [mutatedEntry, Node.mk.injEq, true_and]
  exact ⟨following.1, following.2.1, first.1, following.2.2, first.2⟩

/-- Putting a node that repeats its floor's following flags changes no key's
following flags. -/
theorem put_following (ordered : Ordered Node.key seq) {node base : Node}
    (baseFloor : Floor Node.key seq node.key base) (same : node.following = base.following)
    (floor : Floor Node.key seq key e) (floor' : Floor Node.key (put Node.key node seq) key e') :
    e'.following = e.following := by
  by_cases covers : node.key ≤ key ∧ e.key ≤ node.key
  · have isNode : e' = node := by
      refine floor'.unique (ordered.put node) ⟨mem_put.mpr (.inl rfl), covers.1, ?_⟩
      intro other member below
      cases mem_put.mp member with
      | inl isNode => rw [isNode]
      | inr old => exact (floor.greatest other old.1 below).trans covers.2
    have isBase : e = base := by
      refine Floor.unique ordered ⟨floor.member, covers.2, ?_⟩ baseFloor
      intro other member below
      exact floor.greatest other member (below.trans covers.1)
    rw [isNode, same, isBase]
  · have apart : e.key ≠ node.key := by
      intro atNode
      exact covers ⟨atNode ▸ floor.below, atNode.le⟩
    have isOld : e' = e := by
      refine floor'.unique (ordered.put node) ⟨mem_put.mpr (.inr ⟨floor.member, apart⟩), floor.below, ?_⟩
      intro other member below
      cases mem_put.mp member with
      | inl isNode =>
        subst isNode
        by_contra above
        exact covers ⟨below, (not_le.mp above).le⟩
      | inr old => exact floor.greatest other old.1 below
    rw [isOld]

private theorem mutatedEntry_following (key : Key) (e : Node) (offset addConflict versionstamp : Bool) :
    (mutatedEntry key e offset addConflict versionstamp).following = e.following := rfl

private theorem applyMutate_twice (wf : WellFormed seq)
    (inside : key < allKeysEnd) (addConflict versionstamp addConflict' versionstamp' : Bool) :
    applyMutate (applyMutate seq key addConflict versionstamp) key addConflict' versionstamp' =
      applyMutate seq key (addConflict || addConflict') (versionstamp || versionstamp') := by
  obtain ⟨e, floor⟩ := wf.exists_floor key
  have rewrites := applyMutate_rewrites wf inside addConflict versionstamp
  have written := applyMutate_eq wf inside floor addConflict versionstamp
  have here : Floor Node.key (applyMutate seq key addConflict versionstamp) key
      (mutatedEntry key e (!e.op || e.key != key) addConflict versionstamp) := by
    rw [written]
    exact floor_self Node.key (mem_put.mpr (.inl rfl))
  rw [applyMutate_eq rewrites.1 inside here, written, applyMutate_eq wf inside floor,
    wf.ordered.put_put]
  swap
  · rfl
  congr 1
  simp only [mutatedEntry, Bool.not_true, bne_self_eq_false, Bool.or_false, Bool.false_eq_true,
    ↓reduceIte]
  congr 1
  · rw [← Bool.or_assoc, Bool.or_comm addConflict']
  · rw [Bool.or_assoc]

private theorem applyMutate_other (wf : WellFormed seq) (firstInside : first < allKeysEnd)
    (secondInside : second < allKeysEnd) (apart : first ≠ second) {f : Node} (floor : Floor Node.key seq second f)
    (firstConflict firstStamp addConflict versionstamp : Bool) :
    applyMutate (applyMutate seq first firstConflict firstStamp) second addConflict versionstamp =
      put Node.key (mutatedEntry second f (!f.op || f.key != second) addConflict versionstamp)
        (applyMutate seq first firstConflict firstStamp) := by
  obtain ⟨e, firstFloor⟩ := wf.exists_floor first
  have rewrites := applyMutate_rewrites wf firstInside firstConflict firstStamp
  obtain ⟨f', floor'⟩ := rewrites.1.exists_floor second
  have outside : ¬ (first ≤ second ∧ second < keyAfter first) := by
    rw [lt_keyAfter_iff]
    exact fun both => apart (le_antisymm both.1 both.2)
  have flags : f'.flagsAt second = f.flagsAt second := by
    rw [← rewrites.1.denote_eq floor', rewrites.2 second, if_neg outside, wf.denote_eq floor]
  rw [applyMutate_eq rewrites.1 secondInside floor']
  rw [applyMutate_eq wf firstInside firstFloor] at floor' ⊢
  have following : f'.following = f.following :=
    put_following wf.ordered firstFloor (mutatedEntry_following _ _ _ _ _) floor floor'
  rw [mutatedEntry_congr flags following]

private theorem applyMutate_comm (wf : WellFormed seq) (firstInside : first < allKeysEnd) (secondInside : second < allKeysEnd)
    (firstConflict firstStamp secondConflict secondStamp : Bool) :
    applyMutate (applyMutate seq first firstConflict firstStamp) second secondConflict secondStamp =
      applyMutate (applyMutate seq second secondConflict secondStamp) first firstConflict
        firstStamp := by
  by_cases same : first = second
  · subst same
    rw [applyMutate_twice wf firstInside, applyMutate_twice wf firstInside,
      Bool.or_comm firstConflict, Bool.or_comm firstStamp]
  · obtain ⟨e, floor⟩ := wf.exists_floor first
    obtain ⟨f, secondFloor⟩ := wf.exists_floor second
    rw [applyMutate_other wf firstInside secondInside same secondFloor,
      applyMutate_other wf secondInside firstInside (Ne.symm same) floor,
      applyMutate_eq wf firstInside floor, applyMutate_eq wf secondInside secondFloor]
    exact wf.ordered.put_comm same

def applyWrite (seq : List Node) (op : NodeOp) : List Node :=
  applyMutate seq op.beginKey op.addConflict op.versionstamp

variable {run : List NodeOp} {rest : List Node} {op : NodeOp}

theorem applyWrite_wellFormed (wf : WellFormed seq) (inside : op.beginKey < allKeysEnd) :
    WellFormed (applyWrite seq op) :=
  (applyMutate_rewrites wf inside op.addConflict op.versionstamp).1

private theorem foldl_applyWrite_perm {sorted : List NodeOp} (perm : run.Perm sorted) (wf : WellFormed seq)
    (legal : ∀ op ∈ run, op.beginKey < allKeysEnd) : run.foldl applyWrite seq = sorted.foldl applyWrite seq := by
  refine foldl_perm WellFormed (fun op => op.beginKey < allKeysEnd)
    ?keeps ?commutes perm wf legal
  case keeps =>
    intro seq op wf inside
    exact applyWrite_wellFormed wf inside
  case commutes =>
    intro seq first second wf firstInside secondInside
    exact applyMutate_comm wf firstInside secondInside _ _ _ _

/-! ## Merging a sorted run -/

private theorem getLastD_mem (nonempty : out ≠ []) : out.getLastD default ∈ out := by
  rw [List.getLastD_eq_getLast?, List.getLast?_eq_some_getLast nonempty, Option.getD_some]
  exact List.getLast_mem nonempty

private theorem getLastD_greatest (ordered : Ordered Node.key out) : ∀ node ∈ out, node.key ≤ (out.getLastD default).key := by
  intro node member
  obtain ⟨front, last, rfl⟩ := List.eq_nil_or_concat' out |>.resolve_left (List.ne_nil_of_mem member)
  have isLast : (front ++ [last]).getLastD default = last := by simp
  rw [isLast]
  cases List.mem_append.mp member with
  | inl inFront => exact (ordered.around.1 node inFront).le
  | inr atLast => rw [List.mem_singleton.mp atLast]

private theorem foldGroup_apply (wf : WellFormed (out ++ (cur.toList ++ rest))) (below : ∀ node ∈ out, node.key < key)
    (here : ∀ node ∈ cur, node.key = key) (above : ∀ node ∈ rest, key < node.key) (same : op.beginKey = key)
    (inside : key < allKeysEnd) :
    applyWrite (out ++ (cur.toList ++ rest)) op =
      out ++ ((foldGroup key (out.getLastD default) cur op).toList ++ rest) := by
  rw [applyWrite, same]
  have outOrdered := (ordered_append.mp wf.ordered).1
  cases cur with
  | some node =>
    have atKey : node.key = key := here node rfl
    have floor : Floor Node.key (out ++ ((some node).toList ++ rest)) key node :=
      atKey ▸ floor_self Node.key (by simp)
    have offset : (!node.op || node.key != key) = !node.op := by simp [atKey]
    rw [applyMutate_eq wf inside floor, offset]
    simp only [foldGroup, Option.toList_some, List.cons_append, List.nil_append, atKey]
    exact (Ordered.set_eq_put wf.ordered atKey).symm
  | none =>
    change WellFormed (out ++ rest) at wf
    have nonempty : out ≠ [] := by
      obtain ⟨first, member, empty⟩ := wf.first
      cases List.mem_append.mp member with
      | inl inOut => exact List.ne_nil_of_mem inOut
      | inr inRest => exact absurd ((above first inRest).trans_eq empty) (not_lt_nil key)
    have last := getLastD_mem nonempty
    have floor : Floor Node.key (out ++ rest) key (out.getLastD default) := by
      refine (floor_append_iff above).mpr ⟨last, (below _ last).le, ?_⟩
      intro other member _
      exact getLastD_greatest outOrdered other member
    have offset : (!(out.getLastD default).op || (out.getLastD default).key != key) = true := by
      rw [Bool.or_eq_true, bne_iff_ne]
      exact .inr (below _ last).ne
    change applyMutate (out ++ rest) key op.addConflict op.versionstamp = _
    rw [applyMutate_eq wf inside floor, offset]
    simp only [foldGroup, Option.toList_some, List.cons_append, List.nil_append]
    exact (insert_eq_put below above).symm

theorem foldGroup_here (here : ∀ node ∈ cur, node.key = key) (op : NodeOp) :
    ∀ node ∈ foldGroup key floor cur op, node.key = key := by
  intro node member
  cases cur with
  | none =>
    cases member
    rfl
  | some old =>
    cases member
    exact here old rfl

private theorem foldGroup_fold (wf : WellFormed (out ++ (cur.toList ++ rest))) (below : ∀ node ∈ out, node.key < key)
    (here : ∀ node ∈ cur, node.key = key) (above : ∀ node ∈ rest, key < node.key)
    (same : ∀ op ∈ group, op.beginKey = key) (inside : key < allKeysEnd) :
    group.foldl applyWrite (out ++ (cur.toList ++ rest)) =
      out ++ ((group.foldl (foldGroup key (out.getLastD default)) cur).toList ++ rest) := by
  induction group generalizing cur with
  | nil => rfl
  | cons op group ih =>
    have first := same op List.mem_cons_self
    have written := foldGroup_apply wf below here above first inside
    have wf' : WellFormed (applyWrite _ op) := applyWrite_wellFormed wf (first ▸ inside)
    rw [written] at wf'
    rw [List.foldl_cons, List.foldl_cons, written]
    exact ih wf' (foldGroup_here here op) fun other member =>
      same other (List.mem_cons_of_mem op member)

/-- What `mergeMutates` keeps: its two lists are the nodes after the operations
already taken, and the operations left are sorted and lie after the nodes written
out. -/
structure MergeState.Valid (state : MergeState) : Prop where
  wf : WellFormed (state.out ++ state.rest)
  sorted : state.run.Pairwise fun first second => first.beginKey ≤ second.beginKey
  later : ∀ op ∈ state.run, ∀ node ∈ state.out, node.key < op.beginKey
  legal : ∀ op ∈ state.run, op.beginKey < allKeysEnd

private theorem nodeAt_split (ordered : Ordered Node.key rest) (past : ∀ node ∈ rest, key ≤ node.key) :
    rest = (nodeAt rest key).toList ++ (if (nodeAt rest key).isSome then rest.drop 1 else rest) ∧
      (∀ node ∈ nodeAt rest key, node.key = key) ∧
      ∀ node ∈ (if (nodeAt rest key).isSome then rest.drop 1 else rest), key < node.key := by
  cases rest with
  | nil => simp [nodeAt]
  | cons head tail =>
    have above := (List.pairwise_cons.mp ordered).1
    have headPast := past head List.mem_cons_self
    by_cases here : head.key = key
    · have found : nodeAt (head :: tail) key = some head := by simp [nodeAt, here]
      rw [found]
      refine ⟨rfl, ?_, ?_⟩
      · intro node member
        cases member
        exact here
      · intro node member
        exact here ▸ above node member
    · have absent : nodeAt (head :: tail) key = none := by simp [nodeAt, here]
      rw [absent]
      refine ⟨rfl, ?_, ?_⟩
      · intro node member
        cases member
      · intro node member
        exact (headPast.lt_of_ne (Ne.symm here)).trans_le (ordered.head_le node member)

private theorem group_split {first : NodeOp} {tail : List NodeOp}
    (sorted : (first :: tail).Pairwise fun left right => left.beginKey ≤ right.beginKey) :
    ∀ op ∈ (first :: tail).dropWhile fun op => op.beginKey == first.beginKey,
      first.beginKey < op.beginKey := by
  have least : ∀ op ∈ first :: tail, first.beginKey ≤ op.beginKey :=
    List.forall_mem_cons.mpr ⟨le_rfl, (List.pairwise_cons.mp sorted).1⟩
  generalize first.beginKey = key at least ⊢
  generalize first :: tail = run at sorted least ⊢
  induction run with
  | nil =>
    intro op member
    exact absurd member List.not_mem_nil
  | cons head rest ih =>
    obtain ⟨above, restSorted⟩ := List.pairwise_cons.mp sorted
    by_cases same : head.beginKey = key
    · rw [List.dropWhile_cons_of_pos (by simpa using same)]
      exact ih restSorted (List.forall_mem_cons.mp least).2
    · rw [List.dropWhile_cons_of_neg (by simpa using same)]
      have headPast := (least head List.mem_cons_self).lt_of_ne (Ne.symm same)
      exact List.forall_mem_cons.mpr ⟨headPast, fun op inRest => headPast.trans_le (above op inRest)⟩

private theorem foldGroup_fold_here (here : ∀ node ∈ cur, node.key = key) (group : List NodeOp) :
    ∀ node ∈ group.foldl (foldGroup key floor) cur, node.key = key := by
  induction group generalizing cur with
  | nil => exact here
  | cons op group ih => exact ih (foldGroup_here here op)

theorem MergeState.group_valid {lower upper : List Node} {remaining : List NodeOp}
    (wf : WellFormed (lower ++ (cur.toList ++ upper))) (below : ∀ node ∈ lower, node.key < key)
    (here : ∀ node ∈ cur, node.key = key) (above : ∀ node ∈ upper, key < node.key)
    (sameKey : ∀ op ∈ group, op.beginKey = key)
    (sorted : remaining.Pairwise fun first second => first.beginKey ≤ second.beginKey)
    (afterGroup : ∀ op ∈ remaining, key < op.beginKey) (legal : ∀ op ∈ remaining, op.beginKey < allKeysEnd)
    (inside : key < allKeysEnd) :
    Valid
      { out := lower ++ (group.foldl (foldGroup key (lower.getLastD default)) cur).toList,
        rest := upper, run := remaining } ∧
    (group ++ remaining).foldl applyWrite (lower ++ (cur.toList ++ upper)) =
      remaining.foldl applyWrite
        ((lower ++ (group.foldl (foldGroup key (lower.getLastD default)) cur).toList) ++ upper) := by
  have merged := foldGroup_fold wf below here above sameKey inside
  have wf' : WellFormed (group.foldl applyWrite (lower ++ (cur.toList ++ upper))) :=
    foldl_keeps WellFormed (fun op => op.beginKey < allKeysEnd)
      (fun _ _ wf inside => applyWrite_wellFormed wf inside) wf
      fun op member => (sameKey op member) ▸ inside
  rw [merged, ← List.append_assoc] at wf'
  refine ⟨⟨wf', sorted, ?_, legal⟩, ?_⟩
  · intro op inRemaining
    have opPast := afterGroup op inRemaining
    refine List.forall_mem_append.mpr ⟨fun node inLower => (below node inLower).trans opPast, fun node inGroup => ?_⟩
    rw [foldGroup_fold_here here group node (Option.mem_toList.mp inGroup)]
    exact opPast
  · rw [List.foldl_append, merged, List.append_assoc]

theorem MergeState.step_valid (valid : state.Valid) (more : state.run ≠ []) :
    state.step.Valid ∧ state.step.run.length < state.run.length ∧
      state.run.foldl applyWrite (state.out ++ state.rest) =
        state.step.run.foldl applyWrite (state.step.out ++ state.step.rest) := by
  obtain ⟨out, rest, run⟩ := state
  cases run with
  | nil => exact absurd rfl more
  | cons first tail =>
    obtain ⟨wf, sorted, later, legal⟩ := valid
    dsimp only at wf sorted later legal
    have restOrdered := (ordered_append.mp wf.ordered).2.1
    have restSplit := List.takeWhile_append_dropWhile
      (p := fun nd : Node => decide (nd.key < first.beginKey)) (l := rest)
    have runSplit := List.takeWhile_append_dropWhile
      (p := fun op : NodeOp => op.beginKey == first.beginKey) (l := first :: tail)
    have remainingSublist : ((first :: tail).dropWhile fun op => op.beginKey == first.beginKey).Sublist
        (first :: tail) := List.dropWhile_sublist _
    have taken : ∀ node ∈ out ++ rest.takeWhile fun nd => decide (nd.key < first.beginKey),
        node.key < first.beginKey := by
      refine List.forall_mem_append.mpr ⟨later first List.mem_cons_self, fun node inTaken => ?_⟩
      simpa using List.mem_takeWhile_imp inTaken
    have sameKey : ∀ op ∈ (first :: tail).takeWhile fun op => op.beginKey == first.beginKey,
        op.beginKey = first.beginKey := by
      intro op member
      simpa using List.mem_takeWhile_imp member
    obtain ⟨upperSplit, here, above⟩ := nodeAt_split
      (restOrdered.sublist (List.dropWhile_sublist fun nd => decide (nd.key < first.beginKey)))
      fun node member => restOrdered.le_of_mem_dropWhile member
    have whole := restSplit
    rw [upperSplit] at whole
    rw [← whole, ← List.append_assoc] at wf
    obtain ⟨valid', merged⟩ := group_valid wf taken here above sameKey
      (sorted.sublist remainingSublist) (group_split sorted)
      (fun op member => legal op (remainingSublist.subset member))
      (legal first List.mem_cons_self)
    refine ⟨valid', ?_, ?_⟩
    · change ((first :: tail).dropWhile fun op => op.beginKey == first.beginKey).length < _
      rw [List.dropWhile_cons_of_pos (by simp)]
      exact Nat.lt_succ_of_le (List.dropWhile_sublist _).length_le
    · rw [runSplit, List.append_assoc, whole] at merged
      exact merged

/-- A sort by key, not necessarily a stable one. -/
structure SortsByKey (sort : List NodeOp → List NodeOp) : Prop where
  perm : ∀ run, (sort run).Perm run
  sorted : ∀ run, (sort run).Pairwise fun first second => first.beginKey ≤ second.beginKey

theorem mergeSort_sortsByKey :
    SortsByKey fun run => run.mergeSort fun a b => decide (a.beginKey ≤ b.beginKey) where
  perm run := List.mergeSort_perm run _
  sorted run := mergeSort_pairwise run

theorem mergeLoop_spec (valid : state.Valid) {rounds : Nat} (enough : state.run.length ≤ rounds) {last : MergeState}
    (ends : Loop.run (fun state => !state.run.isEmpty) MergeState.step rounds state = last) :
    state.run.foldl applyWrite (state.out ++ state.rest) = last.out ++ last.rest := by
  obtain ⟨⟨-, merged⟩, stopped⟩ := Loop.run_spec
    (fun current : MergeState => current.Valid ∧ state.run.foldl applyWrite (state.out ++ state.rest) =
      current.run.foldl applyWrite (current.out ++ current.rest))
    (fun current => current.run.length) (fun current kept active => by
      have more : current.run ≠ [] := by simpa using active
      obtain ⟨valid', shorter, merged⟩ := current.step_valid kept.1 more
      exact ⟨⟨valid', kept.2.trans merged⟩, shorter⟩) ⟨valid, rfl⟩ enough ends
  have done : last.run = [] := by simpa using stopped
  rw [merged, done]
  rfl

private theorem mergeMutates_eq (sorts : SortsByKey sort) (wf : WellFormed seq) (legal : ∀ op ∈ run, op.beginKey < allKeysEnd) :
    mergeMutates sort seq run = run.foldl applyWrite seq := by
  have perm := sorts.perm run
  have start : MergeState.Valid { out := [], rest := seq, run := sort run } :=
    ⟨wf, sorts.sorted run, fun _ _ _ member => absurd member List.not_mem_nil,
      fun op member => legal op (perm.mem_iff.mp member)⟩
  rw [foldl_applyWrite_perm perm.symm wf legal]
  exact (mergeLoop_spec start perm.length_eq.le rfl).symm

/-! ## Building -/

private theorem applyOp_of_mutate (kind : op.kind = .mutate) (seq : List Node) : applyOp seq op = applyWrite seq op := by
  simp [applyOp, applyWrite, kind]

private theorem foldl_applyOp_of_mutates (kinds : ∀ op ∈ run, op.kind = .mutate) (seq : List Node) :
    run.foldl applyOp seq = run.foldl applyWrite seq := by
  induction run generalizing seq with
  | nil => rfl
  | cons op rest ih =>
    rw [List.foldl_cons, List.foldl_cons, applyOp_of_mutate (kinds op List.mem_cons_self)]
    exact ih (List.forall_mem_cons.mp kinds).2 _

theorem BuildState.step_eq (sorts : SortsByKey sort) {state : BuildState} (wf : WellFormed state.seq)
    (legal : ∀ op ∈ state.log, op.InKeyspace) (more : state.log ≠ []) :
    ∃ taken, taken ≠ [] ∧ state.log = taken ++ (state.step sort).log ∧
      (state.step sort).seq = taken.foldl applyOp state.seq := by
  obtain ⟨seq, log⟩ := state
  cases log with
  | nil => exact absurd rfl more
  | cons op rest =>
    dsimp only at wf legal
    cases kind : op.kind with
    | clear | conflict | unreadable => exact ⟨[op], by simp, by simp [step, kind], by simp [step, kind, applyOp]⟩
    | mutate =>
      have kinds : ∀ other ∈ op :: rest.takeWhile fun op => op.kind == .mutate,
          other.kind = .mutate := by
        refine List.forall_mem_cons.mpr ⟨kind, fun other inRun => ?_⟩
        simpa using List.mem_takeWhile_imp inRun
      have inside : ∀ other ∈ op :: rest.takeWhile fun op => op.kind == .mutate,
          other.beginKey < allKeysEnd := by
        intro other member
        exact (legal other (((List.takeWhile_sublist _).cons_cons op).subset member)).1
      refine ⟨op :: rest.takeWhile fun op => op.kind == .mutate, by simp, ?_, ?_⟩
      · simp [step, kind]
      · rw [foldl_applyOp_of_mutates kinds]
        simp only [step, kind]
        split
        · rfl
        · exact mergeMutates_eq sorts wf inside

theorem buildLoop_spec (sorts : SortsByKey sort)
    (state : BuildState) {last : BuildState} (wf : WellFormed state.seq) (legal : ∀ op ∈ state.log, op.InKeyspace)
    (ends : Loop.run (fun state => !state.log.isEmpty) (BuildState.step sort) state.log.length state = last) :
    last.seq = state.log.foldl applyOp state.seq := by
  obtain ⟨⟨-, -, folded⟩, stopped⟩ := Loop.run_spec
    (fun current : BuildState => WellFormed current.seq ∧ (∀ op ∈ current.log, op.InKeyspace) ∧
      state.log.foldl applyOp state.seq = current.log.foldl applyOp current.seq)
    (fun current => current.log.length) (fun current kept active => by
      obtain ⟨wf, legal, folded⟩ := kept
      have more : current.log ≠ [] := by simpa using active
      obtain ⟨taken, nonempty, split, applied⟩ := BuildState.step_eq sorts wf legal more
      rw [split] at legal
      refine ⟨⟨?_, fun op member => legal op (List.mem_append_right _ member), ?_⟩, ?_⟩
      · rw [applied]
        exact foldl_applyOp_wellFormed wf fun op member => legal op (List.mem_append_left _ member)
      · rw [folded, applied, ← List.foldl_append, ← split]
      · rw [split, List.length_append]
        exact Nat.lt_add_of_pos_left (List.length_pos_of_ne_nil nonempty)) ⟨wf, legal, rfl⟩ le_rfl ends
  have done : last.log = [] := by simpa using stopped
  rw [folded, done]
  rfl

/-- Building a log gives the nodes that applying it one operation at a time
gives. -/
theorem build_seq (sorts : SortsByKey sort) (legal : ∀ op ∈ log, op.InKeyspace) :
    RywNodes.build sort { log := log } = { seq := nodesAfter log, built := true } := by
  simp only [RywNodes.build, Bool.false_eq_true, ↓reduceIte]
  generalize ends : Loop.run _ _ _ _ = last
  rw [buildLoop_spec sorts { seq := rywNodeSentinels, log := log } wellFormed_sentinels legal ends]
  rfl

namespace RywNodes

def nodes (n : RywNodes) : List Node := if n.built then n.seq else nodesAfter n.log

variable (n : RywNodes)

private theorem nodes_mutate (key : Key) (addConflict versionstamp : Bool) :
    (n.mutate key addConflict versionstamp).nodes =
      applyMutate n.nodes key addConflict versionstamp := by
  cases built : n.built with
  | true => simp [mutate, nodes, built]
  | false => simp [mutate, nodes, built, logOp, nodesAfter, applyOp]

variable {beginKey endKey : Key}

private theorem nodes_clear (nonempty : beginKey < endKey) (addConflict : Bool) :
    (n.clear beginKey endKey addConflict).nodes = applyClear n.nodes beginKey endKey addConflict := by
  cases built : n.built with
  | true => simp [clear, nodes, built, nonempty.not_ge]
  | false => simp [clear, nodes, built, nonempty.not_ge, logOp, nodesAfter, applyOp]

private theorem nodes_addConflictRange (nonempty : beginKey < endKey) :
    (n.addConflictRange beginKey endKey).nodes = applyConflictRange n.nodes beginKey endKey := by
  cases built : n.built with
  | true => simp [addConflictRange, nodes, built, nonempty.not_ge]
  | false => simp [addConflictRange, nodes, built, nonempty.not_ge, logOp, nodesAfter, applyOp]

private theorem nodes_addUnmodifiedAndUnreadableRange (nonempty : beginKey < endKey) :
    (n.addUnmodifiedAndUnreadableRange beginKey endKey).nodes =
      applyUnreadableRange n.nodes beginKey endKey := by
  cases built : n.built with
  | true => simp [addUnmodifiedAndUnreadableRange, nodes, built, nonempty.not_ge]
  | false =>
    simp [addUnmodifiedAndUnreadableRange, nodes, built, nonempty.not_ge, logOp, nodesAfter, applyOp]

/-- Logged or applied at once, an operation does the same to the nodes. -/
theorem nodes_perform (legal : op.InKeyspace) : (n.perform op).nodes = applyOp n.nodes op := by
  unfold perform applyOp
  cases kind : op.kind with
  | mutate => exact n.nodes_mutate _ _ _
  | clear => exact n.nodes_clear (legal.2 (by simp [kind])).1 _
  | conflict => exact n.nodes_addConflictRange (legal.2 (by simp [kind])).1
  | unreadable => exact n.nodes_addUnmodifiedAndUnreadableRange (legal.2 (by simp [kind])).1

theorem perform_built (op : NodeOp) : (n.perform op).built = n.built := by
  unfold perform mutate clear addConflictRange addUnmodifiedAndUnreadableRange logOp
  cases op.kind <;> dsimp only <;> split <;> (try split) <;> rfl

theorem foldl_perform_seq {n : RywNodes} (built : n.built = true) (legal : ∀ op ∈ log, op.InKeyspace) :
    (log.foldl perform n).seq = log.foldl applyOp n.seq := by
  induction log generalizing n with
  | nil => rfl
  | cons op rest ih =>
    have builtNext : (n.perform op).built = true := (n.perform_built op).trans built
    have step := n.nodes_perform (legal op List.mem_cons_self)
    simp only [nodes, built, builtNext, ↓reduceIte] at step
    rw [List.foldl_cons, ih builtNext (List.forall_mem_cons.mp legal).2,
      step]
    rfl

end RywNodes

end FdbGo.Client
