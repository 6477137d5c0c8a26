import FdbGo.Client.Cache
import FdbGo.Client.StoreAgreement

/-! Runs of calls on the read-your-writes cache. Every version keeps its stores in
agreement, and a pinned version reads the same until its last pin is released. -/

set_option autoImplicit false

namespace FdbGo.Client

open Foundation RywWrites

/-! ## Calls -/

/-- A call on the cache: a write, a pin or its release, or an access that starts the
live version, orders the entries of a version or builds its nodes. -/
inductive CacheCall where
  | set (key : Key) (value : Bytes) (addConflict : Bool)
  | clear (key : Key) (addConflict : Bool)
  | clearRange (beginKey endKey : Key) (addConflict : Bool)
  | atomic (op : MutationType) (key : Key) (param : Bytes) (addConflict : Bool)
  | addConflictRange (beginKey endKey : Key)
  | pin
  | pinForCommit
  | unpin (a : Nat)
  | live
  | order (a : Nat)
  | build (a : Nat)
  | reset
  deriving DecidableEq, Repr

/-- The keys are below the end of the keyspace, the ranges are not empty and the atomic
operations are not versionstamped. -/
def CacheCall.Legal : CacheCall → Prop
  | .set key _ _ => key < allKeysEnd
  | .clear key _ => key < allKeysEnd
  | .clearRange beginKey endKey _ => beginKey < endKey ∧ endKey ≤ allKeysEnd
  | .atomic op key _ _ =>
    isAtomicOp op = true ∧ isUnresolvedVersionstamp op = false ∧ key < allKeysEnd
  | _ => True

instance : (call : CacheCall) → Decidable call.Legal
  | .set key _ _ | .clear key _ => inferInstanceAs (Decidable (key < allKeysEnd))
  | .clearRange beginKey endKey _ =>
    inferInstanceAs (Decidable (beginKey < endKey ∧ endKey ≤ allKeysEnd))
  | .atomic op key _ _ => inferInstanceAs (Decidable
      (isAtomicOp op = true ∧ isUnresolvedVersionstamp op = false ∧ key < allKeysEnd))
  | .addConflictRange _ _ | .pin | .pinForCommit | .unpin _ | .live | .order _ | .build _ | .reset =>
    .isTrue trivial

namespace RywCache

variable {sort : List NodeOp → List NodeOp} {c c' : RywCache}

def step (sort : List NodeOp → List NodeOp) (c : RywCache) : CacheCall → Option RywCache
  | .set key value addConflict => some (c.setWith key value addConflict)
  | .clear key addConflict => some (c.clearWith key addConflict)
  | .clearRange beginKey endKey addConflict => some (c.clearRangeWith beginKey endKey addConflict)
  | .atomic op key param addConflict => some (c.atomicWith op key param addConflict)
  | .addConflictRange beginKey endKey => some (c.addConflictRange beginKey endKey)
  | .pin => some (c.pinWritesLocked sort)
  | .pinForCommit => some c.pinWritesForCommitLocked
  | .unpin a => c.unpinWritesLocked a
  | .live => some c.liveLocked.1
  | .order a => some (c.store a (c.version a).ensureSorted)
  | .build a => some (c.store a { c.version a with nodes := (c.version a).nodes.build sort })
  | .reset => some c.resetWritesLocked

/-- The calls in order; a release of a pin that is not held ends the run. -/
def run (sort : List NodeOp → List NodeOp) (c : RywCache) (calls : List CacheCall) : Option RywCache :=
  calls.foldlM (step sort) c

def live (c : RywCache) : RywWrites := c.liveLocked.1.version c.liveLocked.2

/-! ## Addresses -/

theorem version_store (a b : Nat) (w : RywWrites) :
    (c.store a w).version b = if b = a ∧ a < c.heap.length then w else c.version b := by
  unfold version store
  by_cases same : b = a
  · by_cases inside : a < c.heap.length
    · simp [same, inside, List.getD_eq_getElem?_getD]
    · simp [same, inside, List.getD_eq_getElem?_getD]
  · simp [same, List.getD_eq_getElem?_getD, List.getElem?_set_ne (Ne.symm same)]

theorem version_append (b : Nat) (w : RywWrites) (address : Option Nat) :
    version { heap := c.heap ++ [w], w := address } b = if b = c.heap.length then w else c.version b := by
  unfold version
  rw [List.getD_eq_getElem?_getD, List.getD_eq_getElem?_getD, List.getElem?_append]
  split
  case isTrue inside => rw [if_neg (Nat.ne_of_lt inside)]
  case isFalse outside =>
    by_cases last : b = c.heap.length
    · simp [last]
    · have beyond : b - c.heap.length ≠ 0 := by omega
      rw [if_neg last, List.getElem?_eq_none (by simp; omega), List.getElem?_eq_none (by omega)]

/-! ## Views -/

/-- Two versions read the same: the entries, the cleared ranges and the nodes, built or
still logged. -/
structure SameView (w w' : RywWrites) : Prop where
  entry : w'.entry = w.entry
  cleared : w'.cleared = w.cleared
  nodes : w'.nodes.nodes = w.nodes.nodes

theorem SameView.refl (w : RywWrites) : SameView w w := ⟨rfl, rfl, rfl⟩

variable {w : RywWrites} {a : Nat} {calls : List CacheCall}

theorem SameView.trans {w' w'' : RywWrites} (first : SameView w w') (second : SameView w' w'') : SameView w w'' :=
  ⟨second.entry.trans first.entry, second.cleared.trans first.cleared, second.nodes.trans first.nodes⟩

theorem SameView.agrees {w' : RywWrites} (view : SameView w w') (agrees : w.Agrees)
    (indexed : w'.Indexed) (sound : w'.nodes.Sound) : w'.Agrees :=
  agrees.congr indexed sound view.entry view.cleared view.nodes

theorem ensureSorted_view (agrees : w.Agrees) : w.ensureSorted.Agrees ∧ SameView w w.ensureSorted := by
  have view : SameView w w.ensureSorted :=
    ⟨entry_ensureSorted agrees.coherent.indexed, ensureSorted_cleared, by simp⟩
  refine ⟨view.agrees agrees agrees.coherent.indexed.ensureSorted ?_, view⟩
  simpa using agrees.sound

private theorem clone_agrees (agrees : w.Agrees) : w.clone.Agrees := by
  obtain ⟨sorted, -⟩ := ensureSorted_view agrees
  have isSorted := w.ensureSorted_isSorted
  have entry : w.clone.entry = w.ensureSorted.entry := by
    funext k
    simp [entry, clone, writeIndex, isSorted]
  refine sorted.congr ⟨fun _ => sorted.coherent.indexed.ordered isSorted, ?_⟩ ?_ entry ?_ ?_
  · intro unsorted
    exact absurd unsorted.symm Bool.false_ne_true
  · exact agrees.sound
  · simp [clone]
  · simp [clone]

private theorem build_view (sorts : SortsByKey sort) (agrees : w.Agrees) :
    RywWrites.Agrees { w with nodes := w.nodes.build sort } ∧
      SameView w { w with nodes := w.nodes.build sort } := by
  obtain ⟨built, seq⟩ := agrees.sound.build sorts
  have nodes : (w.nodes.build sort).nodes = w.nodes.nodes := by
    rw [RywNodes.nodes, if_pos built, seq]
  have view : SameView w { w with nodes := w.nodes.build sort } := ⟨rfl, rfl, nodes⟩
  refine ⟨view.agrees agrees ?_ ?_, view⟩
  · exact ⟨agrees.coherent.indexed.ordered, agrees.coherent.indexed.distinct⟩
  · exact ⟨fun _ => seq ▸ agrees.sound.wellFormed,
      fun unbuilt => absurd (built.symm.trans unbuilt).symm Bool.false_ne_true⟩

/-! ## Steps -/

structure Valid (c : RywCache) : Prop where
  agrees : ∀ a, (c.version a).Agrees
  started : 0 < c.heap.length
  live : ∀ a, c.w = some a → a < c.heap.length
  unused : c.w = none → ∀ a, (c.version a).pins = 0

theorem Valid.empty : Valid {} where
  agrees a := by
    cases a <;> exact RywWrites.Agrees.empty
  started := Nat.one_pos
  live a isLive := by simp at isLive
  unused _ a := by
    cases a <;> rfl

/-- A pinned version stays pinned and reads the same. -/
def Frame (c c' : RywCache) : Prop :=
  ∀ a, 0 < (c.version a).pins → 0 < (c'.version a).pins ∧ SameView (c.version a) (c'.version a)

theorem Frame.refl (c : RywCache) : Frame c c := fun _ pinned => ⟨pinned, .refl _⟩

theorem Frame.trans {c c' c'' : RywCache} (first : Frame c c') (second : Frame c' c'') : Frame c c'' := by
  intro a pinned
  obtain ⟨still, view⟩ := first a pinned
  obtain ⟨pinned', view'⟩ := second a still
  exact ⟨pinned', view.trans view'⟩

section

variable (valid : c.Valid)

include valid

theorem Valid.store (agrees : w.Agrees) (unused : c.w = none → w.pins = 0) : (c.store a w).Valid where
  agrees b := by
    rw [version_store]
    split
    · exact agrees
    · exact valid.agrees b
  started := by simpa [RywCache.store] using valid.started
  live b isLive := by simpa [RywCache.store] using valid.live b isLive
  unused none b := by
    rw [version_store]
    split
    · exact unused none
    · exact valid.unused none b

omit valid in
/-- A store that keeps what a pinned version reads is not seen by that version. -/
theorem Frame.store (keeps : 0 < (c.version a).pins → 0 < w.pins ∧ SameView (c.version a) w) :
    Frame c (c.store a w) := by
  intro b pinned
  rw [version_store]
  split
  case isTrue here =>
    obtain ⟨rfl, -⟩ := here
    exact keeps pinned
  case isFalse => exact ⟨pinned, .refl _⟩

theorem Valid.append (agrees : w.Agrees) : Valid { heap := c.heap ++ [w], w := some c.heap.length } where
  agrees b := by
    rw [version_append]
    split
    · exact agrees
    · exact valid.agrees b
  started := by simp
  live b isLive := by
    obtain rfl := Option.some.inj isLive
    simp
  unused none := by simp at none

omit valid in
theorem Frame.append (w : RywWrites) (address : Option Nat) : Frame c { heap := c.heap ++ [w], w := address } := by
  intro b pinned
  have inside : b ≠ c.heap.length := by
    rintro rfl
    simp [version] at pinned
  rw [version_append, if_neg inside]
  exact ⟨pinned, .refl _⟩

/-- The live version is started where there is none, and no pinned version sees it. -/
theorem liveLocked_spec : c.liveLocked.1.Valid ∧ Frame c c.liveLocked.1 ∧ c.liveLocked.1.w = some c.liveLocked.2 := by
  unfold liveLocked
  cases live : c.w with
  | some a => exact ⟨valid, .refl c, live⟩
  | none =>
    have stored : (c.store 0 {}).Valid := valid.store .empty fun _ => rfl
    have frame : Frame c (c.store 0 {}) :=
      .store fun pinned => absurd (valid.unused live 0) (Nat.ne_of_gt pinned)
    refine ⟨⟨stored.agrees, stored.started, ?_, fun none => by simp at none⟩, frame, rfl⟩
    intro a isLive
    obtain rfl := Option.some.inj isLive
    exact stored.started

theorem dropObsoleteBaseLocked_spec :
    c.dropObsoleteBaseLocked.Valid ∧ Frame c c.dropObsoleteBaseLocked ∧
      ∀ a, (c.dropObsoleteBaseLocked.version a).pins = (c.version a).pins := by
  unfold dropObsoleteBaseLocked
  split
  case isTrue obsolete =>
    have unpinned : (c.version 0).pins = 0 := by simp_all
    refine ⟨valid.store .empty fun _ => rfl, .store fun pinned => absurd unpinned (Nat.ne_of_gt pinned), ?_⟩
    intro a
    rw [version_store]
    split
    case isTrue here => rw [here.1, unpinned]
    case isFalse => rfl
  case isFalse => exact ⟨valid, .refl c, fun _ => rfl⟩

theorem mutableWritesLocked_spec :
    c.mutableWritesLocked.1.Valid ∧ Frame c c.mutableWritesLocked.1 ∧
      c.mutableWritesLocked.1.w = some c.mutableWritesLocked.2 ∧
      (c.mutableWritesLocked.1.version c.mutableWritesLocked.2).pins = 0 := by
  obtain ⟨liveValid, liveFrame, isLive⟩ := liveLocked_spec valid
  unfold mutableWritesLocked
  generalize c.liveLocked = located at liveValid liveFrame isLive
  obtain ⟨c, a⟩ := located
  dsimp only at liveValid liveFrame isLive ⊢
  split
  case isTrue pinned =>
    obtain ⟨sorted, view⟩ := ensureSorted_view (liveValid.agrees a)
    have stored : (c.store a (c.version a).ensureSorted).Valid :=
      liveValid.store sorted fun none => by simp [isLive] at none
    have frame : Frame c (c.store a (c.version a).ensureSorted) :=
      .store fun pinned => ⟨by simpa using pinned, view⟩
    have length : (c.store a (c.version a).ensureSorted).heap.length = c.heap.length := by
      simp [RywCache.store]
    have appended := stored.append (clone_agrees (liveValid.agrees a))
    rw [length] at appended
    refine ⟨appended, liveFrame.trans (frame.trans (.append _ _)), rfl, ?_⟩
    dsimp only
    rw [version_append, length, if_pos rfl]
    rfl
  case isFalse unpinned => exact ⟨liveValid, liveFrame, isLive, Nat.eq_zero_of_not_pos unpinned⟩

theorem write_spec {f : RywWrites → RywWrites}
    (keeps : ∀ w : RywWrites, w.Agrees → (f w).Agrees) : (c.write f).Valid ∧ Frame c (c.write f) := by
  obtain ⟨mutableValid, frame, isLive, unpinned⟩ := mutableWritesLocked_spec valid
  unfold RywCache.write
  generalize c.mutableWritesLocked = located at mutableValid frame isLive unpinned
  obtain ⟨m, a⟩ := located
  dsimp only at mutableValid frame isLive unpinned ⊢
  refine ⟨mutableValid.store (keeps _ (mutableValid.agrees a)) fun none => by simp [isLive] at none, ?_⟩
  exact frame.trans (.store fun pinned => absurd unpinned (Nat.ne_of_gt pinned))

theorem pinWritesForCommitLocked_spec : c.pinWritesForCommitLocked.Valid ∧ Frame c c.pinWritesForCommitLocked := by
  obtain ⟨liveValid, frame, isLive⟩ := liveLocked_spec valid
  unfold pinWritesForCommitLocked
  generalize c.liveLocked = located at liveValid frame isLive
  obtain ⟨m, a⟩ := located
  dsimp only at liveValid frame isLive ⊢
  obtain ⟨sorted, view⟩ := ensureSorted_view (liveValid.agrees a)
  generalize (m.version a).ensureSorted = w at sorted view
  have pinned : SameView w { w with pins := w.pins + 1 } := ⟨rfl, rfl, rfl⟩
  have indexed := sorted.coherent.indexed
  have agrees : RywWrites.Agrees { w with pins := w.pins + 1 } :=
    pinned.agrees sorted ⟨indexed.ordered, indexed.distinct⟩ sorted.sound
  refine ⟨liveValid.store agrees fun none => by simp [isLive] at none, ?_⟩
  exact frame.trans (.store fun _ => ⟨Nat.succ_pos _, view.trans pinned⟩)

omit valid in
theorem build_spec (sorts : SortsByKey sort) (valid : c.Valid) (a : Nat) :
    Valid (c.store a { c.version a with nodes := (c.version a).nodes.build sort }) ∧
      Frame c (c.store a { c.version a with nodes := (c.version a).nodes.build sort }) := by
  obtain ⟨agrees, view⟩ := build_view sorts (valid.agrees a)
  exact ⟨valid.store agrees fun none => valid.unused none a, .store fun pinned => ⟨pinned, view⟩⟩

omit valid in
theorem pinWritesLocked_spec (sorts : SortsByKey sort) (valid : c.Valid) :
    (c.pinWritesLocked sort).Valid ∧ Frame c (c.pinWritesLocked sort) := by
  obtain ⟨liveValid, frame, -⟩ := liveLocked_spec valid
  obtain ⟨builtValid, builtFrame⟩ := build_spec sorts liveValid c.liveLocked.2
  obtain ⟨pinnedValid, pinnedFrame⟩ := pinWritesForCommitLocked_spec builtValid
  exact ⟨pinnedValid, frame.trans (builtFrame.trans pinnedFrame)⟩

theorem order_spec (a : Nat) :
    (c.store a (c.version a).ensureSorted).Valid ∧ Frame c (c.store a (c.version a).ensureSorted) := by
  obtain ⟨agrees, view⟩ := ensureSorted_view (valid.agrees a)
  refine ⟨valid.store agrees fun none => ?_, .store fun pinned => ⟨?_, view⟩⟩
  · simpa using valid.unused none a
  · simpa using pinned

theorem resetWritesLocked_spec : c.resetWritesLocked.Valid ∧ Frame c c.resetWritesLocked := by
  unfold resetWritesLocked
  cases live : c.w with
  | none => exact ⟨valid, .refl c⟩
  | some a =>
    dsimp only
    split
    case isTrue unpinned =>
      have unpinned : (c.version a).pins = 0 := by simpa using unpinned
      obtain ⟨dropped, frame, -⟩ :=
        dropObsoleteBaseLocked_spec (valid.store (a := a) .empty fun _ => rfl)
      exact ⟨dropped, .trans (.store fun pinned => absurd unpinned (Nat.ne_of_gt pinned)) frame⟩
    case isFalse =>
      obtain ⟨dropped, frame, -⟩ := dropObsoleteBaseLocked_spec (valid.append .empty)
      exact ⟨dropped, .trans (.append _ _) frame⟩

theorem unpinWritesLocked_spec (unpinned : c.unpinWritesLocked a = some c') :
    c'.Valid ∧ ∀ b, 0 < (c'.version b).pins → SameView (c.version b) (c'.version b) := by
  unfold unpinWritesLocked at unpinned
  dsimp only at unpinned
  split at unpinned
  case isTrue => cases unpinned
  case isFalse held =>
    obtain rfl := Option.some.inj unpinned
    generalize agrees : c.version a = w at held ⊢
    have released : SameView w { w with pins := w.pins - 1 } := ⟨rfl, rfl, rfl⟩
    have before : w.Agrees := agrees ▸ valid.agrees a
    have indexed := before.coherent.indexed
    have after : RywWrites.Agrees { w with pins := w.pins - 1 } :=
      released.agrees before ⟨indexed.ordered, indexed.distinct⟩ before.sound
    have stored : (c.store a { w with pins := w.pins - 1 }).Valid := by
      refine valid.store after fun none => ?_
      have := valid.unused none a
      rw [agrees] at this
      exact absurd this held
    obtain ⟨dropped, frame, pins⟩ := dropObsoleteBaseLocked_spec stored
    refine ⟨dropped, fun b pinned => ?_⟩
    rw [pins b] at pinned
    obtain ⟨-, view⟩ := frame b pinned
    refine .trans ?_ view
    rw [version_store]
    split
    case isTrue here =>
      rw [here.1, agrees]
      exact released
    case isFalse => exact .refl _

end

/-- One call: the versions stay in agreement, and one that is pinned before and after
reads the same. -/
theorem step_spec (sorts : SortsByKey sort) (valid : c.Valid) {call : CacheCall} (legal : call.Legal)
    (stepped : c.step sort call = some c') :
    c'.Valid ∧ ∀ a, 0 < (c.version a).pins → 0 < (c'.version a).pins →
      SameView (c.version a) (c'.version a) := by
  have framed : ∀ {next : RywCache}, next.Valid ∧ Frame c next → some next = some c' →
      c'.Valid ∧ ∀ a, 0 < (c.version a).pins → 0 < (c'.version a).pins →
        SameView (c.version a) (c'.version a) := by
    intro next spec same
    obtain rfl := Option.some.inj same
    exact ⟨spec.1, fun a pinned _ => (spec.2 a pinned).2⟩
  cases call with
  | set key value addConflict =>
    exact framed (write_spec valid fun w agrees => agrees.setWith legal value addConflict) stepped
  | clear key addConflict =>
    refine framed (write_spec valid fun w agrees => ?_) stepped
    exact agrees.clears (clearWith_clears agrees.coherent.indexed key addConflict)
      (lt_keyAfter key) (keyAfter_le_iff.mpr legal)
  | clearRange beginKey endKey addConflict =>
    refine framed (write_spec valid fun w agrees => ?_) stepped
    exact agrees.clears (clearRangeWith_clears agrees.coherent.indexed legal.1 addConflict)
      legal.1 legal.2
  | atomic op key param addConflict =>
    obtain ⟨operation, resolvable, inside⟩ := legal
    exact framed (write_spec valid fun w agrees =>
      agrees.atomicWith operation resolvable inside param addConflict) stepped
  | addConflictRange beginKey endKey =>
    refine framed ?_ stepped
    unfold RywCache.addConflictRange
    cases clipped : nodeClip beginKey endKey with
    | none => exact ⟨valid, .refl c⟩
    | some range =>
      obtain ⟨nonempty, inKeyspace⟩ := nodeClip_eq_some clipped
      exact write_spec valid fun w agrees => agrees.addConflictRange nonempty inKeyspace
  | pin => exact framed (pinWritesLocked_spec sorts valid) stepped
  | pinForCommit => exact framed (pinWritesForCommitLocked_spec valid) stepped
  | unpin a =>
    obtain ⟨valid', view⟩ := unpinWritesLocked_spec valid stepped
    exact ⟨valid', fun b _ pinned => view b pinned⟩
  | live =>
    obtain ⟨liveValid, frame, -⟩ := liveLocked_spec valid
    exact framed ⟨liveValid, frame⟩ stepped
  | order a => exact framed (order_spec valid a) stepped
  | build a => exact framed (build_spec sorts valid a) stepped
  | reset => exact framed (resetWritesLocked_spec valid) stepped

/-! ## Runs -/

theorem run_cons (call : CacheCall) (calls : List CacheCall) :
    run sort c (call :: calls) = (step sort c call).bind fun next => run sort next calls := by
  rw [run, List.foldlM_cons]
  rfl

theorem run_valid (sorts : SortsByKey sort) (valid : c.Valid)
    (legal : ∀ call ∈ calls, call.Legal) (ran : run sort c calls = some c') : c'.Valid := by
  induction calls generalizing c with
  | nil =>
    obtain rfl := Option.some.inj ran
    exact valid
  | cons call calls ih =>
    rw [run_cons, Option.bind_eq_some_iff] at ran
    obtain ⟨next, stepped, rest⟩ := ran
    have nextValid := (step_spec sorts valid (legal call List.mem_cons_self) stepped).1
    exact ih nextValid (List.forall_mem_cons.mp legal).2 rest

/-- The version at `a` is pinned in every state of the run, its first and last included. -/
def PinnedDuring (sort : List NodeOp → List NodeOp) (c : RywCache) (calls : List CacheCall) (a : Nat) :
    Prop :=
  ∀ before after mid, calls = before ++ after → run sort c before = some mid → 0 < (mid.version a).pins

theorem PinnedDuring.head (pinned : PinnedDuring sort c calls a) : 0 < (c.version a).pins :=
  pinned [] calls c rfl rfl

theorem PinnedDuring.tail {call : CacheCall} {next : RywCache} (pinned : PinnedDuring sort c (call :: calls) a)
    (stepped : step sort c call = some next) : PinnedDuring sort next calls a := by
  intro before after mid split ran
  refine pinned (call :: before) after mid (by rw [split, List.cons_append]) ?_
  rw [run_cons, stepped]
  exact ran

private theorem run_view (sorts : SortsByKey sort) (valid : c.Valid)
    (legal : ∀ call ∈ calls, call.Legal) (ran : run sort c calls = some c')
    (pinned : PinnedDuring sort c calls a) : SameView (c.version a) (c'.version a) := by
  induction calls generalizing c with
  | nil =>
    obtain rfl := Option.some.inj ran
    exact .refl _
  | cons call calls ih =>
    rw [run_cons, Option.bind_eq_some_iff] at ran
    obtain ⟨next, stepped, rest⟩ := ran
    obtain ⟨nextValid, view⟩ := step_spec sorts valid (legal call List.mem_cons_self) stepped
    have later := pinned.tail stepped
    refine (view a pinned.head later.head).trans ?_
    exact ih nextValid (List.forall_mem_cons.mp legal).2 rest later

/-- After any calls on an empty cache the written keys of the live version are the
operations of its nodes, the other cleared keys are the cleared ones of its nodes, the
cleared ranges are apart, and no pending chain lies in one. A version pinned from there
on keeps its entries, cleared ranges and nodes. -/
theorem stores_agree_with_nodes (sorts : SortsByKey sort) {calls : List CacheCall}
    (legal : ∀ call ∈ calls, call.Legal) (ran : run sort {} calls = some c) :
    (∀ k, (c.live.entry k).isSome = true ↔ (denote (c.live.nodes.build sort).seq k).op = true) ∧
    (∀ k, c.live.entry k = none →
      (c.live.isCleared k = true ↔ (denote (c.live.nodes.build sort).seq k).cleared = true)) ∧
    SeparateRanges c.live.cleared ∧
    (∀ k e, c.live.entry k = some e → e.hasAtomics = true → c.live.isCleared k = false) ∧
    ∀ more c', (∀ call ∈ more, call.Legal) → run sort c more = some c' →
      ∀ a, PinnedDuring sort c more a →
        (c'.version a).entry = (c.version a).entry ∧
        (c'.version a).cleared = (c.version a).cleared ∧
        ((c'.version a).nodes.build sort).seq = ((c.version a).nodes.build sort).seq := by
  have valid := run_valid sorts .empty legal ran
  obtain ⟨liveValid, -, -⟩ := liveLocked_spec valid
  have agrees : c.live.Agrees := liveValid.agrees _
  have separate := agrees.coherent.separate
  obtain ⟨-, seq⟩ := agrees.sound.build sorts
  rw [seq]
  refine ⟨agrees.operation, fun k missing => ?_, separate, fun k e found chained => ?_, ?_⟩
  · rw [isCleared_iff separate]
    exact agrees.cleared k missing
  · rw [← Bool.not_eq_true, isCleared_iff separate]
    exact (agrees.coherent.fits k e found).pending chained
  · intro more c' legal' ran' a pinned
    have view := run_view sorts valid legal' ran' pinned
    have valid' := run_valid sorts valid legal' ran'
    obtain ⟨-, before⟩ := (valid.agrees a).sound.build sorts
    obtain ⟨-, after⟩ := (valid'.agrees a).sound.build sorts
    exact ⟨view.entry, view.cleared, by rw [before, after, view.nodes]⟩

theorem stores_agree_with_nodes_cloned :
    ∃ sort c c', run sort {} [.set [97] [1] true, .clear [98] true, .pin] = some c ∧
      run sort c [.atomic .addValue [98] [2] true] = some c' ∧
      (∀ k, (c.live.entry k).isSome = true ↔ (denote (c.live.nodes.build sort).seq k).op = true) ∧
      SeparateRanges c.live.cleared ∧ (c'.version 0).entry = (c.version 0).entry := by
  refine ⟨fun run => run.mergeSort fun a b => decide (a.beginKey ≤ b.beginKey), _, _, rfl, rfl, ?_⟩
  obtain ⟨operation, -, separate, -, keeps⟩ := stores_agree_with_nodes mergeSort_sortsByKey
    (by decide : ∀ call ∈ [.set [97] [1] true, .clear [98] true, .pin], CacheCall.Legal call) rfl
  refine ⟨operation, separate, (keeps [.atomic .addValue [98] [2] true] _ (by decide) rfl 0 ?_).1⟩
  intro before after mid split ran
  match before, split with
  | [], _ =>
    obtain rfl := Option.some.inj ran
    decide
  | [_], split =>
    obtain ⟨rfl, -⟩ := List.cons.inj split
    obtain rfl := Option.some.inj ran
    decide

end RywCache

end FdbGo.Client
