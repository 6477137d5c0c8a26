import FdbGo.Client.AtomicProperties
import FdbGo.Client.WritesProperties

/-! What a version of the write map stands for: the database as it would be with the
pending writes in it. Each operation on the map does to it what it means. -/

set_option autoImplicit false

namespace FdbGo.Client

/-- A database: the value of each key, `none` for an absent one. -/
abbrev Database := Key → Option Bytes

def RywEntry.meaning (e : RywEntry) (base : Option Bytes) : Option Bytes :=
  if e.hasAtomics then chainMeaning base e.atomics
  else if e.absent then none
  else some (existing e.value)

def RywWrites.overlay (w : RywWrites) (db : Database) : Database := fun k =>
  match w.entry k with
  | some e => e.meaning (db k)
  | none => if w.isCleared k then none else db k

namespace RywWrites

variable {w : RywWrites} (k : Key)

@[simp] theorem putEntry_cleared (e : RywEntry) : (w.putEntry k e).cleared = w.cleared := by
  unfold putEntry
  split <;> rfl

@[simp] theorem putEntry_nodes (e : RywEntry) : (w.putEntry k e).nodes = w.nodes := by
  unfold putEntry
  split <;> rfl

@[simp] theorem deleteEntry_cleared : (w.deleteEntry k).1.cleared = w.cleared := by
  unfold deleteEntry
  split <;> rfl

@[simp] theorem deleteEntry_nodes : (w.deleteEntry k).1.nodes = w.nodes := by
  unfold deleteEntry
  split <;> rfl

@[simp] theorem ensureSorted_cleared : w.ensureSorted.cleared = w.cleared := by
  unfold ensureSorted
  split <;> rfl

@[simp] theorem ensureSorted_nodes : w.ensureSorted.nodes = w.nodes := by
  unfold ensureSorted
  split <;> rfl

@[simp] theorem putEntry_pins (e : RywEntry) : (w.putEntry k e).pins = w.pins := by
  unfold putEntry
  split <;> rfl

@[simp] theorem deleteEntry_pins : (w.deleteEntry k).1.pins = w.pins := by
  unfold deleteEntry
  split <;> rfl

@[simp] theorem ensureSorted_pins : w.ensureSorted.pins = w.pins := by
  unfold ensureSorted
  split <;> rfl

theorem isCleared_iff (separate : SeparateRanges w.cleared) (k : Key) : w.isCleared k = true ↔ Covered w.cleared k :=
  separate.rangeContaining_isSome k

/-- A chain holds atomic mutations, a resolved entry has a value unless it is absent, and a
pending chain is not in a cleared range. -/
structure Fits (cleared : List KeyRange) (k : Key) (e : RywEntry) : Prop where
  chained : ∀ m ∈ e.atomics, isAtomicOp m.typ = true
  resolved : e.hasAtomics = false → (e.absent = true ↔ e.value = none)
  pending : e.hasAtomics = true → ¬ Covered cleared k

/-- The stores of a version are in order and do not contradict each other. -/
structure Coherent (w : RywWrites) : Prop where
  indexed : w.Indexed
  separate : SeparateRanges w.cleared
  fits : ∀ k e, w.entry k = some e → Fits w.cleared k e

theorem Coherent.empty : Coherent {} where
  indexed := Indexed.empty
  separate := SeparateRanges.nil
  fits k e found := by simp [entry] at found

variable {addConflict : Bool} {w' : RywWrites} {e : RywEntry}

theorem Coherent.putEntry (coherent : w.Coherent) {k : Key} (fits : Fits w.cleared k e) : (w.putEntry k e).Coherent where
  indexed := coherent.indexed.putEntry k e
  separate := by
    rw [putEntry_cleared]
    exact coherent.separate
  fits other found := by
    rw [entry_putEntry coherent.indexed, putEntry_cleared]
    by_cases same : other = k
    · rw [same, Function.update_self]
      rintro ⟨⟩
      exact fits
    · rw [Function.update_of_ne same]
      exact coherent.fits other found

theorem overlay_putEntry (coherent : w.Coherent) (k : Key) (e : RywEntry) (db : Database) :
    (w.putEntry k e).overlay db = Function.update (w.overlay db) k (e.meaning (db k)) := by
  funext other
  unfold overlay
  rw [entry_putEntry coherent.indexed, isCleared, putEntry_cleared]
  by_cases same : other = k
  · rw [same, Function.update_self, Function.update_self]
  · rw [Function.update_of_ne same, Function.update_of_ne same]
    rfl

theorem Coherent.mark (coherent : w.Coherent) (nodes : RywNodes) (keys : List Key) (ranges : List KeyRange) :
    Coherent { w with nodes := nodes, unreadableKeys := keys, unreadableRanges := ranges } :=
  ⟨⟨coherent.indexed.ordered, coherent.indexed.distinct⟩, coherent.separate, coherent.fits⟩

/-! ## Sets -/

/-- A set writes an entry, and the node of its key. -/
theorem setWith_eq (w : RywWrites) (key : Key) (value : Bytes) (addConflict : Bool) :
    w.setWith key value addConflict =
      { w with nodes := if nodeKey key then w.nodes.mutate key addConflict false else w.nodes }.putEntry key
        { value := some value, unreadable := ((w.entry key).getD {}).unreadable } := by
  unfold setWith
  cases nodeKey key <;> rfl

theorem Coherent.setWith (coherent : w.Coherent) (key : Key) (value : Bytes) (addConflict : Bool) :
    (w.setWith key value addConflict).Coherent := by
  rw [setWith_eq]
  exact (coherent.mark _ w.unreadableKeys w.unreadableRanges).putEntry ⟨by simp, by simp, by simp⟩

theorem overlay_setWith (coherent : w.Coherent) (key : Key) (value : Bytes) (addConflict : Bool) (db : Database) :
    (w.setWith key value addConflict).overlay db = Function.update (w.overlay db) key (some value) := by
  rw [setWith_eq, overlay_putEntry (coherent.mark _ w.unreadableKeys w.unreadableRanges)]
  rfl

/-! ## Clears -/

structure Clears (w w' : RywWrites) (b e : Key) (addConflict : Bool) : Prop where
  indexed : w'.Indexed
  entry : ∀ k, w'.entry k = if b ≤ k ∧ k < e then none else w.entry k
  cleared : w'.cleared = addRangeOwned w.cleared b e
  nodes : w'.nodes = (w.clearNodes b e addConflict).nodes
  pins : w'.pins = w.pins

variable {b : Key} {op : MutationType}

/-- A clear keeps the version coherent. -/
theorem Clears.coherent {e : Key} (clears : Clears w w' b e addConflict) (coherent : w.Coherent) (nonempty : b < e) :
    w'.Coherent := by
  obtain ⟨separate, covered⟩ := coherent.separate.addRangeOwned_spec nonempty
  rw [← clears.cleared] at separate covered
  refine ⟨clears.indexed, separate, fun k found => ?_⟩
  rw [clears.entry k]
  split
  case isTrue => simp
  case isFalse outside =>
    intro isEntry
    obtain ⟨chained, resolved, pending⟩ := coherent.fits k found isEntry
    exact ⟨chained, resolved, fun hasAtomics nowCovered => ((covered k).mp nowCovered).elim (pending hasAtomics) outside⟩

theorem Clears.overlay {e : Key} (clears : Clears w w' b e addConflict) (coherent : w.Coherent) (nonempty : b < e)
    (db : Database) (k : Key) : w'.overlay db k = if b ≤ k ∧ k < e then none else w.overlay db k := by
  obtain ⟨-, covered⟩ := coherent.separate.addRangeOwned_spec nonempty
  have cleared : w'.isCleared k = true ↔ w.isCleared k = true ∨ b ≤ k ∧ k < e := by
    rw [isCleared_iff (clears.coherent coherent nonempty).separate, isCleared_iff coherent.separate,
      clears.cleared, covered]
  unfold RywWrites.overlay
  rw [clears.entry k]
  by_cases inside : b ≤ k ∧ k < e
  · rw [if_pos inside, if_pos inside, cleared.mpr (.inr inside)]
    rfl
  · have same : w'.isCleared k = w.isCleared k := by
      rw [Bool.eq_iff_iff, cleared, or_iff_left inside]
    rw [if_neg inside, if_neg inside, same]

theorem clearNodes_eq (w : RywWrites) (b e : Key) (addConflict : Bool) :
    ∃ nodes, w.clearNodes b e addConflict = { w with nodes := nodes } := by
  unfold clearNodes
  split
  case h_1 => exact ⟨_, rfl⟩
  case h_2 => exact ⟨w.nodes, rfl⟩

private theorem deleteEntries_frame (indexed : w.Indexed) {e : Key} (nonempty : b < e) :
    (w.deleteEntries b e).cleared = w.cleared ∧ (w.deleteEntries b e).nodes = w.nodes ∧
      (w.deleteEntries b e).pins = w.pins := by
  by_cases written : w.numWrites > 0
  · obtain ⟨keys, deleted⟩ := deleteEntries_eq indexed nonempty written
    rw [deleted]
    exact ⟨ensureSorted_cleared, ensureSorted_nodes, ensureSorted_pins⟩
  · rw [(deleteEntries_none written).1]
    exact ⟨rfl, rfl, rfl⟩

theorem clearRangeWith_clears (indexed : w.Indexed) {e : Key} (nonempty : b < e) (addConflict : Bool) :
    Clears w (w.clearRangeWith b e addConflict) b e addConflict := by
  obtain ⟨nodes, marked⟩ := w.clearNodes_eq b e addConflict
  have indexed' : Indexed { w with nodes := nodes } := ⟨indexed.ordered, indexed.distinct⟩
  have deleted := indexed'.deleteEntries nonempty
  obtain ⟨cleared, sameNodes, pins⟩ := deleteEntries_frame indexed' nonempty
  rw [clearRangeWith, marked]
  exact ⟨⟨deleted.ordered, deleted.distinct⟩, entry_deleteEntries indexed' nonempty,
    congrArg (addRangeOwned · b e) cleared, by rw [marked]; exact sameNodes, pins⟩

theorem clearWith_clears (indexed : w.Indexed) (key : Key) (addConflict : Bool) :
    Clears w (w.clearWith key addConflict) key (keyAfter key) addConflict := by
  obtain ⟨nodes, marked⟩ := w.clearNodes_eq key (keyAfter key) addConflict
  have indexed' : Indexed { w with nodes := nodes } := ⟨indexed.ordered, indexed.distinct⟩
  have deleted := indexed'.deleteEntry key
  have entries : ∀ k, ({ w with nodes := nodes }.deleteEntry key).1.entry k =
      if key ≤ k ∧ k < keyAfter key then none else w.entry k := by
    intro k
    rw [entry_deleteEntry indexed']
    simp only [within_keyAfter_iff]
    by_cases same : k = key
    · rw [same, Function.update_self, if_pos rfl]
    · rw [Function.update_of_ne same, if_neg same]
      rfl
  have cleared := congrArg (addRangeOwned · key (keyAfter key))
    (deleteEntry_cleared (w := { w with nodes := nodes }) key)
  have sameNodes := deleteEntry_nodes (w := { w with nodes := nodes }) key
  have pins := deleteEntry_pins (w := { w with nodes := nodes }) key
  rw [clearWith, marked]
  dsimp only
  split
  case isTrue | isFalse =>
    exact ⟨⟨deleted.ordered, deleted.distinct⟩, entries, cleared, by rw [marked]; exact sameNodes, pins⟩

/-! ## Atomic mutations -/

theorem foldedEntry_hasAtomics (e : RywEntry) (op : MutationType) (param : Bytes) :
    (foldedEntry e op param).hasAtomics = e.hasAtomics := by
  unfold foldedEntry
  split <;> rfl

private theorem foldedEntry_atomics (e : RywEntry) (op : MutationType) (param : Bytes) :
    (foldedEntry e op param).atomics = e.atomics := by
  unfold foldedEntry
  split <;> rfl

private theorem foldedEntry_absent (e : RywEntry) (op : MutationType) (param : Bytes) :
    (foldedEntry e op param).absent = true ↔ (foldedEntry e op param).value = none := by
  unfold foldedEntry
  split <;> simp

private theorem foldedEntry_meaning (plain : e.hasAtomics = false) (op : MutationType) (param : Bytes) (base : Option Bytes) :
    (foldedEntry e op param).meaning base = atomicMeaning op param e.value := by
  unfold RywEntry.meaning atomicMeaning
  rw [foldedEntry_hasAtomics, plain, if_neg Bool.false_ne_true]
  unfold foldedEntry
  cases applyAtomic op e.value param with
  | mk value removed => cases removed <;> rfl

/-- An atomic mutation folds into a value that is known, or joins a chain. -/
theorem atomicEntry_cases (coherent : w.Coherent) (resolvable : isUnresolvedVersionstamp op = false) (key : Key)
    (param : Bytes) (addConflict : Bool) :
    ∃ e, (∀ m ∈ e.atomics, isAtomicOp m.typ = true) ∧
      (e.hasAtomics = false ∧ w.atomicEntry op key param addConflict = foldedEntry e op param ∧
          (∀ db, w.overlay db key = e.value) ∨
        w.atomicEntry op key param addConflict =
            { e with hasAtomics := true, atomics := coalesceOverAtomics e.atomics { typ := op, param } } ∧
          ¬ Covered w.cleared key ∧ ∀ db, w.overlay db key = chainMeaning (db key) e.atomics) := by
  unfold atomicEntry overlay
  cases found : w.entry key with
  | none =>
    cases cleared : w.isCleared key with
    | true =>
      refine ⟨{ nodeConflict := false || (addConflict && nodeKey key) }, by simp, .inl ⟨rfl, ?_, fun _ => rfl⟩⟩
      simp [resolvable]
    | false =>
      refine ⟨{ nodeConflict := false || (addConflict && nodeKey key) }, by simp, .inr ⟨?_, fun covered => ?_, fun _ => rfl⟩⟩
      · simp [resolvable]
      · rw [(isCleared_iff coherent.separate key).mpr covered] at cleared
        exact absurd cleared.symm Bool.false_ne_true
  | some e =>
    obtain ⟨mutations, resolved, pending⟩ := coherent.fits key e found
    cases chained : e.hasAtomics with
    | false =>
      refine ⟨{ e with nodeConflict := e.nodeConflict || (addConflict && nodeKey key) }, mutations,
        .inl ⟨chained, by simp [resolvable, chained], fun db => ?_⟩⟩
      have absent := resolved chained
      dsimp only [RywEntry.meaning]
      cases isAbsent : e.absent with
      | true => simp [chained, absent.mp isAbsent]
      | false =>
        cases isValue : e.value with
        | none => exact absurd (absent.mpr isValue) (by simp [isAbsent])
        | some v => simp [chained]
    | true =>
      refine ⟨{ e with nodeConflict := e.nodeConflict || (addConflict && nodeKey key), value := none }, mutations,
        .inr ⟨by simp [resolvable, chained], pending chained, fun db => ?_⟩⟩
      simp [RywEntry.meaning, chained]

private theorem atomicEntry_fits (coherent : w.Coherent) (operation : isAtomicOp op = true)
    (resolvable : isUnresolvedVersionstamp op = false) (key : Key) (param : Bytes) (addConflict : Bool) :
    Fits w.cleared key (w.atomicEntry op key param addConflict) := by
  obtain ⟨e, mutations, ⟨plain, folds, -⟩ | ⟨joins, uncovered, -⟩⟩ :=
    atomicEntry_cases coherent resolvable key param addConflict
  · rw [folds]
    refine ⟨(foldedEntry_atomics e op param).symm ▸ mutations, fun _ => foldedEntry_absent e op param, fun hasAtomics => ?_⟩
    rw [foldedEntry_hasAtomics, plain] at hasAtomics
    exact absurd hasAtomics Bool.false_ne_true
  · rw [joins]
    refine ⟨fun m member => ?_, nofun, fun _ => uncovered⟩
    cases coalesceOverAtomics_types member with
    | inl isNew => exact isNew ▸ operation
    | inr inStack =>
      obtain ⟨old, oldMember, same⟩ := inStack
      exact same ▸ mutations old oldMember

private theorem atomicEntry_meaning (coherent : w.Coherent) (resolvable : op.Resolvable)
    (key : Key) (param : Bytes) (addConflict : Bool) (db : Database) :
    (w.atomicEntry op key param addConflict).meaning (db key) =
      atomicMeaning op param (w.overlay db key) := by
  obtain ⟨e, -, ⟨plain, folds, value⟩ | ⟨joins, -, value⟩⟩ :=
    atomicEntry_cases coherent resolvable.2.1 key param addConflict
  · rw [folds, foldedEntry_meaning plain, value]
  · rw [joins, value]
    exact chainMeaning_coalesce (db key) e.atomics resolvable

theorem atomicWith_eq (w : RywWrites) (resolvable : isUnresolvedVersionstamp op = false)
    (key : Key) (param : Bytes) (addConflict : Bool) :
    w.atomicWith op key param addConflict =
      { w with
        nodes := if w.mutatesNode op key addConflict then w.nodes.mutate key addConflict false
          else w.nodes }.putEntry key (w.atomicEntry op key param addConflict) := by
  simp only [atomicWith, resolvable, Bool.false_and, Bool.false_eq_true, ↓reduceIte]

theorem Coherent.atomicWith (coherent : w.Coherent) (operation : isAtomicOp op = true)
    (resolvable : isUnresolvedVersionstamp op = false) (key : Key) (param : Bytes) (addConflict : Bool) :
    (w.atomicWith op key param addConflict).Coherent := by
  rw [atomicWith_eq w resolvable]
  exact (coherent.mark _ w.unreadableKeys w.unreadableRanges).putEntry
    (atomicEntry_fits coherent operation resolvable key param addConflict)

theorem overlay_atomicWith (coherent : w.Coherent) (resolvable : op.Resolvable)
    (key : Key) (param : Bytes) (addConflict : Bool) (db : Database) :
    (w.atomicWith op key param addConflict).overlay db =
      Function.update (w.overlay db) key (atomicMeaning op param (w.overlay db key)) := by
  rw [atomicWith_eq w resolvable.2.1,
    overlay_putEntry (coherent.mark _ w.unreadableKeys w.unreadableRanges),
    atomicEntry_meaning coherent resolvable]
  rfl

end RywWrites

end FdbGo.Client
