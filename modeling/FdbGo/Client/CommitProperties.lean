import FdbGo.Client.Commit
import FdbGo.Client.Overlay

/-! A coalesced commit leaves the database that the operation log leaves. -/

set_option autoImplicit false

namespace FdbGo.Client

open Foundation Mutation RywWrites

def Mutation.apply (db : Database) (m : Mutation) : Database :=
  match m.typ with
  | .setValue => Function.update db m.key (some m.value)
  | .clearRange => fun k => if m.key ≤ k ∧ k < m.value then none else db k
  | op => Function.update db m.key (atomicMeaning op m.value (db m.key))

/-- A mutation of an operation log that is coalesced: a set, a clear of a range that is
not empty, or an atomic mutation the client can resolve. -/
def Mutation.Coalescible (m : Mutation) : Prop :=
  m.typ = .setValue ∨ (m.typ = .clearRange ∧ m.key < m.value) ∨ m.typ.Resolvable

instance (m : Mutation) : Decidable m.Coalescible := inferInstanceAs (Decidable (_ ∨ _ ∨ _))

variable {muts : List Mutation} {xs : List RywWrite} {op : MutationType} {m : Mutation}

theorem Mutation.apply_atomic (operation : isAtomicOp op = true) (db : Database) (key : Key) (value : Bytes) :
    apply db { typ := op, key := key, value := value } =
      Function.update db key (atomicMeaning op value (db key)) := by
  cases op with
  | setValue | clearRange => exact absurd operation (by decide)
  | _ => rfl

/-! ## Clears -/

private theorem apply_clear (db : Database) (b e k : Key) :
    (if b < e then [({ typ := .clearRange, key := b, value := e } : Mutation)] else []).foldl
        apply db k = if b ≤ k ∧ k < e then none else db k := by
  split
  case isTrue => rfl
  case isFalse empty =>
    rw [if_neg fun inside => empty (inside.1.trans_lt inside.2)]
    rfl

private theorem clearStretches_apply (ordered : Ordered RywWrite.key xs) {b e : Key} (above : ∀ x ∈ xs, b ≤ x.key)
    (db : Database) (k : Key) :
    (clearStretches b e xs).foldl apply db k =
      if (b ≤ k ∧ k < e) ∧ ∀ x ∈ xs, x.key ≠ k then none else db k := by
  induction xs generalizing b db with
  | nil =>
    rw [clearStretches, apply_clear]
    simp
  | cons x rest ih =>
    obtain ⟨restAbove, restOrdered⟩ := List.pairwise_cons.mp ordered
    have begins := above x List.mem_cons_self
    unfold clearStretches
    by_cases inside : x.key < e
    · have next : ∀ other ∈ rest, keyAfter x.key ≤ other.key := fun other member =>
        keyAfter_le_iff.mpr (restAbove other member)
      rw [if_pos inside, List.foldl_append, ih restOrdered next, apply_clear]
      simp only [List.forall_mem_cons, keyAfter_le_iff]
      rcases lt_trichotomy k x.key with before | here | past
      · have notRest : ∀ other ∈ rest, other.key ≠ k := fun other member =>
          (before.trans (restAbove other member)).ne'
        rw [if_neg fun stretch => stretch.1.1.not_gt before]
        exact if_congr ⟨fun both => ⟨⟨both.1, before.trans inside⟩, before.ne', notRest⟩,
          fun both => ⟨both.1.1, before⟩⟩ rfl rfl
      · rw [if_neg fun stretch => stretch.1.1.ne' here, if_neg fun stretch => stretch.2.ne here,
          if_neg fun stretch => stretch.2.1 here.symm]
      · rw [if_neg (c := b ≤ k ∧ k < x.key) fun stretch => stretch.2.not_gt past]
        exact if_congr ⟨fun both => ⟨⟨begins.trans past.le, both.1.2⟩, past.ne, both.2⟩,
          fun both => ⟨⟨past, both.1.2⟩, both.2.2⟩⟩ rfl rfl
    · rw [if_neg inside, apply_clear]
      refine if_congr ⟨fun both => ⟨both, ?_⟩, fun both => both.1⟩ rfl rfl
      rw [List.forall_mem_cons]
      have past := both.2.trans_le (not_lt.mp inside)
      exact ⟨past.ne', fun other member => (past.trans (restAbove other member)).ne'⟩

private theorem clears_apply {sorted : List RywWrite} (ordered : Ordered RywWrite.key sorted)
    (ranges : List KeyRange) (db : Database) (k : Key) :
    (ranges.flatMap fun r => clearStretches r.beginKey r.endKey
        (sorted.drop (sorted.findIdx fun x => decide (r.beginKey ≤ x.key)))).foldl apply db k =
      if Covered ranges k ∧ ∀ x ∈ sorted, x.key ≠ k then none else db k := by
  induction ranges generalizing db with
  | nil => simp [covered_nil]
  | cons r rest ih =>
    have suffix := drop_findIdx (ordered.ascending_ge r.beginKey)
    have above : ∀ x ∈ sorted.drop (sorted.findIdx fun x => decide (r.beginKey ≤ x.key)),
        r.beginKey ≤ x.key := by
      intro x member
      rw [suffix] at member
      simpa using (List.mem_filter.mp member).2
    have suffixOrdered : Ordered RywWrite.key
        (sorted.drop (sorted.findIdx fun x => decide (r.beginKey ≤ x.key))) := by
      rw [suffix]
      exact ordered.filter _
    have stretch : ((r.beginKey ≤ k ∧ k < r.endKey) ∧
          ∀ x ∈ sorted.drop (sorted.findIdx fun x => decide (r.beginKey ≤ x.key)), x.key ≠ k) ↔
        r.Covers k ∧ ∀ x ∈ sorted, x.key ≠ k := by
      rw [suffix]
      constructor
      · rintro ⟨inside, unwritten⟩
        refine ⟨inside, ?_⟩
        rintro x member rfl
        exact unwritten x (List.mem_filter.mpr ⟨member, by simpa using inside.1⟩) rfl
      · rintro ⟨inside, unwritten⟩
        exact ⟨inside, fun x member => unwritten x (List.mem_of_mem_filter member)⟩
    rw [List.flatMap_cons, List.foldl_append, ih, clearStretches_apply suffixOrdered above]
    simp only [stretch, covered_cons]
    grind

/-! ## Operations -/

private theorem chain_apply {atomics : List RywMutation} (operations : ∀ m ∈ atomics, isAtomicOp m.typ = true) (db : Database)
    (key : Key) : (atomics.map fun m => ({ typ := m.typ, key := key, value := m.param } : Mutation)).foldl
        apply db = Function.update db key (chainMeaning (db key) atomics) := by
  induction atomics generalizing db with
  | nil => exact (Function.update_eq_self key db).symm
  | cons m rest ih =>
    rw [List.map_cons, List.foldl_cons, apply_atomic (operations m List.mem_cons_self),
      ih (List.forall_mem_cons.mp operations).2, Function.update_self,
      Function.update_idem]
    rfl

theorem RywWrite.mutations_apply {x : RywWrite} (operations : ∀ m ∈ x.e.atomics, isAtomicOp m.typ = true)
    (db : Database) : x.mutations.foldl apply db = Function.update db x.key (x.e.meaning (db x.key)) := by
  unfold RywWrite.mutations RywEntry.meaning
  split
  case isTrue => exact chain_apply operations db x.key
  case isFalse =>
    split
    case isTrue =>
      funext k
      change (if x.key ≤ k ∧ k < keyAfter x.key then none else db k) = Function.update db x.key none k
      simp only [within_keyAfter_iff]
      by_cases same : k = x.key
      · rw [if_pos same, same, Function.update_self]
      · rw [if_neg same, Function.update_of_ne same]
    case isFalse => rfl

private theorem operations_apply (ordered : Ordered RywWrite.key xs)
    (operations : ∀ x ∈ xs, ∀ m ∈ x.e.atomics, isAtomicOp m.typ = true) (db : Database) :
    (∀ x ∈ xs, (xs.flatMap RywWrite.mutations).foldl apply db x.key = x.e.meaning (db x.key)) ∧
      ∀ k, (∀ x ∈ xs, x.key ≠ k) → (xs.flatMap RywWrite.mutations).foldl apply db k = db k := by
  induction xs generalizing db with
  | nil => simp
  | cons x rest ih =>
    obtain ⟨above, restOrdered⟩ := List.pairwise_cons.mp ordered
    rw [List.flatMap_cons, List.foldl_append,
      RywWrite.mutations_apply (operations x List.mem_cons_self)]
    obtain ⟨written, unwritten⟩ := ih restOrdered
      (List.forall_mem_cons.mp operations).2
      (Function.update db x.key (x.e.meaning (db x.key)))
    constructor
    · intro other member
      cases member with
      | head => rw [unwritten x.key fun later inRest => (above later inRest).ne', Function.update_self]
      | tail _ inRest => rw [written other inRest, Function.update_of_ne (above other inRest).ne']
    · intro k apart
      rw [unwritten k (List.forall_mem_cons.mp apart).2,
        Function.update_of_ne (apart x List.mem_cons_self).symm]

variable {w : RywWrites} {c : RywCache}

/-- The mutations of a commit leave the database that the version stands for. -/
theorem materializeCommit_apply (coherent : w.Coherent) (db : Database) :
    w.materializeCommit.foldl apply db = w.overlay db := by
  have sortedCase : w.ensureSorted.entries = w.ensureSorted.sorted := by
    rw [entries, if_pos w.ensureSorted_isSorted]
  have indexed := coherent.indexed.ensureSorted
  have ordered := indexed.ordered w.ensureSorted_isSorted
  have operations : ∀ x ∈ w.ensureSorted.sorted, ∀ m ∈ x.e.atomics, isAtomicOp m.typ = true := by
    intro x member
    rw [← sortedCase, mem_ensureSorted] at member
    exact (coherent.fits x.key x.e ((entry_eq_some_iff coherent.indexed).mpr member)).chained
  funext k
  unfold materializeCommit overlay
  dsimp only
  rw [List.foldl_append]
  have cleared := clears_apply ordered w.ensureSorted.cleared db
  obtain ⟨written, unwritten⟩ := operations_apply ordered operations
    ((w.ensureSorted.cleared.flatMap fun r => clearStretches r.beginKey r.endKey
      (w.ensureSorted.sorted.drop (w.ensureSorted.writeIndex r.beginKey))).foldl apply db)
  cases found : w.entry k with
  | some e =>
    rw [← entry_ensureSorted coherent.indexed, entry_eq_some_iff indexed, sortedCase] at found
    have untouched := cleared k
    rw [if_neg fun both => both.2 _ found rfl] at untouched
    exact (written _ found).trans (congrArg e.meaning untouched)
  | none =>
    rw [← entry_ensureSorted coherent.indexed, entry_eq_none_iff indexed, sortedCase] at found
    refine (unwritten k found).trans ((cleared k).trans ?_)
    rw [ensureSorted_cleared]
    refine if_congr ?_ rfl rfl
    rw [isCleared_iff coherent.separate]
    exact and_iff_left found

/-! ## The replay -/

/-- A cache that no read has pinned works on its own version. -/
structure RywCache.Solo (c : RywCache) (w : RywWrites) : Prop where
  live : c.liveLocked = ({ heap := [w], w := some 0 }, 0)
  unpinned : w.pins = 0

theorem RywCache.Solo.empty : RywCache.Solo {} {} := ⟨rfl, rfl⟩

theorem RywCache.Solo.write (solo : c.Solo w) (f : RywWrites → RywWrites) (pins : (f w).pins = w.pins) :
    (c.write f).Solo (f w) := by
  have mutable : c.mutableWritesLocked = ({ heap := [w], w := some 0 }, 0) := by
    simp [RywCache.mutableWritesLocked, solo.live, RywCache.version, solo.unpinned]
  refine ⟨?_, pins.trans solo.unpinned⟩
  rw [RywCache.write, mutable]
  rfl

theorem RywCache.replay_atomic (operation : isAtomicOp op = true) (c : RywCache) (key : Key) (value : Bytes) :
    c.replay { typ := op, key := key, value := value } = c.atomic op key value := by
  cases op with
  | setValue => exact absurd operation (by decide)
  | clearRange => exact absurd operation (by decide)
  | _ => rfl

/-- Replaying a mutation does to what the write map stands for what the mutation does. -/
theorem RywCache.Solo.replay (solo : c.Solo w) (coherent : w.Coherent) (coalescible : m.Coalescible) :
    ∃ w', (c.replay m).Solo w' ∧ w'.Coherent ∧ ∀ db, w'.overlay db = m.apply (w.overlay db) := by
  obtain ⟨typ, key, value⟩ := m
  rcases coalescible with isSet | ⟨isClear, nonempty⟩ | resolvable
  · obtain rfl : typ = .setValue := isSet
    have pins : (w.setWith key value true).pins = w.pins := by
      rw [setWith_eq, putEntry_pins]
    exact ⟨w.setWith key value true, solo.write (fun w => w.setWith key value true) pins,
      coherent.setWith key value true, overlay_setWith coherent key value true⟩
  · obtain rfl : typ = .clearRange := isClear
    have clears := clearRangeWith_clears coherent.indexed nonempty true
    refine ⟨w.clearRangeWith key value true, solo.write (fun w => w.clearRangeWith key value true) clears.pins,
      clears.coherent coherent nonempty, ?_⟩
    intro db
    funext k
    exact clears.overlay coherent nonempty db k
  · have resolvable : typ.Resolvable := resolvable
    have pins : ∀ addConflict, (w.atomicWith typ key value addConflict).pins = w.pins := by
      intro addConflict
      rw [atomicWith_eq w resolvable.2.1, putEntry_pins]
    refine ⟨w.atomicWith typ key value (typ != .setVersionstampedKey), ?_,
      coherent.atomicWith resolvable.1 resolvable.2.1 key value _, ?_⟩
    · rw [RywCache.replay_atomic resolvable.1]
      exact solo.write (fun w => w.atomicWith typ key value (typ != .setVersionstampedKey)) (pins _)
    · intro db
      rw [apply_atomic resolvable.1]
      exact overlay_atomicWith coherent resolvable key value _ db

theorem RywCache.Solo.replay_all (solo : c.Solo w) (coherent : w.Coherent) {log : List Mutation}
    (coalescible : ∀ m ∈ log, m.Coalescible) :
    ∃ w', (log.foldl RywCache.replay c).Solo w' ∧ w'.Coherent ∧
      ∀ db, w'.overlay db = log.foldl apply (w.overlay db) := by
  induction log generalizing c w with
  | nil => exact ⟨w, solo, coherent, fun _ => rfl⟩
  | cons m rest ih =>
    obtain ⟨next, nextSolo, nextCoherent, step⟩ :=
      solo.replay coherent (coalescible m List.mem_cons_self)
    obtain ⟨last, lastSolo, lastCoherent, run⟩ :=
      ih nextSolo nextCoherent (List.forall_mem_cons.mp coalescible).2
    exact ⟨last, lastSolo, lastCoherent, fun db => by rw [run, step, List.foldl_cons]⟩

/-! ## Sets in key order -/

theorem Mutation.apply_set (sets : m.typ = .setValue) (db : Database) :
    m.apply db = Function.update db m.key (some m.value) := by
  simp only [apply, sets]

private theorem lastSets_apply {out : List Mutation} (sets : ∀ m ∈ out ++ muts, m.typ = .setValue) (db : Database) :
    (lastSets out muts).foldl apply db = (out ++ muts).foldl apply db := by
  induction muts generalizing out with
  | nil => rw [lastSets, List.append_nil]
  | cons m rest ih =>
    have mSets : m.typ = .setValue := sets m (by simp)
    unfold lastSets
    cases last : out.getLast? with
    | none =>
      obtain rfl := List.getLast?_eq_none_iff.mp last
      exact ih sets
    | some top =>
      have whole : out.dropLast ++ [top] = out := List.dropLast_append_getLast? top last
      have topSets : top.typ = .setValue := sets top (by rw [← whole]; simp)
      dsimp only
      split
      case isTrue same =>
        have rest' : ∀ other ∈ (out.dropLast ++ [m]) ++ rest, other.typ = .setValue := by
          intro other member
          simp only [List.append_assoc, List.singleton_append, List.mem_append] at member
          cases member with
          | inl inOut => exact sets other (List.mem_append_left _ (List.mem_of_mem_dropLast inOut))
          | inr inRest => exact sets other (List.mem_append_right out inRest)
        rw [ih rest', ← whole]
        simp only [List.foldl_append, List.foldl_cons, List.foldl_nil, List.dropLast_concat]
        rw [apply_set mSets, apply_set mSets, apply_set topSets, same,
          Function.update_idem]
      case isFalse =>
        rw [ih (by simpa using sets)]
        simp

private theorem plainSets_sets (plain : plainSets muts = true) : ∀ m ∈ muts, m.typ = .setValue := by
  induction muts with
  | nil => simp
  | cons m rest ih =>
    cases rest with
    | nil =>
      have isSet : m.typ = .setValue := by simpa [plainSets] using plain
      simpa using isSet
    | cons next rest =>
      simp only [plainSets, Bool.and_eq_true, beq_iff_eq] at plain
      exact List.forall_mem_cons.mpr ⟨plain.1.1, ih plain.2⟩

/-- A coalesced commit leaves every database as the operation log does. -/
theorem coalesced_commit_eq_log (log : List Mutation) (coalescible : ∀ m ∈ log, m.Coalescible) (db : Database) :
    (coalesceCommitMutations log).foldl apply db = log.foldl apply db := by
  unfold coalesceCommitMutations coalescePlainSetMutations
  by_cases plain : plainSets log = true
  · rw [if_pos plain]
    exact lastSets_apply (List.nil_append log ▸ plainSets_sets plain) db
  · rw [if_neg plain]
    obtain ⟨w, solo, coherent, meaning⟩ :=
      RywCache.Solo.empty.replay_all RywWrites.Coherent.empty coalescible
    have untouched : overlay {} db = db := rfl
    simp only [RywCache.materializeCommit, solo.live]
    rw [← untouched, ← meaning, untouched]
    exact materializeCommit_apply coherent db

/-- An addition over a cleared key, then a compare that clears it again. -/
theorem coalesced_commit_eq_log_cleared_key :
    (coalesceCommitMutations
        [{ typ := .clearRange, key := [97], value := [99] },
         { typ := .addValue, key := [98], value := [1, 0] },
         { typ := .compareAndClear, key := [98], value := [1, 0] }]).foldl
      apply (fun _ => some [7]) [98] = none := by
  rw [coalesced_commit_eq_log _ (by decide)]
  decide

end FdbGo.Client
