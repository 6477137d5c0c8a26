import FdbGo.RecordLayer.AtomicInsertPaths
import FdbGo.RecordLayer.IndexHistory

/-! Histories of counting and summing indexes: what is stored for a group is what its key
tuples over the current records add up to. -/

set_option autoImplicit false

namespace FdbGo.RecordLayer

open Client Foundation FdbGo.Tuple

namespace AtomicIndex

variable {record : Option Message}

section Updates

variable {index : AtomicIndex} {message : Message} {conversion : FloatConversion} {t : Transaction}

/-! ## Update -/

/-- The record's entries can be kept in step: the shortcuts add them, and their keys can be
packed. -/
structure Fits (index : AtomicIndex) (conversion : FloatConversion) (message : Message) : Prop where
  fast : ∀ t, FastOutcome index conversion message t ((index.updateInsertOnly conversion message).run t)
  entries : Succeeds Packables (evaluateEntries index message conversion)

private theorem entriesOf?_fits (fits : ∀ message, record = some message → Fits index conversion message) :
    Succeeds Packables (index.entriesOf? conversion record) := by
  cases record with
  | none => exact .ok fun entry never => absurd never List.not_mem_nil
  | some message => exact (fits message rfl).entries

variable {old new : Option Message}

variable (counts : index.type ≠ .countUpdates)

include counts

/-- An insert that a shortcut takes, or an update by the standard path. -/
theorem update_cases (old : Option Message) (newFits : ∀ message, new = some message → Fits index conversion message) (t : Transaction) :
    (index.update conversion old new).run t = (index.updateStandard conversion old new).run t ∨
      ∃ message, old = none ∧ new = some message ∧
        ((∃ cause failure t', evaluateEntries index message conversion = .error cause ∧
            (index.update conversion old new).run t = (.error failure, t')) ∨
          ∃ entries t', evaluateEntries index message conversion = .ok entries ∧
            (index.update conversion old new).run t = (.ok (), t') ∧
            Shifts index.indexSubspace t.view t'.view fun p => index.weightAt entries p) := by
  rw [update.eq_def, deleteIsNoOp_eq counts, if_neg fun both => Bool.false_ne_true both.1]
  cases old with
  | some message => exact .inl (by cases new <;> rfl)
  | none =>
    cases new with
    | none => exact .inl rfl
    | some message =>
      dsimp only
      rw [Tx.run_bind]
      have fast := (newFits message rfl).fast t
      obtain ⟨outcome, isOutcome⟩ : ∃ outcome, outcome = (index.updateInsertOnly conversion message).run t := ⟨_, rfl⟩
      rw [← isOutcome] at fast ⊢
      cases fast with
      | declined => exact .inl rfl
      | failed evaluated => exact .inr ⟨message, rfl, rfl, .inl ⟨_, _, _, evaluated, rfl⟩⟩
      | applied evaluated shifts => exact .inr ⟨message, rfl, rfl, .inr ⟨_, _, evaluated, rfl, shifts⟩⟩

variable {oldEntries : List AtomicMutationEntry}

theorem update_run (oldFits : ∀ message, old = some message → Fits index conversion message)
    (newFits : ∀ message, new = some message → Fits index conversion message) {newEntries : List AtomicMutationEntry}
    (oldEvaluated : index.entriesOf? conversion old = .ok oldEntries)
    (newEvaluated : index.entriesOf? conversion new = .ok newEntries) (balanced : index.BalancedEntries oldEntries newEntries)
    (t : Transaction) : ∃ t', (index.update conversion old new).run t = (.ok (), t') ∧
      Shifts index.indexSubspace t.view t'.view fun p => index.weightAt newEntries p - index.weightAt oldEntries p := by
  obtain standard | ⟨message, rfl, rfl, ⟨_, _, _, evaluated, _⟩ | ⟨entries, t', evaluated, ran, shifts⟩⟩ :=
    update_cases counts old newFits t
  · rw [standard]
    exact updateStandard_run conversion counts oldEvaluated newEvaluated balanced (entriesOf?_fits oldFits _ oldEvaluated)
      (entriesOf?_fits newFits _ newEvaluated) t
  · cases evaluated.symm.trans newEvaluated
  · cases evaluated.symm.trans newEvaluated
    cases oldEvaluated
    exact ⟨t', ran, shifts.congr fun p => (Int.sub_zero _).symm⟩

private theorem update_fails (newFits : ∀ message, new = some message → Fits index conversion message)
    (oldEvaluated : index.entriesOf? conversion old = .ok oldEntries) {cause : AtomicIndexError}
    (newEvaluated : index.entriesOf? conversion new = .error cause) (t : Transaction) :
    ∃ failure t', (index.update conversion old new).run t = (.error failure, t') := by
  obtain standard | ⟨message, rfl, rfl, ⟨_, failure, t', _, ran⟩ | ⟨entries, t', evaluated, _⟩⟩ :=
    update_cases counts old newFits t
  · rw [standard, updateStandard, deleteIsNoOp_eq counts, if_neg Bool.false_ne_true,
      Tx.run_bind_ok (entriesOf_run conversion oldEvaluated t), Tx.run_bind_error (entriesOf_fails conversion newEvaluated t)]
    exact ⟨_, _, rfl⟩
  · exact ⟨failure, t', ran⟩
  · cases evaluated.symm.trans newEvaluated

end Updates

/-! ## What an index is for -/

section Meaning

variable (index : AtomicIndex) (conversion : FloatConversion)

def inGroup (group values : List Element) : Bool := decide (pack (values.take (groupingCount index)) = pack group)

def groupedValue (values : List Element) : Int :=
  match values[groupingCount index]? with
  | none | some .null => 0
  | some rawValue => ((toInt64 conversion rawValue).toOption.map Int64.toInt).getD 0

def contribution (group : List Element) (message : Message) : Int :=
  let tuples := (index.root.keyTuples message).filter (index.inGroup group)
  match index.type with
  | .count | .countUpdates => tuples.length
  | .countNotNull => (tuples.filter fun values => !hasNull index values).length
  | .sum => (tuples.map (index.groupedValue conversion)).sum

end Meaning

variable {entries : List AtomicMutationEntry}

section Contributions

variable {index : AtomicIndex} {message : Message} {conversion : FloatConversion} {group : List Element} {p : Bytes}

variable {values : List Element}

theorem packed_eq_iff (packable : packables (Tuple.values values) = true) (long : groupingCount index ≤ values.length)
    (isGroup : pack group = .ok p) (param : Bytes) :
    AtomicMutationEntry.packed ⟨groupKeyOf (groupingCount index) values, param⟩ = p ↔ index.inGroup group values = true := by
  rw [groupKeyOf_eq_take long, AtomicMutationEntry.packed, pack_eq (packable_take packable _), inGroup, isGroup,
    pack_eq (packable_take packable _), decide_eq_true_eq, Except.ok.injEq]
  rfl

variable {tuples : List (List Element)}

private theorem weightAt_countEntries (counts : index.type ≠ .sum) (isGroup : pack group = .ok p)
    (rows : ∀ t ∈ tuples, Row index.root.wholeKey.columnSize t) :
    index.weightAt (countEntries (tuples.map (groupKeyOf (groupingCount index)))) p =
      (tuples.filter (index.inGroup group)).length := by
  induction tuples with
  | nil => rfl
  | cons tuple tuples ih =>
    have row := rows tuple List.mem_cons_self
    have long : groupingCount index ≤ tuple.length := row.length ▸ Nat.sub_le _ _
    have rest := ih (List.forall_mem_cons.mp rows).2
    have unit : ∀ entry, index.weight entry = 1 := weight_eq_one counts
    rw [List.map_cons, countEntries, List.map_cons, weightAt_cons, unit, changeAt, List.filter_cons]
    rw [countEntries] at rest
    rw [rest]
    by_cases inside : index.inGroup group tuple = true
    · rw [if_pos ((packed_eq_iff row.packable long isGroup _).mpr inside), if_pos inside, List.length_cons]
      push_cast
      exact Int.add_comm 1 _
    · rw [if_neg fun same => inside ((packed_eq_iff row.packable long isGroup _).mp same), if_neg inside]
      exact Int.zero_add _

theorem sumEntry_ok {entry : Option AtomicMutationEntry} (found : sumEntry index conversion values = .ok entry) :
    (entry = none ∧ index.groupedValue conversion values = 0) ∨
      ∃ sumValue, entry = some ⟨groupKeyOf (groupingCount index) values, encodeRecordCount sumValue⟩ ∧
        index.groupedValue conversion values = sumValue.toInt := by
  rw [sumEntry] at found
  split at found
  case h_1 isNone =>
    rw [groupedValue, isNone]
    cases found
    exact .inl ⟨rfl, rfl⟩
  case h_2 isNull =>
    rw [groupedValue, isNull]
    cases found
    exact .inl ⟨rfl, rfl⟩
  case h_3 rawValue notNull isValue =>
    rw [groupedValue, isValue]
    obtain ⟨sumValue, converted, isEntry⟩ := bind_eq_ok found
    cases isEntry
    refine .inr ⟨sumValue, rfl, ?_⟩
    split
    case h_1 never => cases never
    case h_2 never => exact absurd (Option.some.inj never) notNull
    case h_3 same =>
      cases same
      rw [converted]
      rfl

private theorem weightAt_sumEntries (isSum : index.type = .sum) (isGroup : pack group = .ok p)
    (rows : ∀ t ∈ tuples, Row index.root.wholeKey.columnSize t) {found : List (Option AtomicMutationEntry)}
    (evaluated : tuples.mapM (sumEntry index conversion) = .ok found) :
    index.weightAt (found.filterMap id) p =
      ((tuples.filter (index.inGroup group)).map (index.groupedValue conversion)).sum := by
  induction tuples generalizing found with
  | nil =>
    cases evaluated
    rfl
  | cons tuple tuples ih =>
    rw [List.mapM_cons] at evaluated
    obtain ⟨entry, first, evaluated⟩ := bind_eq_ok evaluated
    obtain ⟨later, others, evaluated⟩ := bind_eq_ok evaluated
    cases evaluated
    have row := rows tuple List.mem_cons_self
    have long : groupingCount index ≤ tuple.length := row.length ▸ Nat.sub_le _ _
    have rest := ih (List.forall_mem_cons.mp rows).2 others
    have parts : (((tuple :: tuples).filter (index.inGroup group)).map (index.groupedValue conversion)).sum =
        (if index.inGroup group tuple = true then index.groupedValue conversion tuple else 0) +
          ((tuples.filter (index.inGroup group)).map (index.groupedValue conversion)).sum := by
      rw [List.filter_cons]
      split
      · rw [List.map_cons, List.sum_cons]
      · exact (Int.zero_add _).symm
    rw [parts, ← rest]
    cases sumEntry_ok first with
    | inl none_ =>
      rw [none_.1, none_.2, ite_self, Int.zero_add]
      rfl
    | inr some_ =>
      obtain ⟨sumValue, rfl, amount⟩ := some_
      show index.weightAt (⟨groupKeyOf (groupingCount index) tuple, encodeRecordCount sumValue⟩ ::
        later.filterMap id) p = _
      rw [weightAt_cons, changeAt, weight, isSum]
      dsimp only
      rw [decodeRecordCount_encode, amount]
      simp only [packed_eq_iff row.packable long isGroup]

private theorem countsTuple_eq (notNull : index.type = .countNotNull) (row : Row index.root.wholeKey.columnSize values) :
    countsTuple index values = !hasNull index values := by
  have inside : ¬ (0 < index.root.wholeKey.columnSize - groupingCount index ∧ values.length ≤ groupingCount index) := by
    rw [row.length]
    omega
  rw [countsTuple, notNull]
  dsimp only
  rw [decide_eq_false inside, Bool.or_false]

private theorem weightAt_entriesOfTuples (isGroup : pack group = .ok p) (isTuples : index.root.evaluate message = .ok tuples)
    (found : entriesOfTuples conversion index tuples = .ok entries) :
    index.weightAt entries p = index.contribution conversion group message := by
  have rows := GroupingKeyExpression.rows_evaluate index.root message tuples isTuples
  have isKey : index.root.keyTuples message = tuples := by
    rw [GroupingKeyExpression.keyTuples, isTuples]
    rfl
  rw [entriesOfTuples] at found
  rw [contribution, isKey]
  cases isType : index.type with
  | sum =>
    rw [isType] at found
    dsimp only at found ⊢
    obtain ⟨entriesFound, evaluated, same⟩ := bind_eq_ok found
    cases same
    exact weightAt_sumEntries isType isGroup rows evaluated
  | count | countUpdates =>
    rw [isType] at found
    cases found
    dsimp only
    rw [filter_countsTuple (by simp [isType])]
    exact weightAt_countEntries (by simp [isType]) isGroup rows
  | countNotNull =>
    rw [isType] at found
    cases found
    dsimp only
    rw [weightAt_countEntries (by simp [isType]) isGroup fun t member => rows t (List.mem_filter.mp member).1,
      List.filter_comm, List.filter_congr fun t member =>
        countsTuple_eq isType (rows t (List.mem_filter.mp member).1)]

end Contributions

/-! ## Records -/

section Records

variable {index : AtomicIndex} {message : Message} {conversion : FloatConversion}

/-- The shortcuts lose nothing of the record. -/
def Flat (index : AtomicIndex) (message : Message) : Prop :=
  index.type ≠ .countNotNull → index.Accepted ∧ index.root.FlatSafe message

theorem entries_of_evaluate (flat : index.Flat message)
    (evaluated : evaluateEntries index message conversion = .ok entries) :
    ∃ tuples, index.root.evaluate message = .ok tuples ∧ entriesOfTuples conversion index tuples = .ok entries := by
  rw [evaluateEntries_eq conversion fun counts => ⟨(flat counts).1.built, (flat counts).2⟩] at evaluated
  cases isTuples : index.root.evaluate message with
  | error cause =>
    rw [isTuples] at evaluated
    cases evaluated
  | ok tuples =>
    rw [isTuples] at evaluated
    exact ⟨tuples, rfl, evaluated⟩

theorem fits (flat : index.Flat message) : Fits index conversion message where
  fast t := by
    by_cases notNull : index.type = .countNotNull
    · exact updateInsertOnly_declined notNull
    · exact updateInsertOnly_run (flat notNull).1 (flat notNull).2
  entries := by
    intro entries evaluated
    obtain ⟨tuples, isTuples, found⟩ := entries_of_evaluate flat evaluated
    have rows := GroupingKeyExpression.rows_evaluate index.root message tuples isTuples
    exact packables_entriesOfTuples conversion (fun t member => (rows t member).packable) entries found

theorem weightAt_of_evaluate (flat : index.Flat message) (evaluated : evaluateEntries index message conversion = .ok entries)
    {group : List Element} {p : Bytes} (isGroup : pack group = .ok p) :
    index.weightAt entries p = index.contribution conversion group message := by
  obtain ⟨tuples, isTuples, found⟩ := entries_of_evaluate flat evaluated
  exact weightAt_entriesOfTuples isGroup isTuples found

/-- In each group that two versions of a record are both counted in, they have the same number
of key tuples that are counted. -/
def Balanced (index : AtomicIndex) (conversion : FloatConversion) (old new : Message) : Prop :=
  index.type ≠ .sum → ∀ group p, pack group = .ok p → index.contribution conversion group old = 0 ∨
    index.contribution conversion group new = 0 ∨
    index.contribution conversion group old = index.contribution conversion group new

private theorem balancedEntries {old new : Message} {newEntries : List AtomicMutationEntry} (oldFlat : index.Flat old) (newFlat : index.Flat new)
    (oldEvaluated : evaluateEntries index old conversion = .ok entries)
    (newEvaluated : evaluateEntries index new conversion = .ok newEntries) (balanced : index.Balanced conversion old new) :
    index.BalancedEntries entries newEntries := by
  intro noSum p
  by_cases inOld : p ∈ entries.map AtomicMutationEntry.packed
  · obtain ⟨entry, member, isEntry⟩ := List.mem_map.mp inOld
    have isGroup : pack entry.groupKey = .ok p := by
      rw [← isEntry, AtomicMutationEntry.packed, pack_eq ((fits oldFlat).entries _ oldEvaluated entry member)]
      rfl
    rw [weightAt_of_evaluate oldFlat oldEvaluated isGroup, weightAt_of_evaluate newFlat newEvaluated isGroup]
    exact balanced noSum _ p isGroup
  · exact .inl ((weightAt_eq_zero_iff (weight_eq_one noSum)).mpr inOld)

end Records

/-! ## Histories -/

section Histories

variable {PrimaryKey : Type} {index : AtomicIndex} {conversion : FloatConversion}

def recordWeight (index : AtomicIndex) (conversion : FloatConversion) (p : Bytes) (message : Message) : Int :=
  index.weightAt ((evaluateEntries index message conversion).toOption.getD []) p

/-- The stored counts are those of the current records. -/
structure Tracks (index : AtomicIndex) (conversion : FloatConversion) (maintained : Maintained PrimaryKey) : Prop where
  records : ∀ row ∈ maintained.records.rows, index.Flat row.2 ∧
    ∃ entries, evaluateEntries index row.2 conversion = .ok entries
  counting : ∀ p, Counting maintained.tx.view (index.indexSubspace ++ p)
  stored : ∀ p, storedCount maintained.tx.view (index.indexSubspace ++ p) =
    Int64.ofInt (maintained.records.total (index.recordWeight conversion p))

def updateRecord (index : AtomicIndex) (conversion : FloatConversion) : Update PrimaryKey AtomicIndexError :=
  fun _ old new => index.update conversion old new

private theorem part_recordWeight (evaluated : index.entriesOf? conversion record = .ok entries) (p : Bytes) :
    Table.part (index.recordWeight conversion p) record = index.weightAt entries p := by
  cases record with
  | none =>
    cases evaluated
    rfl
  | some message =>
    rw [Table.part, Option.map_some, Option.getD_some, recordWeight,
      show evaluateEntries index message conversion = .ok entries from evaluated]
    rfl

variable {maintained : Maintained PrimaryKey} {d : Snapshot}

theorem Tracks.group (tracks : index.Tracks conversion maintained) {group : List Element} {p : Bytes}
    (isGroup : pack group = .ok p) :
    storedCount maintained.tx.view (index.indexSubspace ++ p) =
      Int64.ofInt (maintained.records.total (index.contribution conversion group)) := by
  rw [tracks.stored p]
  refine congrArg Int64.ofInt (Table.total_congr fun row member => ?_)
  obtain ⟨flat, entries, evaluated⟩ := tracks.records row member
  rw [recordWeight, evaluated]
  exact weightAt_of_evaluate flat evaluated isGroup

def Unused (index : AtomicIndex) (d : Snapshot) : Prop := ∀ p, d.get (index.indexSubspace ++ p) = none

private theorem tracks_start (unused : index.Unused d) :
    index.Tracks conversion (Maintained.start d : Maintained PrimaryKey) := by
  refine ⟨nofun, fun p => .inl (unused p), fun p => ?_⟩
  rw [storedCount, show (Maintained.start d : Maintained PrimaryKey).tx.view = d from rfl, unused p]
  rfl

variable [DecidableEq PrimaryKey]

def Allowed (index : AtomicIndex) (conversion : FloatConversion) (maintained : Maintained PrimaryKey) (change : Change PrimaryKey) :
    Prop :=
  ∀ primaryKey new, change = .update primaryKey (some new) →
    index.Flat new ∧ ∀ old, maintained.records.get primaryKey = some old → index.Balanced conversion old new

theorem Tracks.change (counts : index.type ≠ .countUpdates) (tracks : index.Tracks conversion maintained)
    {change : Change PrimaryKey} (allowed : index.Allowed conversion maintained change) :
    index.Tracks conversion (change.run (index.updateRecord conversion) maintained) := by
  cases change with
  | commit => exact ⟨tracks.records, tracks.counting, tracks.stored⟩
  | update primaryKey new =>
    have newFits : ∀ message, new = some message → index.Flat message :=
      fun message isNew => (allowed primaryKey message (isNew ▸ rfl)).1
    have oldFits : ∀ message, maintained.records.get primaryKey = some message → Fits index conversion message :=
      fun message found => fits (tracks.records _ (Table.mem_of_get found)).1
    obtain ⟨oldEntries, oldEvaluated⟩ : ∃ entries,
        index.entriesOf? conversion (maintained.records.get primaryKey) = .ok entries := by
      cases found : maintained.records.get primaryKey with
      | none => exact ⟨[], rfl⟩
      | some message => exact (tracks.records _ (Table.mem_of_get found)).2
    rw [Change.run, updateRecord]
    cases newEvaluated : index.entriesOf? conversion new with
    | error cause =>
      obtain ⟨failure, t', failed⟩ := update_fails counts (fun message isNew => fits (newFits message isNew))
        oldEvaluated newEvaluated maintained.tx
      rw [failed]
      exact tracks
    | ok newEntries =>
      have balanced : index.BalancedEntries oldEntries newEntries := by
        cases found : maintained.records.get primaryKey with
        | none =>
          rw [found] at oldEvaluated
          cases oldEvaluated
          exact fun _ p => .inl rfl
        | some old =>
          rw [found] at oldEvaluated
          cases new with
          | none =>
            cases newEvaluated
            exact fun _ p => .inr (.inl rfl)
          | some new =>
            exact balancedEntries (tracks.records _ (Table.mem_of_get found)).1 (newFits new rfl) oldEvaluated newEvaluated
              ((allowed primaryKey new rfl).2 old found)
      obtain ⟨t', ran, shifts⟩ := update_run counts oldFits (fun message isNew => fits (newFits message isNew))
        oldEvaluated newEvaluated balanced maintained.tx
      rw [ran]
      refine ⟨fun row member => ?_, fun p => (shifts p (tracks.counting p)).1, fun p => ?_⟩
      · cases Table.mem_set member with
        | inl old => exact tracks.records row old
        | inr isNew =>
          rw [isNew] at newEvaluated
          exact ⟨newFits row.2 isNew, newEntries, newEvaluated⟩
      · rw [(shifts p (tracks.counting p)).2, tracks.stored p, ← Int64.ofInt_add, Table.total_set,
          part_recordWeight oldEvaluated, part_recordWeight newEvaluated]
        dsimp only
        congr 1
        omega

theorem tracks_changes (counts : index.type ≠ .countUpdates) (unused : index.Unused d) {changes : List (Change PrimaryKey)}
    (flat : ∀ primaryKey message, Change.update primaryKey (some message) ∈ changes → index.Flat message)
    (balanced : ∀ n primaryKey old new, changes[n]? = some (.update primaryKey (some new)) →
      (runChanges (index.updateRecord conversion) (.start d) (changes.take n)).records.get primaryKey = some old →
      index.Balanced conversion old new) :
    index.Tracks conversion (runChanges (index.updateRecord conversion) (.start d) changes) := by
  refine runChanges_keeps (fun _ _ allowed tracks => tracks.change counts allowed) (fun n change found primaryKey new isChange => ?_)
    (tracks_start unused)
  subst isChange
  exact ⟨flat primaryKey new (List.mem_of_getElem? found), fun old isOld => balanced n primaryKey old new found isOld⟩

/-! ## Counts and sums -/

private theorem accepted_of_validate (valid : index.validate = .ok ()) (kind : index.type = .count ∨ index.type = .sum)
    (built : index.root.Built) : index.Accepted := by
  refine ⟨built, ?_⟩
  rw [validate, traits] at valid
  cases kind with
  | inl isCount =>
    rw [isCount] at valid
    refine .inl ⟨isCount, not_not.mp fun some_ => ?_⟩
    simp [some_] at valid
  | inr isSum =>
    rw [isSum] at valid
    refine .inr ⟨isSum, not_not.mp fun other => ?_⟩
    by_cases none_ : index.root.groupedCount = 0
    · simp [none_] at valid
    · simp [none_, other] at valid

/-- A count has no group but the key tuples themselves. -/
theorem contribution_le_one (accepted : index.Accepted) (noSum : index.type ≠ .sum) {message : Message}
    (nodup : ((index.root.keyTuples message).map pack).Nodup) (group : List Element) :
    0 ≤ index.contribution conversion group message ∧ index.contribution conversion group message ≤ 1 := by
  cases accepted.grouped with
  | inr isSum => exact absurd isSum.1 noSum
  | inl isCount =>
    have same : ((index.root.keyTuples message).filter (index.inGroup group)).map pack =
        List.replicate ((index.root.keyTuples message).filter (index.inGroup group)).length (pack group) := by
      refine List.eq_replicate_iff.mpr ⟨List.length_map _, fun packed isPacked => ?_⟩
      obtain ⟨t, inside, rfl⟩ := List.mem_map.mp isPacked
      obtain ⟨member, inGroup⟩ := List.mem_filter.mp inside
      have count : groupingCount index = index.root.wholeKey.columnSize - index.root.groupedCount := rfl
      rw [AtomicIndex.inGroup, decide_eq_true_eq, List.take_of_length_le] at inGroup
      · exact inGroup
      · rw [(GroupingKeyExpression.row_keyTuples member).length, count, isCount.2]
        exact le_rfl
    have single : (((index.root.keyTuples message).filter (index.inGroup group)).map pack).Nodup :=
      nodup.sublist (List.filter_sublist.map pack)
    rw [same, List.nodup_replicate] at single
    rw [contribution, isCount.1]
    dsimp only
    omega

private theorem balanced_of_nodup (accepted : index.Accepted) {old new : Message} (oldNodup : ((index.root.keyTuples old).map pack).Nodup)
    (newNodup : ((index.root.keyTuples new).map pack).Nodup) : index.Balanced conversion old new := by
  intro noSum group p _
  have ofOld := @contribution_le_one index conversion accepted noSum old oldNodup group
  have ofNew := @contribution_le_one index conversion accepted noSum new newNodup group
  omega

/-- A count or a sum is exact over every history of records of which `EvaluateFlat` loses no
tuple. -/
theorem count_and_sum_exact (valid : index.validate = .ok ()) (kind : index.type = .count ∨ index.type = .sum)
    (built : index.root.Built) {d : Snapshot} (unused : index.Unused d) {changes : List (Change PrimaryKey)}
    (safe : ∀ primaryKey message, Change.update primaryKey (some message) ∈ changes → index.root.FlatSafe message)
    (nodup : ∀ primaryKey message, Change.update primaryKey (some message) ∈ changes →
      ((index.root.keyTuples message).map pack).Nodup) {group : List Element} {p : Bytes} (isGroup : pack group = .ok p) :
    storedCount (runChanges (index.updateRecord conversion) (.start d) changes).tx.view (index.indexSubspace ++ p) =
      Int64.ofInt ((runChanges (index.updateRecord conversion) (.start d) changes).records.total
        (index.contribution conversion group)) := by
  have accepted := accepted_of_validate valid kind built
  refine (tracks_changes ?_ unused (fun primaryKey message member _ => ⟨accepted, safe primaryKey message member⟩)
    fun n primaryKey old new found isOld => ?_).group isGroup
  · cases kind with
    | inl isCount => simp [isCount]
    | inr isSum => simp [isSum]
  · have earlier := records_of_changes (fun primaryKey message member => nodup primaryKey message (List.mem_of_mem_take member))
      _ (Table.mem_of_get isOld)
    exact balanced_of_nodup accepted earlier (nodup primaryKey new (List.mem_of_getElem? found))

/-- A count by a field of the messages in a repeated field. -/
def itemCounts : AtomicIndex where
  type := .count
  root := ⟨.nestFanOut "items" (.ofField "x"), 0, Nat.zero_le _⟩
  clearWhenZero := false
  indexSubspace := [0x02]

def twoItems : Message :=
  .mk [("items", .messages [.mk [("x", .scalar (.int 1) true)], .mk [("x", .scalar (.int 2) true)]])]

/-- Only the first tuple of a whole key that nests is counted. -/
theorem second_item_not_counted :
    itemCounts.validate = .ok () ∧ itemCounts.root.Built ∧ ((itemCounts.root.keyTuples twoItems).map pack).Nodup ∧
      pack [.int64 2] = .ok [0x15, 0x02] ∧
      storedCount (runChanges (itemCounts.updateRecord noFloats) (.start noRows) [.update 1 (some twoItems)]).tx.view
        (itemCounts.indexSubspace ++ [0x15, 0x02]) = 0 ∧
      (runChanges (itemCounts.updateRecord noFloats) (.start noRows) [.update 1 (some twoItems)]).records.total
        (itemCounts.contribution noFloats [.int64 2]) = 1 := by
  refine ⟨by decide, .inl (.nesting _ _ _ (.field _ _ _ (by decide))), ?_⟩
  decide +kernel

def valueSums : AtomicIndex where
  type := .sum
  root := ⟨.concat [.ofField "g", .ofField "v"], 1, by decide⟩
  clearWhenZero := true
  indexSubspace := [0x02]

def valueOf (group value : Int64) : Message := .mk [("g", .scalar (.int group) true), ("v", .scalar (.int value) true)]

def sumChanges : List (Change Nat) :=
  [.update 1 (some (valueOf 1 5)), .update 2 (some (valueOf 1 7)), .commit, .update 1 (some (valueOf 1 6)), .update 3 (some (valueOf 2 9))]

theorem sums_of_two_groups :
    storedCount (runChanges (valueSums.updateRecord noFloats) (.start noRows) sumChanges).tx.view
      (valueSums.indexSubspace ++ [0x15, 0x01]) = 13 := by
  have built : valueSums.root.Built := by
    refine .inl (.concat (fun expression member => ?_) (by decide))
    rw [List.mem_cons, List.mem_singleton] at member
    cases member with
    | inl isFirst => exact isFirst ▸ .field _ _ _ (by decide)
    | inr isSecond => exact isSecond ▸ .field _ _ _ (by decide)
  have nodup : ∀ primaryKey message, Change.update primaryKey (some message) ∈ sumChanges →
      ((valueSums.root.keyTuples message).map pack).Nodup := by
    intro primaryKey message member
    simp only [sumChanges, List.mem_cons, Change.update.injEq, Option.some.injEq, reduceCtorEq, List.not_mem_nil, or_false,
      false_or] at member
    obtain ⟨_, rfl⟩ | ⟨_, rfl⟩ | ⟨_, rfl⟩ | ⟨_, rfl⟩ := member <;> decide +kernel
  have stored : _ = Int64.ofInt ((runChanges (valueSums.updateRecord noFloats) (.start noRows) sumChanges).records.total
      (valueSums.contribution noFloats [.int64 1])) :=
    count_and_sum_exact (by decide) (.inr rfl) built (fun _ => rfl) (fun _ _ _ => trivial) nodup
      (show pack [.int64 1] = .ok [0x15, 0x01] by decide +kernel)
  rw [stored]
  decide +kernel

/-- A count of values that are not null is exact over every history in which an update keeps
the number of such key tuples in each group that both versions have some in. -/
theorem count_not_null_exact (notNull : index.type = .countNotNull) {d : Snapshot} (unused : index.Unused d)
    {changes : List (Change PrimaryKey)}
    (balanced : ∀ n primaryKey old new, changes[n]? = some (.update primaryKey (some new)) →
      (runChanges (index.updateRecord conversion) (.start d) (changes.take n)).records.get primaryKey = some old →
      ∀ group p, pack group = .ok p → index.contribution conversion group old = 0 ∨
        index.contribution conversion group new = 0 ∨
        index.contribution conversion group old = index.contribution conversion group new)
    {group : List Element} {p : Bytes} (isGroup : pack group = .ok p) :
    storedCount (runChanges (index.updateRecord conversion) (.start d) changes).tx.view (index.indexSubspace ++ p) =
      Int64.ofInt ((runChanges (index.updateRecord conversion) (.start d) changes).records.total
        (index.contribution conversion group)) :=
  (tracks_changes (by simp [notNull]) unused (fun _ _ _ counts => absurd notNull counts)
    fun n primaryKey old new found isOld _ => balanced n primaryKey old new found isOld).group isGroup

def tagCounts : AtomicIndex where
  type := .countNotNull
  root := ⟨.concat [.ofField "g", .fanOut "tags"], 1, by decide⟩
  clearWhenZero := false
  indexSubspace := [0x02]

def tagged (group : Int64) (tags : List Int64) : Message :=
  .mk [("g", .scalar (.int group) true), ("tags", .scalars (tags.map .int))]

/-- A record loses one of its two tags in a group, and both are still counted. -/
theorem lost_tag_still_counted :
    tagCounts.validate = .ok () ∧
      ((tagCounts.root.keyTuples (tagged 1 [10, 20])).map pack).Nodup ∧ ((tagCounts.root.keyTuples (tagged 1 [10])).map pack).Nodup ∧
      pack [.int64 1] = .ok [0x15, 0x01] ∧
      storedCount (runChanges (tagCounts.updateRecord noFloats) (.start noRows)
        [.update 1 (some (tagged 1 [10, 20])), .update 1 (some (tagged 1 [10]))]).tx.view
          (tagCounts.indexSubspace ++ [0x15, 0x01]) = 2 ∧
      (runChanges (tagCounts.updateRecord noFloats) (.start noRows)
        [.update 1 (some (tagged 1 [10, 20])), .update 1 (some (tagged 1 [10]))]).records.total
          (tagCounts.contribution noFloats [.int64 1]) = 1 := by
  refine ⟨by decide, ?_⟩
  decide +kernel

def tagChanges : List (Change Nat) :=
  [.update 1 (some (tagged 1 [10, 20])), .update 2 (some (tagged 1 [30, 40])), .commit, .update 2 (some (tagged 2 [30, 40])),
    .update 1 (some (tagged 1 [10, 50])), .update 2 none]

private theorem contribution_tagged (group : List Element) (g tag other : Int64) :
    tagCounts.contribution noFloats group (tagged g [tag, other]) = if pack [.int64 g] = pack group then 2 else 0 := by
  have tuples : tagCounts.root.keyTuples (tagged g [tag, other]) = [[.int64 g, .int64 tag], [.int64 g, .int64 other]] := rfl
  have inside : ∀ value, tagCounts.inGroup group [.int64 g, value] = decide (pack [.int64 g] = pack group) := fun _ => rfl
  rw [contribution, tuples]
  by_cases same : pack [.int64 g] = pack group
  · simp only [List.filter_cons, inside, decide_eq_true_eq, if_pos same]
    rfl
  · simp only [List.filter_cons, inside, decide_eq_true_eq, if_neg same]
    rfl

/-- Two tags of a record in one group, which come, go to another group, change and go. -/
theorem tags_of_one_group :
    storedCount (runChanges (tagCounts.updateRecord noFloats) (.start noRows) tagChanges).tx.view
      (tagCounts.indexSubspace ++ [0x15, 0x01]) = 2 := by
  refine (count_not_null_exact rfl (fun _ => rfl) (fun n primaryKey old new found isOld group p _ => ?_)
    (show pack [.int64 1] = .ok [0x15, 0x01] by decide +kernel)).trans ?_
  · obtain _ | _ | _ | _ | _ | _ | n := n <;> cases found <;> cases isOld <;> rw [contribution_tagged, contribution_tagged]
    · by_cases first : pack [.int64 1] = pack group
      · rw [← first]
        exact .inr (.inl (if_neg (by decide +kernel)))
      · exact .inl (if_neg first)
    · exact .inr (.inr rfl)
  · decide +kernel

end Histories

end AtomicIndex

end FdbGo.RecordLayer
