import FdbGo.RecordLayer.BitmapValueProperties
import FdbGo.RecordLayer.IndexHistory

/-! Histories of bitmap indexes: the bits that are set are those of positions that current
records hold, while no position is removed from a bitmap that is not stored. -/

set_option autoImplicit false

namespace FdbGo.RecordLayer

open Client Foundation FdbGo.Tuple

namespace BitmapIndex

variable {index : BitmapIndex}

/-! ## Positions of records -/

def Integral (index : BitmapIndex) (message : Message) : Prop :=
  ∀ values ∈ index.root.keyTuples message, values[index.groupPrefixSize]? = some .null ∨
    ∃ position : Int64, values[index.groupPrefixSize]? = some (.int64 position)

def slotsOf (index : BitmapIndex) (message : Message) : List (Bytes × Nat) := (index.root.keyTuples message).filterMap index.slot

variable {message : Message} {s : Bytes × Nat}

theorem positioned_of_mem (integral : index.Integral message) {values : List Element}
    (member : values ∈ index.root.keyTuples message) : index.Positioned values := by
  have row := GroupingKeyExpression.row_keyTuples member
  refine ⟨?_, row.packable, integral values member⟩
  have inside := index.root.inside
  rw [index.grouped] at inside
  rw [row.length, groupPrefixSize, GroupingKeyExpression.getGroupingCount, index.grouped, Nat.sub_add_cancel inside]

variable {second first : List Element}

private theorem slot_of_values (positioned : index.Positioned first) (otherPositioned : index.Positioned second)
    (same : values first = values second) : index.slot first = index.slot second := by
  have sameTake : values (first.take index.groupPrefixSize) = values (second.take index.groupPrefixSize) := by
    rw [values_eq_map, values_eq_map, List.map_take, List.map_take, ← values_eq_map, ← values_eq_map, same]
  have sameAt : (first[index.groupPrefixSize]?).map Element.value = (second[index.groupPrefixSize]?).map Element.value := by
    rw [← List.getElem?_map, ← List.getElem?_map, ← values_eq_map, ← values_eq_map, same]
  rw [slot, slot]
  obtain isNull | ⟨position, found⟩ := positioned.position <;>
    obtain otherNull | ⟨other, otherFound⟩ := otherPositioned.position
  · rw [isNull, otherNull]
  · cases (isNull ▸ otherFound ▸ sameAt :)
  · cases (found ▸ otherNull ▸ sameAt :)
  · rw [found, otherFound, Option.map_some, Option.map_some, Option.some.injEq, Element.value, Element.value,
      Value.integer.injEq] at sameAt
    rw [found, otherFound, Int64.toInt_inj.mp sameAt]
    dsimp only
    rw [bitmapKey_eq (packable_take positioned.packable _), bitmapKey_eq (packable_take otherPositioned.packable _), sameTake]

private theorem values_of_position (positioned : index.Positioned first) {position : Int64}
    (found : first[index.groupPrefixSize]? = some (.int64 position)) :
    values first = values (first.take index.groupPrefixSize) ++ [.integer position.toInt] := by
  have whole : first.take index.groupPrefixSize ++ [.int64 position] = first := by
    rw [show [Element.int64 position] = (first[index.groupPrefixSize]?).toList by rw [found]; rfl, ← List.take_add_one,
      List.take_of_length_le positioned.length.le]
  calc values first = values (first.take index.groupPrefixSize ++ [.int64 position]) := by rw [whole]
    _ = _ := values_append _ _

private theorem values_of_slot (positioned : index.Positioned first) (otherPositioned : index.Positioned second)
    (found : index.slot first = some s) (otherFound : index.slot second = some s) : values first = values second := by
  rw [slot] at found otherFound
  split at found
  case h_2 => cases found
  case h_1 position isPosition =>
    split at otherFound
    case h_2 => cases otherFound
    case h_1 other isOther =>
      cases found
      have packable := packable_take positioned.packable index.groupPrefixSize
      have otherPackable := packable_take otherPositioned.packable index.groupPrefixSize
      rw [Option.some.injEq, Prod.mk.injEq, bitmapKey_eq packable, bitmapKey_eq otherPackable] at otherFound
      have one : ∀ aligned : Int64, packables [Value.integer aligned.toInt] = true := by
        intro aligned
        rw [packables, packable_int64]
        rfl
      have both := wires_injective (by rw [packables_append, otherPackable, one]; rfl)
        (by rw [packables_append, packable, one]; rfl) otherFound.1
      obtain ⟨groups, bitmaps⟩ := List.append_inj' both (List.length_singleton.trans List.length_singleton.symm)
      rw [List.cons.injEq, Value.integer.injEq] at bitmaps
      have same := position_of_bit (Int64.toInt_inj.mp bitmaps.1) otherFound.2
      rw [values_of_position positioned isPosition, values_of_position otherPositioned isOther, groups, same]

/-! ## Updates -/

section Updates

variable {conversion : FloatConversion} {primaryKey : List Element} {old new : Option Message} {t t' : Transaction}

def entriesOf (index : BitmapIndex) (primaryKey : List Element) (record : Option Message) : List EvaluatedIndexEntry :=
  (record.elim [] index.root.keyTuples).map fun values => { key := values, primaryKey }

theorem filteredIndexEntries_ok {entries : List EvaluatedIndexEntry}
    (ran : (index.filteredIndexEntries primaryKey old).run t = (.ok entries, t')) :
    t' = t ∧ entries = index.entriesOf primaryKey old := by
  cases old with
  | none =>
    cases ran
    exact ⟨rfl, rfl⟩
  | some message =>
    rw [filteredIndexEntries] at ran
    split at ran
    case h_1 tuples evaluated =>
      cases ran
      rw [entriesOf, Option.elim_some, GroupingKeyExpression.keyTuples, evaluated]
      exact ⟨rfl, rfl⟩
    case h_2 => cases ran

def bitsOf (index : BitmapIndex) (record : Option Message) : List (Bytes × Nat) := record.elim [] index.slotsOf

theorem slots_entriesOf (record : Option Message) : index.slots (index.entriesOf primaryKey record) = index.bitsOf record := by
  rw [slots, entriesOf, List.filterMap_map]
  cases record <;> rfl

variable {record : Option Message}

private theorem mem_bitsOf :
    s ∈ index.bitsOf record ↔ ∃ entry ∈ index.entriesOf primaryKey record, index.slot entry.key = some s := by
  rw [← @slots_entriesOf index primaryKey record, slots, List.mem_filterMap]

/-- The entries that two versions have in common are those of the same bits. -/
theorem commonKey_iff {newMessage : Message} (integral : index.Integral message)
    (newIntegral : index.Integral newMessage) (named : packables (values primaryKey) = true)
    {entry : EvaluatedIndexEntry} (member : entry ∈ index.entriesOf primaryKey (some message))
    (some_ : commonKey index.primaryKeyComponentPositions entry ≠ none) (found : index.slot entry.key = some s) :
    commonKey index.primaryKeyComponentPositions entry ∈
        (index.entriesOf primaryKey (some newMessage)).map (commonKey index.primaryKeyComponentPositions) ↔
      s ∈ index.bitsOf (some newMessage) := by
  rw [@mem_bitsOf index s primaryKey, List.mem_map]
  refine exists_congr fun other => and_congr_right fun isOther => ?_
  obtain ⟨tuple, isTuple, rfl⟩ := List.mem_map.mp member
  obtain ⟨otherTuple, isOtherTuple, rfl⟩ := List.mem_map.mp isOther
  have positioned := positioned_of_mem integral isTuple
  have otherPositioned := positioned_of_mem newIntegral isOtherTuple
  constructor
  · intro same
    have sameValues : values tuple = values otherTuple := by
      refine values_of_commonKey positioned.packable otherPositioned.packable named ?_ ?_ some_ same.symm <;> rfl
    exact (slot_of_values positioned otherPositioned sameValues).symm.trans found
  · intro otherFound
    have sameValues : values tuple = values otherTuple := values_of_slot positioned otherPositioned found otherFound
    refine (commonKey_of_values positioned.packable named ?_ ?_ sameValues).symm <;> rfl

private theorem slots_filter {entries : List EvaluatedIndexEntry} {keep : EvaluatedIndexEntry → Bool} {keepBit : Bytes × Nat → Bool}
    (agree : ∀ entry ∈ entries, ∀ s, index.slot entry.key = some s → keep entry = keepBit s) :
    index.slots (entries.filter keep) = (index.slots entries).filter keepBit := by
  induction entries with
  | nil => rfl
  | cons entry entries ih =>
    have rest := ih (List.forall_mem_cons.mp agree).2
    rw [slots] at rest ⊢
    rw [List.filter_cons, slots, List.filterMap_cons]
    cases found : index.slot entry.key with
    | none =>
      split
      · rw [List.filterMap_cons, found, rest]
        rfl
      · exact rest
    | some s =>
      dsimp only
      rw [List.filter_cons, agree entry List.mem_cons_self s found]
      split
      · rw [List.filterMap_cons, found, rest]
        rfl
      · exact rest

def Integrals (index : BitmapIndex) (record : Option Message) : Prop := ∀ message, record = some message → index.Integral message

private theorem positioned_entriesOf (integral : index.Integrals record) :
    ∀ entry ∈ index.entriesOf primaryKey record, index.Positioned entry.key := by
  intro entry member
  cases record with
  | none => cases member
  | some message =>
    obtain ⟨tuple, isTuple, rfl⟩ := List.mem_map.mp member
    exact positioned_of_mem (integral message rfl) isTuple

/-- The bits of a version that another version does not have. -/
def bitsOnly (index : BitmapIndex) (record other : Option Message) : List (Bytes × Nat) :=
  (index.bitsOf record).filter fun s => decide (s ∉ index.bitsOf other)

theorem mem_bitsOnly {other : Option Message} : s ∈ index.bitsOnly record other ↔ s ∈ index.bitsOf record ∧ s ∉ index.bitsOf other := by
  rw [bitsOnly, List.mem_filter, decide_eq_true_eq]

private theorem slots_uncommon {message newMessage : Message} (integral : index.Integral message) (newIntegral : index.Integral newMessage)
    (named : packables (values primaryKey) = true)
    (comparable : ∀ entry ∈ index.entriesOf primaryKey (some message), commonKey index.primaryKeyComponentPositions entry ≠ none) :
    index.slots ((index.entriesOf primaryKey (some message)).filter fun entry =>
        decide (commonKey index.primaryKeyComponentPositions entry ∉
          (index.entriesOf primaryKey (some newMessage)).map (commonKey index.primaryKeyComponentPositions))) =
      index.bitsOnly (some message) (some newMessage) := by
  rw [bitsOnly, ← @slots_entriesOf index primaryKey (some message)]
  refine slots_filter fun entry member s found => ?_
  exact decide_eq_decide.mpr (not_congr (commonKey_iff integral newIntegral named member (comparable entry member) found))

/-- An update removes the bits of the old version alone and then adds those of the new version
alone. -/
theorem update_ok (named : packables (values primaryKey) = true) (oldIntegral : index.Integrals old)
    (newIntegral : index.Integrals new) (ran : (index.update conversion primaryKey old new).run t = (.ok (), t')) :
    ∃ removed added t₁, (∀ entry ∈ removed, index.Positioned entry.key) ∧ (∀ entry ∈ added, index.Positioned entry.key) ∧
      index.slots removed = index.bitsOnly old new ∧ index.slots added = index.bitsOnly new old ∧
      (forEach (index.removeEntry conversion) removed).run t = (.ok (), t₁) ∧
      (forEach (index.addEntry conversion) added).run t₁ = (.ok (), t') := by
  rw [update] at ran
  obtain ⟨oldEntries, t₁, gotOld, ran⟩ := Tx.run_bind_eq_ok ran
  obtain ⟨newEntries, t₂, gotNew, ran⟩ := Tx.run_bind_eq_ok ran
  obtain ⟨rfl, rfl⟩ := filteredIndexEntries_ok gotOld
  obtain ⟨rfl, rfl⟩ := filteredIndexEntries_ok gotNew
  have olds := @positioned_entriesOf index primaryKey _ oldIntegral
  have news := @positioned_entriesOf index primaryKey _ newIntegral
  dsimp only at ran
  by_cases both : (old.isSome && new.isSome) = true
  · rw [if_pos both] at ran
    obtain ⟨⟨removed, added⟩, t₃, common, ran⟩ := Tx.run_bind_eq_ok ran
    obtain ⟨_, t₄, first, second⟩ := Tx.run_bind_eq_ok ran
    obtain ⟨rfl, comparable, newComparable, rfl, rfl⟩ := removeCommonEntries_ok common
    rw [Bool.and_eq_true] at both
    obtain ⟨message, rfl⟩ := Option.isSome_iff_exists.mp both.1
    obtain ⟨newMessage, rfl⟩ := Option.isSome_iff_exists.mp both.2
    have integral := oldIntegral message rfl
    have integral' := newIntegral newMessage rfl
    exact ⟨_, _, t₄, fun entry member => olds entry (List.mem_filter.mp member).1,
      fun entry member => news entry (List.mem_filter.mp member).1, slots_uncommon integral integral' named comparable,
      slots_uncommon integral' integral named newComparable, first, second⟩
  · rw [if_neg both] at ran
    obtain ⟨_, t₃, paired, ran⟩ := Tx.run_bind_eq_ok ran
    cases paired
    obtain ⟨_, t₄, first, second⟩ := Tx.run_bind_eq_ok ran
    have alone : ∀ record other : Option Message, (record.isSome && other.isSome) ≠ true →
        index.slots (index.entriesOf primaryKey record) = index.bitsOnly record other := by
      intro record other single
      rw [slots_entriesOf, bitsOnly]
      cases record with
      | none => rfl
      | some message =>
        cases other with
        | none => exact (List.filter_eq_self.mpr fun s _ => decide_eq_true List.not_mem_nil).symm
        | some other => exact absurd rfl single
    exact ⟨_, _, t₄, olds, news, alone old new both, alone new old (Bool.and_comm _ _ ▸ both), first, second⟩

/-- The bits after an update that removes from stored bitmaps. In a unique index the bits that
it adds were not set. -/
theorem update_marks (named : packables (values primaryKey) = true) (oldIntegral : index.Integrals old)
    (newIntegral : index.Integrals new) {marks : Set (Bytes × Nat)} (marked : index.Marked t.view marks)
    (stored : index.Stored t.view (index.bitsOnly old new))
    (ran : (index.update conversion primaryKey old new).run t = (.ok (), t')) :
    index.Marked t'.view (marks \ {s | s ∈ index.bitsOnly old new} ∪ {s | s ∈ index.bitsOnly new old}) ∧
      (index.unique = true → ∀ s ∈ index.bitsOnly new old, s ∉ marks) := by
  obtain ⟨removed, added, t₁, olds, news, removes, adds, first, second⟩ := update_ok named oldIntegral newIntegral ran
  rw [← removes] at stored ⊢
  have after := forEach_remove_ok olds marked stored first
  obtain ⟨final, fresh⟩ := forEach_add_ok news after second
  rw [adds] at final fresh
  refine ⟨final, fun unique s isNew isMarked => fresh unique s isNew ⟨isMarked, fun isRemoved => ?_⟩⟩
  exact (mem_bitsOnly.mp isNew).2 (mem_bitsOnly.mp (removes ▸ isRemoved)).1

end Updates

/-! ## Histories -/

section Histories

variable {PrimaryKey : Type} {conversion : FloatConversion} {tupleOf : PrimaryKey → List Element}

def currentBits (index : BitmapIndex) (records : Table PrimaryKey Message) : List (Bytes × Nat) :=
  records.rows.flatMap fun row => index.slotsOf row.2

/-- No two records hold a position of a group. -/
def Apart (index : BitmapIndex) (row other : PrimaryKey × Message) : Prop := ∀ s ∈ index.slotsOf row.2, s ∉ index.slotsOf other.2

/-- The bits that are set are those of current records; in a unique index all of them, and no
two records have one in common. -/
structure Tracks (index : BitmapIndex) (maintained : Maintained PrimaryKey) : Prop where
  integral : ∀ row ∈ maintained.records.rows, index.Integral row.2
  marked : ∃ marks, index.Marked maintained.tx.view marks ∧ (∀ s ∈ marks, s ∈ index.currentBits maintained.records) ∧
    (index.unique = true → ∀ s ∈ index.currentBits maintained.records, s ∈ marks)
  apart : index.unique = true → maintained.records.rows.Pairwise index.Apart

section Rows

variable (k : PrimaryKey) (record : Option Message) (rest : List (PrimaryKey × Message))

private theorem mem_bits_rows {s : Bytes × Nat} :
    (s ∈ ((record.toList.map fun message => (k, message)) ++ rest).flatMap fun row => index.slotsOf row.2) ↔
      s ∈ index.bitsOf record ∨ s ∈ rest.flatMap fun row => index.slotsOf row.2 := by
  rw [List.flatMap_append, List.mem_append]
  cases record with
  | none => rfl
  | some message => exact or_congr_left (by rw [Option.toList, List.map_singleton, List.flatMap_singleton]; rfl)

private theorem apart_rows_iff :
    ((record.toList.map fun message => (k, message)) ++ rest).Pairwise index.Apart ↔
      rest.Pairwise index.Apart ∧ ∀ s ∈ index.bitsOf record, s ∉ rest.flatMap fun row => index.slotsOf row.2 := by
  cases record with
  | none => exact (and_iff_left nofun).symm
  | some message =>
    refine List.pairwise_cons.trans (and_comm.trans (and_congr_right fun _ => ⟨fun apart s isBit isOther => ?_,
      fun apart other isOther s isBit again => apart s isBit (List.mem_flatMap.mpr ⟨other, isOther, again⟩)⟩))
    obtain ⟨other, isRow, again⟩ := List.mem_flatMap.mp isOther
    exact apart other isRow s isBit again

end Rows

section Others

variable [DecidableEq PrimaryKey] (records : Table PrimaryKey Message) (k : PrimaryKey)

/-- The bits of the records with another primary key. -/
def otherBits (index : BitmapIndex) : List (Bytes × Nat) :=
  (records.rows.filter fun row => decide (row.1 ≠ k)).flatMap fun row => index.slotsOf row.2

private theorem mem_currentBits {s : Bytes × Nat} :
    s ∈ index.currentBits records ↔ s ∈ index.bitsOf (records.get k) ∨ s ∈ index.otherBits records k :=
  ((records.perm_get k).flatMap_right _).mem_iff.trans (mem_bits_rows _ _ _)

private theorem mem_currentBits_set (new : Option Message) {s : Bytes × Nat} :
    s ∈ index.currentBits (records.set k new) ↔ s ∈ index.bitsOf new ∨ s ∈ index.otherBits records k :=
  mem_bits_rows _ _ _

/-- A record keeps apart from the others if the bits that are new to it are not theirs. -/
private theorem apart_set {new : Option Message} (apart : records.rows.Pairwise index.Apart)
    (fresh : ∀ s ∈ index.bitsOnly new (records.get k), s ∉ index.otherBits records k) :
    (∀ s ∈ index.bitsOf (records.get k), s ∉ index.otherBits records k) ∧
      (records.set k new).rows.Pairwise index.Apart := by
  obtain ⟨others, own⟩ := (apart_rows_iff _ _ _).mp
    (((records.perm_get k).pairwise_iff fun {row other} apart s inside first => apart s first inside).mp apart)
  refine ⟨own, (apart_rows_iff _ _ _).mpr ⟨others, fun s isNew => ?_⟩⟩
  by_cases isBefore : s ∈ index.bitsOf (records.get k)
  · exact own s isBefore
  · exact fresh s (mem_bitsOnly.mpr ⟨isNew, isBefore⟩)

end Others

private theorem tracks_start {d : Snapshot} (unused : ∀ p, d.get (index.indexSubspace ++ p) = none) :
    index.Tracks (Maintained.start d : Maintained PrimaryKey) := by
  refine ⟨nofun, ⟨∅, ⟨fun p bytes found => ?_, fun p bit => ?_⟩, nofun, fun _ => nofun⟩, fun _ => .nil⟩
  · cases (unused p).symm.trans found
  · have none_ : (Maintained.start d : Maintained PrimaryKey).tx.view.get (index.indexSubspace ++ p) = none := unused p
    rw [none_]
    exact ⟨nofun, nofun⟩

variable [DecidableEq PrimaryKey]

def updateRecord (index : BitmapIndex) (conversion : FloatConversion) (tupleOf : PrimaryKey → List Element) :
    Update PrimaryKey BitmapError :=
  fun primaryKey old new => index.update conversion (tupleOf primaryKey) old new

/-- An update has integer positions and removes from stored bitmaps. -/
def Allowed (index : BitmapIndex) (maintained : Maintained PrimaryKey) (change : Change PrimaryKey) : Prop :=
  ∀ primaryKey new, change = .update primaryKey new →
    index.Integrals new ∧ index.Stored maintained.tx.view (index.bitsOnly (maintained.records.get primaryKey) new)

private theorem Tracks.updated (named : ∀ primaryKey, packables (values (tupleOf primaryKey)) = true)
    {maintained : Maintained PrimaryKey} (tracks : index.Tracks maintained) {k : PrimaryKey} {new : Option Message}
    (newIntegral : index.Integrals new)
    (stored : index.Stored maintained.tx.view (index.bitsOnly (maintained.records.get k) new)) {t' : Transaction}
    (ran : (index.update conversion (tupleOf k) (maintained.records.get k) new).run maintained.tx = (.ok (), t')) :
    index.Tracks ⟨maintained.records.set k new, t'⟩ := by
  obtain ⟨marks, marked, current, all⟩ := tracks.marked
  obtain ⟨final, fresh⟩ := update_marks (named k)
    (fun message found => tracks.integral _ (Table.mem_of_get found)) newIntegral marked stored ran
  have apart (unique : index.unique = true) := apart_set maintained.records k (tracks.apart unique)
    fun s isNew isOther => fresh unique s isNew (all unique s ((mem_currentBits _ k).mpr (.inr isOther)))
  refine ⟨fun row member => ?_, ⟨_, final, fun s isMark => ?_, fun unique s isBit => ?_⟩, fun unique => (apart unique).2⟩
  · cases Table.mem_set member with
    | inl earlier => exact tracks.integral row earlier
    | inr isNew => exact newIntegral row.2 isNew
  · rw [mem_currentBits_set]
    cases isMark with
    | inr added => exact .inl (mem_bitsOnly.mp added).1
    | inl stays =>
      refine ((mem_currentBits _ k).mp (current s stays.1)).imp_left fun isBit => ?_
      exact not_not.mp fun gone => stays.2 (mem_bitsOnly.mpr ⟨isBit, gone⟩)
  · cases (mem_currentBits_set _ _ _).mp isBit with
    | inl isNew =>
      by_cases isBefore : s ∈ index.bitsOf (maintained.records.get k)
      · exact .inl ⟨all unique s ((mem_currentBits _ k).mpr (.inl isBefore)), fun removed => (mem_bitsOnly.mp removed).2 isNew⟩
      · exact .inr (mem_bitsOnly.mpr ⟨isNew, isBefore⟩)
    | inr isOther =>
      refine .inl ⟨all unique s ((mem_currentBits _ k).mpr (.inr isOther)), fun removed => ?_⟩
      exact (apart unique).1 s (mem_bitsOnly.mp removed).1 isOther

theorem Tracks.change (named : ∀ primaryKey, packables (values (tupleOf primaryKey)) = true) {maintained : Maintained PrimaryKey}
    {change : Change PrimaryKey} (allowed : index.Allowed maintained change)
    (tracks : index.Tracks maintained) : index.Tracks (change.run (index.updateRecord conversion tupleOf) maintained) := by
  cases change with
  | commit => exact ⟨tracks.integral, tracks.marked, tracks.apart⟩
  | update primaryKey new =>
    obtain ⟨newIntegral, stored⟩ := allowed primaryKey new rfl
    rw [Change.run, updateRecord]
    cases ran : (index.update conversion (tupleOf primaryKey) (maintained.records.get primaryKey) new).run maintained.tx with
    | mk outcome t' =>
      cases outcome with
      | error cause => exact tracks
      | ok done => exact tracks.updated named newIntegral stored ran

private theorem slot_eq_some_iff {values : List Element} (positioned : index.Positioned values) {p : Bytes} {bit : Nat} :
    index.slot values = some (p, bit) ↔ ∃ position : Int64, values[index.groupPrefixSize]? = some (.int64 position) ∧
      pack (values.take index.groupPrefixSize ++ [.int64 (index.aligned position)]) = .ok p ∧ index.bitOf position = bit := by
  have packs : ∀ position, pack (values.take index.groupPrefixSize ++ [.int64 (index.aligned position)]) =
      .ok (index.bitmapKey (values.take index.groupPrefixSize) position) := by
    intro position
    rw [bitmapKey, pack_eq (packables_bitmapKey (packable_take positioned.packable _) position)]
    rfl
  constructor
  · intro found
    rw [slot] at found
    split at found
    case h_2 => cases found
    case h_1 position isPosition =>
      cases found
      exact ⟨position, isPosition, packs position, rfl⟩
  · intro exists_
    obtain ⟨position, isPosition, isKey, isBit⟩ := exists_
    rw [packs position] at isKey
    rw [slot, isPosition, ← Except.ok.inj isKey, ← isBit]

/-- Over every history of integer positions that removes from stored bitmaps, a bit that is set
stands for a position that a current record holds; in a unique index the bits of all these
positions are set. -/
theorem no_phantom_positions (named : ∀ primaryKey, packables (values (tupleOf primaryKey)) = true) {d : Snapshot}
    (unused : ∀ p, d.get (index.indexSubspace ++ p) = none) {changes : List (Change PrimaryKey)}
    (integral : ∀ primaryKey message, Change.update primaryKey (some message) ∈ changes → index.Integral message)
    (stored : ∀ n primaryKey new, changes[n]? = some (.update primaryKey new) →
      index.Stored (runChanges (index.updateRecord conversion tupleOf) (.start d) (changes.take n)).tx.view
        (index.bitsOnly
          ((runChanges (index.updateRecord conversion tupleOf) (.start d) (changes.take n)).records.get primaryKey) new))
    (p : Bytes) (bit : Nat) :
    ((((runChanges (index.updateRecord conversion tupleOf) (.start d) changes).tx.view.get (index.indexSubspace ++ p)).elim false
        fun bitmap => bitAt bitmap bit) = true →
      ∃ row ∈ (runChanges (index.updateRecord conversion tupleOf) (.start d) changes).records.rows,
        ∃ values ∈ index.root.keyTuples row.2, ∃ position : Int64, values[index.groupPrefixSize]? = some (.int64 position) ∧
          pack (values.take index.groupPrefixSize ++ [.int64 (index.aligned position)]) = .ok p ∧ index.bitOf position = bit) ∧
    (index.unique = true →
      (∃ row ∈ (runChanges (index.updateRecord conversion tupleOf) (.start d) changes).records.rows,
        ∃ values ∈ index.root.keyTuples row.2, ∃ position : Int64, values[index.groupPrefixSize]? = some (.int64 position) ∧
          pack (values.take index.groupPrefixSize ++ [.int64 (index.aligned position)]) = .ok p ∧ index.bitOf position = bit) →
      (((runChanges (index.updateRecord conversion tupleOf) (.start d) changes).tx.view.get (index.indexSubspace ++ p)).elim false
        fun bitmap => bitAt bitmap bit) = true) := by
  have tracks : index.Tracks (runChanges (index.updateRecord conversion tupleOf) (.start d) changes) := by
    refine runChanges_keeps (fun _ _ allowed tracks => tracks.change named allowed)
      (fun n change found primaryKey new isChange => ⟨fun message isNew => ?_, ?_⟩) (tracks_start unused)
    · exact integral primaryKey message (List.mem_of_getElem? (isNew ▸ isChange ▸ found))
    · exact stored n primaryKey new (isChange ▸ found)
  obtain ⟨marks, marked, current, all⟩ := tracks.marked
  have members : (p, bit) ∈ index.currentBits (runChanges (index.updateRecord conversion tupleOf) (.start d) changes).records ↔ _ :=
    List.mem_flatMap.trans (exists_congr fun row => and_congr_right fun isRow => List.mem_filterMap.trans
      (exists_congr fun values => and_congr_right fun isTuple =>
        slot_eq_some_iff (positioned_of_mem (tracks.integral row isRow) isTuple)))
  rw [marked.bits p bit, ← members]
  exact ⟨current _, fun unique => all unique _⟩

/-! ### Positions -/

def positions (unique : Bool) (repeated : Bool) : BitmapIndex where
  root := ⟨if repeated then .fanOut "positions" else .ofField "position", 1, by cases repeated <;> decide⟩
  entrySize := 8
  unique
  indexSubspace := [0x02]
  primaryKeyComponentPositions := none
  grouped := rfl
  positive := by decide
  small := by decide

def at_ (position : Int64) : Message := .mk [("position", .scalar (.int position) true)]

def atAll (positions : List Int64) : Message := .mk [("positions", .scalars (positions.map .int))]

def keyOf (key : Int64) : List Element := [.int64 key]

/-- Records that held one position, or a record that came to hold its position twice in a
unique index, leave bits behind when they are deleted. -/
theorem phantom_positions :
    ((runChanges ((positions false false).updateRecord noFloats keyOf) (.start noRows)
        [.update 1 (some (at_ 5)), .update 2 (some (at_ 5)), .update 1 none, .update 2 none]).records.rows.length = 0 ∧
      (runChanges ((positions false false).updateRecord noFloats keyOf) (.start noRows)
        [.update 1 (some (at_ 5)), .update 2 (some (at_ 5)), .update 1 none, .update 2 none]).tx.view.get [0x02, 0x14] =
          some [0xdf]) ∧
    ((runChanges ((positions true true).updateRecord noFloats keyOf) (.start noRows)
        [.update 1 (some (atAll [5])), .update 1 (some (atAll [5, 5])), .update 1 none]).records.rows.length = 0 ∧
      (runChanges ((positions true true).updateRecord noFloats keyOf) (.start noRows)
        [.update 1 (some (atAll [5])), .update 1 (some (atAll [5, 5])), .update 1 none]).tx.view.get [0x02, 0x14] =
          some [0xdf]) := by
  decide +kernel

def sharedChanges : List (Change Int64) :=
  [.update 1 (some (at_ 5)), .update 2 (some (at_ 5)), .update 3 (some (at_ 6)), .update 1 none, .update 2 none]

private theorem keyTuples_at (position : Int64) : (positions false false).root.keyTuples (at_ position) = [[.int64 position]] := rfl

/-- Two records of one position, beside a third one that keeps their bitmap. -/
theorem position_never_held :
    ¬ ((runChanges ((positions false false).updateRecord noFloats keyOf) (.start noRows) sharedChanges).tx.view.get
        ((positions false false).indexSubspace ++ [0x14])).elim false (fun bitmap => bitAt bitmap 7) = true := by
  have messages : ∀ primaryKey message, Change.update primaryKey (some message) ∈ sharedChanges →
      ∃ position, (positions false false).bitOf position ≠ 7 ∧ message = at_ position := by
    intro primaryKey message member
    simp only [sharedChanges, List.mem_cons, Change.update.injEq, Option.some.injEq, List.not_mem_nil, or_false,
      reduceCtorEq, and_false] at member
    obtain ⟨_, rfl⟩ | ⟨_, rfl⟩ | ⟨_, rfl⟩ := member <;> exact ⟨_, by decide, rfl⟩
  have packable : ∀ key, packables (values (keyOf key)) = true := fun key =>
    packables_iff.mpr fun element member => by
      rw [List.mem_singleton.mp member]
      exact packable_int64 key
  intro isSet
  obtain ⟨row, isRow, values, isTuple, position, atPosition, _, isBit⟩ :=
    (no_phantom_positions packable (fun _ => rfl) (fun primaryKey message member => by
      obtain ⟨position, _, rfl⟩ := messages primaryKey message member
      intro values isTuple
      rw [keyTuples_at, List.mem_singleton] at isTuple
      exact .inr ⟨position, isTuple ▸ rfl⟩) (fun n primaryKey new found => by
      obtain _ | _ | _ | _ | _ | n := n <;> cases found <;> decide +kernel) [0x14] 7).1 isSet
  obtain ⟨stored, apart, isStored⟩ := records_of_changes messages row isRow
  rw [isStored, keyTuples_at, List.mem_singleton] at isTuple
  rw [isTuple] at atPosition
  cases atPosition
  exact apart isBit

end Histories

end BitmapIndex

end FdbGo.RecordLayer
