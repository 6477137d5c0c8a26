import FdbGo.RecordLayer.AtomicMutation
import FdbGo.RecordLayer.KeyExpressionProperties
import FdbGo.RecordLayer.RankedSetProperties

/-! What the maintainer of a counting or summing index does to the stored counts: each
entry shifts the count of its group by its weight, and entries common to the old and the
new record cancel. -/

set_option autoImplicit false

namespace FdbGo.RecordLayer

open Client Foundation FdbGo.Tuple AtomicMutationEntry

/-! ## Stored counts -/

def storedCount (d : Snapshot) (k : Key) : Int64 := decodeRecordCount (d.get k)

def Counting (d : Snapshot) (k : Key) : Prop := d.get k = none ∨ ∃ count, d.get k = some (encodeRecordCount count)

/-- A stored count is read back. -/
theorem decodeRecordCount_encode (count : Int64) : decodeRecordCount (some (encodeRecordCount count)) = count := by
  rw [decodeRecordCount, Option.getD_some, show decode (encodeRecordCount count) = _ from RankedSet.decode_rsEncodeLong count,
    UInt64.ofNat_toNat]
  rfl

private theorem addCount (value : Option Bytes) (holds : value = none ∨ ∃ count, value = some (encodeRecordCount count))
    (change : Int64) :
    atomicMeaning .addValue (encodeRecordCount change) value = some (encodeRecordCount (decodeRecordCount value + change)) := by
  cases holds with
  | inl isNone =>
    subst isNone
    -- an absent count is added to as zero bytes are
    have zero : atomicMeaning .addValue (encodeRecordCount change) none =
        atomicMeaning .addValue (encodeRecordCount change) (some (encodeRecordCount 0)) := by
      have bytes : copyInto (encodeRecordCount change).length [] =
          copyInto (encodeRecordCount change).length (encodeRecordCount 0) := by
        rw [show (encodeRecordCount change).length = 8 from RankedSet.length_rsEncodeLong change]
        decide
      simp only [atomicMeaning, applyAtomic, doAdd, existing, Option.getD_none, Option.getD_some, bytes]
    rw [zero]
    exact RankedSet.addCounts 0 change
  | inr isSome =>
    obtain ⟨count, rfl⟩ := isSome
    rw [decodeRecordCount_encode]
    exact RankedSet.addCounts count change

/-- The counts behind a subspace's bytes change by the given amounts. -/
def Shifts (ss : Bytes) (d d' : Snapshot) (change : Bytes → Int) : Prop :=
  ∀ p, Counting d (ss ++ p) →
    Counting d' (ss ++ p) ∧ storedCount d' (ss ++ p) = storedCount d (ss ++ p) + Int64.ofInt (change p)

namespace Shifts

variable {ss : Bytes} {d d' d'' : Snapshot} {change others : Bytes → Int}

theorem refl (none_ : ∀ p, change p = 0) : Shifts ss d d change := by
  intro p counting
  rw [none_ p]
  exact ⟨counting, (Int64.add_zero _).symm⟩

theorem trans (first : Shifts ss d d' change) (second : Shifts ss d' d'' others) :
    Shifts ss d d'' fun p => change p + others p := by
  intro p counting
  have one := first p counting
  have two := second p one.1
  refine ⟨two.1, ?_⟩
  rw [two.2, one.2, Int64.ofInt_add, Int64.add_assoc]

theorem ofInt_congr (shifts : Shifts ss d d' change) (same : ∀ p, Int64.ofInt (change p) = Int64.ofInt (others p)) :
    Shifts ss d d' others := by
  intro p counting
  rw [← same p]
  exact shifts p counting

theorem congr (shifts : Shifts ss d d' change) (same : ∀ p, change p = others p) : Shifts ss d d' others :=
  shifts.ofInt_congr fun p => congrArg Int64.ofInt (same p)

end Shifts

def changeAt (packed : Bytes) (change : Int) (p : Bytes) : Int := if packed = p then change else 0

theorem shifts_add (ss packed : Bytes) (t : Transaction) (change : Int64) :
    Shifts ss t.view (t.mutate { typ := .addValue, key := ss ++ packed, value := encodeRecordCount change }).view
      (changeAt packed change.toInt) := by
  intro p counting
  rw [Transaction.view_mutate, Counting, storedCount, Snapshot.get_apply]
  simp only [Mutation.apply, Function.update_apply, List.append_cancel_left_eq, changeAt, eq_comm (a := p)]
  by_cases same : packed = p
  · subst same
    rw [if_pos rfl, if_pos rfl, addCount _ counting, Int64.ofInt_toInt]
    exact ⟨.inr ⟨_, rfl⟩, decodeRecordCount_encode _⟩
  · rw [if_neg same, if_neg same]
    exact ⟨counting, (Int64.add_zero _).symm⟩

private theorem shifts_compareAndClear (ss packed : Bytes) (t : Transaction) :
    Shifts ss t.view
      (t.mutate { typ := .compareAndClear, key := ss ++ packed, value := encodeRecordCount 0 }).view fun _ => 0 := by
  intro p counting
  rw [Transaction.view_mutate, Counting, storedCount, Snapshot.get_apply]
  simp only [Mutation.apply, Function.update_apply, List.append_cancel_left_eq, eq_comm (a := p)]
  by_cases same : packed = p
  · subst same
    rw [if_pos rfl, storedCount]
    cases counting with
    | inl absent =>
      rw [absent]
      exact ⟨.inl rfl, (Int64.add_zero _).symm⟩
    | inr present =>
      obtain ⟨count, found⟩ := present
      rw [found]
      by_cases zero : encodeRecordCount count = encodeRecordCount 0
      · have cleared : atomicMeaning .compareAndClear (encodeRecordCount 0) (some (encodeRecordCount count)) = none := by
          simp only [atomicMeaning, applyAtomic, doCompareAndClear, if_pos zero]
        rw [cleared, zero]
        exact ⟨.inl rfl, rfl⟩
      · have kept : atomicMeaning .compareAndClear (encodeRecordCount 0) (some (encodeRecordCount count)) =
            some (encodeRecordCount count) := by
          simp only [atomicMeaning, applyAtomic, doCompareAndClear, if_neg zero, existing_copied]
        rw [kept]
        exact ⟨.inr ⟨count, rfl⟩, (Int64.add_zero _).symm⟩
  · rw [if_neg same]
    exact ⟨counting, (Int64.add_zero _).symm⟩

/-! ## Entries -/

def signed (remove : Bool) (change : Int) : Int := if remove then -change else change

private theorem signed_add (remove : Bool) (change other : Int) :
    signed remove (change + other) = signed remove change + signed remove other := by
  cases remove with
  | false => rfl
  | true => exact Int.neg_add

private theorem changeAt_signed (packed : Bytes) (remove : Bool) (change : Int) (p : Bytes) :
    changeAt packed (signed remove change) p = signed remove (changeAt packed change p) := by
  rw [changeAt, changeAt]
  cases remove <;> split <;> rfl

namespace AtomicIndex

variable (index : AtomicIndex)

def weight (entry : AtomicMutationEntry) : Int64 :=
  match index.type with
  | .count | .countNotNull | .countUpdates => 1
  | .sum => decodeRecordCount (some entry.param)

def weightAt (entries : List AtomicMutationEntry) (p : Bytes) : Int :=
  (entries.map fun entry => changeAt entry.packed (index.weight entry).toInt p).sum

private theorem amount_eq (entry : AtomicMutationEntry) (remove : Bool) :
    index.amount entry remove = encodeRecordCount (if remove then -index.weight entry else index.weight entry) := rfl

theorem weightAt_cons (entry : AtomicMutationEntry) (entries : List AtomicMutationEntry) (p : Bytes) :
    index.weightAt (entry :: entries) p = changeAt entry.packed (index.weight entry).toInt p + index.weightAt entries p :=
  List.sum_cons

theorem clearIfZero_run (packed : Bytes) (t : Transaction) : ∃ t',
    (index.clearIfZero (index.indexSubspace ++ packed)).run t = (.ok (), t') ∧
      Shifts index.indexSubspace t.view t'.view fun _ => 0 := by
  rw [clearIfZero]
  cases index.clearWhenZero with
  | true => exact ⟨_, rfl, shifts_compareAndClear _ packed t⟩
  | false => exact ⟨t, rfl, .refl fun _ => rfl⟩

theorem add_run (packed : Bytes) (change : Int64) (t : Transaction) : ∃ t',
    (do
      Tx.add (index.indexSubspace ++ packed) (encodeRecordCount change)
      index.clearIfZero (index.indexSubspace ++ packed) : Tx AtomicIndexError Unit).run t = (.ok (), t') ∧
      Shifts index.indexSubspace t.view t'.view (changeAt packed change.toInt) := by
  obtain ⟨t', ran, cleared⟩ := index.clearIfZero_run packed
    (t.mutate { typ := .addValue, key := index.indexSubspace ++ packed, value := encodeRecordCount change })
  refine ⟨t', ran, ((shifts_add _ packed t change).trans cleared).congr fun p => ?_⟩
  exact Int.add_zero _

variable {index}

theorem applyMutation_run (counts : index.type ≠ .countUpdates) (entry : AtomicMutationEntry) (packed : Bytes) (remove : Bool)
    (t : Transaction) : ∃ t', (index.applyMutation (index.indexSubspace ++ packed) entry remove).run t = (.ok (), t') ∧
      Shifts index.indexSubspace t.view t'.view (changeAt packed (signed remove (index.weight entry).toInt)) := by
  rw [applyMutation, if_neg counts, amount_eq]
  obtain ⟨t', ran, shifts⟩ := index.add_run packed (if remove then -index.weight entry else index.weight entry) t
  refine ⟨t', ran, shifts.ofInt_congr fun p => ?_⟩
  rw [changeAt, changeAt]
  cases remove with
  | false => rfl
  | true =>
    split
    · simp only [signed, if_true, Int64.ofInt_neg, Int64.ofInt_toInt]
    · rfl

def Packables (entries : List AtomicMutationEntry) : Prop := ∀ entry ∈ entries, packables (values entry.groupKey) = true

/-- A group has its key in the subspace of the index. -/
theorem fdbKey_run {groupKey : List Element} (packable : packables (values groupKey) = true) (param : Bytes) (t : Transaction) :
    (index.fdbKey groupKey).run t =
      (.ok (index.indexSubspace ++ packed ⟨groupKey, param⟩), t) := by
  rw [fdbKey, subspacePack_eq _ packable, packed, pack_eq packable]
  rfl

theorem applyAll_run (counts : index.type ≠ .countUpdates) (remove : Bool) (entries : List AtomicMutationEntry)
    (packable : Packables entries) (t : Transaction) : ∃ t', (index.applyAll remove entries).run t = (.ok (), t') ∧
      Shifts index.indexSubspace t.view t'.view fun p => signed remove (index.weightAt entries p) := by
  induction entries generalizing t with
  | nil =>
    refine ⟨t, rfl, .refl fun p => ?_⟩
    cases remove <;> rfl
  | cons entry entries ih =>
    obtain ⟨t₁, applied, one⟩ := applyMutation_run counts entry entry.packed remove t
    obtain ⟨t₂, rest, two⟩ := ih (List.forall_mem_cons.mp packable).2 t₁
    refine ⟨t₂, ?_, (one.trans two).congr fun p => ?_⟩
    · rw [applyAll, Tx.run_bind_ok (fdbKey_run (packable entry List.mem_cons_self) entry.param t), Tx.run_bind_ok applied, rest]
    · rw [weightAt_cons, signed_add, changeAt_signed]

/-! ## Common entries -/

private theorem changeAt_of_ne {packed p : Bytes} (apart : packed ≠ p) (change : Int) : changeAt packed change p = 0 := if_neg apart

private theorem weightAt_filter (entries : List AtomicMutationEntry) (keep : Bytes → Bool) (p : Bytes) :
    index.weightAt (entries.filter fun entry => keep entry.packed) p = if keep p then index.weightAt entries p else 0 := by
  induction entries with
  | nil => split <;> rfl
  | cons entry entries ih =>
    rw [List.filter_cons, weightAt_cons]
    by_cases same : entry.packed = p
    · rw [same]
      cases kept : keep p with
      | true =>
        rw [if_pos rfl, weightAt_cons, same, ih, kept]
        rfl
      | false =>
        rw [if_neg Bool.false_ne_true, ih, kept]
        rfl
    · have rest : index.weightAt (if keep entry.packed = true then
          entry :: entries.filter (fun entry => keep entry.packed) else entries.filter fun entry => keep entry.packed) p =
          index.weightAt (entries.filter fun entry => keep entry.packed) p := by
        split
        · rw [weightAt_cons, changeAt_of_ne same, Int.zero_add]
        · rfl
      rw [rest, ih, changeAt_of_ne same, Int.zero_add]

variable {entries old new : List AtomicMutationEntry}

private theorem weightAt_eq_count (unit : ∀ entry, index.weight entry = 1) (entries : List AtomicMutationEntry) (p : Bytes) :
    index.weightAt entries p = (entries.map packed).count p := by
  induction entries with
  | nil => rfl
  | cons entry entries ih =>
    rw [weightAt_cons, ih, unit, changeAt, List.map_cons, List.count_cons]
    simp only [beq_iff_eq]
    split
    · push_cast
      exact Int.add_comm _ _
    · exact Int.zero_add _

theorem weightAt_eq_zero_iff (unit : ∀ entry, index.weight entry = 1) {p : Bytes} :
    index.weightAt entries p = 0 ↔ p ∉ entries.map packed := by
  rw [weightAt_eq_count unit, Int.natCast_eq_zero, List.count_eq_zero]

/-- A group that both lists have entries of is dropped from both, however many they are. -/
theorem weightAt_removeCommonByKey (unit : ∀ entry, index.weight entry = 1) {p : Bytes}
    (balanced : index.weightAt old p = 0 ∨ index.weightAt new p = 0 ∨ index.weightAt old p = index.weightAt new p) :
    index.weightAt (removeCommonAtomicByKey old new).2 p - index.weightAt (removeCommonAtomicByKey old new).1 p =
      index.weightAt new p - index.weightAt old p := by
  rw [removeCommonAtomicByKey]
  dsimp only
  rw [weightAt_filter old fun key => decide (key ∉ new.map packed),
    weightAt_filter new fun key => decide (key ∉ (old.map packed).filter fun key =>
      decide (key ∈ new.map packed))]
  simp only [List.mem_filter, decide_eq_true_eq]
  by_cases inOld : p ∈ old.map packed <;> by_cases inNew : p ∈ new.map packed
  · have same : index.weightAt old p = index.weightAt new p := by
      obtain none_ | none_ | same := balanced
      · exact absurd inOld ((weightAt_eq_zero_iff unit).mp none_)
      · exact absurd inNew ((weightAt_eq_zero_iff unit).mp none_)
      · exact same
    rw [if_neg (by simp [inOld, inNew]), if_neg (by simp [inNew]), same, Int.sub_self, Int.sub_self]
  · rw [if_pos (by simp [inNew]), if_pos inNew]
  · rw [if_pos (by simp [inOld]), if_neg (by simp [inNew]), (weightAt_eq_zero_iff unit).mpr inOld]
  · rw [if_pos (by simp [inNew]), if_pos inNew]

def keyWeightAt (keys : List (Bytes × Bytes)) (p : Bytes) : Int :=
  (keys.map fun key => changeAt key.1 (decodeRecordCount (some key.2)).toInt p).sum

private theorem weightAt_eq_keys (sums : index.type = .sum) (entries : List AtomicMutationEntry) (p : Bytes) :
    index.weightAt entries p = keyWeightAt (entries.map entryKey) p := by
  rw [weightAt, keyWeightAt, List.map_map]
  simp only [weight, sums]
  rfl

private theorem keyWeightAt_of_perm {keys first second : List (Bytes × Bytes)} (same : keys.Perm (first ++ second)) (p : Bytes) :
    keyWeightAt keys p = keyWeightAt first p + keyWeightAt second p := by
  rw [keyWeightAt, (same.map _).sum_eq, List.map_append, List.sum_append]
  rfl

private theorem matchOld_perm (newKeys : List (Bytes × Bytes)) (old : List AtomicMutationEntry) (common : List (Bytes × Bytes))
    (few : ∀ key, common.count key ≤ newKeys.count key) :
    (∀ key, (matchOld newKeys old common).2.count key ≤ newKeys.count key) ∧
      (old.map entryKey ++ common).Perm ((matchOld newKeys old common).1.map entryKey ++ (matchOld newKeys old common).2) := by
  induction old generalizing common with
  | nil => exact ⟨few, .refl _⟩
  | cons entry old ih =>
    rw [matchOld]
    by_cases more : common.count (entryKey entry) < newKeys.count (entryKey entry)
    · rw [if_pos more]
      have next : ∀ key, (entryKey entry :: common).count key ≤ newKeys.count key := by
        intro key
        rw [List.count_cons]
        by_cases same : entryKey entry = key
        · subst same
          simp only [BEq.rfl, if_true]
          exact more
        · simpa [same] using few key
      refine ⟨(ih _ next).1, ?_⟩
      rw [List.map_cons]
      exact List.perm_middle.symm.trans (ih _ next).2
    · rw [if_neg more]
      exact ⟨(ih common few).1, (ih common few).2.cons _⟩

private theorem dropCommon_perm (new : List AtomicMutationEntry) (common : List (Bytes × Bytes))
    (few : ∀ key, common.count key ≤ (new.map entryKey).count key) :
    (new.map entryKey).Perm ((dropCommon new common).map entryKey ++ common) := by
  induction new generalizing common with
  | nil =>
    have none_ : common = [] := List.eq_nil_iff_forall_not_mem.mpr fun key member =>
      absurd (few key) (Nat.not_le_of_lt (List.count_pos_iff.mpr member))
    rw [none_]
    exact .refl _
  | cons entry new ih =>
    rw [dropCommon]
    by_cases member : entryKey entry ∈ common
    · rw [if_pos member]
      have rest : ∀ key, (common.erase (entryKey entry)).count key ≤ (new.map entryKey).count key := by
        intro key
        have bound := few key
        rw [List.map_cons, List.count_cons] at bound
        rw [List.count_erase]
        by_cases same : entryKey entry = key
        · subst same
          simp only [BEq.rfl, if_true] at bound ⊢
          omega
        · simpa [same] using bound
      exact ((ih _ rest).cons _).trans (List.perm_middle.symm.trans ((List.perm_cons_erase member).symm.append_left _))
    · rw [if_neg member]
      refine (ih common fun key => ?_).cons _
      have bound := few key
      rw [List.map_cons, List.count_cons] at bound
      by_cases same : entryKey entry = key
      · subst same
        rw [List.count_eq_zero_of_not_mem member]
        exact Nat.zero_le _
      · simpa [same] using bound

private theorem weightAt_removeCommonByKeyAndValue (sums : index.type = .sum) (old new : List AtomicMutationEntry) (p : Bytes) :
    index.weightAt (removeCommonAtomicByKeyAndValue old new).2 p - index.weightAt (removeCommonAtomicByKeyAndValue old new).1 p =
      index.weightAt new p - index.weightAt old p := by
  have matched := matchOld_perm (new.map entryKey) old [] fun key => Nat.zero_le _
  have dropped := dropCommon_perm new (matchOld (new.map entryKey) old []).2 matched.1
  rw [List.append_nil] at matched
  simp only [weightAt_eq_keys sums]
  rw [keyWeightAt_of_perm matched.2, keyWeightAt_of_perm dropped, removeCommonAtomicByKeyAndValue]
  dsimp only
  omega

/-- In each group that two versions of a record both have entries of, a count has the same
number of them. -/
def BalancedEntries (index : AtomicIndex) (old new : List AtomicMutationEntry) : Prop :=
  index.type ≠ .sum → ∀ p, index.weightAt old p = 0 ∨ index.weightAt new p = 0 ∨ index.weightAt old p = index.weightAt new p

theorem weight_eq_one (counts : index.type ≠ .sum) (entry : AtomicMutationEntry) : index.weight entry = 1 := by
  rw [weight]
  cases isType : index.type with
  | sum => exact absurd isType counts
  | count | countNotNull | countUpdates => rfl

private theorem weightAt_removeCommon (balanced : index.BalancedEntries old new) (p : Bytes) :
    index.weightAt (index.removeCommon old new).2 p - index.weightAt (index.removeCommon old new).1 p =
      index.weightAt new p - index.weightAt old p := by
  rw [removeCommon]
  cases isType : index.type with
  | countUpdates => rfl
  | sum => exact weightAt_removeCommonByKeyAndValue isType old new p
  | count | countNotNull =>
    have noSum : index.type ≠ .sum := by
      rw [isType]
      decide
    exact weightAt_removeCommonByKey (weight_eq_one noSum) (balanced noSum p)

private theorem matchOld_sublist (newKeys : List (Bytes × Bytes)) (old : List AtomicMutationEntry)
    (common : List (Bytes × Bytes)) : (matchOld newKeys old common).1.Sublist old := by
  induction old generalizing common with
  | nil => exact .slnil
  | cons first old ih =>
    rw [matchOld]
    split
    · exact (ih _).cons _
    · exact (ih _).cons_cons _

private theorem dropCommon_sublist (new : List AtomicMutationEntry) (common : List (Bytes × Bytes)) :
    (dropCommon new common).Sublist new := by
  induction new generalizing common with
  | nil => exact .slnil
  | cons first new ih =>
    rw [dropCommon]
    split
    · exact (ih _).cons _
    · exact (ih _).cons_cons _

private theorem mem_of_removeCommon (index : AtomicIndex) (old new : List AtomicMutationEntry) :
    (∀ entry ∈ (index.removeCommon old new).1, entry ∈ old) ∧ ∀ entry ∈ (index.removeCommon old new).2, entry ∈ new := by
  rw [removeCommon]
  cases index.type with
  | countUpdates => exact ⟨fun _ member => member, fun _ member => member⟩
  | count | countNotNull => exact ⟨fun _ member => (List.mem_filter.mp member).1, fun _ member => (List.mem_filter.mp member).1⟩
  | sum => exact ⟨fun _ member => (matchOld_sublist _ old _).mem member, fun _ member => (dropCommon_sublist new _).mem member⟩

/-! ## The standard path -/

section Standard

variable (conversion : FloatConversion)

def entriesOf? (index : AtomicIndex) (record : Option Message) : Except AtomicIndexError (List AtomicMutationEntry) :=
  record.elim (.ok []) fun message => evaluateEntries index message conversion

variable {record : Option Message}

theorem entriesOf_run (evaluated : index.entriesOf? conversion record = .ok entries) (t : Transaction) :
    (index.entriesOf conversion record).run t = (.ok entries, t) := by
  cases record with
  | none =>
    cases evaluated
    rfl
  | some message =>
    rw [entriesOf, show evaluateEntries index message conversion = .ok entries from evaluated]
    rfl

theorem entriesOf_fails {cause : AtomicIndexError} (evaluated : index.entriesOf? conversion record = .error cause)
    (t : Transaction) : (index.entriesOf conversion record).run t = (.error (.error cause), t) := by
  cases record with
  | none => cases evaluated
  | some message =>
    rw [entriesOf, show evaluateEntries index message conversion = .error cause from evaluated]
    rfl

theorem deleteIsNoOp_eq (counts : index.type ≠ .countUpdates) : index.deleteIsNoOp = false := decide_eq_false counts

/-- The general path shifts every group by what the entries weigh there. -/
theorem updateStandard_run (counts : index.type ≠ .countUpdates) {old new : Option Message}
    {oldEntries newEntries : List AtomicMutationEntry} (oldEvaluated : index.entriesOf? conversion old = .ok oldEntries)
    (newEvaluated : index.entriesOf? conversion new = .ok newEntries) (balanced : index.BalancedEntries oldEntries newEntries)
    (oldPackable : Packables oldEntries) (newPackable : Packables newEntries)
    (t : Transaction) : ∃ t', (index.updateStandard conversion old new).run t = (.ok (), t') ∧
      Shifts index.indexSubspace t.view t'.view fun p => index.weightAt newEntries p - index.weightAt oldEntries p := by
  obtain ⟨olds, news⟩ := mem_of_removeCommon index oldEntries newEntries
  obtain ⟨t₁, removed, one⟩ := applyAll_run counts true (index.removeCommon oldEntries newEntries).1
    (fun entry member => oldPackable entry (olds entry member)) t
  obtain ⟨t₂, added, two⟩ := applyAll_run counts false (index.removeCommon oldEntries newEntries).2
    (fun entry member => newPackable entry (news entry member)) t₁
  refine ⟨t₂, ?_, (one.trans two).congr fun p => ?_⟩
  · rw [updateStandard, deleteIsNoOp_eq counts, if_neg Bool.false_ne_true, Tx.run_bind_ok (entriesOf_run conversion oldEvaluated t),
      Tx.run_bind_ok (entriesOf_run conversion newEvaluated t)]
    dsimp only
    rw [Tx.run_bind_ok removed, added]
  · have cancelled := weightAt_removeCommon balanced p
    simp only [signed, if_true, Bool.false_eq_true, if_false]
    omega

end Standard

end AtomicIndex

end FdbGo.RecordLayer
