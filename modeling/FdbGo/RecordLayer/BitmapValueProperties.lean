import FdbGo.RecordLayer.AtomicEntries
import FdbGo.RecordLayer.BitmapValue

/-! What the maintainer of a bitmap index does to the bits: an entry that is added sets its
bit, and an entry that is removed clears it if it was set. -/

set_option autoImplicit false

namespace FdbGo.RecordLayer

open Client Foundation FdbGo.Tuple

/-! ## Positions -/

theorem floorMod_bounds {x y : Int64} (positive : 0 < y) (small : y ≤ bitmapValueMaxEntrySize) :
    0 ≤ (floorMod x y).toInt ∧ (floorMod x y).toInt < y.toInt := by
  have above : 0 < y.toInt := Int64.lt_iff_toInt_lt.mp positive
  have below : y.toInt ≤ 250000 := Int64.le_iff_toInt_le.mp small
  have low := Int.lt_tmod_of_pos x.toInt above
  have high := Int.tmod_lt_of_pos x.toInt above
  have sum : (x % y + y).toInt = x.toInt.tmod y.toInt + y.toInt := by
    rw [Int64.toInt_add, Int64.toInt_mod]
    exact Int.bmod_eq_of_le (by omega) (by omega)
  have nonneg : 0 ≤ x.toInt.tmod y.toInt + y.toInt := by omega
  rw [floorMod, Int64.toInt_mod, sum, Int.tmod_eq_emod_of_nonneg nonneg]
  exact ⟨Int.emod_nonneg _ above.ne', Int.emod_lt_of_pos _ above⟩

private theorem toInt_byteSize {entrySize : Int64} (positive : 0 < entrySize) (small : entrySize ≤ bitmapValueMaxEntrySize) :
    (bitmapByteSize entrySize : Int) = (entrySize.toInt + 7) / 8 := by
  have above : 0 < entrySize.toInt := Int64.lt_iff_toInt_lt.mp positive
  have below : entrySize.toInt ≤ 250000 := Int64.le_iff_toInt_le.mp small
  have sum : (entrySize + 7).toInt = entrySize.toInt + 7 := by
    rw [Int64.toInt_add, show (7 : Int64).toInt = 7 from rfl]
    exact Int.bmod_eq_of_le (by omega) (by omega)
  have quotient : ((entrySize + 7) / 8).toInt = (entrySize.toInt + 7) / 8 := by
    rw [Int64.toInt_div, sum, show (8 : Int64).toInt = 8 from rfl, Int.tdiv_eq_ediv_of_nonneg (by omega)]
    exact Int.bmod_eq_of_le (by omega) (by omega)
  rw [bitmapByteSize, quotient]
  omega

namespace BitmapIndex

variable {index : BitmapIndex}

def bitOf (index : BitmapIndex) (position : Int64) : Nat := (floorMod position index.entrySize).toInt.toNat

def aligned (index : BitmapIndex) (position : Int64) : Int64 := position - floorMod position index.entrySize

private theorem bitOf_inside (position : Int64) : index.bitOf position / 8 < index.byteSize := by
  have bounds := floorMod_bounds (x := position) index.positive index.small
  have size := toInt_byteSize index.positive index.small
  have same : (index.byteSize : Int) = (index.entrySize.toInt + 7) / 8 := size
  rw [bitOf]
  omega

theorem position_of_bit {position other : Int64} (sameBitmap : index.aligned position = index.aligned other)
    (sameBit : index.bitOf position = index.bitOf other) : position = other := by
  have bounds := floorMod_bounds (x := position) index.positive index.small
  have otherBounds := floorMod_bounds (x := other) index.positive index.small
  have offsets : floorMod position index.entrySize = floorMod other index.entrySize := by
    refine Int64.toInt_inj.mp ?_
    rw [bitOf, bitOf] at sameBit
    omega
  rw [aligned, aligned, offsets] at sameBitmap
  calc position = position - floorMod other index.entrySize + floorMod other index.entrySize :=
        (Int64.sub_add_cancel _ _).symm
    _ = other - floorMod other index.entrySize + floorMod other index.entrySize := by rw [sameBitmap]
    _ = other := Int64.sub_add_cancel _ _

/-! ## Bits -/

/-- The bits that are set in the bitmaps of the index, by the packed key of the bitmap. -/
structure Marked (index : BitmapIndex) (d : Snapshot) (marks : Set (Bytes × Nat)) : Prop where
  sized : ∀ p bytes, d.get (index.indexSubspace ++ p) = some bytes → bytes.length = index.byteSize
  bits : ∀ p bit, ((d.get (index.indexSubspace ++ p)).elim false fun bytes => bitAt bytes bit) = true ↔ (p, bit) ∈ marks

/-- The writes of `removeEntry` for a bit. -/
def clearBit (index : BitmapIndex) (d : Snapshot) (s : Bytes × Nat) : Snapshot :=
  (d.apply { typ := .andV2, key := index.indexSubspace ++ s.1, value := allBut index.byteSize s.2 }).apply
    { typ := .compareAndClear, key := index.indexSubspace ++ s.1, value := List.replicate index.byteSize 0 }

/-- Bits are cleared one after the other, each while its bitmap is stored. -/
def Stored (index : BitmapIndex) (d : Snapshot) : List (Bytes × Nat) → Prop
  | [] => True
  | s :: rest => d.get (index.indexSubspace ++ s.1) ≠ none ∧ index.Stored (index.clearBit d s) rest

instance decidableStored (index : BitmapIndex) (d : Snapshot) (bits : List (Bytes × Nat)) : Decidable (index.Stored d bits) :=
  match bits with
  | [] => .isTrue trivial
  | s :: rest => @instDecidableAnd _ _ _ (decidableStored index (index.clearBit d s) rest)

section Bits

variable {d d' : Snapshot} {marks marks' : Set (Bytes × Nat)}

variable (marked : index.Marked d marks)

include marked

theorem Marked.replace (p : Bytes) (value : Option Bytes)
    (get : d'.get = Function.update d.get (index.indexSubspace ++ p) value)
    (sized : ∀ bytes, value = some bytes → bytes.length = index.byteSize)
    (here : ∀ bit, (value.elim false fun bytes => bitAt bytes bit) = true ↔ (p, bit) ∈ marks')
    (elsewhere : ∀ q bit, q ≠ p → ((q, bit) ∈ marks' ↔ (q, bit) ∈ marks)) : index.Marked d' marks' := by
  refine ⟨fun q bytes found => ?_, fun q bit => ?_⟩
  · simp only [get, Function.update_apply, List.append_cancel_left_eq] at found
    split at found
    · exact sized bytes found
    · exact marked.sized q bytes found
  · simp only [get, Function.update_apply, List.append_cancel_left_eq]
    split
    case isTrue same =>
      subst same
      exact here bit
    case isFalse apart => exact (marked.bits q bit).trans (elsewhere q bit apart).symm

private theorem bits_copyInto (p : Bytes) (bit : Nat) :
    bitAt (copyInto index.byteSize (existing (d.get (index.indexSubspace ++ p)))) bit = true ↔ (p, bit) ∈ marks := by
  rw [← marked.bits p bit]
  cases found : d.get (index.indexSubspace ++ p) with
  | none =>
    have zeros : copyInto index.byteSize (existing none) = List.replicate index.byteSize 0 := by
      simp [copyInto, existing]
    rw [zeros, bitAt_zero]
    rfl
  | some bytes =>
    rw [existing_some, copyInto_self (marked.sized p bytes found)]
    rfl

omit marked in
theorem or_zero (y : UInt8) : 0 ||| y = y := UInt8.zero_or

theorem Marked.set (p : Bytes) {bit : Nat} (inside : bit / 8 < index.byteSize) :
    index.Marked (d.apply { typ := .or, key := index.indexSubspace ++ p, value := onlyBit index.byteSize bit })
      (insert (p, bit) marks) := by
  have bytes : existing (doOr (d.get (index.indexSubspace ++ p)) (onlyBit index.byteSize bit)) =
      List.zipWith (· ||| ·) (copyInto index.byteSize (existing (d.get (index.indexSubspace ++ p)))) (onlyBit index.byteSize bit) := by
    rw [doOr, existing_bytewise or_zero, length_onlyBit]
  refine marked.replace p (some (existing (doOr (d.get (index.indexSubspace ++ p)) (onlyBit index.byteSize bit))))
    (Snapshot.get_apply _ _) ?_ (fun other => ?_) (fun q other apart => ?_)
  · intro found isFound
    rw [← Option.some.inj isFound, bytes, List.length_zipWith, length_copyInto, length_onlyBit, Nat.min_self]
  · rw [Option.elim_some, bytes, bitAt_or (by rw [length_copyInto, length_onlyBit]), Bool.or_eq_true, bits_copyInto marked,
      bitAt_onlyBit inside, decide_eq_true_eq, Set.mem_insert_iff, Prod.mk.injEq]
    simp only [true_and, or_comm]
  · rw [Set.mem_insert_iff, Prod.mk.injEq]
    simp only [apart, false_and, false_or]

theorem Marked.clearZero (p : Bytes) :
    index.Marked (d.apply { typ := .compareAndClear, key := index.indexSubspace ++ p, value := List.replicate index.byteSize 0 })
      marks := by
  refine marked.replace p (atomicMeaning .compareAndClear (List.replicate index.byteSize 0) (d.get (index.indexSubspace ++ p)))
    (Snapshot.get_apply _ _) ?_ (fun bit => ?_) fun _ _ _ => Iff.rfl
  · intro bytes isBytes
    cases found : d.get (index.indexSubspace ++ p) with
    | none =>
      rw [found] at isBytes
      cases isBytes
    | some old =>
      rw [found] at isBytes
      simp only [atomicMeaning, applyAtomic, doCompareAndClear] at isBytes
      by_cases zero : old = List.replicate index.byteSize 0
      · rw [if_pos zero] at isBytes
        cases isBytes
      · rw [if_neg zero] at isBytes
        dsimp only at isBytes
        rw [existing_copied, Option.some.injEq] at isBytes
        exact isBytes ▸ marked.sized p old found
  · rw [← marked.bits p bit]
    cases found : d.get (index.indexSubspace ++ p) with
    | none => exact Iff.rfl
    | some old =>
      simp only [atomicMeaning, applyAtomic, doCompareAndClear]
      by_cases zero : old = List.replicate index.byteSize 0
      · rw [if_pos zero, zero]
        dsimp only
        rw [Option.elim_none, Option.elim_some, bitAt_zero]
      · rw [if_neg zero]
        dsimp only
        rw [existing_copied]

/-- The bit of a stored bitmap is cleared. Where none is stored, `BitAnd` would store the mask. -/
theorem Marked.clear {p : Bytes} {bit : Nat} (stored : d.get (index.indexSubspace ++ p) ≠ none) :
    index.Marked (index.clearBit d (p, bit)) (marks \ {(p, bit)}) := by
  obtain ⟨old, found⟩ := Option.ne_none_iff_exists'.mp stored
  have length := marked.sized p old found
  have masked : existing (doAnd (some old) (allBut index.byteSize bit)) = List.zipWith (· &&& ·) old (allBut index.byteSize bit) := by
    rw [existing_doAnd, existing_some, length_allBut, copyInto_self length]
  have lengths : old.length = (allBut index.byteSize bit).length := by rw [length, length_allBut]
  have and_ : index.Marked (d.apply { typ := .andV2, key := index.indexSubspace ++ p, value := allBut index.byteSize bit })
      (marks \ {(p, bit)}) := by
    refine marked.replace p (some (List.zipWith (· &&& ·) old (allBut index.byteSize bit))) ?_ ?_ (fun other => ?_)
      (fun q other apart => ?_)
    · rw [Snapshot.get_apply, ← masked]
      simp only [Mutation.apply, found]
      rfl
    · intro bytes isBytes
      rw [← Option.some.inj isBytes, List.length_zipWith, ← lengths, Nat.min_self, length]
    · rw [Option.elim_some, bitAt_and lengths, Bool.and_eq_true, Set.mem_sdiff, Set.mem_singleton_iff, Prod.mk.injEq,
        ← marked.bits p other, found, Option.elim_some]
      simp only [true_and]
      refine and_congr_right fun isSet => ?_
      rw [bitAt_allBut bit (length ▸ bitAt_of_length isSet), decide_eq_true_eq]
    · rw [Set.mem_sdiff, Set.mem_singleton_iff, Prod.mk.injEq]
      simp only [apart, false_and, not_false_iff, and_true]
  exact and_.clearZero p

end Bits

/-! ## Entries -/

section Entries

variable {conversion : FloatConversion} {entry : EvaluatedIndexEntry} {marks : Set (Bytes × Nat)} {t t' : Transaction}

def bitmapKey (index : BitmapIndex) (group : List Element) (position : Int64) : Bytes :=
  (pack (group ++ [.int64 (index.aligned position)])).toOption.getD []

def slot (index : BitmapIndex) (values : List Element) : Option (Bytes × Nat) :=
  match values[index.groupPrefixSize]? with
  | some (.int64 position) =>
    some (index.bitmapKey (values.take index.groupPrefixSize) position, index.bitOf position)
  | _ => none

/-- A key tuple with an integer position or none. -/
structure Positioned (index : BitmapIndex) (values : List Element) : Prop where
  length : values.length = index.groupPrefixSize + 1
  packable : packables (Tuple.values values) = true
  position : values[index.groupPrefixSize]? = some .null ∨
    ∃ position : Int64, values[index.groupPrefixSize]? = some (.int64 position)

variable {group : List Element} {s : Bytes × Nat}

theorem packables_bitmapKey (packable : packables (values group) = true) (position : Int64) :
    packables (values (group ++ [.int64 (index.aligned position)])) = true := by
  have last : Row 1 [.int64 (index.aligned position)] := row_singleton (packable_int64 _)
  rw [values_append, packables_append, packable, last.packable]
  rfl

/-- The bitmap of a position is stored under its group and the aligned position. -/
theorem bitmapKey_eq (packable : packables (values group) = true) (position : Int64) :
    index.bitmapKey group position = wires false (values group ++ [.integer (index.aligned position).toInt]) := by
  rw [bitmapKey, pack_eq (packables_bitmapKey packable position), values_append]
  rfl

theorem locate_run (positioned : index.Positioned entry.key) : (index.locate conversion entry).run t =
    (.ok ((index.slot entry.key).map fun slot => (index.indexSubspace ++ slot.1, slot.2)), t) := by
  rw [locate, slot]
  cases positioned.position with
  | inl isNull =>
    rw [isNull]
    rfl
  | inr isPosition =>
    obtain ⟨position, found⟩ := isPosition
    have packable := packable_take positioned.packable index.groupPrefixSize
    rw [found]
    dsimp only [toInt64]
    rw [← aligned, Tx.run_bind_ok (subspacePack_eq _ (packables_bitmapKey packable position) t), values_append,
      bitmapKey_eq packable]
    rfl

private theorem slot_inside {values : List Element} (found : index.slot values = some s) : s.2 / 8 < index.byteSize := by
  rw [slot] at found
  split at found
  case h_1 position isPosition =>
    cases found
    exact bitOf_inside position
  case h_2 => cases found

private theorem view_removeEntry (positioned : index.Positioned entry.key) (ran : (index.removeEntry conversion entry).run t = (.ok (), t')) :
    t'.view = (index.slot entry.key).elim t.view (index.clearBit t.view) := by
  rw [removeEntry, Tx.run_bind_ok (locate_run positioned)] at ran
  cases found : index.slot entry.key with
  | none =>
    rw [found] at ran
    cases ran
    rfl
  | some s =>
    rw [found] at ran
    cases ran
    rw [Transaction.view_mutate, Transaction.view_mutate]
    rfl

theorem checkBitmapUniqueness_ok {fdbKey : Key} {offset : Nat} (ran : (checkBitmapUniqueness fdbKey offset entry).run t = (.ok (), t')) :
    t'.view = t.view ∧ ((t.view.get fdbKey).elim false fun bitmap => bitAt bitmap offset) = false := by
  rw [checkBitmapUniqueness] at ran
  obtain ⟨found, t₁, got, ran⟩ := Tx.run_bind_eq_ok ran
  cases got
  by_cases violated : ((t.view.get fdbKey).elim false fun bitmap => bitAt bitmap offset) = true
  · rw [if_pos violated] at ran
    cases ran
  · rw [if_neg violated] at ran
    obtain ⟨conflictKey, t₂, packed, ran⟩ := Tx.run_bind_eq_ok ran
    have same : t₂ = t := by
      rw [subspacePack] at packed
      split at packed
      · cases packed
        rfl
      · cases packed
    subst same
    cases ran
    exact ⟨rfl, Bool.not_eq_true _ ▸ violated⟩

theorem addEntry_ok (positioned : index.Positioned entry.key) (marked : index.Marked t.view marks)
    (ran : (index.addEntry conversion entry).run t = (.ok (), t')) :
    index.Marked t'.view (marks ∪ {s | index.slot entry.key = some s}) ∧
      (index.unique = true → ∀ s, index.slot entry.key = some s → s ∉ marks) := by
  rw [addEntry, Tx.run_bind_ok (locate_run positioned)] at ran
  cases found : index.slot entry.key with
  | none =>
    rw [found] at ran
    cases ran
    exact ⟨by simpa using marked, nofun⟩
  | some s =>
    have only : marks ∪ {other | some s = some other} = insert s marks := by
      ext other
      simp [eq_comm]
    rw [found] at ran
    rw [only]
    cases unique : index.unique with
    | false =>
      rw [unique] at ran
      cases ran
      rw [Transaction.view_mutate]
      exact ⟨marked.set s.1 (slot_inside found), nofun⟩
    | true =>
      rw [unique] at ran
      obtain ⟨_, t₁, checked, ran⟩ := Tx.run_bind_eq_ok ran
      obtain ⟨same, fresh⟩ := checkBitmapUniqueness_ok checked
      cases ran
      rw [Transaction.view_mutate, same]
      refine ⟨marked.set s.1 (slot_inside found), fun _ other isOther marks_ => ?_⟩
      cases isOther
      rw [(marked.bits s.1 s.2).mpr marks_] at fresh
      cases fresh

def slots (index : BitmapIndex) (entries : List EvaluatedIndexEntry) : List (Bytes × Nat) :=
  entries.filterMap fun entry => index.slot entry.key

variable {entries : List EvaluatedIndexEntry}

theorem mem_slots_cons :
    s ∈ index.slots (entry :: entries) ↔ index.slot entry.key = some s ∨ s ∈ index.slots entries := by
  simp only [slots, List.mem_filterMap, List.mem_cons, exists_eq_or_imp]

theorem forEach_remove_ok (positioned : ∀ entry ∈ entries, index.Positioned entry.key)
    (marked : index.Marked t.view marks) (stored : index.Stored t.view (index.slots entries))
    (ran : (forEach (index.removeEntry conversion) entries).run t = (.ok (), t')) :
    index.Marked t'.view (marks \ {s | s ∈ index.slots entries}) := by
  induction entries generalizing t marks with
  | nil =>
    cases ran
    simpa [slots] using marked
  | cons entry entries ih =>
    rw [forEach] at ran
    obtain ⟨_, t₁, first, rest⟩ := Tx.run_bind_eq_ok ran
    have view := view_removeEntry (positioned entry List.mem_cons_self) first
    have later := (List.forall_mem_cons.mp positioned).2
    rw [slots, List.filterMap_cons] at stored ⊢
    cases found : index.slot entry.key with
    | none =>
      rw [found] at view stored
      exact ih later (view ▸ marked) (view ▸ stored) rest
    | some s =>
      rw [found] at view stored
      have cleared : index.Marked t₁.view (marks \ {s}) := view ▸ marked.clear stored.1
      have all := ih later cleared (view ▸ stored.2) rest
      have same : marks \ {other | other ∈ s :: index.slots entries} = (marks \ {s}) \ {other | other ∈ index.slots entries} := by
        ext other
        simp only [Set.mem_sdiff, Set.mem_ofPred_eq, List.mem_cons, Set.mem_singleton_iff, not_or, and_assoc]
      exact same ▸ all

/-- Entries are added; in a unique index none of their bits was set before. -/
theorem forEach_add_ok (positioned : ∀ entry ∈ entries, index.Positioned entry.key)
    (marked : index.Marked t.view marks) (ran : (forEach (index.addEntry conversion) entries).run t = (.ok (), t')) :
    index.Marked t'.view (marks ∪ {s | s ∈ index.slots entries}) ∧
      (index.unique = true → ∀ s ∈ index.slots entries, s ∉ marks) := by
  induction entries generalizing t marks with
  | nil =>
    cases ran
    exact ⟨by simpa [slots] using marked, fun _ => nofun⟩
  | cons entry entries ih =>
    rw [forEach] at ran
    obtain ⟨_, t₁, first, rest⟩ := Tx.run_bind_eq_ok ran
    obtain ⟨added, fresh⟩ := addEntry_ok (positioned entry List.mem_cons_self) marked first
    obtain ⟨all, allFresh⟩ := ih (List.forall_mem_cons.mp positioned).2 added rest
    have same : marks ∪ {s | s ∈ index.slots (entry :: entries)} =
        (marks ∪ {s | index.slot entry.key = some s}) ∪ {s | s ∈ index.slots entries} := by
      ext s
      simp only [Set.mem_union, Set.mem_ofPred_eq, mem_slots_cons, or_assoc]
    rw [same]
    refine ⟨all, fun unique s member before => ?_⟩
    cases mem_slots_cons.mp member with
    | inl found => exact fresh unique s found before
    | inr later => exact allFresh unique s later (.inl before)

end Entries

end BitmapIndex

end FdbGo.RecordLayer
