import FdbGo.RecordLayer.SplitHistories

/-! `recordExistsWithSplit`: whether a key begins with the packed primary key. The keys of a
record do, and so do those of a record whose packed primary key begins with these bytes. -/

set_option autoImplicit false

namespace FdbGo.RecordLayer.SplitHelper

open Client Foundation FdbGo.Tuple

/-- `fdb.Strinc`: the last byte that is not 0xff grows, and the bytes after it go. -/
def strinc : Bytes → Option Bytes
  | [] => none
  | byte :: rest =>
    match strinc rest with
    | some stop => some (byte :: stop)
    | none => if byte = 0xff then none else some [byte + 1]

inductive ExistsError where
  | allBytesMaximal
  deriving DecidableEq, Repr

def recordExistsWithSplit (ss : Bytes) (primaryKey : List Element) (splitLongRecords omitUnsplitRecordSuffix : Bool) :
    Tx ExistsError Bool := do
  let sub ← subspacePack ss primaryKey
  if !splitLongRecords && omitUnsplitRecordSuffix then do
    let value ← Tx.get sub
    pure value.isSome
  else
    match strinc sub with
    | none => Tx.fail .allBytesMaximal
    | some stop => do
      let rows ← Tx.getRange sub stop 1 false
      pure (!rows.isEmpty)

/-! ## The range of a prefix -/

private theorem lt_succ_iff {byte head : UInt8} (small : byte ≠ 0xff) : head < byte + 1 ↔ head ≤ byte := by
  have bound := byte.toNat_lt
  have notMax : byte.toNat ≠ 255 := fun same => small (UInt8.toNat_inj.mp same)
  have next : (byte + 1).toNat = byte.toNat + 1 := by
    rw [UInt8.toNat_add]
    exact Nat.mod_eq_of_lt (by simp; omega)
  rw [UInt8.lt_iff_toNat_lt, UInt8.le_iff_toNat_le, next]
  omega

private theorem strinc_bounds (p k : Bytes) : (p ≤ k ∧ ∀ stop, strinc p = some stop → k < stop) ↔ p <+: k := by
  induction p generalizing k with
  | nil => exact ⟨fun _ => List.nil_prefix, fun _ => ⟨nil_le k, nofun⟩⟩
  | cons byte rest ih =>
    cases k with
    | nil => exact ⟨fun bounds => absurd bounds.1 (not_le.mpr (nil_lt_cons _ _)), fun begins => by simp at begins⟩
    | cons head k =>
      rw [List.cons_prefix_cons, ← ih, cons_le_cons, strinc]
      cases strinc rest with
      | some stop =>
        simp only [Option.some.injEq, forall_eq', cons_lt_cons]
        constructor
        · rintro ⟨above | ⟨rfl, above⟩, below | ⟨same, below⟩⟩
          · exact absurd above below.not_gt
          · exact absurd same above.ne'
          · exact absurd below (lt_irrefl _)
          · exact ⟨rfl, above, below⟩
        · rintro ⟨rfl, above, below⟩
          exact ⟨.inr ⟨rfl, above⟩, .inr ⟨rfl, below⟩⟩
      | none =>
        by_cases maximal : byte = 0xff
        · have below : ¬ 0xff < head := by
            rw [UInt8.lt_iff_toNat_lt]
            exact (Nat.le_of_lt_succ head.toNat_lt).not_gt
          simp [maximal, below]
        · simp only [maximal, if_false, Option.some.injEq, forall_eq', cons_lt_cons, lt_succ_iff maximal,
            not_lt_nil, and_false, or_false]
          constructor
          · rintro ⟨above | same, below⟩
            · exact absurd above below.not_gt
            · exact ⟨same.1, same.2, nofun⟩
          · rintro ⟨rfl, above, -⟩
            exact ⟨.inr ⟨rfl, above⟩, le_rfl⟩

theorem recordExistsWithSplit_run {ss sub stop : Bytes} {primaryKey : List Element} {t : Transaction}
    (packed : (subspacePack ss primaryKey : Tx ExistsError Bytes).run t = (.ok sub, t)) (isStop : strinc sub = some stop)
    (splitLongRecords : Bool) :
    ∃ found t', (recordExistsWithSplit ss primaryKey splitLongRecords false).run t = (.ok found, t') ∧
      (found = true ↔ ∃ kv ∈ t.view.rows, sub <+: kv.key) := by
  have suffixed : ¬ (!splitLongRecords && false) = true := by simp
  have rows : ∀ kv, kv ∈ t.view.within sub stop ↔ kv ∈ t.view.rows ∧ sub <+: kv.key := by
    intro kv
    rw [Snapshot.mem_within, ← strinc_bounds, isStop]
    simp
  rw [recordExistsWithSplit, Tx.run_bind_ok packed, if_neg suffixed, isStop]
  refine ⟨_, _, rfl, ?_⟩
  rw [if_neg Bool.false_ne_true, show t.view.page sub stop 1 false = (t.view.within sub stop).take 1 from rfl]
  simp only [← rows]
  cases t.view.within sub stop with
  | nil => simp
  | cons first rest => exact ⟨fun _ => ⟨first, List.mem_cons_self⟩, fun _ => rfl⟩

/-! ## Every history -/

private theorem dataItems_ne_nil (data : Bytes) : dataItems data ≠ [] := by
  rw [dataItems]
  split
  case isTrue long =>
    obtain ⟨piece, pieces, cut⟩ := chunks_of_long long
    rw [cut]
    exact List.cons_ne_nil _ _
  case isFalse => exact List.cons_ne_nil _ _

section Histories

variable {ss : Bytes} {keys : Set (List Value)} {store : Store} {records : Records} {calls : List Call} {call : Call}

/-- The subspace holds nothing but rows of the records, and no version waits for another key. -/
def Confined (ss : Bytes) (keys : Set (List Value)) (store : Store) : Prop :=
  ∀ k, ss <+: k → (∀ pk ∈ keys, (layout (keyPrefix ss pk)).region k = false) →
    store.tx.view.get k = none ∧ store.ctx.getVersionMutation k = none

theorem Untouched.confined {pk : List Value} {after : Store} (confined : Confined ss keys store) (member : pk ∈ keys)
    (untouched : Untouched ss pk store after) : Confined ss keys after := by
  intro k inside outside
  obtain ⟨view, queued⟩ := untouched k (of_decide_eq_false (outside pk member))
  rw [view, queued]
  exact confined k inside outside

theorem Confined.step (names : PrimaryKeys keys) (tracks : Tracks ss keys store records false)
    (addressed : call.Addressed keys) (confined : Confined ss keys store) : Confined ss keys (call.run ss store).2 := by
  obtain ⟨answer, after, ran, -, meets⟩ := call_meets names tracks addressed (fun never => by cases never)
  cases call with
  | save primaryKey serialized version splitLongRecords =>
    have meets := meets (fun _ _ never => by cases never)
    rw [Meets] at meets
    rw [ran]
    split at meets
    · exact meets.2.confined confined addressed.1
    · intro k inside outside
      rw [meets.2.1, meets.2.2]
      exact confined k inside outside
  | delete primaryKey splitLongRecords =>
    rw [ran]
    exact (meets (fun _ _ never => by cases never)).2.2.confined confined addressed
  | load primaryKey splitLongRecords =>
    obtain ⟨stale, -, stores⟩ := tracks.stores _ addressed
    obtain ⟨tx, loaded, view⟩ := loadWithSplit_run (names.packable _ addressed) stores splitLongRecords
    rw [Call.run, loaded]
    intro k inside outside
    exact ⟨(congrArg (Snapshot.get · k) view).trans (confined k inside outside).1, (confined k inside outside).2⟩
  | commit transactionVersion known =>
    intro k inside outside
    obtain ⟨view, queued⟩ := confined k inside outside
    refine ⟨(commit_get _ _ _ k).trans ?_, rfl⟩
    rw [queued, view]

private theorem calls_confined (names : PrimaryKeys keys) (tracks : Tracks ss keys store records false)
    (addressed : ∀ call ∈ calls, call.Addressed keys) (confined : Confined ss keys store) :
    Confined ss keys (runCalls ss store calls) := by
  induction calls generalizing store records with
  | nil => exact confined
  | cons call calls ih =>
    obtain ⟨first, rest⟩ := List.forall_mem_cons.mp addressed
    obtain ⟨answer, after, ran, tracked, -⟩ := call_meets names tracks first nofun
    have next := confined.step names tracks first
    rw [ran] at next
    rw [runCalls, List.foldl_cons, ran]
    exact ih tracked rest next

/-- A row that begins with a primary key's bytes is there if and only if a record is whose
key begins with them. -/
theorem Tracks.begins_iff (names : PrimaryKeys keys) (tracks : Tracks ss keys store records false)
    (confined : Confined ss keys store) {pk : List Value} (member : pk ∈ keys) :
    (∃ kv ∈ store.tx.view.rows, keyPrefix ss pk <+: kv.key) ↔
      ∃ other ∈ keys, records other ≠ none ∧ keyPrefix ss pk <+: keyPrefix ss other := by
  constructor
  · rintro ⟨kv, inside, begins⟩
    -- the row lies in the range of some record, which is there for it
    obtain ⟨other, isKey, region⟩ : ∃ other ∈ keys, (layout (keyPrefix ss other)).region kv.key = true := by
      by_contra outside
      push Not at outside
      have found := (confined kv.key ((List.prefix_append ss _).trans begins)
        fun other isKey => Bool.eq_false_iff.mpr (outside other isKey)).1
      rw [Snapshot.get_eq_of_mem inside] at found
      cases found
    have stored : records other ≠ none := by
      intro absent
      obtain ⟨stale, -, stores⟩ := tracks.stores other isKey
      have rows := stores.holds.mem_iff.mpr ⟨inside, region⟩
      rw [absent] at rows
      exact absurd rows List.not_mem_nil
    refine ⟨other, isKey, stored, ?_⟩
    obtain ⟨s, split, nonempty, tail⟩ := (mem_subspace_iff _ _).mp (of_decide_eq_true region)
    obtain ⟨rest, whole⟩ := begins
    rw [split, List.append_eq_append_iff] at whole
    rcases whole with ⟨more, longer, -⟩ | ⟨more, longer, isTail⟩
    · exact ⟨more, longer.symm⟩
    · by_cases none : more = []
      · rw [longer, none, List.append_nil]
      · -- the bytes between the keys go on as a packed value does, so one key begins with the other
        have between : Tail more := by
          obtain ⟨byte, others, rfl⟩ := List.exists_cons_of_ne_nil none
          rw [isTail] at tail
          exact tail
        rw [keyPrefix, keyPrefix, List.append_assoc, List.append_cancel_left_eq] at longer
        cases prefix_of_wires_eq (names.packable pk member) (names.packable other isKey) (s := []) nofun between
          (by rw [List.append_nil, longer]) with
        | inl shorter => rw [names.prefixFree pk member other isKey shorter]
        | inr shorter => rw [names.prefixFree other isKey pk member shorter]
  · rintro ⟨other, isKey, stored, begins⟩
    obtain ⟨record, isRecord⟩ := Option.ne_none_iff_exists'.mp stored
    obtain ⟨stale, -, stores⟩ := tracks.stores other isKey
    have holds := stores.holds
    rw [isRecord] at holds
    obtain ⟨item, isItem⟩ := List.exists_mem_of_ne_nil _ (dataItems_ne_nil record.data)
    obtain ⟨inside, region⟩ := holds.mem_iff.mp (List.mem_map_of_mem (List.mem_append_right _ isItem))
    obtain ⟨s, split, -⟩ := (mem_subspace_iff _ _).mp (of_decide_eq_true region)
    exact ⟨_, inside, begins.trans ⟨s, split.symm⟩⟩

/-- After every history the check agrees with the load exactly if the primary key is that of
a record, or its bytes are a prefix of no record's. -/
theorem record_exists_iff_loaded (ss : Bytes) (keys : Set (List Value)) (names : PrimaryKeys keys) (base : Snapshot)
    (free : ∀ kv ∈ base.rows, ¬ ss <+: kv.key) (calls : List Call) (addressed : ∀ call ∈ calls, call.Addressed keys)
    (primaryKey : List Element) (member : values primaryKey ∈ keys)
    (bounded : strinc (keyPrefix ss (values primaryKey)) ≠ none) (splitLongRecords : Bool) :
    ∃ found value version sizes t t',
      (recordExistsWithSplit ss primaryKey splitLongRecords false).run (runCalls ss { tx := { base } } calls).tx =
        (.ok found, t) ∧
      (loadWithSplit (runCalls ss { tx := { base } } calls).ctx ss primaryKey splitLongRecords false).run
        (runCalls ss { tx := { base } } calls).tx = (.ok (value, version, sizes), t') ∧
      (found = value.isSome ↔ recordsAfter (fun _ => none) calls (values primaryKey) ≠ none ∨
        ∀ other ∈ keys, recordsAfter (fun _ => none) calls other ≠ none →
          ¬ keyPrefix ss (values primaryKey) <+: keyPrefix ss other) := by
  have empty : ∀ k, ss <+: k → base.get k = none := by
    intro k inside
    by_contra some_
    obtain ⟨value, found⟩ := Option.ne_none_iff_exists'.mp some_
    exact free _ (Snapshot.get_eq_some_iff.mp found) inside
  have start : Tracks ss keys { tx := { base } } (fun _ => none) false := by
    refine tracks_start fun pk _ => List.filter_eq_nil_iff.mpr fun kv inside region => ?_
    obtain ⟨s, split, -⟩ := (mem_subspace_iff _ _).mp (of_decide_eq_true region)
    exact free kv inside ⟨wires false pk ++ s, by rw [split, keyPrefix, List.append_assoc]⟩
  have confined : Confined ss keys { tx := { base } } := fun k inside _ => ⟨empty k inside, rfl⟩
  have tracks := calls_track names start addressed nofun
  have packable := names.packable _ member
  obtain ⟨stop, isStop⟩ := Option.ne_none_iff_exists'.mp bounded
  obtain ⟨found, t, ran, isFound⟩ := recordExistsWithSplit_run (subspacePack_eq ss packable _) isStop splitLongRecords
  obtain ⟨stale, -, stores⟩ := tracks.stores _ member
  obtain ⟨t', loaded, -⟩ := loadWithSplit_run packable stores splitLongRecords
  refine ⟨found, _, _, _, t, t', ran, loaded, ?_⟩
  have isFound := isFound.trans (tracks.begins_iff names (calls_confined names start addressed confined) member)
  rw [Option.isSome_map, Bool.eq_iff_iff, isFound, Option.isSome_iff_ne_none]
  constructor
  · intro agrees
    refine or_iff_not_imp_left.mpr fun absent other isKey stored begins => absent ?_
    exact agrees.mp ⟨other, isKey, stored, begins⟩
  · rintro (stored | none)
    · exact iff_of_true ⟨_, member, stored, List.prefix_rfl⟩ stored
    · exact iff_of_false (fun ⟨other, isKey, stored, begins⟩ => none other isKey stored begins)
        fun stored => none _ member stored List.prefix_rfl

end Histories

/-- A record whose bytes begin those of the other one's key, saved with a version that is still
pending and once more without one. -/
def savedTwice : List Call :=
  [.save [.string [0x61]] [7] (some (.incomplete 0)) true, .save [.string [0x61]] [8] none true,
    .save [.string [0x61, 0x00, 0x62]] [9] none true]

theorem saved_record_found :
    ∃ found value version sizes t t',
      (recordExistsWithSplit [] [.string [0x61]] true false).run
        (runCalls [] { tx := { base := emptyDatabase } } savedTwice).tx = (.ok found, t) ∧
      (loadWithSplit (runCalls [] { tx := { base := emptyDatabase } } savedTwice).ctx [] [.string [0x61]] true false).run
        (runCalls [] { tx := { base := emptyDatabase } } savedTwice).tx = (.ok (value, version, sizes), t') ∧
      found = Option.isSome value := by
  have apart : values [.string [0x61]] ≠ values [.string [0x61, 0x00, 0x62]] := by simp [values, Element.value]
  have names : PrimaryKeys {values [.string [0x61]], values [.string [0x61, 0x00, 0x62]]} :=
    .pair (by decide) (by decide) (by simp [values, Element.value]) (by simp [values, Element.value])
  have stored : recordsAfter (fun _ => none) savedTwice (values [.string [0x61]]) ≠ none := by
    rw [savedTwice, recordsAfter, List.foldl_cons, List.foldl_cons, List.foldl_cons, List.foldl_nil,
      Call.apply_save_of_ne _ _ _ apart]
    simp [Call.apply, accepts, isLong, splitRecordSize]
  have addressed : ∀ call ∈ savedTwice,
      call.Addressed {values [.string [0x61]], values [.string [0x61, 0x00, 0x62]]} := by
    simp [savedTwice, Call.Addressed]
  obtain ⟨found, value, version, sizes, t, t', ran, loaded, agrees⟩ := record_exists_iff_loaded [] _ names emptyDatabase
    (fun _ never => absurd never List.not_mem_nil) savedTwice addressed [.string [0x61]] (.inl rfl) (by decide +kernel) true
  exact ⟨found, value, version, sizes, t, t', ran, loaded, agrees.mpr (.inl stored)⟩

def oneSave (primaryKey : List Element) : Store :=
  runCalls [] { tx := { base := emptyDatabase } } [.save primaryKey [7] none true]

/-- The packed "a" is a byte prefix of the packed "a\x00b": with a record of the second key
alone, the check finds one of the first, which no load finds. -/
theorem other_record_found :
    (¬ values [.string [0x61]] <+: values [.string [0x61, 0x00, 0x62]] ∧
      ¬ values [.string [0x61, 0x00, 0x62]] <+: values [.string [0x61]]) ∧
    ((recordExistsWithSplit [] [.string [0x61]] true false).run (oneSave [.string [0x61, 0x00, 0x62]]).tx).1 =
      .ok true ∧
    ((Call.load [.string [0x61]] true).run [] (oneSave [.string [0x61, 0x00, 0x62]])).1 = .loaded none none {} := by
  refine ⟨by simp [values, Element.value], ?_, by decide +kernel⟩
  rfl

end FdbGo.RecordLayer.SplitHelper
