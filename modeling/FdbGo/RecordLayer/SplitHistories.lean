import FdbGo.RecordLayer.SplitRecords

/-! Histories of saves, loads, deletes and commits of records, against a map from primary
keys to records. -/

set_option autoImplicit false

namespace FdbGo.RecordLayer.SplitHelper

open Client Foundation FdbGo.Tuple

/-- A transaction of the record store. -/
structure Store where
  tx : Transaction
  ctx : RecordContext := {}

inductive Call where
  | save (primaryKey : List Element) (serialized : Bytes) (version : Option RecordVersion) (splitLongRecords : Bool)
  | delete (primaryKey : List Element) (splitLongRecords : Bool)
  | load (primaryKey : List Element) (splitLongRecords : Bool)
  | commit (transactionVersion : Vector UInt8 10) (known : transactionVersion ≠ incompleteTransactionVersion)

inductive Answer where
  | saved (sizes : SizeInfo)
  | deleted (existed : Bool)
  | loaded (value : Option Bytes) (version : Option RecordVersion) (sizes : SizeInfo)
  | committed
  | failed (cause : Failure Error)
  deriving DecidableEq, Repr

def Call.run (ss : Bytes) (store : Store) : Call → Answer × Store
  | .save primaryKey serialized version splitLongRecords =>
    match (saveRecord store.ctx ss primaryKey serialized version splitLongRecords).run store.tx with
    | (.ok (sizes, ctx), tx) => (.saved sizes, ⟨tx, ctx⟩)
    | (.error cause, tx) => (.failed cause, ⟨tx, store.ctx⟩)
  | .delete primaryKey splitLongRecords =>
    match (deleteRecord store.ctx ss primaryKey splitLongRecords).run store.tx with
    | (.ok (existed, ctx), tx) => (.deleted existed, ⟨tx, ctx⟩)
    | (.error cause, tx) => (.failed cause, ⟨tx, store.ctx⟩)
  | .load primaryKey splitLongRecords =>
    match (loadWithSplit store.ctx ss primaryKey splitLongRecords false).run store.tx with
    | (.ok (value, version, sizes), tx) => (.loaded value version sizes, ⟨tx, store.ctx⟩)
    | (.error cause, tx) => (.failed cause, ⟨tx, store.ctx⟩)
  | .commit transactionVersion _ => (.committed, { tx := { base := SplitHelper.commit store.ctx store.tx transactionVersion } })

def runCalls (ss : Bytes) (store : Store) (calls : List Call) : Store :=
  calls.foldl (fun store call => (call.run ss store).2) store

abbrev Records := List Value → Option Record

open Classical in
noncomputable def Call.apply (records : Records) : Call → Records
  | .save primaryKey serialized version splitLongRecords =>
    if accepts primaryKey serialized splitLongRecords then
      Function.update records (values primaryKey) (some ⟨serialized, version⟩)
    else records
  | .delete primaryKey _ => Function.update records (values primaryKey) none
  | .load _ _ => records
  | .commit transactionVersion known => fun pk => (records pk).map (·.committed transactionVersion known)

open Classical in
theorem Call.apply_save_of_ne {records : Records} {primaryKey : List Element} {other : List Value} (serialized : Bytes)
    (version : Option RecordVersion) (splitLongRecords : Bool) (apart : other ≠ values primaryKey) :
    (Call.save primaryKey serialized version splitLongRecords).apply records other = records other := by
  rw [Call.apply]
  split
  case isTrue => exact Function.update_of_ne apart _ _
  case isFalse => rfl

noncomputable def recordsAfter (records : Records) (calls : List Call) : Records := calls.foldl Call.apply records

/-- The calls of a history. A save over a version that the transaction has yet to commit
brings such a version again. -/
def Call.Legal (keys : Set (List Value)) (records : Records) : Call → Prop
  | .save primaryKey serialized version splitLongRecords =>
    values primaryKey ∈ keys ∧ serialized.length < 2 ^ 63 ∧
      (accepts primaryKey serialized splitLongRecords = true → keepsPending (records (values primaryKey)) version)
  | .delete primaryKey _ | .load primaryKey _ => values primaryKey ∈ keys
  | .commit _ _ => True

/-- What every history meets: the calls are for the keys, and the lengths are those of slices. -/
def Call.Addressed (keys : Set (List Value)) : Call → Prop
  | .save primaryKey serialized _ _ => values primaryKey ∈ keys ∧ serialized.length < 2 ^ 63
  | .delete primaryKey _ | .load primaryKey _ => values primaryKey ∈ keys
  | .commit _ _ => True

def LegalCalls (keys : Set (List Value)) : Records → List Call → Prop
  | _, [] => True
  | records, call :: calls => call.Legal keys records ∧ LegalCalls keys (call.apply records) calls

def committedRows (ss : Bytes) (pk : List Value) (store : Store) (transactionVersion : Vector UInt8 10) :
    List KeyValue :=
  (commit store.ctx store.tx transactionVersion).within (subspaceBegin (keyPrefix ss pk)) (subspaceEnd (keyPrefix ss pk))

def Sized (ss : Bytes) (pk : List Value) (store : Store) (sizes : SizeInfo) : Prop :=
  ∀ transactionVersion, transactionVersion ≠ incompleteTransactionVersion →
    Measures sizes (committedRows ss pk store transactionVersion)

/-- No key of another record changes, nor any version that waits to be written to one. -/
def Untouched (ss : Bytes) (pk : List Value) (before after : Store) : Prop :=
  ∀ k, ¬ (subspaceBegin (keyPrefix ss pk) ≤ k ∧ k < subspaceEnd (keyPrefix ss pk)) →
    after.tx.view.get k = before.tx.view.get k ∧ after.ctx.getVersionMutation k = before.ctx.getVersionMutation k

/-- What a call answers and does, given the records. -/
def Meets (ss : Bytes) (records : Records) (before : Store) (answer : Answer) (after : Store) : Call → Prop
  | .save primaryKey serialized _ splitLongRecords =>
    if accepts primaryKey serialized splitLongRecords then
      (∃ sizes, answer = .saved sizes ∧ Sized ss (values primaryKey) after sizes) ∧
        Untouched ss (values primaryKey) before after
    else (∃ cause, answer = .failed (.error cause)) ∧ after.tx.view = before.tx.view ∧ after.ctx = before.ctx
  | .delete primaryKey _ =>
    answer = .deleted (records (values primaryKey)).isSome ∧
      (∀ transactionVersion, committedRows ss (values primaryKey) after transactionVersion = []) ∧
      Untouched ss (values primaryKey) before after
  | .load primaryKey _ =>
    (∃ sizes, answer = .loaded ((records (values primaryKey)).map Record.data)
        ((records (values primaryKey)).bind Record.version) sizes ∧
      Sized ss (values primaryKey) after sizes) ∧
      after.tx.view = before.tx.view ∧ after.ctx = before.ctx
  | .commit transactionVersion _ =>
    answer = .committed ∧ after.tx.view = commit before.ctx before.tx transactionVersion

/-! ## Every history -/

/-- The primary keys of a set of records. -/
structure PrimaryKeys (keys : Set (List Value)) : Prop where
  packable : ∀ pk ∈ keys, packables pk = true
  prefixFree : ∀ pk ∈ keys, ∀ other ∈ keys, pk <+: other → pk = other

theorem PrimaryKeys.pair {pk other : List Value} (packable : packables pk = true)
    (otherPackable : packables other = true) (apart : ¬ pk <+: other) (otherApart : ¬ other <+: pk) :
    PrimaryKeys {pk, other} := by
  constructor
  · rintro _ (rfl | rfl)
    · exact packable
    · exact otherPackable
  · rintro _ (rfl | rfl) _ (rfl | rfl) begins
    · rfl
    · exact absurd begins apart
    · exact absurd begins otherApart
    · rfl

/-- The store holds the records. An exact one has no stale version in its cache. -/
structure Tracks (ss : Bytes) (keys : Set (List Value)) (store : Store) (records : Records) (exact : Bool) :
    Prop where
  stores : ∀ pk ∈ keys, ∃ stale, (exact = true → stale = none) ∧
    Stores (keyPrefix ss pk) store.ctx store.tx.view (records pk) stale
  unnamed : records [] = none

section Histories

variable {ss : Bytes} {keys : Set (List Value)} {store : Store} {records : Records}
    {transactionVersion : Vector UInt8 10} {record : Option Record} {pk : List Value}
    {splitLongRecords exact : Bool} {calls : List Call} {after : Store} {head : Bytes} {call : Call}
    {stale : Option UInt16}

theorem Stores.frame {other : Bytes} {ctx ctx' : RecordContext} {t t' : Transaction}
    (stores : Stores other ctx t.view record stale) (frame : Frame head ctx ctx' t t')
    (apart : ∀ k, (layout other).region k = true → (layout head).region k = false) :
    Stores other ctx' t'.view record stale := by
  have differs : ∀ k, (layout other).region k = true → k ≠ versionKey head :=
    fun k inside => suffixKey_outside (apart k inside) _
  refine ⟨stores.holds.congr fun k inside => frame.outside k (apart k inside), ?_, fun k inside => ?_, stores.addressable⟩
  · rw [frame.cached _ (differs _ (versionKey_inside other)), stores.cached]
  · rw [frame.queued k (differs k inside), stores.queued k inside]

theorem Tracks.update (names : PrimaryKeys keys) (tracks : Tracks ss keys store records exact) (member : pk ∈ keys)
    (named : pk = [] → record = none) (fresh : exact = true → stale = none)
    (stores : Stores (keyPrefix ss pk) after.ctx after.tx.view record stale)
    (frame : Frame (keyPrefix ss pk) store.ctx after.ctx store.tx after.tx) [DecidableEq (List Value)] :
    Tracks ss keys after (Function.update records pk record) exact := by
  refine ⟨fun other otherMember => ?_, ?_⟩
  · by_cases same : other = pk
    · rw [same, Function.update_self]
      exact ⟨stale, fresh, stores⟩
    · rw [Function.update_of_ne same]
      obtain ⟨otherStale, otherFresh, otherStores⟩ := tracks.stores other otherMember
      refine ⟨otherStale, otherFresh, otherStores.frame frame fun k inside => ?_⟩
      exact regions_apart (names.packable other otherMember) (names.packable pk member)
        (fun begins => same (names.prefixFree other otherMember pk member begins))
        (fun begins => same (names.prefixFree pk member other otherMember begins).symm) inside
  · by_cases same : [] = pk
    · rw [← same, Function.update_self]
      exact named same.symm
    · rw [Function.update_of_ne same]
      exact tracks.unnamed

theorem Frame.untouched (frame : Frame (keyPrefix ss pk) store.ctx after.ctx store.tx after.tx) :
    Untouched ss pk store after := by
  intro k outside
  have off : (layout (keyPrefix ss pk)).region k = false := decide_eq_false outside
  exact ⟨frame.outside k off, frame.queued k (suffixKey_outside off _)⟩

theorem Stores.committedRows (stores : Stores (keyPrefix ss pk) store.ctx store.tx.view record stale)
    (known : transactionVersion ≠ incompleteTransactionVersion) :
    SplitHelper.committedRows ss pk store transactionVersion =
      (items (record.map (·.committed transactionVersion known))).map (layout (keyPrefix ss pk)).row :=
  (Stores.committed stores).rows

theorem Stores.sized {pk : List Value} {record : Option Record}
    (stores : Stores (keyPrefix ss pk) store.ctx store.tx.view record stale) :
    Sized ss pk store ((record.map (sizesOf (keyPrefix ss pk) none)).getD {}) := by
  intro transactionVersion known
  rw [stores.committedRows known]
  cases record with
  | none => exact ⟨rfl, rfl, rfl⟩
  | some saved => exact sizesOf_measures _ saved

private theorem values_eq_nil {pk : List Element} : values pk = [] ↔ pk = [] := by
  cases pk with
  | nil => exact ⟨fun _ => rfl, fun _ => rfl⟩
  | cons element pk => exact ⟨nofun, nofun⟩

private theorem not_empty_of_accepts {pk : List Element} {data : Bytes} (accepted : accepts pk data splitLongRecords = true) :
    pk ≠ [] := by
  rw [accepts, Bool.and_eq_true, decide_eq_true_eq] at accepted
  exact accepted.1

private theorem pendingVersion_committed (record : Option Record) (known : transactionVersion ≠ incompleteTransactionVersion) :
    pendingVersion (record.map (·.committed transactionVersion known)) = none := by
  match record with
  | none | some ⟨_, none⟩ | some ⟨_, some (.complete _ _)⟩ | some ⟨_, some (.incomplete _)⟩ => rfl

theorem Stores.next (stores : Stores head store.ctx store.tx.view record stale)
    (known : transactionVersion ≠ incompleteTransactionVersion) :
    Stores head {} (commit store.ctx store.tx transactionVersion)
      (record.map (·.committed transactionVersion known)) none := by
  have settled := pendingVersion_committed record known
  refine ⟨Stores.committed stores, ?_, fun k _ => ?_, fun saved isSaved => ?_⟩
  · cases record with
    | none => rfl
    | some saved => rw [Option.map_some] at settled ⊢; rw [cachedVersion, Option.bind_some, settled]; rfl
  · rw [pendingVersion_committed, ite_self]
    rfl
  · obtain ⟨old, isOld, rfl⟩ := Option.map_eq_some_iff.mp isSaved
    exact stores.addressable old isOld

open Classical in
theorem save_meets (names : PrimaryKeys keys) (tracks : Tracks ss keys store records exact) {primaryKey : List Element}
    {serialized : Bytes} {version : Option RecordVersion} (member : values primaryKey ∈ keys)
    (addressable : serialized.length < 2 ^ 63)
    (legal : exact = true → (Call.save primaryKey serialized version splitLongRecords).Legal keys records) :
    ∃ answer after, (Call.save primaryKey serialized version splitLongRecords).run ss store = (answer, after) ∧
      Tracks ss keys after ((Call.save primaryKey serialized version splitLongRecords).apply records) exact ∧
      Meets ss records store answer after (.save primaryKey serialized version splitLongRecords) := by
  obtain ⟨stale, fresh, stores⟩ := tracks.stores _ member
  have packable := names.packable _ member
  rw [Call.run]
  cases accepted : accepts primaryKey serialized splitLongRecords with
  | true =>
    obtain ⟨ctx, tx, ran, saved, frame⟩ := saveRecord_run packable stores version addressable accepted
    have named : values primaryKey = [] → some (⟨serialized, version⟩ : Record) = none := fun empty =>
      absurd (values_eq_nil.mp empty) (not_empty_of_accepts accepted)
    have stillFresh : exact = true → staleAfter (records (values primaryKey)) stale version = none := fun isExact => by
      rw [fresh isExact]
      exact staleAfter_none ((legal isExact).2.2 accepted)
    rw [ran]
    refine ⟨_, ⟨tx, ctx⟩, rfl, ?_, ?_⟩
    · rw [Call.apply, if_pos accepted]
      exact tracks.update names member named stillFresh saved frame
    · rw [Meets, if_pos accepted]
      exact ⟨⟨_, rfl, @Stores.sized ss ⟨tx, ctx⟩ _ _ _ saved⟩, Frame.untouched frame⟩
  | false =>
    obtain ⟨cause, tx, ran, view⟩ := @saveRecord_refused ss primaryKey store.ctx store.tx _ _ packable stores serialized
      version splitLongRecords accepted
    have refused := Bool.eq_false_iff.mp accepted
    rw [ran]
    refine ⟨_, ⟨tx, store.ctx⟩, rfl, ?_, ?_⟩
    · rw [Call.apply, if_neg refused]
      exact ⟨fun pk isKey => view ▸ tracks.stores pk isKey, tracks.unnamed⟩
    · rw [Meets, if_neg refused]
      exact ⟨⟨cause, rfl⟩, view, rfl⟩

open Classical in
/-- Every call does what the records say. Only a load answers with a stale version, if there
is one. -/
theorem call_meets (names : PrimaryKeys keys) (tracks : Tracks ss keys store records exact)
    (addressed : call.Addressed keys) (legal : exact = true → call.Legal keys records) :
    ∃ answer after, call.run ss store = (answer, after) ∧ Tracks ss keys after (call.apply records) exact ∧
      ((∀ primaryKey splitLongRecords, call = .load primaryKey splitLongRecords → exact = true) →
        Meets ss records store answer after call) := by
  cases call with
  | save primaryKey serialized version splitLongRecords =>
    obtain ⟨answer, after, ran, tracked, meets⟩ := save_meets names tracks addressed.1 addressed.2 legal
    exact ⟨answer, after, ran, tracked, fun _ => meets⟩
  | delete primaryKey splitLongRecords =>
    have named : records (values primaryKey) ≠ none → primaryKey ≠ [] := fun exists_ empty =>
      exists_ (by rw [empty]; exact tracks.unnamed)
    obtain ⟨stale, -, stores⟩ := tracks.stores _ addressed
    obtain ⟨ctx, tx, ran, deleted, frame⟩ := deleteRecord_run (names.packable _ addressed) stores named splitLongRecords
    rw [Call.run, ran]
    exact ⟨_, ⟨tx, ctx⟩, rfl, tracks.update names addressed (fun _ => rfl) (fun _ => rfl) deleted frame, fun _ =>
      ⟨rfl, fun _ => (deleted.holds.congr (deleted.commit_settled rfl)).rows, Frame.untouched frame⟩⟩
  | load primaryKey splitLongRecords =>
    obtain ⟨stale, fresh, stores⟩ := tracks.stores _ addressed
    obtain ⟨tx, ran, view⟩ := loadWithSplit_run (names.packable _ addressed) stores splitLongRecords
    rw [← view] at stores
    rw [Call.run, ran]
    refine ⟨_, ⟨tx, store.ctx⟩, rfl, ⟨fun pk isKey => view ▸ tracks.stores pk isKey, tracks.unnamed⟩, fun known => ?_⟩
    cases fresh (known _ _ rfl)
    refine ⟨⟨_, ?_, @Stores.sized ss ⟨tx, store.ctx⟩ _ _ _ stores⟩, view, rfl⟩
    simp
  | commit transactionVersion known =>
    refine ⟨_, _, rfl, ⟨fun pk isKey => ?_, congrArg (Option.map _) tracks.unnamed⟩, fun _ => ⟨rfl, rfl⟩⟩
    obtain ⟨stale, -, stores⟩ := tracks.stores pk isKey
    exact ⟨none, fun _ => rfl, stores.next known⟩

theorem calls_track (names : PrimaryKeys keys) (tracks : Tracks ss keys store records exact)
    (addressed : ∀ call ∈ calls, call.Addressed keys) (legal : exact = true → LegalCalls keys records calls) :
    Tracks ss keys (runCalls ss store calls) (recordsAfter records calls) exact := by
  induction calls generalizing store records with
  | nil => exact tracks
  | cons call calls ih =>
    obtain ⟨first, rest⟩ := List.forall_mem_cons.mp addressed
    obtain ⟨answer, after, ran, tracked, -⟩ := call_meets names tracks first fun isExact => (legal isExact).1
    rw [runCalls, recordsAfter, List.foldl_cons, List.foldl_cons, ran]
    exact ih tracked rest fun isExact => (legal isExact).2

theorem Call.Legal.addressed (legal : call.Legal keys records) : call.Addressed keys := by
  cases call with
  | save => exact ⟨legal.1, legal.2.1⟩
  | delete | load | commit => exact legal

theorem LegalCalls.addressed (legal : LegalCalls keys records calls) : ∀ call ∈ calls, call.Addressed keys := by
  induction calls generalizing records with
  | nil => exact List.forall_mem_nil _
  | cons call calls ih => exact List.forall_mem_cons.mpr ⟨legal.1.addressed, ih legal.2⟩

private theorem legalCalls_append (legal : LegalCalls keys records (calls ++ [call])) :
    LegalCalls keys records calls ∧ call.Legal keys (recordsAfter records calls) := by
  induction calls generalizing records with
  | nil => exact ⟨trivial, legal.1⟩
  | cons first calls ih =>
    obtain ⟨rest, last⟩ := ih legal.2
    exact ⟨⟨legal.1, rest⟩, last⟩

theorem tracks_start {base : Snapshot}
    (free : ∀ pk ∈ keys, base.within (subspaceBegin (keyPrefix ss pk)) (subspaceEnd (keyPrefix ss pk)) = []) :
    Tracks ss keys { tx := { base } } (fun _ => none) exact :=
  ⟨fun pk isKey => ⟨none, fun _ => rfl, ⟨List.Pairwise.nil, free pk isKey⟩, rfl, fun _ _ => (ite_self _).symm, nofun⟩,
    rfl⟩

/-- Records whose keys do not begin with one another round-trip: from a database without
rows of theirs, every call of a legal history answers and does what the map from primary
keys to records says. -/
theorem split_records_round_trip (ss : Bytes) (keys : Set (List Value)) (names : PrimaryKeys keys) (base : Snapshot)
    (free : ∀ pk ∈ keys, base.within (subspaceBegin (keyPrefix ss pk)) (subspaceEnd (keyPrefix ss pk)) = [])
    (calls : List Call) (call : Call) (legal : LegalCalls keys (fun _ => none) (calls ++ [call])) :
    Meets ss (recordsAfter (fun _ => none) calls) (runCalls ss { tx := { base } } calls)
      (call.run ss (runCalls ss { tx := { base } } calls)).1
      (call.run ss (runCalls ss { tx := { base } } calls)).2 call := by
  obtain ⟨before, last⟩ := legalCalls_append legal
  have tracked : Tracks ss keys _ _ true := calls_track names (tracks_start free) before.addressed fun _ => before
  obtain ⟨answer, after, ran, -, meets⟩ := call_meets names tracked last.addressed fun _ => last
  rw [ran]
  exact meets fun _ _ _ => rfl

end Histories

def emptyDatabase : Snapshot := ∅

def sampleVersion : Vector UInt8 10 := Vector.replicate 10 0x00

private theorem sampleVersion_known : sampleVersion ≠ incompleteTransactionVersion := by decide

/-- A record saved with a version that its commit completes, beside another record. -/
theorem split_records_round_trip_versioned :
    ∃ sizes, ((Call.load [.int64 1] true).run [] (runCalls [] { tx := { base := emptyDatabase } }
        [.save [.int64 1] [7] (some (.incomplete 0)) true, .save [.int64 2] [8] none false,
          .commit sampleVersion sampleVersion_known])).1 =
      .loaded (some [7]) (some (.complete ⟨sampleVersion, 0⟩ sampleVersion_known)) sizes := by
  have names : PrimaryKeys {[.integer 1], [.integer 2]} := .pair (by decide) (by decide) (by simp) (by simp)
  have first : values [.int64 1] = [.integer 1] := rfl
  have second : values [.int64 2] = [.integer 2] := rfl
  have apart : ([.integer 1] : List Value) ≠ [.integer 2] := by simp
  have unsaved : pendingVersion ((Call.save [.int64 1] [7] (some (.incomplete 0)) true).apply (fun _ => none)
      (values [.int64 2])) = none := by
    rw [Call.apply_save_of_ne _ _ _ apart.symm]
    rfl
  obtain ⟨⟨sizes, answer, _⟩, _⟩ := split_records_round_trip [] {[.integer 1], [.integer 2]} names emptyDatabase
    (fun _ _ => rfl)
    [.save [.int64 1] [7] (some (.incomplete 0)) true, .save [.int64 2] [8] none false,
      .commit sampleVersion sampleVersion_known]
    (.load [.int64 1] true)
    ⟨⟨.inl rfl, by decide, fun _ pending => absurd rfl pending⟩,
      ⟨.inr (Set.mem_singleton [Value.integer 2]), by decide, fun _ pending => absurd unsaved pending⟩,
      trivial, .inl rfl, trivial⟩
  refine ⟨sizes, answer.trans ?_⟩
  simp [recordsAfter, Call.apply, first, second, apart, accepts, isLong, splitRecordSize, Record.committed]

/-- A save without a version after one whose version waits for the commit: the next load
still reports that version, and counts a row for it that no commit will write. -/
theorem stale_version_loaded :
    recordsAfter (fun _ => none)
        [.save [.int64 1] [1] (some (.incomplete 0)) true, .save [.int64 1] [2] none true] [.integer 1] =
      some ⟨[2], none⟩ ∧
    ((Call.load [.int64 1] true).run [] (runCalls [] { tx := { base := emptyDatabase } }
        [.save [.int64 1] [1] (some (.incomplete 0)) true, .save [.int64 1] [2] none true])).1 =
      .loaded (some [2]) (some (.incomplete 0))
        { keyCount := 2, keySize := 7, valueSize := 14, isSplit := false, versionedInline := true } ∧
    (committedRows [] [.integer 1] (runCalls [] { tx := { base := emptyDatabase } }
        [.save [.int64 1] [1] (some (.incomplete 0)) true, .save [.int64 1] [2] none true]) sampleVersion).length = 1 := by
  have first : values [.int64 1] = [.integer 1] := rfl
  refine ⟨?_, by decide +kernel, by decide +kernel⟩
  simp [recordsAfter, Call.apply, first, accepts, isLong, splitRecordSize]

end FdbGo.RecordLayer.SplitHelper
