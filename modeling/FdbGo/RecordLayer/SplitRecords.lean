import FdbGo.RecordLayer.SplitHelperWrites

/-! What a load, a save, a delete and a commit do to one record. -/

set_option autoImplicit false

namespace FdbGo.RecordLayer.SplitHelper

open Client Foundation FdbGo.Tuple

structure Frame (head : Bytes) (ctx ctx' : RecordContext) (t t' : Transaction) : Prop where
  outside : ∀ k, (layout head).region k = false → t'.view.get k = t.view.get k
  cached : ∀ k, k ≠ versionKey head → ctx'.getLocalVersion k = ctx.getLocalVersion k
  queued : ∀ k, k ≠ versionKey head → ctx'.getVersionMutation k = ctx.getVersionMutation k

section Record

variable {ss : Bytes} {pk : List Element} {ctx : RecordContext} {t : Transaction} {record : Option Record}
    {t' : Transaction} {head data : Bytes} {stale : Option UInt16}

theorem Frame.refl (same : t'.view = t.view) : Frame head ctx ctx t t' :=
  ⟨fun _ _ => by rw [same], fun _ _ => rfl, fun _ _ => rfl⟩

/-- A load returns the stored record, with the version that is queued or left behind. -/
theorem loadWithSplit_run (packable : packables (values pk) = true)
    (stores : Stores (keyPrefix ss (values pk)) ctx t.view record stale) (splitLongRecords : Bool) :
    ∃ t', (loadWithSplit ctx ss pk splitLongRecords false).run t =
        (.ok (record.map Record.data, record.bind fun saved => saved.version.or (stale.map .incomplete),
          (record.map (sizesOf (keyPrefix ss (values pk)) stale)).getD {}), t') ∧
      t'.view = t.view := by
  have suffixed : ¬ (!splitLongRecords && false) = true := by simp
  have rows : t.view.within (subspaceBegin (keyPrefix ss (values pk))) (subspaceEnd (keyPrefix ss (values pk))) =
      (items record).map (layout (keyPrefix ss (values pk))).row := stores.holds.rows
  have version := @recordKey_run ss pk (t.addRead (subspaceBegin (keyPrefix ss (values pk)))
    (subspaceEnd (keyPrefix ss (values pk)))) packable recordVersionSuffix
  have read : readRange (keyPrefix ss (values pk)).length (versionKey (keyPrefix ss (values pk)))
      (cachedVersion record stale) ((items record).map (layout (keyPrefix ss (values pk))).row) =
      .ok (record.map Record.data, record.bind fun saved => saved.version.or (stale.map .incomplete),
        (record.map (sizesOf (keyPrefix ss (values pk)) stale)).getD {}) := by
    cases record with
    | none => exact readRange_nothing
    | some saved => exact readRange_record stale (stores.addressable saved rfl)
  refine ⟨t.addRead (subspaceBegin (keyPrefix ss (values pk))) (subspaceEnd (keyPrefix ss (values pk))), ?_, rfl⟩
  rw [loadWithSplit, Tx.run_bind_ok (subspacePack_run packable), if_neg suffixed,
    Tx.run_bind_ok (Tx.run_getRange _ _), Tx.run_bind_ok version, rows]
  have cached := stores.cached
  rw [versionKey] at cached read
  rw [cached, read]
  rfl

theorem Rewrites.version (rewrites : Rewrites head t t' (dataItems data)) (addressable : data.length < 2 ^ 63)
    (value : Bytes) : Rewrites head t (t'.mutate { typ := .setValue, key := versionKey head, value })
      ((recordVersionSuffix, value) :: dataItems data) := by
  have first : ∀ item ∈ dataItems data,
      (layout head).index (recordVersionSuffix, value) < (layout head).index item := by
    intro item member
    have nonneg := dataItems_from addressable member
    have negative : recordVersionSuffix.toInt = -1 := rfl
    have less : recordVersionSuffix.toInt < item.1.toInt := by omega
    exact less
  have written := rewrites.set recordVersionSuffix value
  have front := @insert_eq_put _ _ _ (layout head).index [] (dataItems data) (recordVersionSuffix, value) (by simp) first
  rw [List.nil_append, List.nil_append] at front
  rw [front]
  exact written

/-- A save is refused for an empty primary key, and for a long value without splitting. -/
def accepts (pk : List Element) (data : Bytes) (splitLongRecords : Bool) : Bool :=
  decide (pk ≠ []) && (!isLong data || splitLongRecords)

def keepsPending (record : Option Record) (version : Option RecordVersion) : Prop :=
  pendingVersion record ≠ none → ∃ localVersion, version = some (.incomplete localVersion)

/-- The stale version after a save: what the cache held, unless the save brings a version
that waits for the commit. -/
def staleAfter (record : Option Record) (stale : Option UInt16) : Option RecordVersion → Option UInt16
  | some (.incomplete _) => none
  | _ => cachedVersion record stale

theorem staleAfter_none {version : Option RecordVersion} (keeps : keepsPending record version) :
    staleAfter record none version = none := by
  have settled : (∀ localVersion, version ≠ some (.incomplete localVersion)) → cachedVersion record none = none := by
    intro other
    have none : pendingVersion record = none := by
      by_contra pending
      obtain ⟨localVersion, same⟩ := keeps pending
      exact other localVersion same
    cases record with
    | none => rfl
    | some saved => rw [cachedVersion, Option.bind_some, none]; rfl
  rcases version with none | ⟨stamp, known⟩ | localVersion
  · exact settled (by simp)
  · exact settled (by simp)
  · rfl

variable {version : Option RecordVersion} {ctx' : RecordContext}

theorem Stores.renew (stores : Stores head ctx t.view record stale) (frame : Frame head ctx ctx' t t')
    {new : Option Record} {newStale : Option UInt16} (holds : (layout head).Holds t'.view (items new))
    (cached : ctx'.getLocalVersion (versionKey head) = cachedVersion new newStale)
    (queued : ctx'.getVersionMutation (versionKey head) = pendingVersion new)
    (addressable : ∀ saved, new = some saved → saved.data.length < 2 ^ 63) : Stores head ctx' t'.view new newStale := by
  refine ⟨holds, cached, fun k inside => ?_, addressable⟩
  split
  case isTrue same => rw [same, queued]
  case isFalse apart => rw [frame.queued k apart, stores.queued k inside, if_neg apart]

section

variable (packable : packables (values pk) = true)

include packable

variable (stores : Stores (keyPrefix ss (values pk)) ctx t.view record stale)

include stores

theorem saveVersion_run (addressable : data.length < 2 ^ 63)
    (rewrites : Rewrites (keyPrefix ss (values pk)) t t' (dataItems data))
    (unqueues : Unqueues (keyPrefix ss (values pk)) ctx ctx') :
    ∃ ctx'' t'', (saveVersion ctx' ss pk version
        { ({} : SizeInfo).count ((dataItems data).map (layout (keyPrefix ss (values pk))).row) with
          isSplit := isLong data }).run t' =
        (.ok (sizesOf (keyPrefix ss (values pk)) none ⟨data, version⟩, ctx''), t'') ∧
      Stores (keyPrefix ss (values pk)) ctx'' t''.view (some ⟨data, version⟩) (staleAfter record stale version) ∧
      Frame (keyPrefix ss (values pk)) ctx ctx'' t t'' := by
  have only : ∀ saved, some (⟨data, version⟩ : Record) = some saved → saved.data.length < 2 ^ 63 :=
    fun saved same => Option.some.inj same ▸ addressable
  have key : (recordKey ss pk recordVersionSuffix).run t' = (.ok (versionKey (keyPrefix ss (values pk))), t') :=
    recordKey_run packable recordVersionSuffix
  generalize keyPrefix ss (values pk) = head at stores rewrites unqueues key ⊢
  have kept : ctx'.getLocalVersion (versionKey head) = cachedVersion record stale :=
    (unqueues.cached _).trans stores.cached
  have unqueued : ctx'.getVersionMutation (versionKey head) = none := (unqueues.queued _).trans (if_pos rfl)
  have frame : Frame head ctx ctx' t t' :=
    ⟨rewrites.outside, fun k _ => unqueues.cached k, fun k apart => (unqueues.queued k).trans (if_neg apart)⟩
  rcases version with none | ⟨stamp, known⟩ | localVersion
  case none =>
    refine ⟨ctx', t', ?_, stores.renew frame rewrites.holds kept unqueued only, frame⟩
    simp [saveVersion, sizesOf, SizeInfo.count, items, versionItems, cachedVersion, pendingVersion, pendingSizes]
  case some.complete =>
    have packed : packables (values [.versionstamp stamp]) = true := by
      simp [values, Element.value, packables, Value.packable, known]
    have written := rewrites.version addressable (wires false [.versionstamp stamp])
    have wrote : Frame head ctx ctx' t
        (t'.mutate { typ := .setValue, key := versionKey head, value := wires false [.versionstamp stamp] }) :=
      ⟨written.outside, frame.cached, frame.queued⟩
    refine ⟨ctx', _, ?_, stores.renew wrote written.holds kept unqueued only, wrote⟩
    rw [saveVersion, Tx.run_bind_ok key, saveRecordVersion, Tx.run_bind_ok (subspacePack_eq [] packed t')]
    simp only [List.nil_append, values, Element.value]
    rw [Tx.run_bind_ok (Tx.run_set _ _), Tx.run_pure]
    simp [sizesOf, SizeInfo.count, items, versionItems, cachedVersion, pendingVersion, pendingSizes, Layout.row, layout,
      versionKey, Nat.add_comm]
  case some.incomplete =>
    have wrote : Frame head ctx
        ((ctx'.addToLocalVersionCache (versionKey head) localVersion).addVersionMutation (versionKey head) localVersion)
        t t' := by
      refine ⟨frame.outside, fun k apart => ?_, fun k apart => ?_⟩
      · simp [apart, frame.cached k apart]
      · simp [apart, frame.queued k apart]
    refine ⟨_, t', ?_, stores.renew wrote rewrites.holds (by simp [cachedVersion, pendingVersion])
      (by simp [pendingVersion]) only, wrote⟩
    rw [saveVersion, Tx.run_bind_ok key, saveRecordVersion, Tx.run_pure]
    simp [sizesOf, SizeInfo.count, items, versionItems, cachedVersion, pendingVersion, pendingSizes, Nat.add_comm]

theorem saveRecord_run {splitLongRecords : Bool} (version : Option RecordVersion) (addressable : data.length < 2 ^ 63)
    (accepted : accepts pk data splitLongRecords = true) :
    ∃ ctx' t', (saveRecord ctx ss pk data version splitLongRecords).run t =
        (.ok (sizesOf (keyPrefix ss (values pk)) none ⟨data, version⟩, ctx'), t') ∧
      Stores (keyPrefix ss (values pk)) ctx' t'.view (some ⟨data, version⟩) (staleAfter record stale version) ∧
      Frame (keyPrefix ss (values pk)) ctx ctx' t t' := by
  rw [accepts, Bool.and_eq_true, decide_eq_true_eq] at accepted
  obtain ⟨nonempty, fits⟩ := accepted
  have splits : isLong data = true → splitLongRecords = true := fun long => by simpa [long] using fits
  obtain ⟨loaded, ranLoad, view⟩ := loadWithSplit_run packable stores splitLongRecords
  have reported : (if (record.map Record.data).isSome then
      some ((record.map (sizesOf (keyPrefix ss (values pk)) stale)).getD {}) else none) =
      record.map (sizesOf (keyPrefix ss (values pk)) stale) := by
    cases record <;> rfl
  rw [← view] at stores
  obtain ⟨ctx', saved, ranSave, rewrites, unqueues⟩ :=
    saveWithSplit_run packable nonempty stores addressable splits
  obtain ⟨ctx'', t', ran, stored, frame⟩ :=
    saveVersion_run packable stores addressable rewrites unqueues
  refine ⟨ctx'', t', ?_, stored, ⟨fun k outside => (frame.outside k outside).trans (by rw [view]), frame.cached, frame.queued⟩⟩
  rw [saveRecord, Tx.run_bind_ok ranLoad]
  dsimp only
  rw [reported, Tx.run_bind_ok ranSave]
  exact ran

theorem saveRecord_refused {data : Bytes}
    {version : Option RecordVersion} {splitLongRecords : Bool} (refused : accepts pk data splitLongRecords = false) :
    ∃ cause t', (saveRecord ctx ss pk data version splitLongRecords).run t = (.error (.error cause), t') ∧
      t'.view = t.view := by
  obtain ⟨loaded, ranLoad, view⟩ := loadWithSplit_run packable stores splitLongRecords
  rw [saveRecord, Tx.run_bind_ok ranLoad]
  dsimp only
  rw [saveWithSplit, saveSplit]
  by_cases empty : pk.length = 0
  · rw [if_pos empty]
    exact ⟨.emptyPrimaryKey, loaded, Tx.run_bind_error rfl _, view⟩
  · have nonempty : pk ≠ [] := fun none => empty (by rw [none]; rfl)
    simp only [accepts, nonempty, ne_eq, not_false_eq_true, decide_true, Bool.true_and, Bool.or_eq_false_iff,
      Bool.not_eq_false'] at refused
    rw [if_neg empty, if_pos (of_decide_eq_true refused.1), if_pos (by rw [refused.2]; rfl)]
    exact ⟨.recordTooLong, loaded, Tx.run_bind_error rfl _, view⟩

theorem deleteRecord_run (named : record ≠ none → pk ≠ []) (splitLongRecords : Bool) :
    ∃ ctx' t', (deleteRecord ctx ss pk splitLongRecords).run t = (.ok (record.isSome, ctx'), t') ∧
      Stores (keyPrefix ss (values pk)) ctx' t'.view none none ∧ Frame (keyPrefix ss (values pk)) ctx ctx' t t' := by
  obtain ⟨loaded, ranLoad, view⟩ := loadWithSplit_run packable stores splitLongRecords
  rw [deleteRecord, Tx.run_bind_ok ranLoad]
  cases record with
  | none => exact ⟨ctx, loaded, rfl, stores.renew (.refl view) (view ▸ stores.holds) stores.cached
      ((stores.queued _ (versionKey_inside _)).trans (ite_self _)) nofun, .refl view⟩
  | some saved =>
    have nonempty := named nofun
    have some_ : ¬ pk.length = 0 := fun none => nonempty (List.eq_nil_of_length_eq_zero none)
    have suffixed : ¬ (!splitLongRecords && false) = true := by simp
    obtain ⟨t', cleared, rewrites⟩ := clearRecordKeys_run packable nonempty (.refl (view ▸ stores.holds))
    have deleted : (deleteSplit ss pk splitLongRecords false
        (some (sizesOf (keyPrefix ss (values pk)) stale saved))).run loaded = (.ok true, t') := by
      rw [deleteSplit, if_neg some_]
      exact (congrArg (Tx.run · loaded) (if_neg suffixed)).trans (Tx.run_bind_ok cleared _)
    have key : (recordKey ss pk recordVersionSuffix).run t' = (.ok (versionKey (keyPrefix ss (values pk))), t') :=
      recordKey_run packable recordVersionSuffix
    have frame : Frame (keyPrefix ss (values pk)) ctx ((ctx.removeVersionMutation
        (versionKey (keyPrefix ss (values pk)))).removeLocalVersion (versionKey (keyPrefix ss (values pk)))) t t' := by
      refine ⟨fun k outside => (rewrites.outside k outside).trans (by rw [view]), fun k apart => ?_, fun k apart => ?_⟩
      · simp [apart]
      · simp [apart]
    refine ⟨_, t', ?_, stores.renew frame rewrites.holds (by simp [cachedVersion]) (by simp [pendingVersion]) nofun, frame⟩
    exact (Tx.run_bind_ok deleted _).trans (Tx.run_bind_ok key _)

end

def Record.committed (transactionVersion : Vector UInt8 10)
    (known : transactionVersion ≠ incompleteTransactionVersion) (record : Record) : Record :=
  { record with version := record.version.map fun version =>
      match version with
      | .complete stamp known => .complete stamp known
      | .incomplete localVersion => .complete ⟨transactionVersion, localVersion⟩ known }

variable {transactionVersion : Vector UInt8 10} {known : transactionVersion ≠ incompleteTransactionVersion}

/-- Without a queued version the commit changes nothing in the region. -/
theorem Stores.commit_settled (stores : Stores head ctx t.view record stale) (settled : pendingVersion record = none)
    (k : Key) (inside : (layout head).region k = true) : (commit ctx t transactionVersion).get k = t.view.get k := by
  rw [commit_get, stores.queued k inside, settled, ite_self]

/-- The commit gives the record its complete version. -/
theorem Stores.committed (stores : Stores head ctx t.view record stale) :
    (layout head).Holds (commit ctx t transactionVersion) (items (record.map (·.committed transactionVersion known))) := by
  match record, stores with
  | none, stores | some ⟨data, none⟩, stores | some ⟨data, some (.complete stamp complete)⟩, stores =>
    exact stores.holds.congr (stores.commit_settled rfl)
  | some ⟨data, some (.incomplete localVersion)⟩, stores =>
    have written := Rewrites.version (.refl stores.holds) (stores.addressable _ rfl)
      (wires false [.versionstamp ⟨transactionVersion, localVersion⟩])
    refine written.holds.congr fun k inside => ?_
    have view : (t.mutate ⟨.setValue, versionKey head,
        wires false [.versionstamp ⟨transactionVersion, localVersion⟩]⟩).view =
        t.view.set (versionKey head) (wires false [.versionstamp ⟨transactionVersion, localVersion⟩]) := by
      rw [Transaction.view_mutate]
      rfl
    rw [commit_get, stores.queued k inside, pendingVersion, view, Snapshot.get_set, Function.update_apply]
    by_cases same : k = versionKey head
    · rw [if_pos same, if_pos same]
    · rw [if_neg same, if_neg same]

structure Measures (sizes : SizeInfo) (rows : List KeyValue) : Prop where
  keyCount : sizes.keyCount = rows.length
  keySize : sizes.keySize = (rows.map fun kv => kv.key.length).sum
  valueSize : sizes.valueSize = (rows.map fun kv => kv.value.length).sum

private theorem length_versionstamp (stamp : Versionstamp) :
    (wires false [.versionstamp stamp]).length = versionstampLength + 1 := by
  simp [wires, Value.wire, Versionstamp.wireBytes, versionstampLength]

theorem sizesOf_measures (head : Bytes) (record : Record) :
    Measures (sizesOf head none record)
      ((items (some (record.committed transactionVersion known))).map (layout head).row) := by
  match record with
  | ⟨data, none⟩ | ⟨data, some (.complete stamp complete)⟩ =>
    constructor <;> simp [sizesOf, SizeInfo.count, items, versionItems, cachedVersion, pendingVersion, pendingSizes,
      Record.committed]
  | ⟨data, some (.incomplete localVersion)⟩ =>
    constructor <;> simp [sizesOf, SizeInfo.count, items, versionItems, cachedVersion, pendingVersion, pendingSizes,
      Record.committed,
      length_versionstamp, Layout.row, layout, versionKey, Nat.add_comm]

end Record

end FdbGo.RecordLayer.SplitHelper
