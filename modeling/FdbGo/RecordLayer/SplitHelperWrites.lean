import FdbGo.RecordLayer.SplitHelperProperties

/-! What a save and a delete do to the rows of a record, and to the versions that wait for
the commit. -/

set_option autoImplicit false

namespace FdbGo.RecordLayer.SplitHelper

open Client Foundation FdbGo.Tuple

/-! ## The record context -/

namespace RecordContext

def getVersionMutation (ctx : RecordContext) (key : Key) : Option UInt16 :=
  (ctx.versionMutations.find? fun entry => decide (entry.1 = key)).map Prod.snd

theorem find_filter (entries : List (Key × UInt16)) (key k : Key) :
    ((entries.filter fun entry => decide (entry.1 ≠ key)).find? fun entry => decide (entry.1 = k)).map Prod.snd =
      if k = key then none else (entries.find? fun entry => decide (entry.1 = k)).map Prod.snd := by
  rw [List.find?_filter]
  split
  case isTrue same =>
    subst same
    simp
  case isFalse apart =>
    have only : (fun entry : Key × UInt16 => decide (decide (entry.1 ≠ key) = true ∧ decide (entry.1 = k) = true)) =
        fun entry => decide (entry.1 = k) := by
      funext entry
      by_cases same : entry.1 = k <;> simp [same, apart]
    rw [only]

theorem find_put (entries : List (Key × UInt16)) (key k : Key) (localVersion : UInt16) :
    (((key, localVersion) :: entries.filter fun entry => decide (entry.1 ≠ key)).find?
        fun entry => decide (entry.1 = k)).map Prod.snd =
      if k = key then some localVersion else (entries.find? fun entry => decide (entry.1 = k)).map Prod.snd := by
  by_cases same : k = key
  · subst same
    simp
  · rw [List.find?_cons_of_neg (by simpa using Ne.symm same), find_filter, if_neg same, if_neg same]

variable (ctx : RecordContext) (key k : Key) (localVersion : UInt16)

@[simp] theorem getLocalVersion_add : (ctx.addToLocalVersionCache key localVersion).getLocalVersion k =
    if k = key then some localVersion else ctx.getLocalVersion k :=
  find_put _ key k localVersion

@[simp] theorem getLocalVersion_remove : (ctx.removeLocalVersion key).getLocalVersion k =
    if k = key then none else ctx.getLocalVersion k :=
  find_filter _ key k

@[simp] theorem getVersionMutation_add : (ctx.addVersionMutation key localVersion).getVersionMutation k =
    if k = key then some localVersion else ctx.getVersionMutation k :=
  find_put _ key k localVersion

@[simp] theorem getVersionMutation_remove : (ctx.removeVersionMutation key).getVersionMutation k =
    if k = key then none else ctx.getVersionMutation k :=
  find_filter _ key k

@[simp] theorem getLocalVersion_addMutation :
    (ctx.addVersionMutation key localVersion).getLocalVersion k = ctx.getLocalVersion k := rfl

@[simp] theorem getLocalVersion_removeMutation :
    (ctx.removeVersionMutation key).getLocalVersion k = ctx.getLocalVersion k := rfl

@[simp] theorem getVersionMutation_addLocal :
    (ctx.addToLocalVersionCache key localVersion).getVersionMutation k = ctx.getVersionMutation k := rfl

@[simp] theorem getVersionMutation_removeLocal :
    (ctx.removeLocalVersion key).getVersionMutation k = ctx.getVersionMutation k := rfl

end RecordContext

/-- The commit fills in the queued versions and leaves every other key. -/
theorem commit_get (ctx : RecordContext) (t : Transaction) (transactionVersion : Vector UInt8 10) (k : Key) :
    (commit ctx t transactionVersion).get k =
      match ctx.getVersionMutation k with
      | some localVersion => some (wires false [.versionstamp ⟨transactionVersion, localVersion⟩])
      | none => t.view.get k := by
  rw [commit, RecordContext.getVersionMutation]
  induction ctx.versionMutations with
  | nil => rfl
  | cons entry entries ih =>
    rw [List.foldr_cons, Snapshot.get_set]
    by_cases same : k = entry.1
    · subst same
      rw [Function.update_self, List.find?_cons_of_pos (by simp)]
      rfl
    · rw [Function.update_of_ne same, List.find?_cons_of_neg (by simpa using Ne.symm same), ih]

/-! ## Rewriting a record's rows -/

/-- The record's rows become these items and no other key changes. -/
abbrev Rewrites (head : Bytes) (t t' : Transaction) (its : List (Int64 × Bytes)) : Prop :=
  (layout head).Rewrites t.view t'.view its

section Rewriting

variable {head : Bytes} {t t' : Transaction} {its : List (Int64 × Bytes)}

/-- Keys outside the region are keys of no suffix. -/
theorem suffixKey_outside {k : Key} (outside : (layout head).region k = false) (i : Suffix) : k ≠ suffixKey head i :=
  Layout.ne_key_of_outside outside i

theorem Rewrites.set (rewrites : Rewrites head t t' its) (suffix : Int64) (value : Bytes) :
    Rewrites head t (t'.mutate { typ := .setValue, key := suffixKey head (suffixOf suffix), value })
      (put (layout head).index (suffix, value) its) := by
  rw [Rewrites, Transaction.view_mutate]
  exact Layout.Rewrites.set rewrites (suffix, value)

theorem Rewrites.clear (rewrites : Rewrites head t t' its) (suffix : Int64) :
    Rewrites head t
      (t'.mutate ⟨.clearRange, suffixKey head (suffixOf suffix), keyAfter (suffixKey head (suffixOf suffix))⟩)
      (its.filter fun item => decide (item.1 ≠ suffix)) := by
  have same : (fun item : Int64 × Bytes => decide ((layout head).index item ≠ suffixOf suffix)) =
      fun item => decide (item.1 ≠ suffix) := by
    funext item
    exact decide_eq_decide.mpr suffixOf_inj.not
  rw [Rewrites, Transaction.view_mutate, ← same]
  exact Layout.Rewrites.clear rewrites (suffixOf suffix)

theorem Rewrites.append (rewrites : Rewrites head t t' its) {suffix : Int64} {value : Bytes}
    (last : ∀ item ∈ its, item.1.toInt < suffix.toInt) :
    Rewrites head t (t'.mutate { typ := .setValue, key := suffixKey head (suffixOf suffix), value })
      (its ++ [(suffix, value)]) := by
  have written := rewrites.set suffix value
  have atEnd := @insert_eq_put _ _ _ (layout head).index its [] (suffix, value) last (by simp)
  rw [List.append_nil] at atEnd
  rw [atEnd]
  exact written

end Rewriting

/-! ## Clearing -/

variable {head : Bytes}

section Clearing

variable {ss : Bytes} {pk : List Element} {t t' : Transaction} {its : List (Int64 × Bytes)}

theorem subspacePack_run (packable : packables (values pk) = true) :
    (subspacePack ss pk : Tx Error Bytes).run t = (.ok (keyPrefix ss (values pk)), t) :=
  subspacePack_eq ss packable t

theorem clearOffsets_run (packable : packables (values pk) = true) (offsets : List Int64)
    (rewrites : Rewrites (keyPrefix ss (values pk)) t t' its) :
    ∃ t'', (clearOffsets ss pk offsets).run t' = (.ok (), t'') ∧
      Rewrites (keyPrefix ss (values pk)) t t'' (its.filter fun item => decide (item.1 ∉ offsets)) := by
  induction offsets generalizing t' its with
  | nil =>
    refine ⟨t', rfl, ?_⟩
    simpa using rewrites
  | cons offset offsets ih =>
    obtain ⟨t'', ran, rest⟩ := ih (rewrites.clear offset)
    rw [clearOffsets, Tx.run_bind_ok (recordKey_run packable offset)]
    refine ⟨t'', ran, ?_⟩
    have same : (fun item : Int64 × Bytes => decide (item.1 ∉ offset :: offsets)) =
        fun item => decide (decide (item.1 ≠ offset) = true ∧ decide (item.1 ∉ offsets) = true) := by
      funext item
      simp
    rw [List.filter_filter] at rest
    rw [same]
    simpa [Bool.and_comm] using rest

private theorem subspaceBegin_le_end (head : Bytes) : subspaceBegin head ≤ subspaceEnd head :=
  (append_le_append head [0x00] [0xFF]).mpr (by decide)

variable {record : Record} {stale : Option UInt16}

private theorem le_sizesOf_keyCount (head : Bytes) (stale : Option UInt16) (long : isLong record.data = true) :
    (chunks record.data.length record.data).length ≤ (sizesOf head stale record).keyCount -
      (if record.version.isSome || stale.isSome then [recordVersionSuffix] else []).length := by
  have chunkCount := congrArg List.length
    (chunkItems_suffixes startSplitRecord (chunks record.data.length record.data))
  simp only [List.length_map, List.length_range] at chunkCount
  have dataCount : (dataItems record.data).length = (chunks record.data.length record.data).length := by
    rw [dataItems, if_pos long, chunkCount]
  rcases record with ⟨data, none | localVersion | stamp⟩ <;> cases stale <;>
    simp [sizesOf, SizeInfo.count, items, versionItems, cachedVersion, pendingVersion, pendingSizes, dataCount]

/-- A stale version counts for a row that is not there, so that at most one offset too many
is cleared. -/
theorem mem_recordOffsets {item : Int64 × Bytes} (member : item ∈ items (some record)) :
    item.1 ∈ recordOffsets (sizesOf head stale record) := by
  rw [items] at member
  have versioned : versionItems record.version ≠ [] → record.version.isSome = true := fun some_ => by
    cases stored : record.version with
    | none => rw [stored] at some_; exact absurd rfl some_
    | some version => rfl
  cases List.mem_append.mp member with
  | inl isVersion =>
    have inline := versioned (List.ne_nil_of_mem isVersion)
    have inSuffix : item.1 ∈ [recordVersionSuffix] := by rw [versionItems_suffix isVersion]; exact List.mem_cons_self
    simp only [recordOffsets, sizesOf, inline, Bool.true_or, if_true]
    split
    case isTrue | isFalse => exact List.mem_append_left _ inSuffix
  | inr isData =>
    rw [dataItems] at isData
    cases long : isLong record.data with
    | false =>
      rw [long, if_neg Bool.false_ne_true] at isData
      rw [List.mem_singleton.mp isData, recordOffsets, sizesOf, long]
      exact List.mem_append_right _ List.mem_cons_self
    | true =>
      rw [long, if_pos rfl] at isData
      have suffix := List.mem_map_of_mem (f := Prod.fst) isData
      rw [chunkItems_suffixes] at suffix
      have split : (sizesOf head stale record).isSplit = true := long
      rw [recordOffsets, split]
      refine List.mem_append_right _ (List.map_subset _ (fun i inside => ?_) suffix)
      exact List.mem_range.mpr ((List.mem_range.mp inside).trans_le (le_sizesOf_keyCount head stale long))

theorem clearRecordKeys_run (packable : packables (values pk) = true) (nonempty : pk ≠ [])
    (rewrites : Rewrites (keyPrefix ss (values pk)) t t' (items (some record))) :
    ∃ t'', (clearRecordKeys ss pk (sizesOf (keyPrefix ss (values pk)) stale record)).run t' = (.ok (), t'') ∧
      Rewrites (keyPrefix ss (values pk)) t t'' [] := by
  have written : Rewrites (keyPrefix ss (values pk)) t
      (t'.addWrite (subspaceBegin (keyPrefix ss (values pk))) (subspaceEnd (keyPrefix ss (values pk))))
      (items (some record)) := ⟨rewrites.holds, rewrites.outside⟩
  obtain ⟨t'', ran, cleared⟩ :=
    clearOffsets_run packable (recordOffsets (sizesOf (keyPrefix ss (values pk)) stale record)) written
  have all : (items (some record)).filter
      (fun item => decide (item.1 ∉ recordOffsets (sizesOf (keyPrefix ss (values pk)) stale record))) = [] := by
    rw [List.filter_eq_nil_iff]
    intro item member outside
    exact of_decide_eq_true outside (mem_recordOffsets member)
  rw [all] at cleared
  have some_ : ¬ pk.length = 0 := fun none => nonempty (List.eq_nil_of_length_eq_zero none)
  refine ⟨t'', ?_, cleared⟩
  rw [clearRecordKeys, if_neg some_, Tx.run_bind_ok (subspacePack_run packable),
    Tx.run_bind_ok (Tx.run_addWriteConflictRange (subspaceBegin_le_end _)), ran]

end Clearing

/-! ## Saving -/

section Saving

variable {ss : Bytes} {pk : List Element} {t t' : Transaction} {its : List (Int64 × Bytes)}

private theorem chunk_eq (serialized : Bytes) (offset : Nat) :
    (serialized.take (min (offset + splitRecordSize) serialized.length)).drop offset =
      (serialized.drop offset).take splitRecordSize := by
  rw [List.drop_take]
  cases Nat.le_total (offset + splitRecordSize) serialized.length with
  | inl inside => rw [Nat.min_eq_left inside, Nat.add_sub_cancel_left]
  | inr past =>
    have short : (serialized.drop offset).length ≤ splitRecordSize := by
      rw [List.length_drop]
      omega
    rw [Nat.min_eq_right past, ← List.length_drop, List.take_length, List.take_of_length_le short]

private theorem drop_stop (serialized : Bytes) (offset : Nat) :
    serialized.drop (min (offset + splitRecordSize) serialized.length) =
      (serialized.drop offset).drop splitRecordSize := by
  rw [List.drop_drop]
  cases Nat.le_total (offset + splitRecordSize) serialized.length with
  | inl inside => rw [Nat.min_eq_left inside]
  | inr past => rw [Nat.min_eq_right past, List.drop_length, List.drop_of_length_le past]

theorem writeChunks_run (packable : packables (values pk) = true) {serialized : Bytes} {rounds offset : Nat}
    {index : Int64} (sizes : SizeInfo) (enough : (serialized.drop offset).length ≤ rounds)
    (rewrites : Rewrites (keyPrefix ss (values pk)) t t' its) (last : ∀ item ∈ its, item.1.toInt < index.toInt)
    (nonneg : 0 ≤ index.toInt) (fits : index.toInt + (chunks rounds (serialized.drop offset)).length < 2 ^ 63) :
    ∃ t'', (writeChunks ss pk serialized rounds index offset sizes).run t' =
        (.ok (sizes.count ((chunkItems index (chunks rounds (serialized.drop offset))).map
          (layout (keyPrefix ss (values pk))).row)), t'') ∧
      Rewrites (keyPrefix ss (values pk)) t t'' (its ++ chunkItems index (chunks rounds (serialized.drop offset))) := by
  induction rounds generalizing offset index sizes t' its with
  | zero =>
    refine ⟨t', rfl, ?_⟩
    rw [chunks, chunkItems, List.append_nil]
    exact rewrites
  | succ rounds ih =>
    rw [writeChunks]
    by_cases more : offset < serialized.length
    · have some_ : serialized.drop offset ≠ [] := fun none => by
        have := List.drop_eq_nil_iff.mp none
        omega
      have fewer : (serialized.drop (min (offset + splitRecordSize) serialized.length)).length ≤ rounds := by
        rw [List.length_drop] at enough ⊢
        rw [splitRecordSize]
        omega
      rw [chunks, if_neg some_, ← drop_stop, List.length_cons] at fits
      have one : (index + 1).toInt = index.toInt + 1 := toInt_succ nonneg (by omega)
      have later : ∀ item ∈ its ++ [(index, (serialized.drop offset).take splitRecordSize)],
          item.1.toInt < (index + 1).toInt := by
        refine List.forall_mem_append.mpr ⟨fun item old => ?_, List.forall_mem_singleton.mpr ?_⟩
        · have := last item old
          omega
        · rw [one]
          exact Int.lt_succ _
      obtain ⟨t'', ran, written⟩ := ih
        (sizes.count [(layout (keyPrefix ss (values pk))).row (index, (serialized.drop offset).take splitRecordSize)])
        fewer (rewrites.append last) later (by omega) (by omega)
      refine ⟨t'', ?_, ?_⟩
      · rw [if_pos more]
        dsimp only
        rw [chunk_eq, Tx.run_bind_ok (recordKey_run packable index), Tx.run_bind_ok (Tx.run_set _ _)]
        refine (show _ = _ from ran).trans ?_
        rw [← SizeInfo.count_cons, chunks, if_neg some_, chunkItems, List.map_cons, ← drop_stop]
      · rw [chunks, if_neg some_, chunkItems, ← drop_stop, ← List.singleton_append, ← List.append_assoc]
        exact written
    · have none : serialized.drop offset = [] := List.drop_of_length_le (not_lt.mp more)
      refine ⟨t', ?_, ?_⟩
      · rw [if_neg more, none, chunks_nil]
        rfl
      · rw [none, chunks_nil, chunkItems, List.append_nil]
        exact rewrites

/-- What a transaction stores of a record: its rows, and the version that waits for the
commit in the queue and, or else a stale one, in the cache. -/
structure Stores (head : Bytes) (ctx : RecordContext) (d : Snapshot) (record : Option Record)
    (stale : Option UInt16) : Prop where
  holds : (layout head).Holds d (items record)
  cached : ctx.getLocalVersion (versionKey head) = cachedVersion record stale
  queued : ∀ k, (layout head).region k = true →
    ctx.getVersionMutation k = if k = versionKey head then pendingVersion record else none
  addressable : ∀ saved, record = some saved → saved.data.length < 2 ^ 63

variable {ctx : RecordContext} {record : Option Record} {stale : Option UInt16}

/-- The context after the data of a record was rewritten: nothing waits for the commit. -/
structure Unqueues (head : Bytes) (ctx ctx' : RecordContext) : Prop where
  cached : ∀ k, ctx'.getLocalVersion k = ctx.getLocalVersion k
  queued : ∀ k, ctx'.getVersionMutation k = if k = versionKey head then none else ctx.getVersionMutation k

theorem versionKey_inside (head : Bytes) : (layout head).region (versionKey head) = true :=
  (layout head).inside (suffixOf recordVersionSuffix)

theorem Stores.unqueues {d : Snapshot} (stores : Stores head ctx d record stale) (none : pendingVersion record = none) :
    Unqueues head ctx ctx := by
  refine ⟨fun _ => rfl, fun k => ?_⟩
  split
  case isTrue same => rw [stores.queued k (same ▸ versionKey_inside head), none, ite_self]
  case isFalse => rfl

theorem clearPreviousRecord_run (packable : packables (values pk) = true) (nonempty : pk ≠ [])
    (stores : Stores (keyPrefix ss (values pk)) ctx t.view record stale) :
    ∃ ctx' t', (clearPreviousRecord ctx ss pk true (record.map (sizesOf (keyPrefix ss (values pk)) stale))).run t =
        (.ok ctx', t') ∧
      Rewrites (keyPrefix ss (values pk)) t t' [] ∧ Unqueues (keyPrefix ss (values pk)) ctx ctx' := by
  have cleared : ∃ t', (clearPreviousKeys ss pk true (record.map (sizesOf (keyPrefix ss (values pk)) stale))).run t =
      (.ok (), t') ∧ Rewrites (keyPrefix ss (values pk)) t t' [] := by
    cases record with
    | none => exact ⟨t, rfl, .refl stores.holds⟩
    | some saved => exact clearRecordKeys_run packable nonempty (.refl stores.holds)
  obtain ⟨t', ran, rewrites⟩ := cleared
  have version : (recordKey ss pk recordVersionSuffix).run t' = (.ok (versionKey (keyPrefix ss (values pk))), t') :=
    recordKey_run packable recordVersionSuffix
  rw [clearPreviousRecord, Tx.run_bind_ok ran, Tx.run_bind_ok version, stores.cached]
  cases cached : cachedVersion record stale with
  | none =>
    have settled : pendingVersion record = none := by
      cases record with
      | none => rfl
      | some saved => exact (Option.or_eq_none_iff.mp cached).1
    exact ⟨ctx, t', rfl, rewrites, stores.unqueues settled⟩
  | some localVersion =>
    exact ⟨_, t', rfl, rewrites, fun _ => rfl, fun k => RecordContext.getVersionMutation_remove ctx _ k⟩

theorem setUnsplit_run (head data : Bytes) (ctx : RecordContext) (t : Transaction) :
    (do
      Tx.set (suffixKey head (suffixOf unsplitRecord)) data
      pure ({ keyCount := 1, keySize := (suffixKey head (suffixOf unsplitRecord)).length, valueSize := data.length },
        ctx) : Tx Error (SizeInfo × RecordContext)).run t =
      (.ok ({ ({} : SizeInfo).count ([(unsplitRecord, data)].map (layout head).row) with isSplit := false }, ctx),
        t.mutate { typ := .setValue, key := suffixKey head (suffixOf unsplitRecord), value := data }) := by
  rw [Tx.run_bind_ok (Tx.run_set _ _), Tx.run_pure]
  simp [SizeInfo.count, Layout.row, layout]

private theorem not_clearsBefore {splitLongRecords : Bool}
    (keeps : clearsBefore splitLongRecords (record.map (sizesOf head stale)) = false) :
    ∃ old, record = some ⟨old, none⟩ ∧ isLong old = false := by
  rw [clearsBefore, Bool.or_eq_false_iff] at keeps
  cases record with
  | none => cases keeps.2
  | some saved =>
    obtain ⟨old, version⟩ := saved
    have plain : ((version.isSome || stale.isSome) || isLong old) = false := keeps.2
    rw [Bool.or_eq_false_iff, Bool.or_eq_false_iff] at plain
    rw [Option.not_isSome_iff_eq_none.mp (Bool.eq_false_iff.mp plain.1.1)]
    exact ⟨old, rfl, plain.2⟩

theorem saveWithSplit_run (packable : packables (values pk) = true) (nonempty : pk ≠ [])
    (stores : Stores (keyPrefix ss (values pk)) ctx t.view record stale) {data : Bytes} {splitLongRecords : Bool}
    (addressable : data.length < 2 ^ 63) (accepted : isLong data = true → splitLongRecords = true) :
    ∃ ctx' t', (saveWithSplit ctx ss pk data splitLongRecords false
          (record.map (sizesOf (keyPrefix ss (values pk)) stale))).run t =
        (.ok ({ ({} : SizeInfo).count ((dataItems data).map (layout (keyPrefix ss (values pk))).row) with
          isSplit := isLong data }, ctx'), t') ∧
      Rewrites (keyPrefix ss (values pk)) t t' (dataItems data) ∧ Unqueues (keyPrefix ss (values pk)) ctx ctx' := by
  have some_ : ¬ pk.length = 0 := fun none => nonempty (List.eq_nil_of_length_eq_zero none)
  obtain ⟨ctx', t', ran, cleared, unqueues⟩ := clearPreviousRecord_run packable nonempty stores
  rw [saveWithSplit, saveSplit, if_neg some_]
  cases long : isLong data with
  | true =>
    have split := accepted long
    subst split
    obtain ⟨t'', written, rewrites⟩ := @writeChunks_run ss pk t t' [] packable data data.length 0 startSplitRecord {}
      (le_refl data.length) cleared (by simp) (by decide) (chunks_fit addressable)
    refine ⟨ctx', t'', ?_, ?_, unqueues⟩
    · rw [if_pos (of_decide_eq_true long), if_neg (show ¬ (!true) = true by decide), Tx.run_bind_ok ran, Tx.run_bind_ok written,
        dataItems, if_pos long]
      rfl
    · rw [dataItems, if_pos long]
      exact rewrites
  | false =>
    have short : ¬ data.length > splitRecordSize := of_decide_eq_false long
    have suffixed : ¬ (!splitLongRecords && false) = true := by simp
    have rows : dataItems data = [(unsplitRecord, data)] := by rw [dataItems, long]; rfl
    rw [if_neg short, if_neg suffixed, rows]
    cases clears : clearsBefore splitLongRecords (record.map (sizesOf (keyPrefix ss (values pk)) stale)) with
    | true =>
      refine ⟨ctx', _, ?_, cleared.append (by simp), unqueues⟩
      refine (Tx.run_bind_ok ran _).trans ?_
      dsimp only
      rw [Tx.run_bind_ok (recordKey_run packable unsplitRecord), setUnsplit_run]
    | false =>
      -- only the row of an unsplit record without a version can be there
      obtain ⟨old, rfl, unsplit⟩ := not_clearsBefore clears
      have written := Rewrites.set (.refl stores.holds) unsplitRecord data
      rw [items, dataItems, unsplit] at written
      refine ⟨ctx, _, ?_, written, stores.unqueues rfl⟩
      exact (Tx.run_bind_ok (recordKey_run packable unsplitRecord) _).trans (setUnsplit_run _ data ctx t)

end Saving

end FdbGo.RecordLayer.SplitHelper
