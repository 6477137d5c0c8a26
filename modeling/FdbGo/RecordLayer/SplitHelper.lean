import FdbGo.RecordLayer.Subspace

/-! `split_helper.go`: a record is one row behind its primary key, or several rows that
hold its bytes in chunks, with the record's version in a row before them. Primary keys
hold no incomplete versionstamp: such a key cannot be packed for a load. A nil record
context is an empty one. -/

set_option autoImplicit false

namespace FdbGo.RecordLayer.SplitHelper

open Client FdbGo.Tuple

def splitRecordSize : Nat := 100000

def unsplitRecord : Int64 := 0

def startSplitRecord : Int64 := 1

def recordVersionSuffix : Int64 := -1

structure SizeInfo where
  keyCount : Nat := 0
  keySize : Nat := 0
  valueSize : Nat := 0
  isSplit : Bool := false
  versionedInline : Bool := false
  deriving DecidableEq, Repr

/-- `FDBRecordVersion`: an incomplete version gets its global part from the commit. -/
inductive RecordVersion where
  | complete (stamp : Versionstamp) (known : stamp.transactionVersion ≠ incompleteTransactionVersion)
  | incomplete (localVersion : UInt16)
  deriving DecidableEq, Repr

inductive Error where
  | emptyPrimaryKey
  | recordTooLong
  | unpackSplitKey (cause : SubspaceError)
  | notSingleExtension
  | suffixNotInteger
  | moreThanOneUnsplit
  | unsplitFollowedBySplit
  | splitOutOfOrder (expected found : Int64)
  | splitWithoutStart (nextIndex : Int64)
  | unpackVersion (cause : Fast.FastError)
  | emptyVersionTuple
  | notVersionstamp
  deriving DecidableEq, Repr

/-! ## The record context -/

/-- The versions that a transaction gave records and that its commit will complete: the
cache answers reads, the mutations are queued for the commit. Both are keyed by the
version's row. -/
structure RecordContext where
  localVersionCache : List (Key × UInt16) := []
  versionMutations : List (Key × UInt16) := []
  deriving DecidableEq, Repr

variable (ctx : RecordContext) (versionKey : Key)

namespace RecordContext

def getLocalVersion : Option UInt16 :=
  (ctx.localVersionCache.find? fun entry => decide (entry.1 = versionKey)).map Prod.snd

def addToLocalVersionCache (localVersion : UInt16) : RecordContext :=
  { ctx with localVersionCache :=
      (versionKey, localVersion) :: ctx.localVersionCache.filter fun entry => decide (entry.1 ≠ versionKey) }

def removeLocalVersion : RecordContext :=
  { ctx with localVersionCache := ctx.localVersionCache.filter fun entry => decide (entry.1 ≠ versionKey) }

def addVersionMutation (localVersion : UInt16) : RecordContext :=
  { ctx with versionMutations :=
      (versionKey, localVersion) :: ctx.versionMutations.filter fun entry => decide (entry.1 ≠ versionKey) }

def removeVersionMutation : RecordContext :=
  { ctx with versionMutations := ctx.versionMutations.filter fun entry => decide (entry.1 ≠ versionKey) }

end RecordContext

/-! ## Saving -/

variable (ss : Bytes)

def recordKey (primaryKey : List Element) (suffix : Int64) : Tx Error Key :=
  subspacePack ss (primaryKey ++ [.int64 suffix])

/-- The key suffixes that a record of these sizes occupies, its inline version first. -/
def recordOffsets (old : SizeInfo) : List Int64 :=
  let offsets := if old.versionedInline then [recordVersionSuffix] else []
  if !old.isSplit then offsets ++ [unsplitRecord]
  else offsets ++ (List.range (old.keyCount - offsets.length)).map fun i => startSplitRecord + Int64.ofNat i

def clearOffsets (ss : Bytes) (primaryKey : List Element) : List Int64 → Tx Error Unit
  | [] => pure ()
  | offset :: rest => do
    let key ← recordKey ss primaryKey offset
    Tx.clear key
    clearOffsets ss primaryKey rest

def clearRecordKeys (primaryKey : List Element) (old : SizeInfo) : Tx Error Unit :=
  if primaryKey.length = 0 then pure ()
  else do
    let sub ← subspacePack ss primaryKey
    Tx.addWriteConflictRange (subspaceBegin sub) (subspaceEnd sub)
    clearOffsets ss primaryKey (recordOffsets old)

def clearRecordKeyRange (primaryKey : List Element) : Tx Error Unit :=
  if primaryKey.length = 0 then pure ()
  else do
    let sub ← subspacePack ss primaryKey
    Tx.clearRange (subspaceBegin sub) (subspaceEnd sub)

/-- The clears of `clearPreviousRecord`. -/
def clearPreviousKeys (primaryKey : List Element) (clearBySize : Bool) (old : Option SizeInfo) :
    Tx Error Unit :=
  if !clearBySize then clearRecordKeyRange ss primaryKey
  else
    match old with
    | some sizes => clearRecordKeys ss primaryKey sizes
    | none => pure ()

/-- The clears go first; the version queued by an earlier save is dropped, but stays in the
cache. -/
def clearPreviousRecord (primaryKey : List Element) (clearBySize : Bool)
    (old : Option SizeInfo) : Tx Error RecordContext := do
  clearPreviousKeys ss primaryKey clearBySize old
  let versionKey ← recordKey ss primaryKey recordVersionSuffix
  match ctx.getLocalVersion versionKey with
  | some _ => pure (ctx.removeVersionMutation versionKey)
  | none => pure ctx

/-- The loop that writes the chunks from an offset on. -/
def writeChunks (ss : Bytes) (primaryKey : List Element) (serialized : Bytes) :
    Nat → Int64 → Nat → SizeInfo → Tx Error SizeInfo
  | 0, _, _, sizes => pure sizes
  | rounds + 1, splitIndex, offset, sizes =>
    if offset < serialized.length then do
      let stop := min (offset + splitRecordSize) serialized.length
      let chunk := (serialized.take stop).drop offset
      let key ← recordKey ss primaryKey splitIndex
      Tx.set key chunk
      writeChunks ss primaryKey serialized rounds (splitIndex + 1) stop
        { sizes with
          keyCount := sizes.keyCount + 1
          keySize := sizes.keySize + key.length
          valueSize := sizes.valueSize + chunk.length }
    else pure sizes

/-- Whether an unsplit save first clears what was there. -/
def clearsBefore (splitLongRecords : Bool) (old : Option SizeInfo) : Bool :=
  splitLongRecords || old.all fun sizes => sizes.versionedInline || sizes.isSplit

def saveSplit (primaryKey : List Element) (serialized : Bytes)
    (splitLongRecords omitUnsplitRecordSuffix clearBySize : Bool) (old : Option SizeInfo) :
    Tx Error (SizeInfo × RecordContext) :=
  if primaryKey.length = 0 then Tx.fail .emptyPrimaryKey
  else if serialized.length > splitRecordSize then
    if !splitLongRecords then Tx.fail .recordTooLong
    else do
      let ctx ← clearPreviousRecord ctx ss primaryKey clearBySize old
      let sizes ← writeChunks ss primaryKey serialized serialized.length startSplitRecord 0 {}
      pure ({ sizes with isSplit := true }, ctx)
  else if !splitLongRecords && omitUnsplitRecordSuffix then do
    -- the legacy layout: the value lives at the bare key
    let key ← subspacePack ss primaryKey
    Tx.set key serialized
    pure ({ keyCount := 1, keySize := key.length, valueSize := serialized.length }, ctx)
  else do
    let ctx ←
      if clearsBefore splitLongRecords old then clearPreviousRecord ctx ss primaryKey clearBySize old
      else pure ctx
    let key ← recordKey ss primaryKey unsplitRecord
    Tx.set key serialized
    pure ({ keyCount := 1, keySize := key.length, valueSize := serialized.length }, ctx)

def saveWithSplit (primaryKey : List Element) (serialized : Bytes)
    (splitLongRecords omitUnsplitRecordSuffix : Bool) (old : Option SizeInfo) :
    Tx Error (SizeInfo × RecordContext) :=
  saveSplit ctx ss primaryKey serialized splitLongRecords omitUnsplitRecordSuffix true old

/-- The inline layout of `saveRecordVersionAtKey`. The queued value is the packed version
whose global part the commit fills in. -/
def saveRecordVersion (version : RecordVersion) (sizes : SizeInfo) :
    Tx Error (SizeInfo × RecordContext) :=
  match version with
  | .complete stamp _ => do
    let packed ← subspacePack [] [.versionstamp stamp]
    Tx.set versionKey packed
    pure ({ sizes with
      versionedInline := true
      keyCount := sizes.keyCount + 1
      keySize := sizes.keySize + versionKey.length
      valueSize := sizes.valueSize + packed.length }, ctx)
  | .incomplete localVersion =>
    pure ({ sizes with
      versionedInline := true
      keyCount := sizes.keyCount + 1
      keySize := sizes.keySize + versionKey.length
      valueSize := sizes.valueSize + (versionstampLength + 1) },
      (ctx.addToLocalVersionCache versionKey localVersion).addVersionMutation versionKey localVersion)

/-! ## Loading -/

def unpackVersion (value : Bytes) : Except Error RecordVersion :=
  match Fast.unpack value with
  | .error cause => .error (.unpackVersion cause)
  | .ok (.versionstamp stamp :: _) =>
    if known : stamp.transactionVersion ≠ incompleteTransactionVersion then .ok (.complete stamp known)
    else .ok (.incomplete stamp.userVersion)
  | .ok (_ :: _) => .error .notVersionstamp
  | .ok [] => .error .emptyVersionTuple

structure Reading where
  result : Option Bytes := none
  version : Option RecordVersion
  lastIndex : Int64 := 0
  sizes : SizeInfo
  deriving DecidableEq, Repr

def Reading.counted (r : Reading) (kv : KeyValue) : Reading :=
  { r with sizes := { r.sizes with
      keyCount := r.sizes.keyCount + 1
      keySize := r.sizes.keySize + kv.key.length
      valueSize := r.sizes.valueSize + kv.value.length } }

/-- The suffix of a row, which must be a single integer that fits an `int64`. -/
def rowIndex (prefixLen : Nat) (kv : KeyValue) : Except Error Int64 :=
  match subspaceUnpack kv.key prefixLen with
  | .error cause => .error (.unpackSplitKey cause)
  | .ok [.int64 index] => .ok index
  | .ok [_] => .error .suffixNotInteger
  | .ok _ => .error .notSingleExtension

def readRow (prefixLen : Nat) (r : Reading) (kv : KeyValue) : Except Error Reading := do
  let index ← rowIndex prefixLen kv
  let r ←
    if index = unsplitRecord then
      if r.result.isSome then .error .moreThanOneUnsplit
      else .ok { r with result := some kv.value, sizes := { r.sizes with isSplit := false } }
    else if index = r.lastIndex + 1 ∨ (r.lastIndex = recordVersionSuffix ∧ index = startSplitRecord) then
      if index = startSplitRecord then
        if r.result.isSome then .error .unsplitFollowedBySplit
        else .ok { r with result := some kv.value, sizes := { r.sizes with isSplit := true }, lastIndex := index }
      else .ok { r with result := some (r.result.getD [] ++ kv.value), lastIndex := index }
    else if index = recordVersionSuffix then do
      let version ← unpackVersion kv.value
      .ok { r with version := some version, sizes := { r.sizes with versionedInline := true } }
    else if startSplitRecord ≤ r.lastIndex then .error (.splitOutOfOrder (r.lastIndex + 1) index)
    else .error (.splitWithoutStart index)
  .ok (r.counted kv)

def readRange (prefixLen : Nat) (versionKey : Key) (localVersion : Option UInt16) (rows : List KeyValue) :
    Except Error (Option Bytes × Option RecordVersion × SizeInfo) := do
  let localSize : SizeInfo :=
    if localVersion.isSome then
      { keyCount := 1, keySize := versionKey.length, valueSize := versionstampLength + 1, versionedInline := true }
    else {}
  let r ← rows.foldlM (readRow prefixLen) { version := localVersion.map .incomplete, sizes := localSize }
  if r.result.isNone && r.version.isSome then .error (.splitWithoutStart recordVersionSuffix)
  else .ok (r.result, r.version, r.sizes)

def liftExcept {Result : Type} : Except Error Result → Tx Error Result
  | .ok result => pure result
  | .error cause => Tx.fail cause

def loadWithSplit (primaryKey : List Element)
    (splitLongRecords omitUnsplitRecordSuffix : Bool) :
    Tx Error (Option Bytes × Option RecordVersion × SizeInfo) := do
  let sub ← subspacePack ss primaryKey
  if !splitLongRecords && omitUnsplitRecordSuffix then do
    match ← Tx.get sub with
    | some value => pure (some value, none, { keyCount := 1, keySize := sub.length, valueSize := value.length })
    | none => pure (none, none, {})
  else do
    let rows ← Tx.getRange (subspaceBegin sub) (subspaceEnd sub) 0 false
    let versionKey ← recordKey ss primaryKey recordVersionSuffix
    liftExcept (readRange sub.length versionKey (ctx.getLocalVersion versionKey) rows)

/-! ## Deleting -/

def deleteSplit (primaryKey : List Element) (splitLongRecords omitUnsplitRecordSuffix : Bool)
    (old : Option SizeInfo) : Tx Error Bool :=
  if primaryKey.length = 0 then pure false
  else
    match old with
    | none => pure false
    | some sizes =>
      if !splitLongRecords && omitUnsplitRecordSuffix then do
        let key ← subspacePack ss primaryKey
        Tx.clear key
        pure true
      else do
        clearRecordKeys ss primaryKey sizes
        pure true

/-! ## The record store's use of them -/

/-- The version of a record, if it has one, goes behind its data. -/
def saveVersion (primaryKey : List Element) (version : Option RecordVersion)
    (sizes : SizeInfo) : Tx Error (SizeInfo × RecordContext) :=
  match version with
  | some version => do
    let versionKey ← recordKey ss primaryKey recordVersionSuffix
    saveRecordVersion ctx versionKey version sizes
  | none => pure (sizes, ctx)

/-- `SaveRecord`: the sizes of the record before come from a load. -/
def saveRecord (primaryKey : List Element) (serialized : Bytes)
    (version : Option RecordVersion) (splitLongRecords : Bool) : Tx Error (SizeInfo × RecordContext) := do
  let (oldValue, _, oldSizes) ← loadWithSplit ctx ss primaryKey splitLongRecords false
  let (sizes, ctx) ← saveWithSplit ctx ss primaryKey serialized splitLongRecords false
    (if oldValue.isSome then some oldSizes else none)
  saveVersion ctx ss primaryKey version sizes

/-- `DeleteRecord`: the delete also drops the pending version. -/
def deleteRecord (primaryKey : List Element) (splitLongRecords : Bool) :
    Tx Error (Bool × RecordContext) := do
  let (oldValue, _, oldSizes) ← loadWithSplit ctx ss primaryKey splitLongRecords false
  if oldValue.isNone then pure (false, ctx)
  else do
    let deleted ← deleteSplit ss primaryKey splitLongRecords false (some oldSizes)
    let versionKey ← recordKey ss primaryKey recordVersionSuffix
    pure (deleted, (ctx.removeVersionMutation versionKey).removeLocalVersion versionKey)

/-- The database after the commit: the queued versions get the commit's global part. -/
def commit (t : Transaction) (transactionVersion : Vector UInt8 10) : Snapshot :=
  ctx.versionMutations.foldr
    (fun entry d => d.set entry.1 (wires false [.versionstamp ⟨transactionVersion, entry.2⟩])) t.view

end FdbGo.RecordLayer.SplitHelper
