import FdbGo.RecordLayer.KeyExpression
import FdbGo.RecordLayer.Subspace

/-! The maintainer of the indexes that count and sum with atomic mutations: `COUNT`,
`COUNT_UPDATES`, `COUNT_NOT_NULL` and `SUM`, for records that no predicate and no filter
refuses. -/

set_option autoImplicit false

namespace FdbGo.RecordLayer

open Client FdbGo.Tuple

inductive AtomicIndexType where
  | count
  | countUpdates
  | countNotNull
  | sum
  deriving DecidableEq, Repr

structure AtomicIndex where
  type : AtomicIndexType
  root : GroupingKeyExpression
  clearWhenZero : Bool
  indexSubspace : Bytes

inductive IndexValidationError where
  | requiresGroupingAtLeast (fields : Nat)
  | doesNotSupportNonGroupFields
  | onlySupportsSingleField
  | doesNotSupportClearWhenZero
  deriving DecidableEq, Repr

namespace AtomicIndex

/-- `AtomicMutation.Standard`'s `hasValues`, `hasSingleValue` and whether it clears. -/
def traits (index : AtomicIndex) : Bool × Bool × Bool :=
  match index.type with
  | .count => (false, false, index.clearWhenZero)
  | .countUpdates => (false, false, false)
  | .countNotNull => (!index.clearWhenZero, false, index.clearWhenZero)
  | .sum => (true, true, index.clearWhenZero)

/-- `validateAtomicIndex` for a grouping root without a version column. -/
def validate (index : AtomicIndex) : Except IndexValidationError Unit := do
  let (hasValues, hasSingleValue, clears) := index.traits
  if !hasValues then
    if index.root.groupedCount ≠ 0 then .error .doesNotSupportNonGroupFields
  else if index.root.groupedCount < 1 then .error (.requiresGroupingAtLeast 1)
  else if hasSingleValue = true ∧ index.root.groupedCount ≠ 1 then .error .onlySupportsSingleField
  if index.clearWhenZero = true ∧ clears = false then .error .doesNotSupportClearWhenZero

end AtomicIndex

inductive AtomicIndexError where
  | evaluate (cause : KeyExpressionError)
  | cannotConvert
  deriving DecidableEq, Repr

def encodeRecordCount (count : Int64) : Bytes := Foundation.encode 8 count.toUInt64.toNat

/-- `decodeRecordCount` of a value of eight bytes; absent is zero. -/
def decodeRecordCount (value : Option Bytes) : Int64 :=
  (UInt64.ofNat (Foundation.decode (value.getD []))).toInt64

/-- How the platform converts a float to an integer. -/
structure FloatConversion where
  ofFloat32 : UInt32 → Int64
  ofFloat64 : UInt64 → Int64

def toInt64 (conversion : FloatConversion) : Element → Except AtomicIndexError Int64
  | .int64 value | .int value => .ok value
  | .float64 bits => .ok (conversion.ofFloat64 bits)
  | .float32 bits => .ok (conversion.ofFloat32 bits)
  | _ => .error .cannotConvert

structure AtomicMutationEntry where
  groupKey : List Element
  param : Bytes

namespace AtomicMutationEntry

def packed (entry : AtomicMutationEntry) : Bytes := (pack entry.groupKey).toOption.getD []

end AtomicMutationEntry

def groupKeyOf (groupingCount : Nat) (values : List Element) : List Element :=
  values.take groupingCount ++ List.replicate (groupingCount - values.length) .null

section Entries

variable (index : AtomicIndex) (message : Message)

def groupingCount : Nat := index.root.getGroupingCount

def evaluated {Result : Type} (outcome : Except KeyExpressionError Result) : Except AtomicIndexError Result :=
  outcome.mapError .evaluate

def evaluateGroupingKeys : Except AtomicIndexError (List (List Element)) :=
  match index.root.evaluateFlat message with
  | .ok values => .ok [groupKeyOf (groupingCount index) values]
  | .error _ => (evaluated (index.root.evaluate message)).map fun tuples => tuples.map (groupKeyOf (groupingCount index))

def hasNull (values : List Element) : Bool :=
  (List.range values.length).any fun i =>
    decide (groupingCount index ≤ i ∧ i < index.root.wholeKey.columnSize) &&
      (match values[i]? with
        | some .null => true
        | _ => false) &&
      (index.root.wholeKey.nonUniqueNullColumns[i]?).getD false

def evaluateGroupingKeysNotNull : Except AtomicIndexError (List (List Element)) := do
  let tuples ← evaluated (index.root.evaluate message)
  let groupedCount := index.root.wholeKey.columnSize - groupingCount index
  .ok ((tuples.filter fun values =>
    !(hasNull index values || decide (0 < groupedCount ∧ values.length ≤ groupingCount index))).map
      (groupKeyOf (groupingCount index)))

def sumEntry (conversion : FloatConversion) (values : List Element) :
    Except AtomicIndexError (Option AtomicMutationEntry) :=
  match values[groupingCount index]? with
  | none | some .null => .ok none
  | some rawValue => do
    let sumValue ← toInt64 conversion rawValue
    .ok (some ⟨groupKeyOf (groupingCount index) values, encodeRecordCount sumValue⟩)

/-- `sumMutation.evaluateEntries`. -/
def sumEntries (conversion : FloatConversion) : Except AtomicIndexError (List AtomicMutationEntry) :=
  match index.root.evaluateFlat message with
  | .ok values => do
    let entry ← sumEntry index conversion values
    .ok entry.toList
  | .error _ => do
    let tuples ← evaluated (index.root.evaluate message)
    let entries ← tuples.mapM (sumEntry index conversion)
    .ok (entries.filterMap id)

def countEntries (keys : List (List Element)) : List AtomicMutationEntry :=
  keys.map fun key => ⟨key, encodeRecordCount 1⟩

def evaluateEntries (conversion : FloatConversion) : Except AtomicIndexError (List AtomicMutationEntry) :=
  match index.type with
  | .count | .countUpdates => (evaluateGroupingKeys index message).map countEntries
  | .countNotNull => (evaluateGroupingKeysNotNull index message).map countEntries
  | .sum => sumEntries index message conversion

end Entries

/-! ## Common entries -/

/-- `removeCommonAtomicByKey`: the keys are compared as sets. -/
def removeCommonAtomicByKey (old new : List AtomicMutationEntry) : List AtomicMutationEntry × List AtomicMutationEntry :=
  let newSet := new.map AtomicMutationEntry.packed
  let common := (old.map AtomicMutationEntry.packed).filter fun key => decide (key ∈ newSet)
  (old.filter fun e => decide (e.packed ∉ newSet), new.filter fun e => decide (e.packed ∉ common))

def entryKey (entry : AtomicMutationEntry) : Bytes × Bytes := (entry.packed, entry.param)

/-- The loop over the old entries: the keys that also occur among the new ones, at most as
often, and the entries that are left. -/
def matchOld (newKeys : List (Bytes × Bytes)) :
    List AtomicMutationEntry → List (Bytes × Bytes) → List AtomicMutationEntry × List (Bytes × Bytes)
  | [], common => ([], common)
  | entry :: old, common =>
    if common.count (entryKey entry) < newKeys.count (entryKey entry) then matchOld newKeys old (entryKey entry :: common)
    else
      let (filtered, common) := matchOld newKeys old common
      (entry :: filtered, common)

def dropCommon : List AtomicMutationEntry → List (Bytes × Bytes) → List AtomicMutationEntry
  | [], _ => []
  | entry :: new, common =>
    if entryKey entry ∈ common then dropCommon new (common.erase (entryKey entry)) else entry :: dropCommon new common

/-- `removeCommonAtomicByKeyAndValue`: the keys and values are compared with their
multiplicities. -/
def removeCommonAtomicByKeyAndValue (old new : List AtomicMutationEntry) :
    List AtomicMutationEntry × List AtomicMutationEntry :=
  let (filteredOld, common) := matchOld (new.map entryKey) old []
  (filteredOld, dropCommon new common)

namespace AtomicIndex

variable (index : AtomicIndex)

def removeCommon (old new : List AtomicMutationEntry) : List AtomicMutationEntry × List AtomicMutationEntry :=
  match index.type with
  | .count | .countNotNull => removeCommonAtomicByKey old new
  | .countUpdates => (old, new)
  | .sum => removeCommonAtomicByKeyAndValue old new

def deleteIsNoOp : Bool := decide (index.type = .countUpdates)

def amount (entry : AtomicMutationEntry) (remove : Bool) : Bytes :=
  let value : Int64 :=
    match index.type with
    | .count | .countNotNull | .countUpdates => 1
    | .sum => decodeRecordCount (some entry.param)
  encodeRecordCount (if remove then -value else value)

def clearIfZero (fdbKey : Key) : Tx AtomicIndexError Unit :=
  if index.clearWhenZero then Tx.compareAndClear fdbKey (encodeRecordCount 0) else pure ()

def applyMutation (fdbKey : Key) (entry : AtomicMutationEntry) (remove : Bool) : Tx AtomicIndexError Unit := do
  if index.type = .countUpdates then
    if remove then pure () else Tx.add fdbKey (index.amount entry false)
  else
    Tx.add fdbKey (index.amount entry remove)
    index.clearIfZero fdbKey

/-! ## The fast path of inserts -/

def fdbKey (groupKey : List Element) : Tx AtomicIndexError Key := subspacePack index.indexSubspace groupKey

def orFail {Result : Type} : Except AtomicIndexError Result → Tx AtomicIndexError Result
  | .ok result => pure result
  | .error cause => Tx.fail cause

def applyInsertMutation (conversion : FloatConversion) (groupKey : List Element) (sumSource : Option Element) :
    Tx AtomicIndexError Bool := do
  let key ← index.fdbKey groupKey
  match index.type with
  | .count | .countUpdates =>
    index.applyMutation key ⟨groupKey, []⟩ false
    pure true
  | .sum =>
    match sumSource with
    | none | some .null => pure true
    | some source =>
      let sumValue ← orFail (toInt64 conversion source)
      index.applyMutation key ⟨groupKey, encodeRecordCount sumValue⟩ false
      pure true
  | .countNotNull => pure false

/-- The `ADD` of the fast paths for sums. -/
def addInline (groupKey : List Element) (value : Int64) : Tx AtomicIndexError Bool := do
  let key ← index.fdbKey groupKey
  Tx.add key (encodeRecordCount value)
  index.clearIfZero key
  pure true

/-- `EvaluateInt64` of the expressions that have it. -/
def int64Of (message : Message) : KeyExpression → Option Int64
  | .field name _ nullStandin => evaluateInt64 name nullStandin message
  | _ => none

/-- `PackDirect` of the expressions that have it. -/
def packDirectOf (message : Message) : KeyExpression → Option Element
  | .field name _ nullStandin => packDirect name nullStandin message
  | _ => none

/-- `updateInsertOnlyGrouped`: whether the insert is done. -/
def updateInsertOnlyGrouped (conversion : FloatConversion) (message : Message) : Tx AtomicIndexError Bool :=
  let gc := groupingCount index
  if gc = 0 then
    -- all records share the empty group key
    if index.type = .count ∨ index.type = .countUpdates then index.applyInsertMutation conversion [] none else pure false
  else
    match index.root.wholeKey with
    | .composite expressions =>
      if gc = 1 then
        match expressions with
        | [] => pure false
        | first :: rest =>
          match int64Of message first with
          | none => pure false
          | some group =>
            if index.type = .sum ∧ rest ≠ [] then
              match rest.head?.bind (int64Of message) with
              | none => pure false
              | some value => index.addInline [.int64 group] value
            else index.applyInsertMutation conversion [.int64 group] none
      else if expressions.length < gc then pure false
      else
        match (expressions.take gc).mapM (packDirectOf message) with
        | none => pure false
        | some groupKey =>
          if index.type = .sum ∧ gc < expressions.length then
            match (expressions[gc]?).bind (int64Of message) with
            | none => pure false
            | some value => index.addInline groupKey value
          else index.applyInsertMutation conversion groupKey none
    | _ => pure false

/-- `updateInsertOnly`: whether the insert is done. -/
def updateInsertOnly (conversion : FloatConversion) (message : Message) : Tx AtomicIndexError Bool := do
  if ← index.updateInsertOnlyGrouped conversion message then pure true
  else
    match index.root.evaluateFlat message with
    | .error _ => pure false
    | .ok values =>
      let gc := groupingCount index
      let groupKey := values.take gc
      index.applyInsertMutation conversion groupKey (values[gc]?)

/-! ## Update -/

def applyAll (remove : Bool) : List AtomicMutationEntry → Tx AtomicIndexError Unit
  | [] => pure ()
  | entry :: entries => do
    let key ← index.fdbKey entry.groupKey
    index.applyMutation key entry remove
    applyAll remove entries

def entriesOf (conversion : FloatConversion) : Option Message → Tx AtomicIndexError (List AtomicMutationEntry)
  | none => pure []
  | some message => orFail (evaluateEntries index message conversion)

/-- The standard path of `Update`. -/
def updateStandard (conversion : FloatConversion) (old new : Option Message) : Tx AtomicIndexError Unit := do
  let oldEntries ← index.entriesOf conversion (if index.deleteIsNoOp then none else old)
  let newEntries ← index.entriesOf conversion new
  let (oldEntries, newEntries) := index.removeCommon oldEntries newEntries
  index.applyAll true oldEntries
  index.applyAll false newEntries

/-- `atomicMutationIndexMaintainer.Update`. -/
def update (conversion : FloatConversion) (old new : Option Message) : Tx AtomicIndexError Unit :=
  if index.deleteIsNoOp = true ∧ new = none then pure ()
  else
    match old, new with
    | none, some message => do
      if ← index.updateInsertOnly conversion message then pure () else index.updateStandard conversion old new
    | _, _ => index.updateStandard conversion old new

end AtomicIndex

end FdbGo.RecordLayer
