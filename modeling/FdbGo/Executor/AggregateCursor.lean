import FdbGo.Executor.Aggregate

/-! The streaming aggregation of the query executor. Its input is sorted by the grouping
keys; a group is complete when a row with another key is read. A stop inside a group
writes the group's state in the continuation; the continuation of a complete group is the
position after its last row. -/

set_option autoImplicit false

namespace FdbGo.Executor

open Client Foundation RecordLayer FdbGo.Tuple

/-! ## Grouping keys -/

inductive KeyType where
  | int
  | long
  | string
  | bool
  | bytes
  deriving DecidableEq, Repr

/-- The value of a grouping key; a string is its bytes. -/
inductive KeyValue where
  | null
  | integer (n : Int64)
  | string (s : Bytes)
  | bool (b : Bool)
  | bytes (b : Bytes)
  deriving DecidableEq, Repr

namespace KeyValue

def HasType : KeyValue → KeyType → Prop
  | .null, _ => True
  | .integer n, .int => FitsInt n
  | .integer _, .long | .string _, .string | .bool _, .bool | .bytes _, .bytes => True
  | _, _ => False

def element : KeyValue → Element
  | .null => .null
  | .integer n => .int64 n
  | .string s => .string s
  | .bool b => .bool b
  | .bytes b => .bytes b

def keyFields (number : Nat) : KeyValue → List WireField
  | .null => []
  | .integer n => [{ number, value := .varint (int64Bits n) }]
  | .string s => [{ number, value := .bytes s }]
  | .bool b => [{ number, value := .varint (if b then 1 else 0) }]
  | .bytes b => [{ number, value := .bytes b }]

end KeyValue

def keyOfWire : KeyType → WireValue → KeyValue
  | .int, .varint bits => .integer (int32OfBits bits)
  | .long, .varint bits => .integer (int64OfBits bits)
  | .bool, .varint bits => .bool (decide (bits ≠ 0))
  | .string, .bytes s => .string s
  | .bytes, .bytes b => .bytes b
  | _, _ => .null

/-- `MessageFromRowValues`: a field for each value, from a number on. -/
def messageFromRowValues : Nat → List KeyValue → List WireField
  | _, [] => []
  | number, v :: vs => v.keyFields number ++ messageFromRowValues (number + 1) vs

/-- `RowValuesFromMessage`: the last field of each number counts. -/
def rowValuesFromMessage (fields : List WireField) : Nat → List KeyType → List KeyValue
  | _, [] => []
  | number, type :: types =>
    ((fields.reverse.find? fun field => field.number == number).map fun field => keyOfWire type field.value).getD .null ::
      rowValuesFromMessage fields (number + 1) types

structure GroupingKey (Row : Type) where
  type : KeyType
  evaluate : Row → KeyValue
  typed : ∀ row, (evaluate row).HasType type

/-! ## Groups -/

structure AggregateGroup where
  groupKey : Bytes
  keyVals : List KeyValue
  rows : Int64 := 0
  accumulators : List Accumulator
  deriving DecidableEq, Repr

/-- A group in a continuation: its key, and the states of each aggregate. -/
structure PartialAggregationResult where
  groupKey : Option Bytes := none
  accumulatorStates : List (List TypedState) := []
  deriving DecidableEq, Repr

/-- The layout of older continuations has a reader of its own. -/
structure AggregationPlan (Row : Type) where
  groupingKeys : List (GroupingKey Row)
  aggregates : List (AggregateSpec Row)
  decodeLegacyAggregatePartial : PartialAggregationResult → Except AggregateError AggregateGroup

structure GroupRow where
  keyVals : List KeyValue
  values : List AggregateValue
  deriving DecidableEq, Repr

def packGroupKey (keyVals : List KeyValue) : Except AggregateError Bytes :=
  match pack (keyVals.map KeyValue.element) with
  | .ok packed => .ok packed
  | .error _ => .error (.cursor .panic)

def accumulateAll {Row : Type} (row : Row) : List (AggregateSpec Row) → List Accumulator →
    Except AggregateError (List Accumulator)
  | agg :: aggs, acc :: accs => do
    let acc ← accumulate agg acc row
    let accs ← accumulateAll row aggs accs
    .ok (acc :: accs)
  | _, _ => .ok []

namespace AggregationPlan

variable {Row : Type}

def computeGroupKey (plan : AggregationPlan Row) (row : Row) : Except AggregateError (Bytes × List KeyValue) :=
  if plan.groupingKeys.isEmpty then .ok ([], [])
  else do
    let keyVals := plan.groupingKeys.map fun key => key.evaluate row
    let groupKey ← packGroupKey keyVals
    .ok (groupKey, keyVals)

def newGroupState (plan : AggregationPlan Row) (groupKey : Bytes) (keyVals : List KeyValue) : AggregateGroup :=
  { groupKey, keyVals, accumulators := plan.aggregates.map fun _ => {} }

def accumulateRow (plan : AggregationPlan Row) (group : AggregateGroup) (row : Row) :
    Except AggregateError AggregateGroup := do
  let accumulators ← accumulateAll row plan.aggregates group.accumulators
  .ok { group with rows := group.rows + 1, accumulators }

def finalizeGroup (plan : AggregationPlan Row) (group : AggregateGroup) : GroupRow :=
  { keyVals := group.keyVals
    values := List.zipWith (fun agg acc => finalize agg group.rows acc) plan.aggregates group.accumulators }

end AggregationPlan

/-! ## Continuations -/

structure AggregateContinuation where
  continuation : Option Bytes := none
  partialAggregationResults : Option PartialAggregationResult := none
  deriving DecidableEq, Repr

namespace AggregateContinuation

def stateField : TypedState → WireField
  | .int32 bits => { number := 1, value := .varint bits }
  | .int64 bits => { number := 2, value := .varint bits }
  | .bytes b => { number := 5, value := .bytes b }

def statesBytes (states : List TypedState) : Bytes :=
  encodeFields (states.map fun state => { number := 1, value := .bytes (encodeFields [stateField state]) })

def partialBytes (result : PartialAggregationResult) : Bytes :=
  encodeFields (ContinuationMessage.bytesField 1 result.groupKey ++
    result.accumulatorStates.map fun states => { number := 2, value := .bytes (statesBytes states) })

def marshal (message : AggregateContinuation) : Bytes :=
  encodeFields (ContinuationMessage.bytesField 1 message.continuation ++
    ContinuationMessage.bytesField 2 (message.partialAggregationResults.map partialBytes))

def readState (data : Bytes) : Option (Option TypedState) :=
  (decodeFields data).bind fun fields =>
    fields.foldlM
      (fun state field =>
        match field.number, field.value with
        | 1, .varint bits => some (some (.int32 bits))
        | 2, .varint bits => some (some (.int64 bits))
        | 5, .bytes b => some (some (.bytes b))
        | 1, .bytes _ | 2, .bytes _ | 5, .varint _ => none
        | _, _ => some state)
      none

def readStateField (states : List TypedState) (field : WireField) : Option (List TypedState) :=
  match field.number, field.value with
  | 1, .bytes b =>
    match readState b with
    | some (some state) => some (states ++ [state])
    | _ => none
  | 1, .varint _ => none
  | _, _ => some states

def readStates (data : Bytes) : Option (List TypedState) :=
  (decodeFields data).bind fun fields => fields.foldlM readStateField []

def readPartialField (result : PartialAggregationResult) (field : WireField) : Option PartialAggregationResult :=
  match field.number, field.value with
  | 1, .bytes b => some { result with groupKey := some b }
  | 2, .bytes b =>
    (readStates b).map fun states => { result with accumulatorStates := result.accumulatorStates ++ [states] }
  | 1, .varint _ | 2, .varint _ => none
  | _, _ => some result

def readPartial (data : Bytes) : Option PartialAggregationResult :=
  (decodeFields data).bind fun fields => fields.foldlM readPartialField {}

def readField (message : AggregateContinuation) (field : WireField) : Option AggregateContinuation :=
  match field.number, field.value with
  | 1, .bytes b => some { message with continuation := some b }
  | 2, .bytes b => (readPartial b).map fun result => { message with partialAggregationResults := some result }
  | 1, .varint _ | 2, .varint _ => none
  | _, _ => some message

def unmarshal (data : Bytes) : Option AggregateContinuation :=
  (decodeFields data).bind fun fields => fields.foldlM readField {}

end AggregateContinuation

def encodeAccumulators {Row : Type} (rows : Int64) : List (AggregateSpec Row) → List Accumulator →
    Except AggregateError (List (List TypedState))
  | agg :: aggs, acc :: accs => do
    let states ← encodeAccumulator agg rows acc
    let others ← encodeAccumulators rows aggs accs
    .ok (states :: others)
  | _, _ => .ok []

def decodeAccumulators {Row : Type} : Int64 → List (AggregateSpec Row) → List (List TypedState) →
    Except AggregateError (Int64 × List Accumulator)
  | rows, [], [] => .ok (rows, [])
  | rows, agg :: aggs, states :: others => do
    let (rows, acc) ← decodeAccumulator agg rows states
    let (rows, accs) ← decodeAccumulators rows aggs others
    .ok (rows, acc :: accs)
  | _, _, _ => .error .invalidContinuation

namespace AggregationPlan

variable {Row : Type}

def encodeJavaPartial (plan : AggregationPlan Row) (group : AggregateGroup) :
    Except AggregateError PartialAggregationResult := do
  let accumulatorStates ← encodeAccumulators group.rows plan.aggregates group.accumulators
  .ok
    { groupKey :=
        if plan.groupingKeys.isEmpty then none else some (encodeFields (messageFromRowValues 1 group.keyVals))
      accumulatorStates }

def legacyAggregateSlots (plan : AggregationPlan Row) : Nat :=
  1 + 6 * plan.aggregates.length +
    plan.aggregates.countP fun agg => agg.function = .arrayAgg ∨ agg.function = .bitmapConstructAgg

def isLegacyAggregatePartial (plan : AggregationPlan Row) (result : PartialAggregationResult) : Bool :=
  match result.accumulatorStates with
  | [states] => states.length == plan.legacyAggregateSlots
  | _ => false

/-- Restores the group; it has seen a row. -/
def decodeJavaPartial (plan : AggregationPlan Row) (result : PartialAggregationResult) :
    Except AggregateError AggregateGroup := do
  let keyVals ←
    if plan.groupingKeys.isEmpty then
      if (result.groupKey.getD []).isEmpty then .ok [] else .error .invalidContinuation
    else
      match decodeFields (result.groupKey.getD []) with
      | none => .error .invalidContinuation
      | some fields => .ok (rowValuesFromMessage fields 1 (plan.groupingKeys.map GroupingKey.type))
  let (rows, accumulators) ← decodeAccumulators 1 plan.aggregates result.accumulatorStates
  let groupKey ← if plan.groupingKeys.isEmpty then .ok [] else packGroupKey keyVals
  .ok { groupKey, keyVals, rows, accumulators }

def encodeAggregateContinuation (plan : AggregationPlan Row) (innerCont : RecordCursorContinuation)
    (group : Option AggregateGroup) : Except AggregateError Bytes :=
  match group with
  | none => .ok ({ continuation := innerCont.toBytes } : AggregateContinuation).marshal
  | some group => do
    let result ← plan.encodeJavaPartial group
    .ok ({ continuation := innerCont.toBytes, partialAggregationResults := some result } : AggregateContinuation).marshal

def decodeAggregateContinuation (plan : AggregationPlan Row) (data : Bytes) :
    Except AggregateError (Option Bytes × Option AggregateGroup) :=
  match AggregateContinuation.unmarshal data with
  | none => .error .invalidContinuation
  | some message =>
    match message.partialAggregationResults with
    | none => .ok (message.continuation, none)
    | some result => do
      let group ←
        if plan.isLegacyAggregatePartial result then plan.decodeLegacyAggregatePartial result
        else plan.decodeJavaPartial result
      .ok (message.continuation, some group)

end AggregationPlan

/-! ## The cursor -/

structure AggregateCursor (Row : Type) where
  plan : AggregationPlan Row
  inner : ChildCursor Row
  current : Option AggregateGroup := none
  previousContinuationInGroup : RecordCursorContinuation := .start
  innerExhausted : Bool := false
  emittedFinal : Bool := false
  lastNoNext : Option (RecordCursorResult GroupRow) := none

namespace AggregateCursor

variable {Row : Type} (c : AggregateCursor Row)

/-- A complete group; its continuation is the last position in the group, without a state. -/
def emit (group : AggregateGroup) (position : RecordCursorContinuation) :
    Except AggregateError (RecordCursorResult GroupRow × AggregateCursor Row) := do
  let data ← c.plan.encodeAggregateContinuation position none
  let result ← (RecordCursorResult.newResultWithValue (c.plan.finalizeGroup group) (.bytes data)).mapError .cursor
  .ok (result, c)

def emitFinal : Except AggregateError (RecordCursorResult GroupRow × AggregateCursor Row) :=
  if c.emittedFinal then do
    let result ← (RecordCursorResult.newResultNoNext .sourceExhausted .end_).mapError .cursor
    .ok (result, c)
  else
    let c := { c with emittedFinal := true }
    match c.current with
    | none => do
      let result ← (RecordCursorResult.newResultNoNext .sourceExhausted .end_).mapError .cursor
      .ok (result, c)
    | some group => c.emit group c.previousContinuationInGroup

/-- A stop inside a group, whose state is written in the continuation. -/
def stop (reason : NoNextReason) (innerCont : RecordCursorContinuation) :
    Except AggregateError (RecordCursorResult GroupRow × AggregateCursor Row) := do
  let data ← c.plan.encodeAggregateContinuation innerCont c.current
  let result ← (RecordCursorResult.newResultNoNext reason (.bytes data)).mapError .cursor
  .ok (result, { c with lastNoNext := some result })

/-- A row of the input: it starts a group, completes the group before it, or belongs to it. -/
def accept (row : Row) (position : RecordCursorContinuation)
    (again : AggregateCursor Row → Except AggregateError (RecordCursorResult GroupRow × AggregateCursor Row)) :
    Except AggregateError (RecordCursorResult GroupRow × AggregateCursor Row) := do
  let (groupKey, keyVals) ← c.plan.computeGroupKey row
  match c.current with
  | none =>
    let group ← c.plan.accumulateRow (c.plan.newGroupState groupKey keyVals) row
    again { c with current := some group, previousContinuationInGroup := position }
  | some group =>
    if !c.plan.groupingKeys.isEmpty && groupKey != group.groupKey then
      let next ← c.plan.accumulateRow (c.plan.newGroupState groupKey keyVals) row
      { c with current := some next, previousContinuationInGroup := position }.emit group c.previousContinuationInGroup
    else
      let group ← c.plan.accumulateRow group row
      again { c with current := some group, previousContinuationInGroup := position }

def rounds : Nat → AggregateCursor Row → Except AggregateError (RecordCursorResult GroupRow × AggregateCursor Row)
  | 0, _ => .error (.cursor .outOfFuel)
  | fuel + 1, c =>
    match c.inner.onNext with
    | (.noNext reason innerCont, inner) =>
      let c := { c with inner }
      if reason.isSourceExhausted then { c with innerExhausted := true }.emitFinal else c.stop reason innerCont
    | (.next row position, inner) => { c with inner }.accept row position (rounds fuel)

def onNext : Except AggregateError (RecordCursorResult GroupRow × AggregateCursor Row) :=
  match c.lastNoNext with
  | some result => .ok (result, c)
  | none => if c.innerExhausted then c.emitFinal else rounds (c.inner.source.rows.length + 1) c

end AggregateCursor

/-- `buildAgg`: opens the aggregation from a continuation. -/
def buildAgg {Row : Type} (plan : AggregationPlan Row) (innerPlan : CursorFunction Row) (aggCont : Option Bytes) :
    Except AggregateError (AggregateCursor Row) := do
  let (innerContinuation, priorState) ←
    match aggCont with
    | none => .ok (none, none)
    | some data => plan.decodeAggregateContinuation data
  .ok
    { plan
      inner := innerPlan innerContinuation
      current := priorState
      previousContinuationInGroup :=
        if (innerContinuation.getD []).isEmpty then .start else .bytes (innerContinuation.getD []) }

end FdbGo.Executor
