import FdbGo.RecordLayer.Paging

/-! The flat map of the query executor. For each row of the outer cursor the inner plan is
executed with the row bound, and its rows are the flat map's. The continuation names the
outer position before the current row, the inner position, and the primary key of the
row as a check. -/

set_option autoImplicit false

namespace FdbGo.Executor

open Client Foundation RecordLayer

structure FlatMapContinuation where
  outerContinuation : Option Bytes := none
  innerContinuation : Option Bytes := none
  checkValue : Option Bytes := none
  deriving DecidableEq, Repr

namespace FlatMapContinuation

variable (message : FlatMapContinuation)

def fields : List WireField :=
  ContinuationMessage.bytesField 1 message.outerContinuation ++
    ContinuationMessage.bytesField 2 message.innerContinuation ++
    ContinuationMessage.bytesField 3 message.checkValue

def marshal : Bytes := encodeFields message.fields

def readField (field : WireField) : Option FlatMapContinuation :=
  match field.number, field.value with
  | 1, .bytes b => some { message with outerContinuation := some b }
  | 2, .bytes b => some { message with innerContinuation := some b }
  | 3, .bytes b => some { message with checkValue := some b }
  | 1, .varint _ | 2, .varint _ | 3, .varint _ => none
  | _, _ => some message

def unmarshal (data : Bytes) : Option FlatMapContinuation :=
  (decodeFields data).bind fun fields => fields.foldlM readField {}

theorem unmarshal_marshal : unmarshal message.marshal = some message := by
  obtain ⟨outer, inner, check⟩ := message
  rw [unmarshal, marshal, decodeFields_encode, Option.bind_some]
  cases outer <;> cases inner <;> cases check <;> rfl

end FlatMapContinuation

/-- What the plan computes: the identity of an outer row, packed, and a row of the result. -/
structure FlatMapPlan (Outer Inner Row : Type) where
  primaryKey : Outer → Option Bytes
  computeResult : Outer → Inner → Row

/-- The cursor. The inner plan is executed for an outer row from the bytes of its
continuation; the number tells the executions of one page apart. -/
structure FlatMapCursor (Outer Inner Row : Type) where
  plan : FlatMapPlan Outer Inner Row
  outerCursor : ChildCursor Outer
  innerPlan : Nat → Outer → CursorFunction Inner
  innerCursor : Option (ChildCursor Inner) := none
  currentOuter : Option Outer := none
  priorOuterContinuation : Option RecordCursorContinuation := none
  lastOuterContinuation : Option RecordCursorContinuation := none
  initialInnerCont : Option Bytes := none
  hasPendingInner : Bool := false
  pendingCheckValue : Option Bytes := none
  outerExhausted : Bool := false
  lastNoNext : Option (RecordCursorResult Row) := none

namespace FlatMapCursor

variable {Outer Inner Row : Type}

def positionBytes (continuation : Option RecordCursorContinuation) : Option Bytes :=
  match continuation with
  | some continuation => if continuation.isEnd then none else continuation.toBytes
  | none => none

variable (c : FlatMapCursor Outer Inner Row)

/-- With an inner position, the outer position is the one before the current row; else the
one after it. -/
def buildContinuation (innerCont : RecordCursorContinuation) :
    RecordCursorContinuation :=
  if innerCont.isEnd && (c.lastOuterContinuation.map RecordCursorContinuation.isEnd).getD false then .end_
  else
    let message : FlatMapContinuation :=
      if !innerCont.isEnd then
        { outerContinuation := positionBytes c.priorOuterContinuation
          innerContinuation := innerCont.toBytes
          checkValue := c.currentOuter.bind c.plan.primaryKey }
      else { outerContinuation := positionBytes c.lastOuterContinuation }
    .bytes message.marshal

/-- The outer cursor stopped: an inner position that no row has taken yet stays pending. -/
def wrapOuterContinuation (outerCont : RecordCursorContinuation) :
    RecordCursorContinuation :=
  if outerCont.isEnd then .end_
  else
    let message : FlatMapContinuation :=
      if c.hasPendingInner then
        { outerContinuation := outerCont.toBytes
          innerContinuation := c.initialInnerCont
          checkValue := c.pendingCheckValue }
      else { outerContinuation := outerCont.toBytes }
    .bytes message.marshal

/-- The saved inner position goes to the row with the saved primary key, or to the first
row when there is nothing to compare. -/
def takeInnerContinuation (outerRow : Outer) :
    Option Bytes × FlatMapCursor Outer Inner Row :=
  match c.initialInnerCont with
  | none => (none, c)
  | some innerCont =>
    if decide (0 < (c.pendingCheckValue.getD []).length) && (c.plan.primaryKey outerRow).isSome &&
        c.plan.primaryKey outerRow != c.pendingCheckValue then (none, c)
    else
      (some innerCont, { c with initialInnerCont := none, hasPendingInner := false, pendingCheckValue := none })

def enter (outerRow : Outer) (outerCont : RecordCursorContinuation) :
    FlatMapCursor Outer Inner Row :=
  let c :=
    { c with
      currentOuter := some outerRow
      priorOuterContinuation := c.lastOuterContinuation
      lastOuterContinuation := some outerCont }
  let (innerContBytes, c) := c.takeInnerContinuation outerRow
  { c with innerCursor := some (c.innerPlan c.outerCursor.pulls outerRow innerContBytes) }

def stop (reason : NoNextReason) (continuation : RecordCursorContinuation) :
    Except CursorError (RecordCursorResult Row × FlatMapCursor Outer Inner Row) := do
  let res ← RecordCursorResult.newResultNoNext reason continuation
  .ok (res, { c with lastNoNext := some res })

def advanceOuter (again : FlatMapCursor Outer Inner Row →
      Except CursorError (RecordCursorResult Row × FlatMapCursor Outer Inner Row)) :
    Except CursorError (RecordCursorResult Row × FlatMapCursor Outer Inner Row) :=
  if c.outerExhausted then do
    let res ← RecordCursorResult.newResultNoNext .sourceExhausted .end_
    .ok (res, c)
  else
    let (outerResult, outerCursor) := c.outerCursor.onNext
    let c := { c with outerCursor }
    match outerResult with
    | .noNext reason outerCont =>
      let c := { c with outerExhausted := reason.isSourceExhausted }
      c.stop reason (c.wrapOuterContinuation outerCont)
    | .next outerRow outerCont => again (c.enter outerRow outerCont)

/-- The rounds of a call. Each pulls the inner cursor, if there is one, and then, if that is
exhausted, the outer cursor. -/
def rounds : Nat → FlatMapCursor Outer Inner Row →
    Except CursorError (RecordCursorResult Row × FlatMapCursor Outer Inner Row)
  | 0, _ => .error .outOfFuel
  | fuel + 1, c =>
    match c.innerCursor with
    | none => c.advanceOuter (rounds fuel)
    | some innerCursor =>
      match innerCursor.onNext with
      | (.next innerRow innerCont, innerCursor) =>
        match c.currentOuter with
        | none => .error .panic
        | some outerRow => do
          let res ← RecordCursorResult.newResultWithValue (c.plan.computeResult outerRow innerRow)
            (c.buildContinuation innerCont)
          .ok (res, { c with innerCursor := some innerCursor })
      | (.noNext reason innerCont, _) =>
        let c := { c with innerCursor := none }
        if !reason.isSourceExhausted then c.stop reason (c.buildContinuation innerCont)
        else c.advanceOuter (rounds fuel)

def onNext :
    Except CursorError (RecordCursorResult Row × FlatMapCursor Outer Inner Row) :=
  match c.lastNoNext with
  | some res => .ok (res, c)
  | none => rounds (c.outerCursor.source.rows.length + 2) c

end FlatMapCursor

def executeFlatMap {Outer Inner Row : Type} (plan : FlatMapPlan Outer Inner Row) (outerPlan : CursorFunction Outer)
    (innerPlan : Nat → Outer → CursorFunction Inner) (continuation : Option Bytes) :
    Except CursorError (FlatMapCursor Outer Inner Row) := do
  let message ←
    if (continuation.getD []).isEmpty then .ok {}
    else
      match FlatMapContinuation.unmarshal (continuation.getD []) with
      | some message => .ok message
      | none => .error .invalidContinuation
  .ok
    { plan
      outerCursor := outerPlan message.outerContinuation
      innerPlan
      initialInnerCont := message.innerContinuation
      hasPendingInner := message.innerContinuation.isSome
      pendingCheckValue := message.checkValue
      lastOuterContinuation := message.outerContinuation.map .bytes }

end FdbGo.Executor
