import FdbGo.Client.Key
import FdbGo.Foundation.Wire

/-! Cursors: why they stop, where they resume, and the children that a merge cursor reads.
A child is any sequence of rows that can be resumed from the continuations it hands out,
and that may stop at any row for any limit. -/

set_option autoImplicit false

namespace FdbGo.RecordLayer

open Client Foundation

inductive NoNextReason where
  | sourceExhausted
  | returnLimitReached
  | byteLimitReached
  | timeLimitReached
  | scanLimitReached
  deriving DecidableEq, Repr

namespace NoNextReason

def isOutOfBand (r : NoNextReason) : Bool := decide (r ≠ sourceExhausted ∧ r ≠ returnLimitReached)

def isSourceExhausted (r : NoNextReason) : Bool := decide (r = sourceExhausted)

def isLimitReached (r : NoNextReason) : Bool := decide (r ≠ sourceExhausted)

end NoNextReason

/-- `StartContinuation`, `BytesContinuation` and `EndContinuation`. -/
inductive RecordCursorContinuation where
  | start
  | bytes (b : Bytes)
  | end_
  deriving DecidableEq, Repr

variable {continuation : RecordCursorContinuation}

namespace RecordCursorContinuation

/-- `none` is a nil slice. -/
def toBytes : RecordCursorContinuation → Option Bytes
  | bytes b => some b
  | start | end_ => none

def isEnd : RecordCursorContinuation → Bool
  | end_ => true
  | start | bytes _ => false

theorem isEnd_iff : continuation.isEnd = true ↔ continuation = .end_ := by
  cases continuation <;> simp [isEnd]

end RecordCursorContinuation

/-- `outOfFuel` is the bound of a loop of the model, which is never reached. -/
inductive CursorError where
  | notEnoughChildren (count : Nat)
  | invalidContinuation
  | childCount (expected read : Nat)
  | exhaustedWithNonEndContinuation
  | panic
  | outOfFuel
  deriving DecidableEq, Repr

inductive RecordCursorResult (T : Type) where
  | next (value : T) (continuation : RecordCursorContinuation)
  | noNext (reason : NoNextReason) (continuation : RecordCursorContinuation)
  deriving DecidableEq, Repr

namespace RecordCursorResult

variable {T : Type}

def newResultWithValue (value : T) (continuation : RecordCursorContinuation) : Except CursorError (RecordCursorResult T) :=
  if continuation.isEnd then .error .panic else .ok (next value continuation)

def newResultNoNext (reason : NoNextReason) (continuation : RecordCursorContinuation) :
    Except CursorError (RecordCursorResult T) :=
  if continuation.isEnd = true ∧ reason.isSourceExhausted = false then .error .panic
  else if reason.isSourceExhausted = true ∧ continuation.isEnd = false then .error .panic
  else .ok (noNext reason continuation)

def getContinuation : RecordCursorResult T → RecordCursorContinuation
  | next _ continuation | noNext _ continuation => continuation

def hasNext : RecordCursorResult T → Bool
  | next _ _ => true
  | noNext _ _ => false

def value? : RecordCursorResult T → Option T
  | next value _ => some value
  | noNext _ _ => none

end RecordCursorResult

theorem NoNextReason.isLimitReached_eq (reason : NoNextReason) : reason.isLimitReached = !reason.isSourceExhausted := by
  cases reason <;> rfl

theorem NoNextReason.not_exhausted {reason : NoNextReason} (isLimit : reason.isLimitReached = true) :
    ¬ reason.isSourceExhausted = true := by
  rw [isLimitReached_eq] at isLimit
  simpa using isLimit

/-- A stop is built where its continuation ends exactly if the source is exhausted. -/
theorem newResultNoNext_ok {T : Type} {reason : NoNextReason}
    (consistent : continuation.isEnd = !reason.isLimitReached) :
    RecordCursorResult.newResultNoNext reason continuation = .ok (.noNext reason continuation : RecordCursorResult T) := by
  rw [NoNextReason.isLimitReached_eq, Bool.not_not] at consistent
  simp [RecordCursorResult.newResultNoNext, consistent]

/-! ## Children -/

/-- A sequence of rows, and where a cursor over it starts when it is opened with bytes. -/
structure Source (T : Type) where
  rows : List T
  position : Bytes → Nat

/-- What a cursor does when it is asked for the next row: it delivers the row, with the
bytes to resume after it, or it stops before the row. -/
inductive Pull where
  | deliver (mark : Bytes)
  | stop (reason : NoNextReason) (continuation : RecordCursorContinuation)
  deriving DecidableEq, Repr

abbrev Schedule := Nat → Nat → Pull

namespace Source

variable {T : Type}

/-- Where a continuation resumes; empty bytes are the start. -/
def resume (source : Source T) : RecordCursorContinuation → Option Nat
  | .start | .bytes [] => some 0
  | .bytes b => some (source.position b)
  | .end_ => none

def Allows (source : Source T) (position : Nat) : Pull → Prop
  | .deliver mark => position < source.rows.length → mark ≠ [] ∧ source.position mark = position + 1
  | .stop reason continuation => reason.isLimitReached = true ∧ source.resume continuation = some position

def Follows (source : Source T) (schedule : Schedule) : Prop :=
  ∀ pull position, position ≤ source.rows.length → source.Allows position (schedule pull position)

end Source

/-- An open cursor over a source; none is `Empty`. -/
structure ChildCursor (T : Type) where
  source : Source T
  schedule : Schedule
  position : Nat
  pulls : Nat := 0

/-- A cursor from its continuation; nil is the start. -/
abbrev CursorFunction (T : Type) := Option Bytes → ChildCursor T

def openChild {T : Type} (source : Source T) (schedule : Schedule) : CursorFunction T
  | none | some [] => { source, schedule, position := 0 }
  | some b => { source, schedule, position := source.position b }

def ChildCursor.onNext {T : Type} (cursor : ChildCursor T) : RecordCursorResult T × ChildCursor T :=
  match cursor.schedule cursor.pulls cursor.position with
  | .stop reason continuation => (.noNext reason continuation, { cursor with pulls := cursor.pulls + 1 })
  | .deliver mark =>
    match cursor.source.rows[cursor.position]? with
    | some value =>
      (.next value (.bytes mark), { cursor with position := cursor.position + 1, pulls := cursor.pulls + 1 })
    | none => (.noNext .sourceExhausted .end_, { cursor with pulls := cursor.pulls + 1 })

/-! ## Serialized continuations of several children -/

/-- A child in `UnionContinuation` or `IntersectionContinuation`: its bytes, and whether it
is exhausted or started. -/
structure CursorState where
  continuation : Option Bytes := none
  flag : Option Bool := none
  deriving DecidableEq, Repr

structure ContinuationMessage where
  first : CursorState := {}
  second : CursorState := {}
  otherChildState : List CursorState := []
  deriving DecidableEq, Repr

namespace ContinuationMessage

def bytesField (number : Nat) (b : Option Bytes) : List WireField :=
  match b with
  | some b => [{ number, value := .bytes b }]
  | none => []

def boolField (number : Nat) (flag : Option Bool) : List WireField :=
  match flag with
  | some flag => [{ number, value := .varint (if flag then 1 else 0) }]
  | none => []

def stateFields (state : CursorState) : List WireField :=
  bytesField 1 state.continuation ++ boolField 2 state.flag

variable (message : ContinuationMessage)

def fields : List WireField :=
  bytesField 1 message.first.continuation ++ bytesField 2 message.second.continuation ++
    boolField 3 message.first.flag ++ boolField 4 message.second.flag ++
    message.otherChildState.map fun state => { number := 5, value := .bytes (encodeFields (stateFields state)) }

/-- `MarshalVT`. -/
def marshal : Bytes := encodeFields message.fields

def readStateField (state : CursorState) (field : WireField) : Option CursorState :=
  match field.number, field.value with
  | 1, .bytes b => some { state with continuation := some b }
  | 2, .varint n => some { state with flag := some (decide (n ≠ 0)) }
  | 1, .varint _ | 2, .bytes _ => none
  | _, _ => some state

def readState (data : Bytes) : Option CursorState :=
  (decodeFields data).bind fun fields => fields.foldlM readStateField {}

def readField (field : WireField) : Option ContinuationMessage :=
  match field.number, field.value with
  | 1, .bytes b => some { message with first := { message.first with continuation := some b } }
  | 2, .bytes b => some { message with second := { message.second with continuation := some b } }
  | 3, .varint n => some { message with first := { message.first with flag := some (decide (n ≠ 0)) } }
  | 4, .varint n => some { message with second := { message.second with flag := some (decide (n ≠ 0)) } }
  | 5, .bytes b =>
    (readState b).map fun state => { message with otherChildState := message.otherChildState ++ [state] }
  | 1, .varint _ | 2, .varint _ | 3, .bytes _ | 4, .bytes _ | 5, .varint _ => none
  | _, _ => some message

/-- `UnmarshalVT`. -/
def unmarshal (data : Bytes) : Option ContinuationMessage :=
  (decodeFields data).bind fun fields => fields.foldlM readField {}

private theorem readState_stateFields (state : CursorState) : readState (encodeFields (stateFields state)) = some state := by
  obtain ⟨continuation, flag⟩ := state
  rw [readState, decodeFields_encode, Option.bind_some]
  cases continuation with
  | none | some b =>
    cases flag with
    | none => rfl
    | some flag => cases flag <;> rfl

private theorem foldlM_others (message : ContinuationMessage) (states : List CursorState) :
    (states.map fun state => { number := 5, value := .bytes (encodeFields (stateFields state)) }).foldlM readField message =
      some { message with otherChildState := message.otherChildState ++ states } := by
  induction states generalizing message with
  | nil => simp
  | cons state states ih =>
    rw [List.map_cons, List.foldlM_cons]
    simp only [readField, readState_stateFields, Option.map_some, Option.bind_eq_bind, Option.bind_some]
    rw [ih]
    simp

theorem unmarshal_marshal : unmarshal message.marshal = some message := by
  obtain ⟨⟨firstContinuation, firstFlag⟩, ⟨secondContinuation, secondFlag⟩, otherChildState⟩ := message
  have flags : ∀ (b c : Option Bytes) (x y : Option Bool),
      (bytesField 1 b ++ bytesField 2 c ++ boolField 3 x ++ boolField 4 y).foldlM readField {} =
        some { first := ⟨b, x⟩, second := ⟨c, y⟩ } := by
    intro b c x y
    rcases b with _ | b <;> rcases c with _ | c <;> rcases x with _ | _ | _ <;> rcases y with _ | _ | _ <;> rfl
  rw [unmarshal, marshal, decodeFields_encode, Option.bind_some, fields, List.foldlM_append, flags]
  exact foldlM_others _ _

end ContinuationMessage

end FdbGo.RecordLayer
