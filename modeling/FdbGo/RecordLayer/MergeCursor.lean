import FdbGo.Foundation.Merge
import FdbGo.RecordLayer.Paging

/-! Merge cursors over children in one order of their comparison keys: the union, which
returns every key once, and the intersection, which returns the keys that all children
have. The comparison key is the packed tuple. -/

set_option autoImplicit false

namespace FdbGo.RecordLayer

open Client Foundation RecordCursorResult

variable {T K : Type} [LinearOrder K]

/-! ## Children of a merge -/

/-- `mergeChildState`. The continuation is the child's safe resume point: a value that is
loaded but not consumed leaves it. -/
structure MergeChildState (T : Type) where
  /-- The child; none is `Empty`. -/
  cursor : Option (ChildCursor T)
  result : Option (RecordCursorResult T) := none
  continuation : RecordCursorContinuation
  needsAdvance : Bool := true

namespace MergeChildState

def value? (child : MergeChildState T) : Option T := child.result.bind RecordCursorResult.value?

variable (child : MergeChildState T)

def noNextReason? : Option NoNextReason :=
  match child.result with
  | some (.noNext reason _) => some reason
  | some (.next _ _) | none => none

def pull : Option (ChildCursor T) → RecordCursorResult T × Option (ChildCursor T)
  | some cursor => (cursor.onNext.1, some cursor.onNext.2)
  | none => (.noNext .sourceExhausted .end_, none)

def advance : MergeChildState T :=
  let (result, cursor) := pull child.cursor
  { cursor
    result := some result
    continuation := if result.hasNext then child.continuation else result.getContinuation
    needsAdvance := false }

def advanceIfNeeded : MergeChildState T :=
  if child.needsAdvance then child.advance else child

def consume : MergeChildState T :=
  { child with
    continuation := (child.result.map getContinuation).getD child.continuation
    needsAdvance := true }

def stoppedByLimit : Bool :=
  child.noNextReason?.elim false NoNextReason.isLimitReached

end MergeChildState

/-! ## Union -/

/-- One more reason in `strongestNoNextReason`. -/
def strengthen (reason : Option NoNextReason) (childReason : NoNextReason) : Option NoNextReason :=
  match reason with
  | none => some childReason
  | some reason => if childReason.isOutOfBand || reason.isSourceExhausted then some childReason else some reason

variable (children : List (MergeChildState T))

def strongestNoNextReason : NoNextReason :=
  let stopped := children.filter fun child => !(child.needsAdvance || child.value?.isSome)
  ((stopped.filterMap MergeChildState.noNextReason?).foldl strengthen none).getD .sourceExhausted

variable (continuation : RecordCursorContinuation)

def unionState : CursorState :=
  match continuation with
  | .end_ => { flag := some true }
  | .bytes (b :: bs) => { continuation := some (b :: bs) }
  | .bytes [] | .start => {}

def unionOtherState : CursorState :=
  match continuation with
  | .end_ => { flag := some true }
  | .bytes (b :: bs) => { continuation := some (b :: bs) }
  | .bytes [] | .start => { flag := some false }

def unionMessage : List RecordCursorContinuation → ContinuationMessage
  | [] => {}
  | [first] => { first := unionState first }
  | first :: second :: others =>
    { first := unionState first, second := unionState second, otherChildState := others.map unionOtherState }

/-- `EncodeUnionContinuation`; none is nil. -/
def encodeUnionContinuation (children : List RecordCursorContinuation) : Option Bytes :=
  if children.all RecordCursorContinuation.isEnd then none else some (unionMessage children).marshal

def buildUnionContinuation : RecordCursorContinuation :=
  match encodeUnionContinuation (children.map MergeChildState.continuation) with
  | none => .end_
  | some data => .bytes data

def decodeUnionChild (state : CursorState) : RecordCursorContinuation :=
  match state.continuation with
  | some b => .bytes b
  | none => if state.flag.getD false then .end_ else .start

def decodeUnionContinuation (data : Option Bytes) (n : Nat) : Except CursorError (List RecordCursorContinuation) :=
  match data with
  | none => .ok (List.replicate n .start)
  | some data =>
    match ContinuationMessage.unmarshal data with
    | none => .error .invalidContinuation
    | some parsed =>
      let states := (parsed.first :: parsed.second :: parsed.otherChildState).map decodeUnionChild
      if states.length ≠ n then .error (.childCount n states.length) else .ok states

def mergeStateCursor (fn : CursorFunction T) (continuation : RecordCursorContinuation) :
    Option (ChildCursor T) × RecordCursorContinuation :=
  if continuation.isEnd then (none, .end_) else (some (fn continuation.toBytes), continuation)

def newUnionChild (fn : CursorFunction T) (continuation : RecordCursorContinuation) : MergeChildState T :=
  let (cursor, continuation) := mergeStateCursor fn continuation
  { cursor, continuation }

def newUnionChildren (fns : List (CursorFunction T)) (continuation : Option Bytes) :
    Except CursorError (List (MergeChildState T)) := do
  let conts ← decodeUnionContinuation continuation fns.length
  .ok (List.zipWith newUnionChild fns conts)

structure UnionCursor (T : Type) where
  children : List (MergeChildState T)
  reverse : Bool
  lastNoNext : Option (RecordCursorResult T) := none

def union (reverse : Bool) (fns : List (CursorFunction T)) (continuation : Option Bytes) :
    Except CursorError (UnionCursor T) :=
  if fns.length < 2 then .error (.notEnoughChildren fns.length)
  else do
    let children ← newUnionChildren fns continuation
    .ok { children, reverse }

/-- A child that holds the least key so far. -/
structure ChosenState (T K : Type) where
  index : Nat
  comparisonKey : K
  value : T

variable (key : T → K)

/-- One child in the loop of `chooseStates`. -/
def chooseState (reverse : Bool) (chosen : List (ChosenState T K)) (child : Option T × Nat) :
    List (ChosenState T K) :=
  match child.1 with
  | none => chosen
  | some value =>
    let state := { index := child.2, comparisonKey := key value, value }
    match chosen with
    | [] => [state]
    | first :: _ =>
      if Precedes reverse (key value) first.comparisonKey then [state]
      else if key value = first.comparisonKey then chosen ++ [state]
      else chosen

/-- The least key in the scan direction, and every child that holds it. -/
def chooseStates (reverse : Bool) (children : List (MergeChildState T)) : List (ChosenState T K) :=
  (children.map MergeChildState.value?).zipIdx.foldl (chooseState key reverse) []

def consumeChosen (chosen : List (ChosenState T K)) (children : List (MergeChildState T)) : List (MergeChildState T) :=
  children.mapIdx fun i child => if i ∈ chosen.map ChosenState.index then child.consume else child

def stopUnion : Except CursorError (RecordCursorResult T) :=
  let cont := buildUnionContinuation children
  let reason := strongestNoNextReason children
  if reason = .sourceExhausted ∧ cont.isEnd = false then .error .exhaustedWithNonEndContinuation
  else newResultNoNext reason cont

namespace UnionCursor

def stop (cursor : UnionCursor T) : Except CursorError (RecordCursorResult T × UnionCursor T) := do
  let result ← stopUnion cursor.children
  .ok (result, { cursor with lastNoNext := some result })

def deliver (cursor : UnionCursor T) (chosen : List (ChosenState T K)) :
    Except CursorError (RecordCursorResult T × UnionCursor T) :=
  match chosen with
  | [] => .error .panic
  | first :: _ => do
    let children := consumeChosen chosen cursor.children
    let result ← newResultWithValue first.value (buildUnionContinuation children)
    .ok (result, { cursor with children })

/-- `unionCursor.OnNext`. -/
def onNext (cursor : UnionCursor T) : Except CursorError (RecordCursorResult T × UnionCursor T) :=
  match cursor.lastNoNext with
  | some result => .ok (result, cursor)
  | none =>
    let cursor := { cursor with children := cursor.children.map MergeChildState.advanceIfNeeded }
    -- a child stopped by a limit stops the union: going on could return its next key twice
    if cursor.children.any MergeChildState.stoppedByLimit then cursor.stop
    else if !cursor.children.any fun child => child.value?.isSome then cursor.stop
    else cursor.deliver (chooseStates key cursor.reverse cursor.children)

end UnionCursor

/-! ## Intersection -/

def strength : NoNextReason → Nat
  | .sourceExhausted => 0
  | .returnLimitReached => 1
  | .byteLimitReached | .timeLimitReached | .scanLimitReached => 2

def isWeaker (a b : NoNextReason) : Bool := decide (strength a < strength b)

/-- The loop of `weakestNoNextReason` over the reasons of the stopped children. -/
def weaken (weakest : Option NoNextReason) : List NoNextReason → NoNextReason
  | [] => weakest.getD .sourceExhausted
  | reason :: reasons =>
    if reason = .sourceExhausted then .sourceExhausted
    else
      match weakest with
      | none => weaken (some reason) reasons
      | some weakest => weaken (some (if isWeaker reason weakest then reason else weakest)) reasons

def weakestNoNextReason : NoNextReason :=
  weaken none (children.filterMap MergeChildState.noNextReason?)

def intersectionState : CursorState :=
  let contBytes := continuation.toBytes
  { continuation := contBytes
    flag := some (decide ¬ ((contBytes.getD []).isEmpty = true ∧ continuation.isEnd = false)) }

def intersectionMessage : List RecordCursorContinuation → ContinuationMessage
  | [] => {}
  | [first] => { first := intersectionState first }
  | first :: second :: others =>
    { first := intersectionState first, second := intersectionState second,
      otherChildState := others.map intersectionState }

def buildIntersectionContinuation : RecordCursorContinuation :=
  .bytes (intersectionMessage (children.map MergeChildState.continuation)).marshal

/-- Not started: the start. Started with bytes: those. Started without: the end. -/
structure IntersectionChildResume where
  continuation : Option Bytes := none
  started : Bool := false
  deriving DecidableEq, Repr

def resumeOfState (state : CursorState) : IntersectionChildResume :=
  { continuation := state.continuation, started := state.flag.getD false }

def decodeIntersectionContinuation (data : Option Bytes) (n : Nat) : Except CursorError (List IntersectionChildResume) :=
  match data.getD [] with
  | [] => .ok (List.replicate n {})
  | data =>
    match ContinuationMessage.unmarshal data with
    | none => .error .invalidContinuation
    | some cont =>
      if cont.first.flag.isSome ≠ decide (1 ≤ n) ∨ cont.second.flag.isSome ≠ decide (2 ≤ n) ∨
          cont.otherChildState.length ≠ n - 2 then
        .error (.childCount n (cont.otherChildState.length + 2))
      else if n = 0 then .error .panic
      else .ok (((cont.first :: cont.second :: cont.otherChildState).take n).map resumeOfState)

def initialIntersectionContinuation (resume : IntersectionChildResume) : RecordCursorContinuation :=
  if resume.started = false then .start
  else
    match resume.continuation with
    | some (b :: bs) => .bytes (b :: bs)
    | some [] | none => .end_

/-- The child of `buildIntersectionChildCursors` in `newMergeChildren`. -/
def newIntersectionChild (fn : CursorFunction T) (resume : IntersectionChildResume) : MergeChildState T :=
  { cursor :=
      if resume.started = true ∧ (resume.continuation.getD []).isEmpty = true then none else some (fn resume.continuation)
    continuation := initialIntersectionContinuation resume }

structure IntersectionCursor (T V : Type) where
  children : List (MergeChildState T)
  reverse : Bool
  lastNoNext : Option (RecordCursorResult V) := none

/-- `IntersectionResume` and `IntersectionMultiResume` over the decoded continuation. -/
def intersection {V : Type} (reverse : Bool) (fns : List (CursorFunction T)) (continuation : Option Bytes) :
    Except CursorError (IntersectionCursor T V) := do
  let resume ← decodeIntersectionContinuation continuation fns.length
  .ok { children := List.zipWith newIntersectionChild fns resume, reverse }

def maxKey (reverse : Bool) (first : T) (rest : List T) : K :=
  rest.foldl (fun best value => if Precedes reverse best (key value) then key value else best) (key first)

/-- `discardTo` of a child that streams. -/
def discardTo (target : K) (child : MergeChildState T) : MergeChildState T :=
  if child.value?.map key = some target then child else child.consume

def stopIntersection : Except CursorError (RecordCursorResult (List T)) :=
  let reason := weakestNoNextReason children
  if reason.isSourceExhausted then newResultNoNext .sourceExhausted .end_
  else newResultNoNext reason (buildIntersectionContinuation children)

def deliverIntersection (values : List T) (children : List (MergeChildState T)) :
    Except CursorError (RecordCursorResult (List T) × List (MergeChildState T)) := do
  let children := children.map MergeChildState.consume
  let result ← newResultWithValue values (buildIntersectionContinuation children)
  .ok (result, children)

/-- The loop of `OnNext`, with the values of all children: those with a lesser key are
discarded until all agree. -/
def intersectionLoop (key : T → K) (reverse : Bool) :
    Nat → List (MergeChildState T) → Except CursorError (RecordCursorResult (List T) × List (MergeChildState T))
  | 0, _ => .error .outOfFuel
  | fuel + 1, children =>
    let children := children.map MergeChildState.advanceIfNeeded
    if children.any fun child => child.value?.isNone then do
      let result ← stopIntersection children
      .ok (result, children)
    else
      match children.filterMap MergeChildState.value? with
      -- without children the cursor is `Empty`
      | [] => .ok (.noNext .sourceExhausted .end_, children)
      | first :: rest =>
        let target := maxKey key reverse first rest
        if (first :: rest).all fun value => decide (key value = target) then deliverIntersection (first :: rest) children
        else intersectionLoop key reverse fuel (children.map (discardTo key target))

def intersectionFuel : Nat :=
  (children.map fun child => child.cursor.elim 1 fun cursor => cursor.source.rows.length + 1).sum + 1

namespace IntersectionCursor

/-- The loop, and the result that the cursor returns. -/
def onNextWith {V : Type} (collect : List T → Option V) (key : T → K) (cursor : IntersectionCursor T V) :
    Except CursorError (RecordCursorResult V × IntersectionCursor T V) :=
  match cursor.lastNoNext with
  | some result => .ok (result, cursor)
  | none => do
    let (result, children) ← intersectionLoop key cursor.reverse (intersectionFuel cursor.children) cursor.children
    match result with
    | .noNext reason continuation =>
      .ok (.noNext reason continuation, { cursor with children, lastNoNext := some (.noNext reason continuation) })
    | .next values continuation =>
      match collect values with
      | some value => .ok (.next value continuation, { cursor with children })
      | none => .error .panic

/-- `intersectionCursor.OnNext`: the first child's value. -/
def onNext (cursor : IntersectionCursor T T) :
    Except CursorError (RecordCursorResult T × IntersectionCursor T T) :=
  cursor.onNextWith List.head? key

/-- `intersectionMultiCursor.OnNext`: all children's values. -/
def onNextMulti (cursor : IntersectionCursor T (List T)) :
    Except CursorError (RecordCursorResult (List T) × IntersectionCursor T (List T)) :=
  cursor.onNextWith some key

end IntersectionCursor

end FdbGo.RecordLayer
