import FdbGo.Executor.FlatMapCursor
import FdbGo.Executor.StatementPages
import FdbGo.Tuple.Unpack
import Mathlib.Logic.Function.Basic

/-! The nested loop join of the query executor. The inner rows are materialized; for each
row of the outer cursor they are scanned, or, with an equality between the legs and enough
inner rows, only those whose hash key is that of the outer row. The continuation of a
pair names the outer position before its row and the position among the candidates. -/

set_option autoImplicit false

namespace FdbGo.Executor

open Client RecordLayer FdbGo.Tuple

inductive JoinType where
  | inner
  | leftOuter
  | cross
  | fullOuter
  deriving DecidableEq, Repr

inductive JoinKey where
  | null
  | integer (n : Int)
  | string (s : String)
  | bool (b : Bool)
  deriving DecidableEq, Repr

/-- A key of the hash index; numbers are the bits of a double. -/
inductive HashKey where
  | null
  | double (bits : UInt64)
  | string (s : String)
  | bool (b : Bool)
  deriving DecidableEq, Repr

/-- Whether two keys compare as equal; a NULL and keys of different types are UNKNOWN. -/
def JoinKey.equals : JoinKey → JoinKey → Bool
  | .integer a, .integer b => a == b
  | .string a, .string b => a == b
  | .bool a, .bool b => a == b
  | _, _ => false

def normalizeNLJHashKey (toFloat64 : Int → UInt64) : JoinKey → HashKey
  | .null => .null
  | .integer n => .double (toFloat64 n)
  | .string s => .string s
  | .bool b => .bool b

/-- A side of a comparison: a column of one leg, or anything else. -/
inductive JoinOperand (Outer Inner : Type) where
  | outerLeg (evaluate : Outer → JoinKey)
  | innerLeg (evaluate : Inner → JoinKey)
  | other (evaluate : Outer → Inner → JoinKey)

/-- An equality, or a predicate that is TRUE for some pairs. -/
inductive JoinPredicate (Outer Inner : Type) where
  | equals (operand comparand : JoinOperand Outer Inner)
  | residual (holds : Outer → Inner → Bool)

section Predicates

variable {Outer Inner : Type}

def JoinOperand.evaluate (outerRow : Outer) (innerRow : Inner) : JoinOperand Outer Inner → JoinKey
  | .outerLeg evaluate => evaluate outerRow
  | .innerLeg evaluate => evaluate innerRow
  | .other evaluate => evaluate outerRow innerRow

def JoinPredicate.eval (outerRow : Outer) (innerRow : Inner) : JoinPredicate Outer Inner → Bool
  | .equals operand comparand => (operand.evaluate outerRow innerRow).equals (comparand.evaluate outerRow innerRow)
  | .residual holds => holds outerRow innerRow

def passesJoinPredicates (preds : List (JoinPredicate Outer Inner)) (outerRow : Outer) (innerRow : Inner) : Bool :=
  preds.all (JoinPredicate.eval outerRow innerRow)

def JoinPredicate.legs : JoinPredicate Outer Inner → Option ((Outer → JoinKey) × (Inner → JoinKey))
  | .equals (.outerLeg outerVal) (.innerLeg innerVal) => some (outerVal, innerVal)
  | .equals (.innerLeg innerVal) (.outerLeg outerVal) => some (outerVal, innerVal)
  | _ => none

/-- The operands of the only equality between the legs. -/
def extractEquijoinOperands (preds : List (JoinPredicate Outer Inner)) :
    Option ((Outer → JoinKey) × (Inner → JoinKey)) :=
  match preds.filterMap JoinPredicate.legs with
  | [operands] => some operands
  | _ => none

end Predicates

/-! ## Continuations -/

/-- `UnsupportedContinuationError`, or a panic. -/
inductive NljError where
  | unsupportedContinuation (shape : String)
  | cursor (error : CursorError)
  deriving DecidableEq, Repr

def nljKindMidInner : Int64 := 0
def nljKindFullOuter : Int64 := 1
def nljKindUnresumable : Int64 := 2

structure NljContinuation where
  outerCont : Option RecordCursorContinuation := none
  checkValue : Option Bytes := none
  hasInner : Bool := false
  innerIdx : Nat := 0
  outerMatched : Bool := false
  fullOuter : Bool := false
  innerPK : Option Bytes := none
  deriving DecidableEq, Repr

def packPosition (t : List Element) : Except NljError (Option Bytes) :=
  match pack t with
  | .ok packed => .ok (some packed)
  | .error _ => .error (.cursor .panic)

def NljContinuation.toBytes (w : NljContinuation) : Except NljError Bytes := do
  let outerContinuation := FlatMapCursor.positionBytes w.outerCont
  let innerContinuation ←
    if w.fullOuter then packPosition [.int64 0, .int64 0, .int64 nljKindFullOuter]
    else if w.hasInner then
      packPosition [.int64 (Int64.ofNat w.innerIdx), .int64 (if w.outerMatched then 1 else 0),
        .int64 nljKindMidInner, .bytes (w.innerPK.getD [])]
    else if (outerContinuation.getD []).isEmpty && (w.checkValue.getD []).isEmpty then
      packPosition [.int64 0, .int64 0, .int64 nljKindUnresumable]
    else .ok none
  .ok ({ outerContinuation, innerContinuation, checkValue := w.checkValue } : FlatMapContinuation).marshal

structure NljResumeState where
  innerIdx : Nat
  outerMatched : Bool
  check : Option Bytes
  innerPK : Option Bytes
  deriving DecidableEq, Repr

def decodeInnerPosition (check : Option Bytes) (position : Bytes) : Except NljError NljResumeState :=
  let malformed := .error (.unsupportedContinuation "nested loop join (malformed inner position payload)")
  let state (idx matched kind : Int64) (innerPK : Option Bytes) : Except NljError NljResumeState :=
    if idx < 0 then malformed
    else if kind = nljKindMidInner then
      .ok { innerIdx := idx.toInt.toNat, outerMatched := decide (matched ≠ 0), check, innerPK }
    else if kind = nljKindFullOuter then
      .error (.unsupportedContinuation "nested loop join FULL OUTER (does not resume)")
    else if kind = nljKindUnresumable then
      .error (.unsupportedContinuation "nested loop join (outer child provides no resume position)")
    else malformed
  match unpack position with
  | .ok [.int64 idx, .int64 matched, .int64 kind] => state idx matched kind none
  | .ok [.int64 idx, .int64 matched, .int64 kind, .null] => state idx matched kind none
  | .ok [.int64 idx, .int64 matched, .int64 kind, .bytes pk] => state idx matched kind (some pk)
  | _ => malformed

def decodeNLJContinuation (continuation : Option Bytes) : Except NljError (Option Bytes × Option NljResumeState) :=
  if (continuation.getD []).isEmpty then .ok (none, none)
  else
    match FlatMapContinuation.unmarshal (continuation.getD []) with
    | none => .error (.unsupportedContinuation "nested loop join (unrecognized continuation bytes)")
    | some fmc =>
      let noOuter := (fmc.outerContinuation.getD []).isEmpty
      if noOuter && (fmc.innerContinuation.getD []).isEmpty && (fmc.checkValue.getD []).isEmpty then
        .error (.unsupportedContinuation "nested loop join (empty continuation payload)")
      else if (fmc.innerContinuation.getD []).isEmpty then
        if noOuter then .error (.unsupportedContinuation "nested loop join (check value without positions)")
        else .ok (fmc.outerContinuation, none)
      else do
        let state ← decodeInnerPosition fmc.checkValue (fmc.innerContinuation.getD [])
        .ok (fmc.outerContinuation, some state)

/-! ## The cursor -/

/-- What is joined. A pair without one of its rows is padded with NULL; primary keys are
packed. The length of a slice fits a Go int. -/
structure NljPlan (Outer Inner Row : Type) where
  joinType : JoinType
  preds : List (JoinPredicate Outer Inner)
  innerRows : List Inner
  fits : innerRows.length < 2 ^ 63
  outerPrimaryKey : Outer → Option Bytes
  innerPrimaryKey : Inner → Option Bytes
  combine : Option Outer → Option Inner → Row
  toFloat64 : Int → UInt64

namespace NljPlan

variable {Outer Inner Row : Type}

def hashKey (plan : NljPlan Outer Inner Row) (key : JoinKey) : HashKey := normalizeNLJHashKey plan.toFloat64 key

def buildHashIndex (plan : NljPlan Outer Inner Row) (innerVal : Inner → JoinKey) : HashKey → List Nat :=
  plan.innerRows.zipIdx.foldl
    (fun idx entry =>
      let key := plan.hashKey (innerVal entry.1)
      Function.update idx key (idx key ++ [entry.2]))
    fun _ => []

def tryBuildHashIndex (plan : NljPlan Outer Inner Row) : Option ((HashKey → List Nat) × (Outer → JoinKey)) :=
  if plan.preds.isEmpty || decide (plan.innerRows.length < 100) then none
  else
    match extractEquijoinOperands plan.preds with
    | none => none
    | some (outerVal, innerVal) => some (plan.buildHashIndex innerVal, outerVal)

end NljPlan

structure NljCursor (Outer Inner Row : Type) where
  plan : NljPlan Outer Inner Row
  outerInner : ChildCursor Outer
  hashIndex : Option ((HashKey → List Nat) × (Outer → JoinKey))
  currentOuter : Option Outer := none
  priorOuterCont : Option RecordCursorContinuation := none
  lastOuterCont : Option RecordCursorContinuation := none
  innerIdx : Nat := 0
  innerCandidateIndices : Option (List Nat) := none
  innerCandidateCount : Nat := 0
  outerMatched : Bool := false
  outerExhausted : Bool := false
  resume : Option NljResumeState := none
  matchedInner : List Bool := []
  drainIdx : Nat := 0
  lastNoNext : Option (RecordCursorResult Row) := none

namespace NljCursor

variable {Outer Inner Row : Type} (c : NljCursor Outer Inner Row)

/-- Without indices the candidates are all inner rows. -/
def innerCandidateIndex (position : Nat) : Nat :=
  match c.innerCandidateIndices with
  | none => position
  | some indices => indices.getD position 0

def candidatePrimaryKey (position : Nat) : Option Bytes :=
  if position < c.innerCandidateCount then
    c.plan.innerRows[c.innerCandidateIndex position]?.bind c.plan.innerPrimaryKey
  else none

/-- The saved position, if the saved row is still before it; else after the saved row. -/
def repositionInner (savedIdx : Nat) (savedPK : Option Bytes) : Nat :=
  if (savedPK.getD []).isEmpty || decide (savedIdx = 0) then savedIdx
  else if c.candidatePrimaryKey (savedIdx - 1) = savedPK then savedIdx
  else
    match (List.range c.innerCandidateCount).find? fun pos => decide (c.candidatePrimaryKey pos = savedPK) with
    | some pos => pos + 1
    | none => savedIdx

def midInnerContinuation : NljContinuation :=
  if c.plan.joinType = .fullOuter then { fullOuter := true }
  else
    { outerCont := c.priorOuterCont
      hasInner := true
      innerIdx := c.innerIdx
      outerMatched := c.outerMatched
      checkValue := c.currentOuter.bind c.plan.outerPrimaryKey
      innerPK := if c.innerIdx = 0 then none else c.candidatePrimaryKey (c.innerIdx - 1) }

/-- The outer cursor stopped; a position that no row has taken yet rides along. -/
def outerStopContinuation (outerCont : RecordCursorContinuation) : NljContinuation :=
  if c.plan.joinType = .fullOuter then { fullOuter := true }
  else
    match c.resume with
    | none => { outerCont := some outerCont }
    | some state =>
      { outerCont := some outerCont
        hasInner := true
        innerIdx := state.innerIdx
        outerMatched := state.outerMatched
        checkValue := state.check
        innerPK := state.innerPK }

def emit (row : Row) (w : NljContinuation) :
    Except NljError (RecordCursorResult Row × NljCursor Outer Inner Row) := do
  let data ← w.toBytes
  let result ← (RecordCursorResult.newResultWithValue row (.bytes data)).mapError .cursor
  .ok (result, c)

def stop (reason : NoNextReason) (w : NljContinuation) :
    Except NljError (RecordCursorResult Row × NljCursor Outer Inner Row) := do
  let data ← w.toBytes
  let result ← (RecordCursorResult.newResultNoNext reason (.bytes data)).mapError .cursor
  .ok (result, { c with lastNoNext := some result })

def probe (outerRow : Outer) : NljCursor Outer Inner Row :=
  match c.hashIndex with
  | none => { c with innerCandidateIndices := none, innerCandidateCount := c.plan.innerRows.length }
  | some (hashIndex, hashOuterVal) =>
    let indices := hashIndex (c.plan.hashKey (hashOuterVal outerRow))
    { c with innerCandidateIndices := some indices, innerCandidateCount := indices.length }

/-- The saved position is taken by the row with the saved primary key, or by the first row
when there is nothing to compare. -/
def takeResume (outerRow : Outer) : NljCursor Outer Inner Row :=
  match c.resume with
  | none => c
  | some state =>
    if !(state.check.getD []).isEmpty && (c.plan.outerPrimaryKey outerRow).isSome &&
        c.plan.outerPrimaryKey outerRow != state.check then c
    else
      { c with
        resume := none
        innerIdx := c.repositionInner state.innerIdx state.innerPK
        outerMatched := state.outerMatched }

def enter (outerRow : Outer) (outerCont : RecordCursorContinuation) :
    NljCursor Outer Inner Row :=
  let c :=
    { c with
      priorOuterCont := c.lastOuterCont
      lastOuterCont := some outerCont
      currentOuter := some outerRow
      innerIdx := 0
      outerMatched := false }
  (c.probe outerRow).takeResume outerRow

/-- Scans candidates up to one that passes the predicates. -/
def scan (outerRow : Outer) : Nat → NljCursor Outer Inner Row →
    Except NljError (Option Inner × NljCursor Outer Inner Row)
  | 0, c => .ok (none, c)
  | candidates + 1, c =>
    let idx := c.innerCandidateIndex c.innerIdx
    match c.plan.innerRows[idx]? with
    | none => .error (.cursor .panic)
    | some innerRow =>
      let c := { c with innerIdx := c.innerIdx + 1 }
      if passesJoinPredicates c.plan.preds outerRow innerRow then
        .ok (some innerRow, { c with outerMatched := true, matchedInner := c.matchedInner.set idx true })
      else scan outerRow candidates c

/-- The rest of the current outer row: its next pair, or its padded row, or the next row. -/
def advanceInner (outerRow : Outer)
    (again : NljCursor Outer Inner Row → Except NljError (RecordCursorResult Row × NljCursor Outer Inner Row)) :
    Except NljError (RecordCursorResult Row × NljCursor Outer Inner Row) := do
  let (found, c) ← scan outerRow (c.innerCandidateCount - c.innerIdx) c
  match found with
  | some innerRow => c.emit (c.plan.combine (some outerRow) (some innerRow)) c.midInnerContinuation
  | none =>
    let c := { c with currentOuter := none }
    if !c.outerMatched && decide (c.plan.joinType = .leftOuter ∨ c.plan.joinType = .fullOuter) then
      c.emit (c.plan.combine (some outerRow) none)
        (if c.plan.joinType = .fullOuter then { fullOuter := true } else { outerCont := c.lastOuterCont })
    else again c

/-- After the outer rows a full outer join delivers the inner rows that matched none. -/
def drain : Nat → NljCursor Outer Inner Row → Except NljError (RecordCursorResult Row × NljCursor Outer Inner Row)
  | 0, c => do
    let result ← (RecordCursorResult.newResultNoNext .sourceExhausted .end_).mapError .cursor
    .ok (result, c)
  | left + 1, c =>
    let i := c.drainIdx
    let c := { c with drainIdx := i + 1 }
    if c.matchedInner.getD i false then drain left c
    else
      match c.plan.innerRows[i]? with
      | none => .error (.cursor .panic)
      | some innerRow => c.emit (c.plan.combine none (some innerRow)) { fullOuter := true }

/-- The outer half of a round: the next outer row, a stop, or what follows the last row. -/
def advanceOuter
    (again : NljCursor Outer Inner Row → Except NljError (RecordCursorResult Row × NljCursor Outer Inner Row)) :
    Except NljError (RecordCursorResult Row × NljCursor Outer Inner Row) :=
  if c.outerExhausted then
    drain (if c.plan.joinType = .fullOuter then c.plan.innerRows.length - c.drainIdx else 0) c
  else
    match c.outerInner.onNext with
    | (.noNext reason outerCont, outerInner) =>
      let c := { c with outerInner }
      if reason.isSourceExhausted then again { c with outerExhausted := true }
      else c.stop reason (c.outerStopContinuation outerCont)
    | (.next outerRow outerCont, outerInner) =>
      ({ c with outerInner }.enter outerRow outerCont).advanceInner outerRow again

def rounds : Nat → NljCursor Outer Inner Row → Except NljError (RecordCursorResult Row × NljCursor Outer Inner Row)
  | 0, _ => .error (.cursor .outOfFuel)
  | fuel + 1, c =>
    match c.currentOuter with
    | some outerRow => c.advanceInner outerRow (rounds fuel)
    | none => c.advanceOuter (rounds fuel)

def onNext : Except NljError (RecordCursorResult Row × NljCursor Outer Inner Row) :=
  match c.lastNoNext with
  | some result => .ok (result, c)
  | none => rounds (c.outerInner.source.rows.length + 3) c

end NljCursor

/-- Opens the join from a continuation. A full outer join is not resumed. -/
def executeNestedLoopJoin {Outer Inner Row : Type} (plan : NljPlan Outer Inner Row) (outerPlan : CursorFunction Outer)
    (continuation : Option Bytes) : Except NljError (NljCursor Outer Inner Row) :=
  if plan.joinType = .fullOuter ∧ ¬ (continuation.getD []).isEmpty then
    .error (.unsupportedContinuation "nested loop join FULL OUTER (does not resume)")
  else do
    let (outerContinuation, resume) ← decodeNLJContinuation continuation
    .ok
      { plan
        outerInner := outerPlan outerContinuation
        hashIndex := plan.tryBuildHashIndex
        matchedInner := if plan.joinType = .fullOuter then List.replicate plan.innerRows.length false else []
        lastOuterCont := if (outerContinuation.getD []).isEmpty then none else outerContinuation.map .bytes
        resume }

end FdbGo.Executor
