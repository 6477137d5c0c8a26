import FdbGo.Executor.FlatMapPages
import FdbGo.Executor.JoinCandidates
import FdbGo.Tuple.Prefixes

/-! Positions of the nested loop join: what is left of the plain nested loops from each of
them on, which continuation names them, and which cursor stands there. -/

set_option autoImplicit false

namespace FdbGo.Executor

open Client Foundation RecordLayer FdbGo.Tuple

variable {Outer Inner Row : Type}

/-! ## Continuations -/

theorem packPosition_ok {t : List Element} (packable : packables (values t) = true) :
    packPosition t = .ok (some (wires false (values t))) := by
  rw [packPosition, pack_eq packable]

variable (a b c : Int64)

variable {rest : List Element}

theorem packables_position (packs : packables (values rest) = true) :
    packables (values (.int64 a :: .int64 b :: .int64 c :: rest)) = true := by
  simp [values, Element.value, packables, packable_int64, packs]

/-- Every position of a join can be written. -/
theorem NljContinuation.toBytes_ok (w : NljContinuation) : ∃ data, w.toBytes = .ok data := by
  unfold NljContinuation.toBytes
  dsimp only
  split
  case isTrue => exact ⟨_, by rw [packPosition_ok (packables_position _ _ _ rfl)]; rfl⟩
  case isFalse =>
    split
    case isTrue => exact ⟨_, by rw [packPosition_ok (packables_position _ _ _ rfl)]; rfl⟩
    case isFalse =>
      split
      case isTrue => exact ⟨_, by rw [packPosition_ok (packables_position _ _ _ rfl)]; rfl⟩
      case isFalse => exact ⟨_, rfl⟩

private theorem integerElement_int64 (value : Int64) : integerElement value.toInt = .int64 value := by
  have low : -2 ^ 63 ≤ value.toInt := Int64.le_toInt value
  have high : value.toInt < 2 ^ 63 := Int64.toInt_lt value
  rw [integerElement, if_pos ⟨low, high⟩, Int64.ofInt_toInt]

private theorem unpack_position (packs : packables (values rest) = true) (same : elements (values rest) = rest) :
    unpack (wires false (values (.int64 a :: .int64 b :: .int64 c :: rest))) =
      .ok (.int64 a :: .int64 b :: .int64 c :: rest) := by
  rw [unpack_wires (packables_position a b c packs)]
  simp [values, Element.value, elements, Value.element, integerElement_int64, same]

private theorem decode_inner {fmc : FlatMapContinuation} {position : Bytes} (nonempty : position ≠ [])
    (isPosition : fmc.innerContinuation = some position) :
    decodeNLJContinuation (some fmc.marshal) =
      (decodeInnerPosition fmc.checkValue position).bind fun state => .ok (fmc.outerContinuation, some state) := by
  have written : fmc.marshal.isEmpty = false :=
    encodeFields_isEmpty (by simp [FlatMapContinuation.fields, isPosition, ContinuationMessage.bytesField])
  have some_ : position.isEmpty = false := by simpa using nonempty
  rw [decodeNLJContinuation]
  simp only [Option.getD_some, written, Bool.false_eq_true, ↓reduceIte, fmc.unmarshal_marshal, isPosition, some_,
    Bool.and_false, Bool.false_and]
  rfl

private theorem decode_outer {outerBytes : Bytes} (nonempty : outerBytes ≠ []) :
    decodeNLJContinuation (some ({ outerContinuation := some outerBytes } : FlatMapContinuation).marshal) =
      .ok (some outerBytes, none) := by
  have written : ({ outerContinuation := some outerBytes } : FlatMapContinuation).marshal.isEmpty = false :=
    encodeFields_isEmpty (List.cons_ne_nil _ _)
  have some_ : outerBytes.isEmpty = false := by simpa using nonempty
  rw [decodeNLJContinuation]
  simp only [Option.getD_some, written, Bool.false_eq_true, ↓reduceIte, FlatMapContinuation.unmarshal_marshal, some_,
    Bool.false_and, Option.getD_none, List.isEmpty_nil]

private theorem wires_position_ne_nil (a : Int64) (t : List Element) : wires false (values (.int64 a :: t)) ≠ [] := by
  rw [values, wires]
  obtain ⟨code, rest, shape, -⟩ := wire_head false (Element.int64 a).value
  rw [shape]
  simp

def NljContinuation.state (w : NljContinuation) : NljResumeState :=
  { innerIdx := w.innerIdx, outerMatched := w.outerMatched, check := w.checkValue, innerPK := some (w.innerPK.getD []) }

theorem decode_toBytes {w : NljContinuation} {data : Bytes} (written : w.toBytes = .ok data)
    (notFull : w.fullOuter = false) (fits : w.innerIdx < 2 ^ 63) (unchecked : w.hasInner = false → w.checkValue = none) :
    decodeNLJContinuation (some data) =
      if w.hasInner then .ok (FlatMapCursor.positionBytes w.outerCont, some w.state)
      else if ((FlatMapCursor.positionBytes w.outerCont).getD []).isEmpty then
        .error (.unsupportedContinuation "nested loop join (outer child provides no resume position)")
      else .ok (FlatMapCursor.positionBytes w.outerCont, none) := by
  unfold NljContinuation.toBytes at written
  rw [notFull, if_neg Bool.false_ne_true] at written
  cases inner : w.hasInner with
  | true =>
    rw [inner, if_pos rfl, packPosition_ok (packables_position _ _ _ rfl)] at written
    cases written
    have isIdx : (Int64.ofNat w.innerIdx).toInt = w.innerIdx := Int64.toInt_ofNat_of_lt fits
    have nonneg : ¬ Int64.ofNat w.innerIdx < 0 := by
      rw [Int64.lt_iff_toInt_lt, isIdx]
      simp
    have isMatched : decide ((if w.outerMatched then (1 : Int64) else 0) ≠ 0) = w.outerMatched := by
      cases w.outerMatched <;> rfl
    rw [decode_inner (wires_position_ne_nil _ _) rfl, decodeInnerPosition, unpack_position _ _ _ rfl rfl,
      if_pos rfl]
    simp only [if_neg nonneg, isIdx, isMatched, Int.toNat_natCast]
    rfl
  | false =>
    rw [inner, if_neg Bool.false_ne_true, unchecked inner] at written
    rw [if_neg Bool.false_ne_true]
    cases empty : ((FlatMapCursor.positionBytes w.outerCont).getD []).isEmpty with
    | true =>
      rw [empty] at written
      rw [show (true && ((none : Option Bytes).getD []).isEmpty) = true from rfl, if_pos rfl,
        packPosition_ok (packables_position _ _ _ rfl)] at written
      cases written
      rw [decode_inner (wires_position_ne_nil _ _) rfl, decodeInnerPosition, unpack_position _ _ _ rfl rfl]
      rfl
    | false =>
      rw [empty, Bool.false_and, if_neg Bool.false_ne_true] at written
      cases written
      cases outerBytes : FlatMapCursor.positionBytes w.outerCont with
      | none =>
        rw [outerBytes] at empty
        cases empty
      | some b =>
        rw [outerBytes] at empty
        exact decode_outer fun isNil => by simp [isNil] at empty

/-! ## The plain join -/

section Join

variable (plan : NljPlan Outer Inner Row) (outer : Source Outer)

def joined (outerRow : Outer) : List Row :=
  let pairs := (plan.innerRows.filter (passesJoinPredicates plan.preds outerRow)).map
    fun innerRow => plan.combine (some outerRow) (some innerRow)
  if plan.joinType = .leftOuter ∧ pairs.isEmpty then [plan.combine (some outerRow) none] else pairs

def plainJoin : List Row := outer.rows.flatMap (joined plan)

/-- A row of the outer sequence, a position among its candidates, and whether it matched. -/
structure JoinSpot where
  outer : Nat
  inner : Nat := 0
  matched : Bool := false
  deriving DecidableEq, Repr

def joinedFrom (outerRow : Outer) (inner : Nat) (isMatched : Bool) : List Row :=
  let pairs := (((plan.candidateRows outerRow).drop inner).filter (passesJoinPredicates plan.preds outerRow)).map
    fun innerRow => plan.combine (some outerRow) (some innerRow)
  if plan.joinType = .leftOuter ∧ pairs.isEmpty ∧ isMatched = false then [plan.combine (some outerRow) none] else pairs

def joinLeft (spot : JoinSpot) : List Row :=
  match outer.rows[spot.outer]? with
  | none => []
  | some outerRow =>
    joinedFrom plan outerRow spot.inner spot.matched ++ (outer.rows.drop (spot.outer + 1)).flatMap (joined plan)

variable {plan outer} {outerRow : Outer} {inner : Nat} {isMatched : Bool}

private theorem joinedFrom_start : joinedFrom plan outerRow 0 false = joined plan outerRow := by
  rw [joinedFrom, List.drop_zero, plan.candidateRows_passes]
  simp [joined]

variable {innerRow : Inner} {spot : JoinSpot}

theorem joinedFrom_pass (here : (plan.candidateRows outerRow)[inner]? = some innerRow)
    (passes : passesJoinPredicates plan.preds outerRow innerRow = true) :
    joinedFrom plan outerRow inner isMatched =
      plan.combine (some outerRow) (some innerRow) :: joinedFrom plan outerRow (inner + 1) true := by
  obtain ⟨inside, isRow⟩ := List.getElem?_eq_some_iff.mp here
  simp [joinedFrom, List.drop_eq_getElem_cons inside, isRow, passes]

theorem joinedFrom_skip (here : (plan.candidateRows outerRow)[inner]? = some innerRow)
    (fails : passesJoinPredicates plan.preds outerRow innerRow = false) :
    joinedFrom plan outerRow inner isMatched = joinedFrom plan outerRow (inner + 1) isMatched := by
  obtain ⟨inside, isRow⟩ := List.getElem?_eq_some_iff.mp here
  simp [joinedFrom, List.drop_eq_getElem_cons inside, isRow, fails]

theorem joinedFrom_end :
    joinedFrom plan outerRow (plan.candidateRows outerRow).length isMatched =
      if plan.joinType = .leftOuter ∧ isMatched = false then [plan.combine (some outerRow) none] else [] := by
  simp [joinedFrom]

/-- From the start of an outer row on, the join of the outer rows left remains. -/
theorem joinLeft_start (i : Nat) : joinLeft plan outer { outer := i } = (outer.rows.drop i).flatMap (joined plan) := by
  unfold joinLeft
  dsimp only
  cases here : outer.rows[i]? with
  | none => rw [List.drop_eq_nil_of_le (List.getElem?_eq_none_iff.mp here), List.flatMap_nil]
  | some row =>
    obtain ⟨inside, isRow⟩ := List.getElem?_eq_some_iff.mp here
    rw [List.drop_eq_getElem_cons inside, List.flatMap_cons, isRow]
    dsimp only
    rw [joinedFrom_start]

theorem joinLeft_inside (here : outer.rows[spot.outer]? = some outerRow) :
    joinLeft plan outer spot =
      joinedFrom plan outerRow spot.inner spot.matched ++ joinLeft plan outer { outer := spot.outer + 1 } := by
  rw [joinLeft_start, joinLeft, here]

theorem joinLeft_end (atEnd : outer.rows.length ≤ spot.outer) : joinLeft plan outer spot = [] := by
  simp only [joinLeft, List.getElem?_eq_none atEnd]

/-! ## Positions -/

variable (plan outer)

/-- A saved primary key is that of the candidate before the position, or there is none. -/
def SavedKey (outerRow : Outer) (inner : Nat) (pk : Option Bytes) : Prop :=
  pk.getD [] = [] ∨ (0 < inner ∧ pk = (plan.candidateRows outerRow)[inner - 1]?.bind plan.innerPrimaryKey)

variable {plan} in
theorem SavedKey.written {pk : Option Bytes} (saved : SavedKey plan outerRow inner pk) :
    SavedKey plan outerRow inner (some (pk.getD [])) := by
  cases saved with
  | inl none => exact .inl none
  | inr found =>
    cases pk with
    | none => exact .inl rfl
    | some key => exact .inr found

/-- A saved position belongs to the outer row of the spot. -/
structure PendingJoin (spot : JoinSpot) (outerRow : Outer) (state : NljResumeState) : Prop where
  here : outer.rows[spot.outer]? = some outerRow
  inside : spot.inner ≤ (plan.candidateRows outerRow).length
  isInner : state.innerIdx = spot.inner
  isMatched : state.outerMatched = spot.matched
  isCheck : state.check = plan.outerPrimaryKey outerRow
  isSaved : SavedKey plan outerRow spot.inner state.innerPK

def PendingAtJoin (spot : JoinSpot) : Option NljResumeState → Prop
  | none => spot = { outer := spot.outer }
  | some state => ∃ outerRow, PendingJoin plan outer spot outerRow state

structure JoinWritten (spot : JoinSpot) (w : NljContinuation) : Prop where
  notFull : w.fullOuter = false
  inside : spot.outer ≤ outer.rows.length
  last : Remembers outer spot.outer w.outerCont
  unchecked : w.hasInner = false → w.checkValue = none
  fits : w.innerIdx < 2 ^ 63
  pending : PendingAtJoin plan outer spot (if w.hasInner then some w.state else none)

def JoinAt (spot : JoinSpot) : RecordCursorContinuation → Prop
  | .start => spot = { outer := 0 }
  | .bytes data => ∃ w : NljContinuation, w.toBytes = .ok data ∧ JoinWritten plan outer spot w
  | .end_ => outer.rows.length ≤ spot.outer

/-- No outer row is open; the next is that of the spot. -/
structure BetweenRows (calm : Prop) (plan : NljPlan Outer Inner Row) (outer : Source Outer) (spot : JoinSpot)
    (c : NljCursor Outer Inner Row) : Prop where
  isPlan : c.plan = plan
  isIndex : c.hashIndex = plan.tryBuildHashIndex
  stands : OpenAt calm outer spot.outer c.outerInner
  noOuter : c.currentOuter = none
  last : Remembers outer spot.outer c.lastOuterCont
  pending : PendingAtJoin plan outer spot c.resume
  going : c.outerExhausted = false
  fresh : c.lastNoNext = none

structure Probed (outerRow : Outer) (c : NljCursor Outer Inner Row) : Prop where
  count : c.innerCandidateCount = (plan.candidates outerRow).length
  index : ∀ position i, (plan.candidates outerRow)[position]? = some i → c.innerCandidateIndex position = i

structure InsideRow (calm : Prop) (plan : NljPlan Outer Inner Row) (outer : Source Outer) (spot : JoinSpot)
    (outerRow : Outer) (c : NljCursor Outer Inner Row) : Prop where
  rest : BetweenRows calm plan outer { outer := spot.outer + 1 } { c with currentOuter := none }
  current : c.currentOuter = some outerRow
  here : outer.rows[spot.outer]? = some outerRow
  probed : Probed plan outerRow c
  isInner : c.innerIdx = spot.inner
  inside : spot.inner ≤ (plan.candidateRows outerRow).length
  isMatched : c.outerMatched = spot.matched
  prior : Remembers outer spot.outer c.priorOuterCont

def JoinInv (calm : Prop) (plan : NljPlan Outer Inner Row) (outer : Source Outer) (spot : JoinSpot)
    (c : NljCursor Outer Inner Row) : Prop :=
  BetweenRows calm plan outer spot c ∨ ∃ outerRow, InsideRow calm plan outer spot outerRow c

end Join

end FdbGo.Executor
