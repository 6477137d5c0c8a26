import FdbGo.Executor.NestedLoopJoinPositions

/-! The nested loop join in pages: whatever stops the outer cursor, the pages together are
the plain nested loops, with or without a hash index. -/

set_option autoImplicit false

namespace FdbGo.Executor

open Client RecordLayer

variable {Outer Inner Row : Type} {plan : NljPlan Outer Inner Row} {outer : Source Outer} {calm : Prop}
  {spot : JoinSpot} {outerRow : Outer} {c : NljCursor Outer Inner Row}

/-! ## Candidates of an outer row -/

theorem Probed.candidate (probed : Probed plan outerRow c) (isPlan : c.plan = plan) {position : Nat} {innerRow : Inner}
    (here : (plan.candidateRows outerRow)[position]? = some innerRow) :
    c.plan.innerRows[c.innerCandidateIndex position]? = some innerRow := by
  rw [plan.candidateRows_get] at here
  obtain ⟨i, isCandidate, isRow⟩ := Option.bind_eq_some_iff.mp here
  rw [probed.index position i isCandidate, isPlan]
  exact isRow

theorem Probed.primaryKey (probed : Probed plan outerRow c) (isPlan : c.plan = plan) (position : Nat) :
    c.candidatePrimaryKey position = (plan.candidateRows outerRow)[position]?.bind plan.innerPrimaryKey := by
  unfold NljCursor.candidatePrimaryKey
  rw [probed.count, ← plan.candidateRows_length]
  by_cases inside : position < (plan.candidateRows outerRow).length
  · have here := List.getElem?_eq_getElem inside
    rw [if_pos inside, probed.candidate isPlan here, here, isPlan]
  · rw [if_neg inside, List.getElem?_eq_none (Nat.not_lt.mp inside)]
    rfl

theorem PendingJoin.reposition {state : NljResumeState} (pending : PendingJoin plan outer spot outerRow state)
    (probed : Probed plan outerRow c) (isPlan : c.plan = plan) :
    c.repositionInner state.innerIdx state.innerPK = spot.inner := by
  rw [pending.isInner, NljCursor.repositionInner]
  cases pending.isSaved with
  | inl none => rw [none, List.isEmpty_nil, Bool.true_or, if_pos rfl]
  | inr saved =>
    split
    case isTrue => rfl
    case isFalse => rw [if_pos ((probed.primaryKey isPlan _).trans saved.2.symm)]

theorem probe_spec (isPlan : c.plan = plan) (isIndex : c.hashIndex = plan.tryBuildHashIndex) (outerRow : Outer) :
    ∃ indices count,
      c.probe outerRow = { c with innerCandidateIndices := indices, innerCandidateCount := count } ∧
        Probed plan outerRow { c with innerCandidateIndices := indices, innerCandidateCount := count } := by
  unfold NljCursor.probe
  rw [isIndex]
  cases index : plan.tryBuildHashIndex with
  | none =>
    have all : plan.candidates outerRow = List.range plan.innerRows.length := by rw [NljPlan.candidates, index]
    refine ⟨none, _, rfl, by rw [all, List.length_range, ← isPlan], fun position i here => ?_⟩
    rw [all] at here
    obtain ⟨-, rfl⟩ := List.getElem?_eq_some_iff.mp here
    exact (List.getElem_range _).symm
  | some found =>
    obtain ⟨hashIndex, hashOuterVal⟩ := found
    have bucket : plan.candidates outerRow = hashIndex (plan.hashKey (hashOuterVal outerRow)) := by
      rw [NljPlan.candidates, index]
    refine ⟨some _, _, rfl, by rw [bucket, ← isPlan], fun position i here => ?_⟩
    rw [bucket, ← isPlan] at here
    show List.getD _ position 0 = i
    rw [List.getD_eq_getElem?_getD, here]
    rfl

theorem inner_fits {inner : Nat} (inside : inner ≤ (plan.candidateRows outerRow).length) : inner < 2 ^ 63 :=
  (inside.trans (plan.candidateRows_length_le outerRow)).trans_lt plan.fits

/-- What a scan finds: the next pair, or none. -/
inductive Scanned (plan : NljPlan Outer Inner Row) (outerRow : Outer) (c : NljCursor Outer Inner Row) (isMatched : Bool) :
    Option Inner × NljCursor Outer Inner Row → Prop
  | pair {innerRow : Inner} {inner : Nat} {matchedInner : List Bool}
      (inside : inner ≤ (plan.candidateRows outerRow).length)
      (rows : joinedFrom plan outerRow c.innerIdx isMatched =
        plan.combine (some outerRow) (some innerRow) :: joinedFrom plan outerRow inner true) :
      Scanned plan outerRow c isMatched
        (some innerRow, { c with innerIdx := inner, outerMatched := true, matchedInner })
  | done {inner : Nat}
      (rows : joinedFrom plan outerRow c.innerIdx isMatched =
        if plan.joinType = .leftOuter ∧ isMatched = false then [plan.combine (some outerRow) none] else []) :
      Scanned plan outerRow c isMatched (none, { c with innerIdx := inner })

theorem scan_spec (isPlan : c.plan = plan) (probed : Probed plan outerRow c) (isMatched : Bool) {candidates : Nat}
    (rest : c.innerIdx + candidates = (plan.candidateRows outerRow).length) :
    ∃ found, NljCursor.scan outerRow candidates c = .ok found ∧ Scanned plan outerRow c isMatched found := by
  induction candidates generalizing c with
  | zero =>
    refine ⟨_, rfl, .done ?_⟩
    rw [← joinedFrom_end, ← rest]
    rfl
  | succ candidates ih =>
    have inside : c.innerIdx < (plan.candidateRows outerRow).length := by omega
    have here := List.getElem?_eq_getElem inside
    have found := probed.candidate isPlan here
    rw [NljCursor.scan]
    dsimp only
    rw [found]
    dsimp only
    cases passes : passesJoinPredicates plan.preds outerRow (plan.candidateRows outerRow)[c.innerIdx] with
    | true => exact ⟨_, if_pos (isPlan ▸ passes), .pair inside (joinedFrom_pass here passes)⟩
    | false =>
      have fails : ¬ passesJoinPredicates c.plan.preds outerRow (plan.candidateRows outerRow)[c.innerIdx] = true := by
        rw [isPlan, passes]
        exact Bool.false_ne_true
      have skipped : joinedFrom plan outerRow c.innerIdx isMatched =
          joinedFrom plan outerRow (c.innerIdx + 1) isMatched := joinedFrom_skip here passes
      obtain ⟨result, scanned, outcome⟩ := ih (c := { c with innerIdx := c.innerIdx + 1 }) isPlan
        ⟨probed.count, probed.index⟩ (by show c.innerIdx + 1 + candidates = _; omega)
      refine ⟨result, (if_neg fails).trans scanned, ?_⟩
      cases outcome with
      | pair inside' rows => exact .pair inside' (skipped.trans rows)
      | done rows => exact .done (skipped.trans rows)

/-! ## One call -/

def joinRemainder (plan : NljPlan Outer Inner Row) (outer : Source Outer) : Remainder JoinSpot Row NljError where
  left := joinLeft plan outer
  fate := none

def JoinOutcome (calm : Prop) (plan : NljPlan Outer Inner Row) (outer : Source Outer) (rows : List Row)
    (run : Except NljError (RecordCursorResult Row × NljCursor Outer Inner Row)) : Prop :=
  CallOutcome (joinRemainder plan outer) (fun spot c (_ : Unit) => JoinInv calm plan outer spot c)
    (fun spot continuation _ => JoinAt plan outer spot continuation) calm rows
    (run.map fun found => (found.1, found.2, ()))

variable {again : NljCursor Outer Inner Row → Except NljError (RecordCursorResult Row × NljCursor Outer Inner Row)}
    {w : NljContinuation}

private theorem joinOutcome_emit {row : Row} (written : JoinWritten plan outer spot w) (inv : JoinInv calm plan outer spot c) :
    JoinOutcome calm plan outer (row :: joinLeft plan outer spot) (c.emit row w) := by
  obtain ⟨data, isData⟩ := w.toBytes_ok
  have emitted : c.emit row w = .ok (.next row (.bytes data), c) := by
    rw [NljCursor.emit, isData]
    rfl
  rw [emitted]
  exact ⟨spot, ⟨w, isData, written⟩, inv, rfl⟩

private theorem joinOutcome_stop {reason : NoNextReason} (written : JoinWritten plan outer spot w) (restless : ¬ calm)
    (isLimit : reason.isLimitReached = true) :
    JoinOutcome calm plan outer (joinLeft plan outer spot) (c.stop reason w) := by
  obtain ⟨data, isData⟩ := w.toBytes_ok
  have stopped : c.stop reason w =
      .ok (.noNext reason (.bytes data), { c with lastNoNext := some (.noNext reason (.bytes data)) }) := by
    rw [NljCursor.stop, isData]
    simp only [bind, Except.bind]
    rw [newResultNoNext_ok (by rw [isLimit]; rfl)]
    rfl
  rw [stopped]
  exact ⟨spot, ⟨w, isData, written⟩, rfl, fun isCalm => absurd isCalm restless⟩

section

variable (notFull : plan.joinType ≠ .fullOuter)

include notFull

theorem InsideRow.written (inside : InsideRow calm plan outer spot outerRow c) :
    JoinWritten plan outer spot c.midInnerContinuation := by
  have isPlan : c.plan = plan := inside.rest.isPlan
  have outerInside := (List.getElem?_eq_some_iff.mp inside.here).1
  rw [NljCursor.midInnerContinuation, isPlan, if_neg notFull]
  refine
    { notFull := rfl, inside := outerInside.le, last := inside.prior, unchecked := nofun
      fits := inside.isInner.trans_lt (inner_fits inside.inside)
      pending := ⟨outerRow, inside.here, inside.inside, inside.isInner, inside.isMatched, ?_, ?_⟩ }
  · rw [NljContinuation.state, inside.current]
    rfl
  · rw [NljContinuation.state, inside.isInner]
    refine SavedKey.written ?_
    by_cases start : spot.inner = 0
    · rw [if_pos start]
      exact .inl rfl
    · rw [if_neg start, inside.probed.primaryKey isPlan]
      exact .inr ⟨Nat.pos_of_ne_zero start, rfl⟩

omit notFull in
/-- A row that is done: the next outer row follows. -/
theorem InsideRow.leave (inside : InsideRow calm plan outer spot outerRow c) (inner : Nat) :
    BetweenRows calm plan outer { outer := spot.outer + 1 } { c with innerIdx := inner, currentOuter := none } :=
  { inside.rest with }

variable (goesOn : ∀ c', BetweenRows calm plan outer { outer := spot.outer + 1 } c' →
  JoinOutcome calm plan outer (joinLeft plan outer { outer := spot.outer + 1 }) (again c'))

include goesOn in
theorem InsideRow.advanceInner (inside : InsideRow calm plan outer spot outerRow c) :
    JoinOutcome calm plan outer (joinLeft plan outer spot) (c.advanceInner outerRow again) := by
  have isPlan : c.plan = plan := inside.rest.isPlan
  have rest : c.innerIdx + (c.innerCandidateCount - c.innerIdx) = (plan.candidateRows outerRow).length := by
    have within := inside.inside
    rw [inside.probed.count, ← plan.candidateRows_length, inside.isInner]
    omega
  obtain ⟨found, scanned, outcome⟩ := scan_spec isPlan inside.probed spot.matched rest
  subst isPlan
  rw [NljCursor.advanceInner, scanned, joinLeft_inside inside.here, ← inside.isInner]
  cases outcome with
  | @pair innerRow inner matchedInner within rows =>
    have next : InsideRow calm c.plan outer ⟨spot.outer, inner, true⟩ outerRow
        { c with innerIdx := inner, outerMatched := true, matchedInner } :=
      { inside with
        rest := { inside.rest with }
        probed := ⟨inside.probed.count, inside.probed.index⟩, isInner := rfl, inside := within, isMatched := rfl }
    have left : joinLeft c.plan outer ⟨spot.outer, inner, true⟩ =
        joinedFrom c.plan outerRow inner true ++ joinLeft c.plan outer { outer := spot.outer + 1 } :=
      joinLeft_inside next.here
    rw [rows, List.cons_append, ← left]
    exact joinOutcome_emit (next.written notFull) (.inr ⟨outerRow, next⟩)
  | @done inner rows =>
    have next := inside.leave inner
    have written : JoinWritten c.plan outer { outer := spot.outer + 1 } { outerCont := c.lastOuterCont } :=
      { notFull := rfl, inside := next.stands.inside, last := next.last, unchecked := fun _ => rfl
        fits := Nat.two_pow_pos 63, pending := rfl }
    rw [rows]
    simp only [bind, Except.bind]
    by_cases padded : c.plan.joinType = .leftOuter ∧ spot.matched = false
    · have pads : (!c.outerMatched && decide (c.plan.joinType = .leftOuter ∨ c.plan.joinType = .fullOuter)) = true := by
        rw [inside.isMatched, padded.2, padded.1]
        rfl
      rw [if_pos padded, if_pos pads, if_neg notFull, List.singleton_append]
      exact joinOutcome_emit written (.inl next)
    · have goes : ¬ (!c.outerMatched && decide (c.plan.joinType = .leftOuter ∨ c.plan.joinType = .fullOuter)) = true := by
        intro pads
        rw [Bool.and_eq_true, decide_eq_true_eq, inside.isMatched] at pads
        exact padded ⟨pads.2.resolve_right notFull, by simpa using pads.1⟩
      rw [if_neg padded, if_neg goes, List.nil_append]
      exact goesOn _ next

omit notFull in
theorem BetweenRows.enter {mark : Bytes} {outerInner : ChildCursor Outer} (between : BetweenRows calm plan outer spot c)
    (here : outer.rows[spot.outer]? = some outerRow) (resumes : outer.resume (.bytes mark) = some (spot.outer + 1))
    (next : OpenAt calm outer (spot.outer + 1) outerInner) :
    InsideRow calm plan outer spot outerRow ({ c with outerInner }.enter outerRow (.bytes mark)) := by
  obtain ⟨indices, count, isView, probed⟩ := probe_spec (c := { c with
    outerInner, priorOuterCont := c.lastOuterCont, lastOuterCont := some (.bytes mark)
    currentOuter := some outerRow, innerIdx := 0, outerMatched := false }) between.isPlan between.isIndex outerRow
  have last := remembers_of_resume resumes
  have pending := between.pending
  unfold NljCursor.enter
  dsimp only
  rw [isView]
  unfold NljCursor.takeResume
  dsimp only
  cases isState : c.resume with
  | none =>
    rw [isState] at pending
    have fresh : spot = { outer := spot.outer } := pending
    rw [fresh]
    exact
      { rest := ⟨between.isPlan, between.isIndex, next, rfl, last, rfl, between.going, between.fresh⟩
        current := rfl, here, probed := ⟨probed.count, probed.index⟩, isInner := rfl, inside := Nat.zero_le _
        isMatched := rfl, prior := between.last }
  | some state =>
    rw [isState] at pending
    obtain ⟨row, saved⟩ := pending
    obtain rfl := Option.some.inj (here.symm.trans saved.here)
    have found := saved.reposition probed between.isPlan
    have same : ¬ (!(state.check.getD []).isEmpty && (c.plan.outerPrimaryKey outerRow).isSome &&
        c.plan.outerPrimaryKey outerRow != state.check) = true := by
      rw [between.isPlan, saved.isCheck]
      simp
    dsimp only
    rw [if_neg same]
    exact
      { rest := ⟨between.isPlan, between.isIndex, next, rfl, last, rfl, between.going, between.fresh⟩
        current := rfl, here, probed := ⟨probed.count, probed.index⟩, isInner := found, inside := saved.inside
        isMatched := saved.isMatched, prior := between.last }

theorem BetweenRows.written {outerCont : RecordCursorContinuation}
    (between : BetweenRows calm plan outer spot c) (resumes : outer.resume outerCont = some spot.outer) :
    JoinWritten plan outer spot (c.outerStopContinuation outerCont) := by
  have last := remembers_of_resume resumes
  have pending := between.pending
  rw [NljCursor.outerStopContinuation, between.isPlan, if_neg notFull]
  cases isState : c.resume with
  | none =>
    rw [isState] at pending
    exact
      { notFull := rfl, inside := between.stands.inside, last, unchecked := fun _ => rfl
        fits := Nat.two_pow_pos 63, pending }
  | some state =>
    rw [isState] at pending
    obtain ⟨row, saved⟩ := pending
    refine
      { notFull := rfl, inside := between.stands.inside, last, unchecked := nofun
        fits := saved.isInner.trans_lt (inner_fits saved.inside)
        pending := ⟨row, saved.here, saved.inside, saved.isInner, saved.isMatched, saved.isCheck, ?_⟩ }
    exact saved.isSaved.written

include goesOn in
theorem BetweenRows.advanceOuter (between : BetweenRows calm plan outer spot c)
    (ends : ∀ outerInner, spot.outer = outer.rows.length →
      ∃ c', again { c with outerInner, outerExhausted := true } = .ok (.noNext .sourceExhausted .end_, c')) :
    JoinOutcome calm plan outer (joinLeft plan outer spot) (c.advanceOuter again) := by
  have going : ¬ c.outerExhausted = true := by simp [between.going]
  rw [NljCursor.advanceOuter, if_neg going]
  cases pulled : c.outerInner.onNext with
  | mk result outerInner =>
    have outcome := between.stands.onNext
    rw [pulled] at outcome
    cases outcome with
    | row here resumes next =>
      exact (between.enter here resumes next).advanceInner notFull goesOn
    | exhausted atEnd =>
      obtain ⟨c', ended⟩ := ends outerInner atEnd
      dsimp only
      rw [if_pos (show NoNextReason.sourceExhausted.isSourceExhausted = true from rfl), ended]
      exact ⟨spot, Nat.le_of_eq atEnd.symm, rfl, fun _ => rfl⟩
    | @stopped reason continuation _ restless isLimit resumes =>
      have written := between.written notFull resumes
      dsimp only
      rw [if_neg (NoNextReason.not_exhausted isLimit)]
      exact joinOutcome_stop written restless isLimit

theorem JoinInv.rounds {fuel : Nat} (inv : JoinInv calm plan outer spot c)
    (enough : outer.rows.length + 2 ≤ spot.outer + fuel) :
    JoinOutcome calm plan outer (joinLeft plan outer spot) (NljCursor.rounds fuel c) := by
  induction fuel generalizing spot c with
  | zero =>
    cases inv with
    | inl between =>
      have within := between.stands.inside
      omega
    | inr open_ =>
      obtain ⟨row, inside⟩ := open_
      have within := (List.getElem?_eq_some_iff.mp inside.here).1
      omega
  | succ fuel ih =>
    cases inv with
    | inr open_ =>
      obtain ⟨row, inside⟩ := open_
      rw [NljCursor.rounds, inside.current]
      exact inside.advanceInner notFull fun c' next => ih (.inl next) (by show _ ≤ spot.outer + 1 + fuel; omega)
    | inl between =>
      rw [NljCursor.rounds, between.noOuter]
      refine between.advanceOuter notFull
        (fun c' next => ih (.inl next) (by show _ ≤ spot.outer + 1 + fuel; omega)) fun outerInner atEnd => ?_
      -- Only a round without outer rows is left, which has no rows to drain.
      obtain ⟨less, rfl⟩ : ∃ less, fuel = less + 1 := ⟨fuel - 1, by omega⟩
      refine ⟨{ c with outerInner, outerExhausted := true }, ?_⟩
      rw [NljCursor.rounds]
      dsimp only
      rw [between.noOuter, NljCursor.advanceOuter]
      dsimp only
      rw [if_pos rfl, between.isPlan, if_neg notFull]
      rfl

omit notFull in
theorem JoinInv.fresh (inv : JoinInv calm plan outer spot c) : c.lastNoNext = none ∧ c.outerInner.source = outer := by
  cases inv with
  | inl between => exact ⟨between.fresh, between.stands.reads⟩
  | inr open_ =>
    obtain ⟨row, inside⟩ := open_
    exact ⟨inside.rest.fresh, inside.rest.stands.reads⟩

theorem JoinInv.onNext (inv : JoinInv calm plan outer spot c) :
    JoinOutcome calm plan outer (joinLeft plan outer spot) c.onNext := by
  rw [NljCursor.onNext, inv.fresh.1]
  dsimp only
  rw [inv.fresh.2]
  exact inv.rounds notFull (by omega)

/-! ## Pages -/

/-- One page: how many rows are read at most, and what the outer cursor does at each pull. -/
structure NljPage where
  limit : Nat
  outer : Schedule

def nestedLoopJoinStatement (plan : NljPlan Outer Inner Row) (outer : Source Outer) :
    StatementCursor (NljCursor Outer Inner Row) Unit NljPage Row NljError :=
  .unshared NljCursor.onNext (fun page => executeNestedLoopJoin plan (openChild outer page.outer)) NljPage.limit

def nestedLoopJoinPages (plan : NljPlan Outer Inner Row) (outer : Source Outer) (pages : List NljPage) :
    List Row × Except NljError (RecordCursorContinuation × Unit) :=
  (nestedLoopJoinStatement plan outer).readPages pages .start ()

/-- Only a stop of the outer cursor before its first row has no position to resume. -/
def JoinRefused (spot : JoinSpot) (error : NljError) : Prop :=
  spot = { outer := 0 } ∧ ∃ shape, error = .unsupportedContinuation shape

variable {page : NljPage}

omit notFull in
theorem between_opened (legal : outer.Follows page.outer) {outerBytes : Option Bytes} {resume : Option NljResumeState}
    {matchedInner : List Bool} (opens : outer.openedAt outerBytes = spot.outer)
    (inside : spot.outer ≤ outer.rows.length) (pending : PendingAtJoin plan outer spot resume) :
    BetweenRows (Delivers page.outer) plan outer spot
      { plan
        outerInner := openChild outer page.outer outerBytes
        hashIndex := plan.tryBuildHashIndex
        matchedInner
        lastOuterCont := if (outerBytes.getD []).isEmpty then none else outerBytes.map .bytes
        resume } where
  isPlan := rfl
  isIndex := rfl
  stands := openAt_opened legal id opens inside
  noOuter := rfl
  last := by
    cases outerBytes with
    | none => exact opens
    | some b =>
      cases b with
      | nil => exact opens
      | cons byte bytes => exact opens
  pending := pending
  going := rfl
  fresh := rfl

theorem execute_eq (outerPlan : CursorFunction Outer) (continuation : Option Bytes) :
    executeNestedLoopJoin plan outerPlan continuation =
      (decodeNLJContinuation continuation).map fun found =>
        { plan
          outerInner := outerPlan found.1
          hashIndex := plan.tryBuildHashIndex
          matchedInner := []
          lastOuterCont := if (found.1.getD []).isEmpty then none else found.1.map .bytes
          resume := found.2 } := by
  rw [executeNestedLoopJoin, if_neg fun full => notFull full.1, if_neg notFull]
  cases decodeNLJContinuation continuation <;> rfl

theorem join_opened {continuation : RecordCursorContinuation} (legal : outer.Follows page.outer)
    (stands : JoinAt plan outer spot continuation) (notEnd : continuation.isEnd = false) :
    OpenOutcome
      (fun c (_ : Unit) => JoinInv (Delivers page.outer) plan outer spot c ∧ JoinAt plan outer spot continuation)
      (JoinRefused spot)
      ((nestedLoopJoinStatement plan outer).openPage page continuation.toBytes ()) := by
  show OpenOutcome _ _ ((executeNestedLoopJoin plan (openChild outer page.outer) continuation.toBytes).map _)
  rw [execute_eq notFull]
  cases continuation with
  | end_ => cases notEnd
  | start =>
    obtain rfl : spot = { outer := 0 } := stands
    exact ⟨.inl (between_opened legal rfl (Nat.zero_le _) rfl), rfl⟩
  | bytes data =>
    obtain ⟨w, isData, written⟩ := stands
    have pending := written.pending
    rw [RecordCursorContinuation.toBytes, decode_toBytes isData written.notFull written.fits written.unchecked]
    cases inner : w.hasInner with
    | true =>
      rw [inner, if_pos rfl] at pending
      rw [if_pos rfl]
      exact ⟨.inl (between_opened legal written.last written.inside pending), w, isData, written⟩
    | false =>
      rw [inner, if_neg Bool.false_ne_true] at pending
      rw [if_neg Bool.false_ne_true]
      cases empty : ((FlatMapCursor.positionBytes w.outerCont).getD []).isEmpty with
      | false =>
        rw [if_neg Bool.false_ne_true]
        exact ⟨.inl (between_opened legal written.last written.inside pending), w, isData, written⟩
      | true =>
        have start : spot.outer = 0 := by
          rw [← written.last]
          cases bytes : FlatMapCursor.positionBytes w.outerCont with
          | none => rfl
          | some b =>
            rw [bytes] at empty
            have isNil : b = [] := List.isEmpty_iff.mp empty
            rw [isNil]
            rfl
        have fresh : spot = { outer := spot.outer } := pending
        rw [if_pos rfl]
        exact ⟨start ▸ fresh, _, rfl⟩

private theorem nestedLoopJoin_pageable (outer : Source Outer) :
    StatementPageable (nestedLoopJoinStatement plan outer) (fun page => outer.Follows page.outer)
      (fun page => Delivers page.outer) (fun page spot c _ => JoinInv (Delivers page.outer) plan outer spot c)
      (fun spot continuation _ => JoinAt plan outer spot continuation) (joinRemainder plan outer) JoinRefused where
  opened legal stands notEnd := join_opened notFull legal stands notEnd
  ended := by
    intro spot _ stands
    exact ⟨joinLeft_end stands, rfl⟩
  next inv := inv.onNext notFull

end

end FdbGo.Executor
