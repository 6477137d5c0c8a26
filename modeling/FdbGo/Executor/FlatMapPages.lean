import FdbGo.Executor.FlatMapCursor
import FdbGo.RecordLayer.ChildCursor

/-! The flat map in pages: whatever stops the outer cursor and the inner cursors, the pages
together are the flattened sequence. -/

set_option autoImplicit false

namespace FdbGo.Executor

open Client RecordLayer

variable {Outer Inner Row : Type}

/-- One page: how many rows are read at most, and what the outer cursor and each inner
cursor do at each pull. -/
structure FlatMapPage (Outer : Type) where
  limit : Nat
  outer : Schedule
  inner : Nat → Outer → Schedule

namespace FlatMapPage

def Legal (outer : Source Outer) (inner : Outer → Source Inner) (page : FlatMapPage Outer) : Prop :=
  outer.Follows page.outer ∧ ∀ n, ∀ row ∈ outer.rows, (inner row).Follows (page.inner n row)

def Calm (page : FlatMapPage Outer) : Prop :=
  Delivers page.outer ∧ ∀ n row, Delivers (page.inner n row)

end FlatMapPage

section Pages

variable {calm : Prop} (plan : FlatMapPlan Outer Inner Row) (outer : Source Outer) (inner : Outer → Source Inner)

def flatMapRows (row : Outer) : List Row := (inner row).rows.map (plan.computeResult row)

def flattened : List Row := outer.rows.flatMap (flatMapRows plan inner)

def rowsFrom (spot : Nat × Nat) : List Row :=
  match outer.rows[spot.1]? with
  | none => []
  | some row =>
    ((inner row).rows.drop spot.2).map (plan.computeResult row) ++
      (outer.rows.drop (spot.1 + 1)).flatMap (flatMapRows plan inner)

/-- From the start of an outer row on, the rows are those of the outer rows left. -/
theorem rowsFrom_start (i : Nat) :
    rowsFrom plan outer inner (i, 0) = (outer.rows.drop i).flatMap (flatMapRows plan inner) := by
  unfold rowsFrom
  dsimp only
  cases here : outer.rows[i]? with
  | none => rw [List.drop_eq_nil_of_le (List.getElem?_eq_none_iff.mp here), List.flatMap_nil]
  | some row =>
    obtain ⟨inside, isRow⟩ := List.getElem?_eq_some_iff.mp here
    rw [List.drop_eq_getElem_cons inside, List.flatMap_cons, isRow]
    rfl

variable {plan outer inner}

variable {i : Nat} {row : Outer} {innerCursor : ChildCursor Inner}

private theorem rowsFrom_done (here : outer.rows[i]? = some row) :
    rowsFrom plan outer inner (i, (inner row).rows.length) = rowsFrom plan outer inner (i + 1, 0) := by
  rw [rowsFrom_start, rowsFrom]
  simp only [here, List.drop_length, List.map_nil, List.nil_append]

variable {next : ChildCursor Inner} {page : FlatMapPage Outer} {reason : NoNextReason} {value : Inner} {j : Nat}

private theorem rowsFrom_next (here : outer.rows[i]? = some row) (isValue : (inner row).rows[j]? = some value) :
    rowsFrom plan outer inner (i, j) = plan.computeResult row value :: rowsFrom plan outer inner (i, j + 1) := by
  obtain ⟨inside, found⟩ := List.getElem?_eq_some_iff.mp isValue
  simp only [rowsFrom, here]
  rw [List.drop_eq_getElem_cons inside, found, List.map_cons, List.cons_append]

/-! ## Positions -/

variable (calm plan outer inner)

/-- A saved inner position and check belong to the outer row of the spot. -/
def PendingAt (spot : Nat × Nat) (innerCont check : Option Bytes) : Prop :=
  match innerCont with
  | none => spot.2 = 0
  | some b =>
    ∃ row, outer.rows[spot.1]? = some row ∧ spot.2 ≤ (inner row).rows.length ∧
      (inner row).openedAt (some b) = spot.2 ∧ check = plan.primaryKey row

structure MessageAt (spot : Nat × Nat) (message : FlatMapContinuation) : Prop where
  inside : spot.1 ≤ outer.rows.length
  opens : outer.openedAt message.outerContinuation = spot.1
  pending : PendingAt plan outer inner spot message.innerContinuation message.checkValue

def FlatMapAt (spot : Nat × Nat) : RecordCursorContinuation → Prop
  | .start => spot = (0, 0)
  | .bytes data => ∃ message : FlatMapContinuation, data = message.marshal ∧ MessageAt plan outer inner spot message
  | .end_ => spot.1 = outer.rows.length

def Remembers (i : Nat) (continuation : Option RecordCursorContinuation) : Prop :=
  outer.openedAt (FlatMapCursor.positionBytes continuation) = i

/-- No inner cursor is open; the next outer row is that of the spot. -/
structure Between (spot : Nat × Nat) (c : FlatMapCursor Outer Inner Row) : Prop where
  isPlan : c.plan = plan
  opens : ∀ n row bytes position, row ∈ outer.rows → (inner row).openedAt bytes = position →
    position ≤ (inner row).rows.length → OpenAt calm (inner row) position (c.innerPlan n row bytes)
  stands : OpenAt calm outer spot.1 c.outerCursor
  noInner : c.innerCursor = none
  last : Remembers outer spot.1 c.lastOuterContinuation
  hasPending : c.hasPendingInner = c.initialInnerCont.isSome
  pending : PendingAt plan outer inner spot c.initialInnerCont c.pendingCheckValue
  going : c.outerExhausted = false
  fresh : c.lastNoNext = none

/-- The inner cursor of the spot's outer row is open; once it is exhausted, the next outer
row follows. -/
structure Inside (spot : Nat × Nat) (row : Outer) (innerCursor : ChildCursor Inner)
    (c : FlatMapCursor Outer Inner Row) : Prop where
  rest : Between calm plan outer inner (spot.1 + 1, 0) { c with innerCursor := none }
  current : c.currentOuter = some row
  here : outer.rows[spot.1]? = some row
  isInner : c.innerCursor = some innerCursor
  stands : OpenAt calm (inner row) spot.2 innerCursor
  prior : Remembers outer spot.1 c.priorOuterContinuation

def Standing (spot : Nat × Nat) (c : FlatMapCursor Outer Inner Row) : Prop :=
  Between calm plan outer inner spot c ∨ ∃ row innerCursor, Inside calm plan outer inner spot row innerCursor c

def Produces (rows : List Row)
    (run : Except CursorError (RecordCursorResult Row × FlatMapCursor Outer Inner Row)) : Prop :=
  ∃ result c spot, run = .ok (result, c) ∧ FlatMapAt plan outer inner spot result.getContinuation ∧
    match result with
    | .next row _ => Standing calm plan outer inner spot c ∧ rows = row :: rowsFrom plan outer inner spot
    | .noNext _ continuation => (calm → continuation = .end_) ∧ rows = rowsFrom plan outer inner spot

/-! ## One call -/

variable {calm plan outer inner} {spot : Nat × Nat} {c : FlatMapCursor Outer Inner Row}
  {continuation innerCont : RecordCursorContinuation} {fuel : Nat}

theorem remembers_of_resume (resumes : outer.resume continuation = some i) : Remembers outer i (some continuation) := by
  rw [Remembers, FlatMapCursor.positionBytes, Source.notEnd_of_resume resumes]
  exact Source.openedAt_of_resume resumes

theorem produces_stop (consistent : continuation.isEnd = !reason.isLimitReached) (ends : calm → continuation = .end_)
    (stands : FlatMapAt plan outer inner spot continuation) :
    Produces calm plan outer inner (rowsFrom plan outer inner spot) (c.stop reason continuation) := by
  refine ⟨.noNext reason continuation, { c with lastNoNext := some (.noNext reason continuation) }, spot, ?_,
    stands, ends, rfl⟩
  rw [FlatMapCursor.stop, newResultNoNext_ok consistent]
  rfl

theorem takeInnerContinuation_spec (here : outer.rows[i]? = some row) (isPlan : c.plan = plan)
    (pending : PendingAt plan outer inner (i, j) c.initialInnerCont c.pendingCheckValue) :
    ∃ bytes check flag,
      c.takeInnerContinuation row =
        (bytes, { c with initialInnerCont := none, hasPendingInner := flag, pendingCheckValue := check }) ∧
      (inner row).openedAt bytes = j ∧ j ≤ (inner row).rows.length ∧
      (c.hasPendingInner = c.initialInnerCont.isSome → flag = false) := by
  obtain ⟨_, _, _, _, _, _, _, initial, _, check, _, _⟩ := c
  cases initial with
  | none =>
    have start : j = 0 := pending
    exact ⟨none, check, _, rfl, start.symm, start ▸ Nat.zero_le _, id⟩
  | some b =>
    obtain ⟨other, found, inside, opens, same⟩ := pending
    obtain rfl := Option.some.inj (here.symm.trans found)
    refine ⟨some b, none, false, ?_, opens, inside, fun _ => rfl⟩
    subst isPlan
    simp only at same
    simp [FlatMapCursor.takeInnerContinuation, same]

theorem Between.enter {mark : Bytes} {outerCursor : ChildCursor Outer}
    (between : Between calm plan outer inner spot c) (here : outer.rows[spot.1]? = some row)
    (resumes : outer.resume (.bytes mark) = some (spot.1 + 1)) (next : OpenAt calm outer (spot.1 + 1) outerCursor) :
    ∃ innerCursor, Inside calm plan outer inner spot row innerCursor
      ({ c with outerCursor }.enter row (.bytes mark)) := by
  obtain ⟨bytes, check, flag, taken, opens, inside, cleared⟩ := takeInnerContinuation_spec
    (c := { c with
      outerCursor, currentOuter := some row, priorOuterContinuation := c.lastOuterContinuation
      lastOuterContinuation := some (.bytes mark) }) here between.isPlan between.pending
  refine ⟨c.innerPlan outerCursor.pulls row bytes, ?_⟩
  unfold FlatMapCursor.enter
  simp only [taken]
  exact
    { rest :=
        { isPlan := between.isPlan
          opens := between.opens
          stands := next
          noInner := rfl
          last := remembers_of_resume resumes
          hasPending := cleared between.hasPending
          pending := rfl
          going := between.going
          fresh := between.fresh }
      current := rfl
      here := here
      isInner := rfl
      stands := between.opens _ row bytes spot.2 (List.mem_of_getElem? here) opens inside
      prior := between.last }

theorem Between.advanceOuter (between : Between calm plan outer inner spot c) {again : FlatMapCursor Outer Inner Row →
      Except CursorError (RecordCursorResult Row × FlatMapCursor Outer Inner Row)}
    (goesOn : ∀ row innerCursor c', Inside calm plan outer inner spot row innerCursor c' →
      Produces calm plan outer inner (rowsFrom plan outer inner spot) (again c')) :
    Produces calm plan outer inner (rowsFrom plan outer inner spot) (c.advanceOuter again) := by
  have going : ¬ c.outerExhausted = true := by simp [between.going]
  rw [FlatMapCursor.advanceOuter, if_neg going]
  cases pulled : c.outerCursor.onNext with
  | mk result outerCursor =>
    have outcome := between.stands.onNext
    rw [pulled] at outcome
    cases outcome with
    | row here resumes next =>
      obtain ⟨innerCursor, inside⟩ := between.enter here resumes next
      exact goesOn _ innerCursor _ inside
    | exhausted atEnd => exact produces_stop rfl (fun _ => rfl) atEnd
    | @stopped reason continuation _ restless isLimit resumes =>
      have open_ := Source.notEnd_of_resume resumes
      dsimp only
      rw [FlatMapCursor.wrapOuterContinuation, open_, if_neg Bool.false_ne_true]
      refine produces_stop (by rw [isLimit]; rfl) (fun isCalm => absurd isCalm restless) ?_
      refine ⟨_, rfl, between.stands.inside, ?_, ?_⟩
      · split <;> exact Source.openedAt_of_resume resumes
      · have pending := between.pending
        have hasPending := between.hasPending
        dsimp only
        cases initial : c.initialInnerCont with
        | none =>
          rw [initial] at pending hasPending
          rw [if_neg (by simp [hasPending])]
          exact pending
        | some b =>
          rw [initial] at pending hasPending
          rw [if_pos (by simp [hasPending])]
          exact pending

theorem Inside.buildContinuation {next : Nat} (inside : Inside calm plan outer inner spot row innerCursor c)
    (resumes : (inner row).resume innerCont = some next) (within : next ≤ (inner row).rows.length) :
    FlatMapAt plan outer inner (spot.1, next) (c.buildContinuation innerCont) ∧
      (c.buildContinuation innerCont).isEnd = false := by
  have open_ := Source.notEnd_of_resume resumes
  have outerInside := (List.getElem?_eq_some_iff.mp inside.here).1
  rw [FlatMapCursor.buildContinuation, open_, Bool.false_and, if_neg Bool.false_ne_true]
  refine ⟨⟨_, rfl, outerInside.le, inside.prior, ?_⟩, rfl⟩
  have opens := Source.openedAt_of_resume resumes
  simp only [Bool.not_false, ↓reduceIte, PendingAt, inside.current, Option.bind_some]
  cases bytes : innerCont.toBytes with
  | none =>
    rw [bytes] at opens
    exact opens.symm
  | some b =>
    rw [bytes] at opens
    exact ⟨row, inside.here, within, opens, by rw [inside.rest.isPlan]⟩

private theorem rounds_row (isInner : c.innerCursor = some innerCursor)
    (pulled : innerCursor.onNext = (.next value innerCont, next)) (current : c.currentOuter = some row)
    (open_ : (c.buildContinuation innerCont).isEnd = false) :
    FlatMapCursor.rounds (fuel + 1) c =
      .ok (.next (c.plan.computeResult row value) (c.buildContinuation innerCont),
        { c with innerCursor := some next }) := by
  simp only [FlatMapCursor.rounds, isInner, pulled, current, RecordCursorResult.newResultWithValue, open_]
  rfl

private theorem rounds_noNext (isInner : c.innerCursor = some innerCursor)
    (pulled : innerCursor.onNext = (.noNext reason innerCont, next)) :
    FlatMapCursor.rounds (fuel + 1) c =
      if !reason.isSourceExhausted then
        FlatMapCursor.stop { c with innerCursor := none } reason (c.buildContinuation innerCont)
      else FlatMapCursor.advanceOuter { c with innerCursor := none } (FlatMapCursor.rounds fuel) := by
  simp only [FlatMapCursor.rounds, isInner, pulled]
  rfl

theorem Inside.rounds (inside : Inside calm plan outer inner spot row innerCursor c)
    (enough : outer.rows.length - spot.1 ≤ fuel) :
    Produces calm plan outer inner (rowsFrom plan outer inner spot) (FlatMapCursor.rounds fuel c) := by
  induction fuel generalizing spot row innerCursor c with
  | zero =>
    have outerInside := (List.getElem?_eq_some_iff.mp inside.here).1
    omega
  | succ fuel ih =>
    cases pulled : innerCursor.onNext with
    | mk result innerCursor' =>
      have outcome := inside.stands.onNext
      rw [pulled] at outcome
      cases outcome with
      | @row value mark _ here resumes next =>
        obtain ⟨stands, open_⟩ := inside.buildContinuation resumes next.inside
        refine ⟨_, _, (spot.1, spot.2 + 1), rounds_row inside.isInner pulled inside.current open_, stands,
          .inr ⟨row, innerCursor', ?_⟩, ?_⟩
        · exact { inside with rest := inside.rest, isInner := rfl, stands := next }
        · rw [inside.rest.isPlan]
          exact rowsFrom_next inside.here here
      | exhausted atEnd =>
        have done : rowsFrom plan outer inner spot = rowsFrom plan outer inner (spot.1 + 1, 0) := by
          rw [← rowsFrom_done inside.here, ← atEnd]
        rw [rounds_noNext inside.isInner pulled, done]
        refine inside.rest.advanceOuter fun row' innerCursor c' entered => ih entered ?_
        show outer.rows.length - (spot.1 + 1) ≤ fuel
        omega
      | @stopped reason continuation _ restless isLimit resumes =>
        obtain ⟨stands, open_⟩ := inside.buildContinuation resumes inside.stands.inside
        rw [rounds_noNext inside.isInner pulled, Bool.eq_false_iff.mpr (NoNextReason.not_exhausted isLimit)]
        exact produces_stop (by rw [isLimit]; exact open_) (fun isCalm => absurd isCalm restless) stands

theorem Standing.onNext (standing : Standing calm plan outer inner spot c) :
    Produces calm plan outer inner (rowsFrom plan outer inner spot) c.onNext := by
  cases standing with
  | inl between =>
    rw [FlatMapCursor.onNext, between.fresh]
    dsimp only
    rw [between.stands.reads, FlatMapCursor.rounds, between.noInner]
    exact between.advanceOuter fun row innerCursor c' entered => entered.rounds (by omega)
  | inr open_ =>
    obtain ⟨row, innerCursor, inside⟩ := open_
    have fresh : c.lastNoNext = none := inside.rest.fresh
    have reads : c.outerCursor.source = outer := inside.rest.stands.reads
    rw [FlatMapCursor.onNext, fresh]
    dsimp only
    rw [reads]
    exact inside.rounds (by omega)

/-! ## Pages -/

variable (plan outer inner)

def openFlatMapPage (page : FlatMapPage Outer) (continuation : Option Bytes) :
    Except CursorError (FlatMapCursor Outer Inner Row) :=
  executeFlatMap plan (openChild outer page.outer) (fun n row => openChild (inner row) (page.inner n row)) continuation

def flatMapPages (pages : List (FlatMapPage Outer)) : Except CursorError (List Row × RecordCursorContinuation) :=
  readPages FlatMapCursor.onNext (openFlatMapPage plan outer inner) FlatMapPage.limit pages .start

variable {plan outer inner}

private theorem between_of_message (legal : page.Legal outer inner) {message : FlatMapContinuation}
    (stands : MessageAt plan outer inner spot message) :
    Between page.Calm plan outer inner spot
      { plan
        outerCursor := openChild outer page.outer message.outerContinuation
        innerPlan := fun n row => openChild (inner row) (page.inner n row)
        initialInnerCont := message.innerContinuation
        hasPendingInner := message.innerContinuation.isSome
        pendingCheckValue := message.checkValue
        lastOuterContinuation := message.outerContinuation.map .bytes } where
  isPlan := rfl
  opens n row bytes position member here inside :=
    openAt_opened (legal.2 n row member) (fun calm => calm.2 n row) here inside
  stands := openAt_opened legal.1 And.left stands.opens stands.inside
  noInner := rfl
  last := by
    have opens := stands.opens
    cases outerBytes : message.outerContinuation with
    | none | some b =>
      rw [outerBytes] at opens
      exact opens
  hasPending := rfl
  pending := stands.pending
  going := rfl
  fresh := rfl

private theorem flatMap_opened (legal : page.Legal outer inner) (stands : FlatMapAt plan outer inner spot continuation)
    (notEnd : continuation.isEnd = false) :
    ∃ c, openFlatMapPage plan outer inner page continuation.toBytes = .ok c ∧
      Standing page.Calm plan outer inner spot c := by
  cases continuation with
  | end_ => cases notEnd
  | start =>
    obtain rfl : spot = (0, 0) := stands
    refine ⟨_, rfl, .inl (between_of_message legal ⟨Nat.zero_le _, rfl, rfl⟩)⟩
  | bytes data =>
    obtain ⟨message, rfl, here⟩ := stands
    have decoded := message.unmarshal_marshal
    refine ⟨_, ?_, .inl (between_of_message legal here)⟩
    rw [openFlatMapPage, executeFlatMap]
    -- Without bytes there is no message, which is the one without fields.
    cases isBytes : message.marshal with
    | nil =>
      rw [isBytes] at decoded
      obtain rfl : ({} : FlatMapContinuation) = message := Option.some.inj decoded
      rfl
    | cons b bs =>
      rw [isBytes] at decoded
      simp only [RecordCursorContinuation.toBytes, Option.getD_some, List.isEmpty_cons, Bool.false_eq_true,
        ↓reduceIte, decoded]
      rfl

variable (plan outer inner)

private theorem flatMap_pageable :
    Pageable FlatMapCursor.onNext (openFlatMapPage plan outer inner) (FlatMapPage.Legal outer inner)
      FlatMapPage.Calm (fun page => Standing page.Calm plan outer inner) (FlatMapAt plan outer inner)
      (fun spot rows => rows = rowsFrom plan outer inner spot) (fun spot => (rowsFrom plan outer inner spot).length) where
  opened legal stands notEnd := flatMap_opened legal stands notEnd
  ended := by
    intro spot stands
    have ended : outer.rows[spot.1]? = none := List.getElem?_eq_none (stands : spot.1 = outer.rows.length).ge
    simp only [rowsFrom, ended]
  next := by
    intro page spot c standing
    obtain ⟨result, c', spot', ran, stands, outcome⟩ := standing.onNext
    refine ⟨result, c', spot', ran, stands, ?_⟩
    cases result with
    | next row continuation =>
      obtain ⟨standing', isRow⟩ := outcome
      exact ⟨standing', by simp [isRow], fun rows isRest => (congrArg (row :: ·) isRest).trans isRow.symm⟩
    | noNext reason continuation =>
      obtain ⟨ends, same⟩ := outcome
      exact ⟨ends, (congrArg List.length same).ge, fun rows isRest => isRest.trans same.symm⟩

end Pages

/-- Every list of pages is read without an error, and what they deliver is followed by the
rest: at the end it is the flattened sequence. A page without early stops that is long
enough reaches the end. -/
theorem flat_map_pages_exact (plan : FlatMapPlan Outer Inner Row) (outer : Source Outer) (inner : Outer → Source Inner)
    (pages : List (FlatMapPage Outer)) (legal : ∀ page ∈ pages, page.Legal outer inner) :
    ∃ rows rest last, flatMapPages plan outer inner pages = .ok (rows, last) ∧
      rows ++ rest = flattened plan outer inner ∧ (last = .end_ → rest = []) ∧
      ((∃ page ∈ pages, page.Calm ∧ (flattened plan outer inner).length < page.limit) → last = .end_) := by
  have whole : rowsFrom plan outer inner (0, 0) = flattened plan outer inner := by
    rw [rowsFrom_start, List.drop_zero]
    rfl
  have pageable := flatMap_pageable plan outer inner
  have start : FlatMapAt plan outer inner (0, 0) .start := rfl
  obtain ⟨rows, last, spot, read, stands, left, reaches⟩ := pageable.readPages_left FlatMapPage.limit legal start
  refine ⟨rows, rowsFrom plan outer inner spot, last, read, (left _ rfl).trans whole, fun isEnd => ?_, fun found => ?_⟩
  · exact (pageable.ended (isEnd ▸ stands)).symm
  · rw [← whole] at found
    exact reaches found

/-- Two outer rows, of which the second stops its page in the middle of its inner rows. -/
theorem flat_map_pages_exact_paused :
    ∃ rows rest last,
      flatMapPages (⟨fun row => some [row], fun row value => (row, value)⟩ : FlatMapPlan UInt8 Nat (UInt8 × Nat))
          (countedSource [1, 2]) (fun row => countedSource [row.toNat, 7])
          [⟨9, steady, fun _ _ => paused⟩, ⟨9, steady, fun _ _ => steady⟩] = .ok (rows, last) ∧
      rows ++ rest = [(1, 1), (1, 7), (2, 2), (2, 7)] ∧ last = .end_ := by
  obtain ⟨rows, rest, last, read, whole, -, reaches⟩ := flat_map_pages_exact
    (⟨fun row => some [row], fun row value => (row, value)⟩ : FlatMapPlan UInt8 Nat (UInt8 × Nat))
    (countedSource [1, 2]) (fun row => countedSource [row.toNat, 7])
    [⟨9, steady, fun _ _ => paused⟩, ⟨9, steady, fun _ _ => steady⟩]
    (List.forall_mem_cons.mpr ⟨⟨follows_steady _, fun _ _ _ => follows_paused _⟩,
      List.forall_mem_singleton.mpr ⟨follows_steady _, fun _ _ _ => follows_steady _⟩⟩)
  refine ⟨rows, rest, last, read, whole, reaches ⟨⟨9, steady, fun _ _ => steady⟩, by simp, ?_, by decide⟩⟩
  exact ⟨steady_delivers, fun _ _ => steady_delivers⟩

end FdbGo.Executor
