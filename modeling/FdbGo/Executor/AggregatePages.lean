import FdbGo.Executor.AggregateRows

/-! The aggregation in pages: wherever the input stops, the pages together are the one pass
over it, and fail as it does. -/

set_option autoImplicit false

namespace FdbGo.Executor

open Client RecordLayer

variable {Row : Type} {plan : AggregationPlan Row} {source : Source Row} {calm : Prop} {left : List GroupRow}
  {c : AggregateCursor Row} {position : Nat}

/-! ## Positions -/

def aggregateRemainder (plan : AggregationPlan Row) (source : Source Row) :
    Remainder (List GroupRow) GroupRow AggregateError where
  left := id
  fate := (plan.run none source.rows).2

/-- A position of the input and a group in progress from which these rows are left. -/
structure LeftFrom (plan : AggregationPlan Row) (source : Source Row) (left : List GroupRow)
    (current : Option AggregateGroup) (position : Nat) : Prop where
  groups : ∀ group, current = some group →
    GroupFor plan (plan.rowsOf group.keyVals (source.rows.drop position)).length group
  inside : position ≤ source.rows.length
  few : ∀ key, (plan.rowsOf key source.rows).length < 2 ^ 63
  rest : plan.run current (source.rows.drop position) = (left, (plan.run none source.rows).2)

def AggregateAt (plan : AggregationPlan Row) (source : Source Row) (left : List GroupRow) :
    RecordCursorContinuation → Prop
  | .start => LeftFrom plan source left none 0
  | .bytes data => ∃ innerCont current, plan.encodeAggregateContinuation innerCont current = .ok data ∧
      LeftFrom plan source left current (source.openedAt innerCont.toBytes)
  | .end_ => left = [] ∧ (plan.run none source.rows).2 = none

/-- A cursor inside the input: every row before the position is in a group. -/
structure Aggregating (calm : Prop) (plan : AggregationPlan Row) (source : Source Row) (left : List GroupRow)
    (position : Nat) (c : AggregateCursor Row) : Prop where
  isPlan : c.plan = plan
  noLast : c.lastNoNext = none
  notExhausted : c.innerExhausted = false
  notEmitted : c.emittedFinal = false
  stands : OpenAt calm source position c.inner
  here : source.openedAt c.previousContinuationInGroup.toBytes = position
  leftFrom : LeftFrom plan source left c.current position

structure Emitted (plan : AggregationPlan Row) (source : Source Row) (left : List GroupRow)
    (c : AggregateCursor Row) : Prop where
  noLast : c.lastNoNext = none
  isExhausted : c.innerExhausted = true
  isEmitted : c.emittedFinal = true
  noRows : left = []
  noError : (plan.run none source.rows).2 = none

def AggregateInv (calm : Prop) (plan : AggregationPlan Row) (source : Source Row) (left : List GroupRow)
    (c : AggregateCursor Row) : Prop :=
  (∃ position, Aggregating calm plan source left position c) ∨ Emitted plan source left c

/-- A call delivers the first of the rows that are left, stops before it, or fails. -/
def AggregateOutcome (calm : Prop) (plan : AggregationPlan Row) (source : Source Row) (left : List GroupRow)
    (called : Except AggregateError (RecordCursorResult GroupRow × AggregateCursor Row)) : Prop :=
  CallOutcome (aggregateRemainder plan source) (fun left c (_ : Unit) => AggregateInv calm plan source left c)
    (fun left continuation _ => AggregateAt plan source left continuation) calm left
    (called.map fun found => (found.1, found.2, ()))

/-! ## Outcomes -/

variable {current : Option AggregateGroup}

private theorem outcome_failed {error : AggregateError} (rest : ([], some error) = (left, (plan.run none source.rows).2)) :
    AggregateOutcome calm plan source left (.error error) :=
  ⟨(congrArg Prod.fst rest).symm, (congrArg Prod.snd rest).symm⟩

private theorem outcome_stop {reason : NoNextReason} {innerCont : RecordCursorContinuation} (restless : ¬ calm)
    (isLimit : reason.isLimitReached = true)
    (resumes : LeftFrom c.plan source left c.current (source.openedAt innerCont.toBytes)) :
    AggregateOutcome calm c.plan source left (c.stop reason innerCont) := by
  obtain ⟨data, written, -⟩ := decodeAggregateContinuation_encode (fun group found => ⟨_, resumes.groups group found⟩) innerCont
  have stopped : c.stop reason innerCont =
      .ok (.noNext reason (.bytes data), { c with lastNoNext := some (.noNext reason (.bytes data)) }) := by
    rw [AggregateCursor.stop, written]
    simp only [bind, Except.bind]
    rw [newResultNoNext_ok (by rw [isLimit]; rfl)]
    rfl
  rw [stopped]
  exact ⟨left, ⟨innerCont, c.current, written, resumes⟩, rfl, fun isCalm => absurd isCalm restless⟩

theorem outcome_end (noRows : left = []) (noError : (plan.run none source.rows).2 = none) :
    AggregateOutcome calm plan source left (.ok (.noNext .sourceExhausted .end_, c)) :=
  ⟨left, ⟨noRows, noError⟩, rfl, fun _ => rfl⟩

/-! ## Rounds -/

variable {inner : ChildCursor Row} {group : AggregateGroup} {mark : Bytes}

private theorem breaks_iff {room : Nat} (isGroup : GroupFor plan room group) (row : Row) :
    (!plan.groupingKeys.isEmpty && packedKey (plan.keyOf row) != group.groupKey) = true ↔
      plan.keyOf row ≠ group.keyVals := by
  rw [isGroup.packed, Bool.and_eq_true, bne_iff_ne]
  refine ⟨fun breaks same => breaks.2 (congrArg packedKey same), fun differs => ⟨?_, fun same => ?_⟩⟩
  · cases keys : plan.groupingKeys with
    | cons key keys => rfl
    | nil =>
      have typed := isGroup.typed
      rw [keys] at typed
      have noKeys := List.forall₂_nil_right_iff.mp typed
      exact absurd (by rw [noKeys, AggregationPlan.keyOf, keys]; rfl) differs
  · exact differs (packedKey_injective same)

/-- The first row of a group leaves room to count the others of its key. -/
private theorem LeftFrom.first {row : Row} (leftFrom : LeftFrom plan source left current position)
    (drop : source.rows.drop position = row :: source.rows.drop (position + 1)) (begun : plan.firstRow row = .ok group) :
    GroupFor plan (plan.rowsOf group.keyVals (source.rows.drop (position + 1))).length group := by
  rw [show group.keyVals = plan.keyOf row from accumulateRow_keyVals begun]
  refine firstRow_group ?_ begun
  calc _ = (plan.rowsOf (plan.keyOf row) (source.rows.drop position)).length := by
        rw [drop, rowsOf_cons_self rfl, List.length_cons]
    _ ≤ (plan.rowsOf (plan.keyOf row) source.rows).length := ((List.drop_sublist _ _).filter _).length_le
    _ < 2 ^ 63 := leftFrom.few _

section

variable (inv : Aggregating calm plan source left position c)

include inv

theorem Aggregating.emitFinal (atEnd : position = source.rows.length) (inner : ChildCursor Row) :
    AggregateOutcome calm plan source left ({ c with inner, innerExhausted := true }).emitFinal := by
  obtain ⟨isPlan, noLast, -, notEmitted, -, here, leftFrom⟩ := inv
  subst isPlan
  have rest := leftFrom.rest
  rw [List.drop_eq_nil_of_le (Nat.le_of_eq atEnd.symm)] at rest
  rw [AggregateCursor.emitFinal, if_neg (by simp [notEmitted])]
  cases isCurrent : c.current with
  | none =>
    rw [isCurrent, AggregationPlan.run] at rest
    exact outcome_end (congrArg Prod.fst rest).symm (congrArg Prod.snd rest).symm
  | some group =>
    rw [isCurrent, AggregationPlan.run] at rest
    have noError := (congrArg Prod.snd rest).symm
    have isLeft : left = [c.plan.finalizeGroup group] := (congrArg Prod.fst rest).symm
    have resumes : LeftFrom c.plan source [] none (source.openedAt c.previousContinuationInGroup.toBytes) := by
      refine ⟨by simp, here ▸ leftFrom.inside, leftFrom.few, ?_⟩
      rw [here, List.drop_eq_nil_of_le (Nat.le_of_eq atEnd.symm), AggregationPlan.run, noError]
    rw [isLeft]
    exact ⟨[], ⟨_, none, rfl, resumes⟩, .inr ⟨noLast, rfl, rfl, rfl, noError⟩, rfl⟩

theorem Aggregating.advance {left' : List GroupRow}
    (isGroup : GroupFor plan (plan.rowsOf group.keyVals (source.rows.drop (position + 1))).length group)
    (resumes : source.resume (.bytes mark) = some (position + 1)) (stands : OpenAt calm source (position + 1) inner)
    (rest : plan.run (some group) (source.rows.drop (position + 1)) = (left', (plan.run none source.rows).2)) :
    Aggregating calm plan source left' (position + 1)
      { c with inner, current := some group, previousContinuationInGroup := .bytes mark } where
  isPlan := inv.isPlan
  noLast := inv.noLast
  notExhausted := inv.notExhausted
  notEmitted := inv.notEmitted
  stands := stands
  here := Source.openedAt_of_resume resumes
  leftFrom := ⟨fun _ same => Option.some.inj same ▸ isGroup, stands.inside, inv.leftFrom.few, rest⟩

/-- A row that is accepted: it goes on with the next round, emits the group before, or fails. -/
theorem Aggregating.accept {row : Row}
    {again : AggregateCursor Row → Except AggregateError (RecordCursorResult GroupRow × AggregateCursor Row)} (isRow : source.rows[position]? = some row)
    (resumes : source.resume (.bytes mark) = some (position + 1)) (stands : OpenAt calm source (position + 1) inner)
    (goesOn : ∀ c', Aggregating calm plan source left (position + 1) c' →
      AggregateOutcome calm plan source left (again c')) :
    AggregateOutcome calm plan source left (({ c with inner }).accept row (.bytes mark) again) := by
  obtain ⟨below, isRow'⟩ := List.getElem?_eq_some_iff.mp isRow
  have drop : source.rows.drop position = row :: source.rows.drop (position + 1) := by
    rw [List.drop_eq_getElem_cons below, isRow']
  have leftFrom := inv.leftFrom
  have rest := leftFrom.rest
  have isPlan := inv.isPlan
  subst isPlan
  rw [AggregateCursor.accept, computeGroupKey_eq]
  simp only [bind, Except.bind]
  cases isCurrent : c.current with
  | none =>
    rw [drop, isCurrent, AggregationPlan.run] at rest
    dsimp only
    rw [← AggregationPlan.firstRow]
    cases begun : c.plan.firstRow row <;> rw [begun] at rest
    case error => exact outcome_failed rest
    case ok group => exact goesOn _ (inv.advance (leftFrom.first drop begun) resumes stands rest)
  | some group =>
    have isGroup := leftFrom.groups group isCurrent
    rw [drop, isCurrent, AggregationPlan.run] at rest
    dsimp only
    by_cases belongs : c.plan.keyOf row = group.keyVals
    · have stays : ¬ (!c.plan.groupingKeys.isEmpty && packedKey (c.plan.keyOf row) != group.groupKey) = true :=
        fun breaks => (breaks_iff isGroup row).mp breaks belongs
      rw [if_neg stays]
      rw [if_pos belongs] at rest
      cases accumulated : c.plan.accumulateRow group row <;> rw [accumulated] at rest
      case error => exact outcome_failed rest
      case ok next =>
        rw [drop, rowsOf_cons_self belongs, List.length_cons] at isGroup
        have grown := isGroup.accumulateRow accumulated
        rw [← accumulateRow_keyVals accumulated] at grown
        exact goesOn _ (inv.advance grown resumes stands rest)
    · rw [if_pos ((breaks_iff isGroup row).mpr belongs)]
      rw [if_neg belongs] at rest
      rw [← AggregationPlan.firstRow]
      cases begun : c.plan.firstRow row <;> rw [begun] at rest
      case error => exact outcome_failed rest
      case ok next =>
        obtain ⟨isLeft, sameFate⟩ := Prod.mk.inj rest
        have after : c.plan.run (some next) (source.rows.drop (position + 1)) =
            ((c.plan.run (some next) (source.rows.drop (position + 1))).1, (c.plan.run none source.rows).2) :=
          Prod.ext rfl sameFate
        -- Resumed before this row, the row starts the next group again.
        have again : LeftFrom c.plan source (c.plan.run (some next) (source.rows.drop (position + 1))).1 none
            (source.openedAt c.previousContinuationInGroup.toBytes) := by
          refine ⟨by simp, inv.here ▸ leftFrom.inside, leftFrom.few, ?_⟩
          rw [inv.here, drop, AggregationPlan.run, begun]
          exact after
        rw [← isLeft]
        exact ⟨_, ⟨_, none, rfl, again⟩,
          .inl ⟨position + 1, inv.advance (leftFrom.first drop begun) resumes stands after⟩, rfl⟩

end

theorem Aggregating.rounds (fuel : Nat) :
    ∀ {position : Nat} {c : AggregateCursor Row}, Aggregating calm plan source left position c →
      source.rows.length < position + fuel → AggregateOutcome calm plan source left (AggregateCursor.rounds fuel c) := by
  induction fuel with
  | zero =>
    intro position c inv enough
    exact absurd inv.leftFrom.inside (Nat.not_le.mpr enough)
  | succ fuel ih =>
    intro position c inv enough
    have pulled := inv.stands.onNext
    rw [AggregateCursor.rounds]
    cases isPull : c.inner.onNext with
    | mk result inner =>
      rw [isPull] at pulled
      cases pulled with
      | row isRow resumes stands =>
        exact inv.accept isRow resumes stands fun c' goesOn => ih goesOn (by omega)
      | exhausted atEnd => exact inv.emitFinal atEnd inner
      | stopped restless isLimit resumes =>
        have isPlan := inv.isPlan
        subst isPlan
        have leftFrom := inv.leftFrom
        rw [← Source.openedAt_of_resume resumes] at leftFrom
        dsimp only
        rw [if_neg (NoNextReason.not_exhausted isLimit)]
        exact outcome_stop restless isLimit leftFrom

theorem AggregateInv.onNext (inv : AggregateInv calm plan source left c) :
    AggregateOutcome calm plan source left c.onNext := by
  cases inv with
  | inl aggregating =>
    obtain ⟨position, aggregating⟩ := aggregating
    rw [AggregateCursor.onNext, aggregating.noLast]
    dsimp only
    rw [if_neg (by simp [aggregating.notExhausted]), aggregating.stands.reads]
    exact aggregating.rounds _ (by omega)
  | inr emitted =>
    rw [AggregateCursor.onNext, emitted.noLast]
    dsimp only
    rw [if_pos emitted.isExhausted, AggregateCursor.emitFinal, if_pos emitted.isEmitted]
    exact outcome_end emitted.noRows emitted.noError

/-! ## Pages -/

structure AggregatePage where
  limit : Nat
  input : Schedule

def aggregateStatement (plan : AggregationPlan Row) (source : Source Row) :
    StatementCursor (AggregateCursor Row) Unit AggregatePage GroupRow AggregateError :=
  .unshared AggregateCursor.onNext (fun page => buildAgg plan (openChild source page.input)) AggregatePage.limit

def aggregatePages (plan : AggregationPlan Row) (source : Source Row) (pages : List AggregatePage) :
    List GroupRow × Except AggregateError (RecordCursorContinuation × Unit) :=
  (aggregateStatement plan source).readPages pages .start ()

private theorem openedAt_previous (source : Source Row) (innerContinuation : Option Bytes) :
    source.openedAt
        (if (innerContinuation.getD []).isEmpty then RecordCursorContinuation.start
          else .bytes (innerContinuation.getD [])).toBytes =
      source.openedAt innerContinuation := by
  cases innerContinuation with
  | none => rfl
  | some b => cases b <;> rfl

variable {page : AggregatePage}

private theorem aggregating_opened {innerContinuation : Option Bytes} (legal : source.Follows page.input)
    (leftFrom : LeftFrom plan source left current (source.openedAt innerContinuation)) :
    Aggregating (Delivers page.input) plan source left (source.openedAt innerContinuation)
      { plan
        inner := openChild source page.input innerContinuation
        current
        previousContinuationInGroup :=
          if (innerContinuation.getD []).isEmpty then .start else .bytes (innerContinuation.getD []) } where
  isPlan := rfl
  noLast := rfl
  notExhausted := rfl
  notEmitted := rfl
  stands := openAt_opened legal id rfl leftFrom.inside
  here := openedAt_previous source innerContinuation
  leftFrom := leftFrom

/-- The group that is restored leaves the same rows as the one that was written. -/
theorem LeftFrom.restored (leftFrom : LeftFrom plan source left current position) :
    LeftFrom plan source left (current.map plan.restored) position := by
  cases current with
  | none => exact leftFrom
  | some group =>
    have isGroup := leftFrom.groups group rfl
    refine ⟨fun other same => Option.some.inj same ▸ isGroup.restored, leftFrom.inside, leftFrom.few, ?_⟩
    rw [Option.map_some, run_sameFuture (sameFuture_restored isGroup)]
    exact leftFrom.rest

private theorem aggregate_opened {continuation : RecordCursorContinuation} (legal : source.Follows page.input)
    (stands : AggregateAt plan source left continuation) (notEnd : continuation.isEnd = false) :
    ∃ c, buildAgg plan (openChild source page.input) continuation.toBytes = .ok c ∧
      AggregateInv (Delivers page.input) plan source left c := by
  cases continuation with
  | end_ => cases notEnd
  | start =>
    have atStart : LeftFrom plan source left none (source.openedAt none) := stands
    exact ⟨_, rfl, .inl ⟨_, aggregating_opened legal atStart⟩⟩
  | bytes data =>
    obtain ⟨innerCont, current, written, leftFrom⟩ := stands
    obtain ⟨written', isWritten, read⟩ := decodeAggregateContinuation_encode (fun group found => ⟨_, leftFrom.groups group found⟩) innerCont
    obtain rfl : data = written' := Except.ok.inj (written.symm.trans isWritten)
    refine ⟨_, ?_, .inl ⟨_, aggregating_opened legal leftFrom.restored⟩⟩
    rw [buildAgg.eq_def, RecordCursorContinuation.toBytes]
    dsimp only
    rw [read]
    rfl

private theorem aggregate_pageable (plan : AggregationPlan Row) (source : Source Row) :
    StatementPageable (aggregateStatement plan source) (fun page => source.Follows page.input)
      (fun page => Delivers page.input) (fun page left c _ => AggregateInv (Delivers page.input) plan source left c)
      (fun left continuation _ => AggregateAt plan source left continuation) (aggregateRemainder plan source)
      (fun _ _ => False) where
  opened := by
    intro page left continuation _ legal stands notEnd
    obtain ⟨c, opened, inv⟩ := aggregate_opened legal stands notEnd
    show OpenOutcome _ _ ((buildAgg plan (openChild source page.input) continuation.toBytes).map _)
    rw [opened]
    exact ⟨inv, stands⟩
  ended stands := stands
  next inv := inv.onNext

/-- Every list of pages of an aggregation over sorted input, with keys whose rows an int64 can
count, delivers, in order, the rows of one pass over the input, and fails only as that pass
does, after its last row. The pass has one row for each key, made of all rows of the key, and
fails only if the rows of some key do. A page without early stops that is long enough comes to
the end or to the error. -/
theorem aggregate_pages_exact (plan : AggregationPlan Row) (source : Source Row)
    (order : List KeyValue → List KeyValue → Prop)
    (antisymm : ∀ key other, order key other → order other key → key = other)
    (sorted : (source.rows.map plan.keyOf).Pairwise order) (few : ∀ key, (plan.rowsOf key source.rows).length < 2 ^ 63)
    (pages : List AggregatePage)
    (legal : ∀ page ∈ pages, source.Follows page.input) :
    ∃ all fate rows rest ending, plan.run none source.rows = (all, fate) ∧ Grouped plan source.rows (all, fate) ∧
      aggregatePages plan source pages = (rows, ending) ∧ rows ++ rest = all ∧
      (∀ error, ending = .error error → rest = [] ∧ fate = some error) ∧
      (ending = .ok (.end_, ()) → rest = [] ∧ fate = none) ∧
      ((∃ page ∈ pages, Delivers page.input ∧ all.length < page.limit) →
        (ending = .ok (.end_, ()) ↔ fate = none) ∧ ∀ error, ending = .error error ↔ fate = some error) := by
  have grouped := run_grouped antisymm sorted
  cases passed : plan.run none source.rows with
  | mk all fate =>
    rw [passed] at grouped
    have isFate : (aggregateRemainder plan source).fate = fate := congrArg Prod.snd passed
    have start : AggregateAt plan source all .start :=
      ⟨nofun, Nat.zero_le _, few, by rw [List.drop_zero, passed]⟩
    obtain ⟨read, finishes⟩ := (aggregate_pageable plan source).readPages_run legal start
    cases result : aggregatePages plan source pages with
    | mk rows ending =>
      rw [aggregatePages] at result
      rw [result] at read finishes
      cases ending with
      | error error =>
        have failed := read.resolve_right fun refused => refused.choose_spec.1
        have isError : fate = some error := isFate.symm.trans failed.2
        refine ⟨all, fate, rows, [], _, rfl, grouped, rfl, (List.append_nil _).trans failed.1, ?_, nofun, fun _ => ⟨?_, ?_⟩⟩
        · intro other same
          cases same
          exact ⟨rfl, isError⟩
        · rw [isError]
          exact ⟨nofun, nofun⟩
        · intro other
          rw [isError]
          exact ⟨fun same => congrArg some (Except.error.inj same), fun same => congrArg Except.error (Option.some.inj same)⟩
      | ok found =>
        obtain ⟨last, _⟩ := found
        obtain ⟨left, stands, whole⟩ := read
        have ended : last = .end_ → left = [] ∧ fate = none := by
          intro isEnd
          subst isEnd
          exact ⟨stands.1, isFate.symm.trans stands.2⟩
        refine ⟨all, fate, rows, left, _, rfl, grouped, rfl, whole, nofun, ?_, fun enough => ⟨?_, ?_⟩⟩
        · intro same
          cases same
          exact ended rfl
        · have isEnd : last = .end_ := finishes enough
          subst isEnd
          exact ⟨fun _ => (ended rfl).2, fun _ => rfl⟩
        · have isEnd : last = .end_ := finishes enough
          intro error
          rw [(ended isEnd).2]
          exact ⟨nofun, nofun⟩

/-- COUNT(*), SUM, MIN and ARRAY_AGG of the second column, by the first. -/
def totalsByKey : AggregationPlan (Int64 × Int64) where
  groupingKeys := [{ type := .long, evaluate := fun row => .integer row.1, typed := fun _ => trivial }]
  aggregates := [.countStar, .sum, .min, .arrayAgg].map fun function =>
    { function, operand := fun row => some row.2, typed := fun isInt => absurd isInt (by decide) }
  decodeLegacyAggregatePartial := fun _ => .error .invalidContinuation

/-- Three rows in two groups; the first page stops inside the first group. -/
theorem aggregate_pages_exact_paused :
    ∃ rows rest ending,
      aggregatePages totalsByKey (countedSource [(1, 5), (1, 7), (2, 3)]) [⟨9, paused⟩, ⟨9, steady⟩] = (rows, ending) ∧
        rows ++ rest =
          [{ keyVals := [.integer 1], values := [.integer 2, .integer 12, .integer 5, .array [5, 7]] },
           { keyVals := [.integer 2], values := [.integer 1, .integer 3, .integer 3, .array [3]] }] := by
  obtain ⟨all, fate, rows, rest, ending, passed, -, read, whole, -⟩ := aggregate_pages_exact totalsByKey
    (countedSource [(1, 5), (1, 7), (2, 3)])
    (fun key other => key = other ∨ (key = [.integer 1] ∧ other = [.integer 2]))
    (by
      intro key other first second
      cases first with
      | inl same => exact same
      | inr first =>
        cases second with
        | inl same => exact same.symm
        | inr second => exact absurd (first.1.symm.trans second.2) (by decide))
    (by decide) (fun key => (List.length_filter_le _ _).trans_lt (by decide)) [⟨9, paused⟩, ⟨9, steady⟩]
    (List.forall_mem_cons.mpr ⟨follows_paused _, List.forall_mem_singleton.mpr (follows_steady _)⟩)
  refine ⟨rows, rest, ending, read, ?_⟩
  rw [whole, ← show (totalsByKey.run none [(1, 5), (1, 7), (2, 3)]).1 = all from congrArg Prod.fst passed]
  decide +kernel

end FdbGo.Executor
