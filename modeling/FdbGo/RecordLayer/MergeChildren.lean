import FdbGo.RecordLayer.MergeCursor
import Mathlib.Algebra.Order.BigOperators.Group.List
import Mathlib.Algebra.Order.Group.Nat

/-! The states of a merge cursor's children. A spot is a position in a child's rows; a child
at a spot has delivered or discarded the rows before it, and its continuation resumes
there, whether the next row is loaded or not. -/

set_option autoImplicit false

namespace FdbGo.RecordLayer

open Client Foundation MergeChildState

variable {T K : Type}

structure Spot (T : Type) where
  source : Source T
  position : Nat

namespace Spot

def rest (spot : Spot T) : List T := spot.source.rows.drop spot.position

def size (spot : Spot T) : Nat := spot.rest.length

def next (spot : Spot T) : Spot T := { spot with position := spot.position + 1 }

/-- The continuation resumes at the spot. -/
structure Marks (spot : Spot T) (continuation : RecordCursorContinuation) : Prop where
  inside : spot.position ≤ spot.source.rows.length
  resumes : (spot.source.resume continuation).getD spot.source.rows.length = spot.position

end Spot

def Delivers (schedule : Schedule) : Prop := ∀ pull position, ∃ mark, schedule pull position = .deliver mark

/-- The cursor delivers the rows from the position on. If it is calm it never stops early. -/
inductive Reads (calm : Prop) (source : Source T) (position : Nat) : Option (ChildCursor T) → Prop
  | ended (atEnd : position = source.rows.length) : Reads calm source position none
  | opened {schedule : Schedule} {pulls : Nat} (follows : source.Follows schedule)
      (delivers : calm → Delivers schedule) :
      Reads calm source position (some { source, schedule, position, pulls })

/-- The next row is not loaded. -/
structure Fresh (calm : Prop) (spot : Spot T) (child : MergeChildState T) : Prop where
  marks : spot.Marks child.continuation
  reads : Reads calm spot.source spot.position child.cursor
  needsAdvance : child.needsAdvance = true

/-- The next row is loaded, or there is none, or a limit stopped the child before it. -/
inductive Settled (calm : Prop) (spot : Spot T) : MergeChildState T → Prop
  | held {cursor : Option (ChildCursor T)} {value : T} {mark : Bytes} {continuation : RecordCursorContinuation}
      (marks : spot.Marks continuation) (head : spot.rest.head? = some value) (after : spot.next.Marks (.bytes mark))
      (reads : Reads calm spot.source (spot.position + 1) cursor) :
      Settled calm spot ⟨cursor, some (.next value (.bytes mark)), continuation, false⟩
  | exhausted {cursor : Option (ChildCursor T)} (atEnd : spot.position = spot.source.rows.length) :
      Settled calm spot ⟨cursor, some (.noNext .sourceExhausted .end_), .end_, false⟩
  | limited {cursor : Option (ChildCursor T)} {reason : NoNextReason} {continuation : RecordCursorContinuation}
      (restless : ¬ calm) (isLimit : reason.isLimitReached = true) (marks : spot.Marks continuation)
      (notEnd : continuation.isEnd = false) (reads : Reads calm spot.source spot.position cursor) :
      Settled calm spot ⟨cursor, some (.noNext reason continuation), continuation, false⟩

variable {calm : Prop} {spot : Spot T} {child : MergeChildState T}
    {continuation : RecordCursorContinuation} {pulls : Nat}

namespace Spot

theorem rest_eq_nil (atEnd : spot.position = spot.source.rows.length) : spot.rest = [] := by
  rw [rest, atEnd, List.drop_length]

theorem rest_next (spot : Spot T) : spot.next.rest = spot.rest.tail := by
  rw [rest, rest, next, List.tail_drop]

theorem Marks.at_end (marks : spot.Marks continuation) (isEnd : continuation.isEnd = true) :
    spot.position = spot.source.rows.length := by
  cases continuation with
  | start => cases isEnd
  | bytes b => cases isEnd
  | end_ => exact marks.resumes.symm

theorem marks_end (atEnd : spot.position = spot.source.rows.length) : spot.Marks .end_ := ⟨atEnd.le, atEnd.symm⟩

end Spot

variable {reason : NoNextReason} {position : Nat} {mark : Bytes} {Start : Type}

namespace MergeChildState

variable {cursor : Option (ChildCursor T)}

private theorem advance_next {value : T} (pulled : pull child.cursor = (.next value continuation, cursor)) :
    child.advance = ⟨cursor, some (.next value continuation), child.continuation, false⟩ := by
  rw [advance, pulled]
  rfl

theorem advance_noNext (pulled : pull child.cursor = (.noNext reason continuation, cursor)) :
    child.advance = ⟨cursor, some (.noNext reason continuation), continuation, false⟩ := by
  rw [advance, pulled]
  rfl

end MergeChildState

variable {schedule : Schedule} {spots : List (Spot T)} {children : List (MergeChildState T)}

section Opened

variable (isCursor : child.cursor = some { source := spot.source, schedule, position := spot.position, pulls })

include isCursor

theorem Fresh.advance_stop {stopped : RecordCursorContinuation} (fresh : Fresh calm spot child)
    (pulled : schedule pulls spot.position = .stop reason stopped) (restless : ¬ calm)
    (follows : spot.source.Follows schedule) (allowed : spot.source.Allows spot.position (.stop reason stopped)) :
    Settled calm spot child.advance := by
  have notEnd : stopped.isEnd = false := by
    cases stopped with
    | start => rfl
    | bytes b => rfl
    | end_ => cases allowed.2
  have result : pull child.cursor = (.noNext reason stopped,
      some { source := spot.source, schedule, position := spot.position, pulls := pulls + 1 }) := by
    simp only [isCursor, pull, ChildCursor.onNext, pulled]
  rw [advance_noNext result]
  refine .limited restless allowed.1 ⟨fresh.marks.inside, ?_⟩ notEnd (.opened follows fun isCalm => absurd isCalm restless)
  rw [allowed.2]
  rfl

theorem Fresh.advance_deliver (fresh : Fresh calm spot child) (pulled : schedule pulls spot.position = .deliver mark) (reads : ∀ position pulls,
      Reads calm spot.source position (some { source := spot.source, schedule, position, pulls }))
    (inside : spot.position < spot.source.rows.length)
    (allowed : mark ≠ [] ∧ spot.source.position mark = spot.position + 1) : Settled calm spot child.advance := by
  have row := List.getElem?_eq_getElem inside
  have result : pull child.cursor = (.next spot.source.rows[spot.position] (.bytes mark),
      some { source := spot.source, schedule, position := spot.position + 1, pulls := pulls + 1 }) := by
    simp only [isCursor, pull, ChildCursor.onNext, pulled, row]
  rw [advance_next result]
  refine .held fresh.marks ?_ ⟨inside, ?_⟩ (reads _ _)
  · rw [Spot.rest, List.head?_drop, row]
  · cases mark with
    | nil => exact absurd rfl allowed.1
    | cons b bs => exact allowed.2

theorem Fresh.advance_end (pulled : schedule pulls spot.position = .deliver mark)
    (atEnd : spot.position = spot.source.rows.length) : Settled calm spot child.advance := by
  have noRow : spot.source.rows[spot.position]? = none := List.getElem?_eq_none atEnd.ge
  have result : pull child.cursor = (.noNext .sourceExhausted .end_,
      some { source := spot.source, schedule, position := spot.position, pulls := pulls + 1 }) := by
    simp only [isCursor, pull, ChildCursor.onNext, pulled, noRow]
  rw [advance_noNext result]
  exact .exhausted atEnd

end Opened

theorem Fresh.advance (fresh : Fresh calm spot child) : Settled calm spot child.advance := by
  generalize isCursor : child.cursor = cursor
  have reads := fresh.reads
  rw [isCursor] at reads
  cases reads with
  | ended atEnd =>
    have result : pull child.cursor = (.noNext .sourceExhausted .end_, none) := by
      rw [isCursor]
      rfl
    rw [advance_noNext result]
    exact .exhausted atEnd
  | @opened schedule pulls follows delivers =>
    have allowed := follows pulls spot.position fresh.marks.inside
    cases pulled : schedule pulls spot.position with
    | stop reason stopped =>
      have restless : ¬ calm := by
        intro isCalm
        obtain ⟨mark, delivered⟩ := delivers isCalm pulls spot.position
        rw [pulled] at delivered
        cases delivered
      exact fresh.advance_stop isCursor pulled restless follows (pulled ▸ allowed)
    | deliver mark =>
      rw [pulled] at allowed
      by_cases inside : spot.position < spot.source.rows.length
      · exact fresh.advance_deliver isCursor pulled (fun _ _ => .opened follows delivers) inside (allowed inside)
      · exact Fresh.advance_end isCursor pulled (le_antisymm fresh.marks.inside (not_lt.mp inside))

namespace Settled

variable (settled : Settled calm spot child)

include settled

private theorem advanceIfNeeded : child.advanceIfNeeded = child := by
  cases settled with
  | held => rfl
  | exhausted => rfl
  | limited => rfl

private theorem marks : spot.Marks child.continuation := by
  cases settled with
  | held marks => exact marks
  | exhausted atEnd => exact Spot.marks_end atEnd
  | limited _ _ marks => exact marks

theorem value (going : child.stoppedByLimit = false) : child.value? = spot.rest.head? := by
  cases settled with
  | held _ head => exact head.symm
  | exhausted atEnd =>
    rw [Spot.rest_eq_nil atEnd]
    rfl
  | limited _ isLimit =>
    have stopped := isLimit.symm.trans going
    cases stopped

theorem limit (stopped : child.stoppedByLimit = true) : ¬ calm ∧ child.continuation.isEnd = false := by
  cases settled with
  | held => cases stopped
  | exhausted => cases stopped
  | limited restless _ _ notEnd _ => exact ⟨restless, notEnd⟩

theorem consume_isEnd {value : T} (loaded : child.value? = some value) : child.consume.continuation.isEnd = false := by
  cases settled with
  | held => rfl
  | exhausted => cases loaded
  | limited => cases loaded

private theorem consume {value : T} (loaded : child.value? = some value) : Fresh calm spot.next child.consume := by
  cases settled with
  | held _ _ after reads => exact ⟨after, reads, rfl⟩
  | exhausted => cases loaded
  | limited => cases loaded

end Settled

def ChildAt (calm : Prop) (spot : Spot T) (child : MergeChildState T) : Prop :=
  Fresh calm spot child ∨ Settled calm spot child

theorem ChildAt.advanceIfNeeded (stands : ChildAt calm spot child) : Settled calm spot child.advanceIfNeeded := by
  cases stands with
  | inl fresh =>
    rw [MergeChildState.advanceIfNeeded, fresh.needsAdvance]
    exact fresh.advance
  | inr settled =>
    rw [settled.advanceIfNeeded]
    exact settled

theorem advance_all (stand : List.Forall₂ (ChildAt calm) spots children) :
    List.Forall₂ (Settled calm) spots (children.map advanceIfNeeded) :=
  List.forall₂_map_right_iff.mpr (stand.imp fun _ _ here => here.advanceIfNeeded)

section

variable (settled : List.Forall₂ (Settled calm) spots children)

include settled

theorem values_of_settled (going : children.any stoppedByLimit = false) :
    children.map value? = spots.map fun spot => spot.rest.head? := by
  induction settled with
  | nil => rfl
  | cons here _ ih =>
    rw [List.any_cons, Bool.or_eq_false_iff] at going
    rw [List.map_cons, List.map_cons, here.value going.1, ih going.2]

theorem calm_going (isCalm : calm) : children.any stoppedByLimit = false := by
  rw [List.any_eq_false]
  intro child member stopped
  obtain ⟨spot, _, here⟩ := exists_related settled member
  exact (here.limit stopped).1 isCalm

end

theorem ChildAt.marks (stands : ChildAt calm spot child) : spot.Marks child.continuation := by
  cases stands with
  | inl fresh => exact fresh.marks
  | inr settled => exact settled.marks

/-- Children that stand at the spots carry continuations that mark them. -/
theorem marks_of_children (stand : List.Forall₂ (ChildAt calm) spots children) :
    List.Forall₂ Spot.Marks spots (children.map MergeChildState.continuation) :=
  List.forall₂_map_right_iff.mpr (stand.imp fun _ _ here => here.marks)

theorem forall₂_replicate {R : Spot T → Start → Prop} {start : Start} (related : ∀ spot ∈ spots, R spot start) :
    List.Forall₂ R spots (List.replicate spots.length start) := by
  induction spots with
  | nil => exact .nil
  | cons spot spots ih =>
    exact .cons (related spot List.mem_cons_self) (ih (List.forall_mem_cons.mp related).2)

/-! ## Taking rows -/

section Taking

variable (p : T → Bool)

def Spot.pass (spot : Spot T) : Spot T := if spot.rest.head?.any p then spot.next else spot

def MergeChildState.take (child : MergeChildState T) : MergeChildState T :=
  if child.value?.any p then child.consume else child

variable {p}

theorem Spot.source_pass (spot : Spot T) : (spot.pass p).source = spot.source := by
  rw [pass]
  split_ifs <;> rfl

theorem source_pass_all (spots : List (Spot T)) : (spots.map (Spot.pass p)).map Spot.source = spots.map Spot.source := by
  rw [List.map_map]
  exact List.map_congr_left fun spot _ => spot.source_pass

theorem Settled.take (settled : Settled calm spot child) (going : child.stoppedByLimit = false) :
    ChildAt calm (spot.pass p) (child.take p) := by
  have loaded := settled.value going
  rw [Spot.pass, MergeChildState.take, loaded]
  split_ifs with taken
  · obtain ⟨value, head, -⟩ := (Option.any_eq_true _ _).mp taken
    exact .inl (settled.consume (loaded.trans head))
  · exact .inr settled

/-- When the children with the taken row move on, all stand where the spots pass on to. -/
theorem take_all (settled : List.Forall₂ (Settled calm) spots children)
    (going : children.any stoppedByLimit = false) :
    List.Forall₂ (ChildAt calm) (spots.map (Spot.pass p)) (children.map (take p)) := by
  induction settled with
  | nil => exact .nil
  | cons here _ ih =>
    rw [List.any_cons, Bool.or_eq_false_iff] at going
    exact .cons (here.take going.1) (ih going.2)

theorem Spot.size_pass_le (spot : Spot T) : (spot.pass p).size ≤ spot.size := by
  rw [pass]
  split_ifs
  · rw [size, size, rest_next, List.length_tail]
    exact Nat.sub_le _ _
  · exact le_rfl

theorem Spot.size_pass_lt {value : T} (head : spot.rest.head? = some value) (taken : p value = true) :
    (spot.pass p).size < spot.size := by
  rw [pass, head, Option.any_some, if_pos taken, size, size, rest_next, List.length_tail]
  exact Nat.sub_lt (List.length_pos_of_mem (List.mem_of_head? head)) Nat.one_pos

def totalSize (spots : List (Spot T)) : Nat := (spots.map Spot.size).sum

theorem totalSize_pass (taken : ∃ spot ∈ spots, ∃ value, spot.rest.head? = some value ∧ p value = true) :
    totalSize (spots.map (Spot.pass p)) < totalSize spots := by
  obtain ⟨spot, isSpot, value, head, takes⟩ := taken
  rw [totalSize, totalSize, List.map_map]
  exact List.sum_lt_sum _ _ (fun spot _ => spot.size_pass_le) ⟨spot, isSpot, Spot.size_pass_lt head takes⟩

end Taking

def hasKey [DecidableEq K] (key : T → K) (k : K) (row : T) : Bool := decide (key row = k)

theorem Spot.rest_pass [LinearOrder K] (key : T → K) (k : K) (spot : Spot T) :
    (spot.pass (hasKey key k)).rest = dropHead key k spot.rest := by
  rw [pass]
  cases rows : spot.rest with
  | nil =>
    rw [List.head?_nil, if_neg (by simp), rows]
    rfl
  | cons row rest =>
    simp only [dropHead, List.head?_cons, Option.any_some, hasKey, decide_eq_true_eq]
    split_ifs
    · rw [rest_next, rows, List.tail_cons]
    · exact rows

theorem rest_inOrder [LinearOrder K] {key : T → K} {reverse : Bool} {sources : List (Source T)}
    (inOrder : ∀ source ∈ sources, InOrder key reverse source.rows)
    (ofSources : spots.map Spot.source = sources) : ∀ list ∈ spots.map Spot.rest, InOrder key reverse list := by
  intro list member
  obtain ⟨spot, isSpot, rfl⟩ := List.mem_map.mp member
  exact (inOrder spot.source (ofSources ▸ List.mem_map_of_mem isSpot)).drop spot.position

/-! ## Continuations as they are written -/

def RecordCursorContinuation.written : RecordCursorContinuation → RecordCursorContinuation
  | .bytes [] => .start
  | continuation => continuation

theorem Spot.Marks.written (marks : spot.Marks continuation) : spot.Marks continuation.written := by
  cases continuation with
  | start => exact marks
  | bytes b =>
    cases b with
    | nil => exact ⟨marks.inside, marks.resumes⟩
    | cons b bs => exact marks
  | end_ => exact marks

/-! ## Opening children -/

def startSpots (sources : List (Source T)) : List (Spot T) := sources.map fun source => ⟨source, 0⟩

variable (sources : List (Source T))

theorem source_startSpots : (startSpots sources).map Spot.source = sources := by
  rw [startSpots, List.map_map]
  exact List.map_id _

theorem rest_startSpots : (startSpots sources).map Spot.rest = sources.map Source.rows := by
  rw [startSpots, List.map_map]
  rfl

theorem totalSize_startSpots : totalSize (startSpots sources) = (sources.map fun source => source.rows.length).sum := by
  rw [totalSize, startSpots, List.map_map]
  rfl

theorem marks_startSpots : ∀ spot ∈ startSpots sources, spot.Marks .start := by
  intro spot member
  obtain ⟨source, _, rfl⟩ := List.mem_map.mp member
  exact ⟨Nat.zero_le _, rfl⟩

structure MergePage where
  limit : Nat
  schedules : List Schedule

namespace MergePage

def Legal (sources : List (Source T)) (page : MergePage) : Prop :=
  List.Forall₂ Source.Follows sources page.schedules

def Calm (page : MergePage) : Prop := ∀ schedule ∈ page.schedules, Delivers schedule

def fns (sources : List (Source T)) (page : MergePage) : List (CursorFunction T) :=
  List.zipWith openChild sources page.schedules

end MergePage

theorem fns_length {page : MergePage} (legal : page.Legal (spots.map Spot.source)) :
    (page.fns (spots.map Spot.source)).length = spots.length := by
  rw [MergePage.fns, List.length_zipWith, ← legal.length_eq, Nat.min_self, List.length_map]

variable {source : Source T}

private theorem openChild_eq (resumes : source.resume continuation = some position) :
    openChild source schedule continuation.toBytes = { source, schedule, position } := by
  cases continuation with
  | start =>
    cases resumes
    rfl
  | bytes b =>
    cases b with
    | nil | cons b bs =>
      cases resumes
      rfl
  | end_ => cases resumes

theorem reads_opened (follows : source.Follows schedule) (delivers : calm → Delivers schedule)
    (marks : Spot.Marks ⟨source, position⟩ continuation) (notEnd : continuation.isEnd = false) :
    Reads calm source position (some (openChild source schedule continuation.toBytes)) := by
  have resumes : source.resume continuation = some position := by
    cases continuation with
    | start => exact congrArg some marks.resumes
    | bytes b =>
      cases b with
      | nil | cons b bs => exact congrArg some marks.resumes
    | end_ => cases notEnd
  rw [openChild_eq resumes]
  exact .opened follows delivers

theorem open_children {newChild : CursorFunction T → Start → MergeChildState T} {R : Spot T → Start → Prop}
    (fresh : ∀ {spot schedule start}, spot.source.Follows schedule → (calm → Delivers schedule) → R spot start →
      Fresh calm spot (newChild (openChild spot.source schedule) start)) {schedules : List Schedule}
    (follows : List.Forall₂ Source.Follows (spots.map Spot.source) schedules)
    (delivers : calm → ∀ schedule ∈ schedules, Delivers schedule) {starts : List Start}
    (related : List.Forall₂ R spots starts) :
    List.Forall₂ (ChildAt calm) spots
      (List.zipWith newChild (List.zipWith openChild (spots.map Spot.source) schedules) starts) := by
  induction related generalizing schedules with
  | nil => exact .nil
  | cons here _ ih =>
    cases follows with
    | cons follow follows =>
      exact .cons (.inl (fresh follow (fun isCalm => delivers isCalm _ List.mem_cons_self) here))
        (ih follows fun isCalm schedule later => delivers isCalm schedule (List.mem_cons_of_mem _ later))

/-! ## Children that count -/

/-- A source whose continuations are as long as the rows before them. -/
def countedSource (rows : List T) : Source T := { rows, position := List.length }

def steady : Schedule := fun _ position => .deliver (List.replicate (position + 1) 0)

def paused : Schedule := fun pull position =>
  if pull = 1 then .stop .timeLimitReached (.bytes (List.replicate position 0)) else steady pull position

theorem steady_delivers : Delivers steady := fun _ _ => ⟨_, rfl⟩

theorem follows_steady (rows : List T) : (countedSource rows).Follows steady := by
  intro pull position _ _
  exact ⟨by simp, by simp [countedSource]⟩

theorem follows_paused (rows : List T) : (countedSource rows).Follows paused := by
  intro pull position inside
  rw [paused]
  split_ifs
  · refine ⟨rfl, ?_⟩
    cases position with
    | zero => rfl
    | succ position => simp [Source.resume, List.replicate_succ, countedSource]
  · exact follows_steady rows pull position inside

theorem steady_calm (limit : Nat) : MergePage.Calm ⟨limit, [steady, steady]⟩ := by
  intro schedule member
  have isSteady : schedule = steady := by simpa using member
  exact isSteady ▸ steady_delivers

theorem paused_legal (limit : Nat) (first second : List T) :
    ∀ page ∈ [MergePage.mk limit [paused, steady], ⟨limit, [steady, steady]⟩],
      page.Legal [countedSource first, countedSource second] :=
  List.forall_mem_cons.mpr ⟨.cons (follows_paused _) (.cons (follows_steady _) .nil),
    List.forall_mem_singleton.mpr (.cons (follows_steady _) (.cons (follows_steady _) .nil))⟩

end FdbGo.RecordLayer
