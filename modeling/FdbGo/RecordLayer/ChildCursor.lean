import FdbGo.RecordLayer.MergeChildren

/-! One resumable child: where optional bytes open it, and what a pull can give. -/

set_option autoImplicit false

namespace FdbGo.RecordLayer

open Client

variable {T : Type} {calm : Prop} {source : Source T} {position : Nat} {cursor : ChildCursor T}

/-- Where a cursor starts when it is opened with the bytes of a continuation. -/
def Source.openedAt (source : Source T) : Option Bytes → Nat
  | none | some [] => 0
  | some b => source.position b

variable {continuation : RecordCursorContinuation}

theorem Source.openedAt_of_resume (resumes : source.resume continuation = some position) :
    source.openedAt continuation.toBytes = position := by
  cases continuation with
  | start => exact Option.some.inj resumes
  | bytes b => cases b <;> exact Option.some.inj resumes
  | end_ => cases resumes

theorem Source.notEnd_of_resume (resumes : source.resume continuation = some position) :
    continuation.isEnd = false := by
  cases continuation with
  | start => rfl
  | bytes b => rfl
  | end_ => cases resumes

private theorem openChild_openedAt (source : Source T) (schedule : Schedule) (bytes : Option Bytes) :
    openChild source schedule bytes = { source, schedule, position := source.openedAt bytes } := by
  cases bytes with
  | none => rfl
  | some b => cases b <;> rfl

/-- A cursor over the source that stands at the position. A calm one never stops early. -/
structure OpenAt (calm : Prop) (source : Source T) (position : Nat) (cursor : ChildCursor T) : Prop where
  reads : cursor.source = source
  here : cursor.position = position
  inside : position ≤ source.rows.length
  follows : source.Follows cursor.schedule
  delivers : calm → Delivers cursor.schedule

theorem openAt_opened {schedule : Schedule} {bytes : Option Bytes} (follows : source.Follows schedule)
    (delivers : calm → Delivers schedule) (here : source.openedAt bytes = position)
    (inside : position ≤ source.rows.length) : OpenAt calm source position (openChild source schedule bytes) := by
  rw [openChild_openedAt]
  exact ⟨rfl, here, inside, follows, delivers⟩

/-- The outcome of a pull: a row, the end, or a stop where the cursor can be resumed. -/
inductive Pulled (calm : Prop) (source : Source T) (position : Nat) :
    RecordCursorResult T × ChildCursor T → Prop
  | row {value : T} {mark : Bytes} {cursor : ChildCursor T} (here : source.rows[position]? = some value)
      (resumes : source.resume (.bytes mark) = some (position + 1))
      (next : OpenAt calm source (position + 1) cursor) : Pulled calm source position (.next value (.bytes mark), cursor)
  | exhausted {cursor : ChildCursor T} (atEnd : position = source.rows.length) :
      Pulled calm source position (.noNext .sourceExhausted .end_, cursor)
  | stopped {reason : NoNextReason} {continuation : RecordCursorContinuation} {cursor : ChildCursor T}
      (restless : ¬ calm) (isLimit : reason.isLimitReached = true)
      (resumes : source.resume continuation = some position) :
      Pulled calm source position (.noNext reason continuation, cursor)

/-- A child that stands open gives its next row, or stops where it stands. -/
theorem OpenAt.onNext (stands : OpenAt calm source position cursor) : Pulled calm source position cursor.onNext := by
  obtain ⟨rfl, rfl, inside, follows, delivers⟩ := stands
  have allowed := follows cursor.pulls cursor.position inside
  unfold ChildCursor.onNext
  cases pull : cursor.schedule cursor.pulls cursor.position with
  | stop reason continuation =>
    rw [pull] at allowed
    refine .stopped (fun isCalm => ?_) allowed.1 allowed.2
    obtain ⟨mark, delivered⟩ := delivers isCalm cursor.pulls cursor.position
    rw [delivered] at pull
    cases pull
  | deliver mark =>
    rw [pull] at allowed
    cases row : cursor.source.rows[cursor.position]? with
    | none => exact .exhausted (Nat.le_antisymm inside (List.getElem?_eq_none_iff.mp row))
    | some value =>
      obtain ⟨less, -⟩ := List.getElem?_eq_some_iff.mp row
      obtain ⟨nonempty, moved⟩ := allowed less
      refine .row row ?_ ⟨rfl, rfl, less, follows, delivers⟩
      cases mark with
      | nil => exact absurd rfl nonempty
      | cons b bs => exact congrArg some moved

end FdbGo.RecordLayer
