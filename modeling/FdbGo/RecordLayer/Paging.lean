import FdbGo.RecordLayer.Cursor

/-! Reading a cursor in pages: each page is opened from the serialized continuation of the
page before it. -/

set_option autoImplicit false

namespace FdbGo.RecordLayer

open Client

variable {Cursor Page Row : Type}

/-- Up to a number of rows, or until the cursor stops, and where the next page starts. -/
def readPage (onNext : Cursor → Except CursorError (RecordCursorResult Row × Cursor)) :
    Nat → Cursor → RecordCursorContinuation → Except CursorError (List Row × RecordCursorContinuation)
  | 0, _, continuation => .ok ([], continuation)
  | limit + 1, cursor, _ => do
    let (result, cursor) ← onNext cursor
    match result with
    | .noNext _ continuation => .ok ([], continuation)
    | .next row continuation =>
      let (rows, last) ← readPage onNext limit cursor continuation
      .ok (row :: rows, last)

/-- The rows of the pages, until a continuation is the end. -/
def readPages (onNext : Cursor → Except CursorError (RecordCursorResult Row × Cursor))
    (openPage : Page → Option Bytes → Except CursorError Cursor) (limit : Page → Nat) :
    List Page → RecordCursorContinuation → Except CursorError (List Row × RecordCursorContinuation)
  | [], continuation => .ok ([], continuation)
  | page :: pages, continuation =>
    if continuation.isEnd then .ok ([], continuation)
    else do
      let cursor ← openPage page continuation.toBytes
      let (rows, continuation) ← readPage onNext (limit page) cursor continuation
      let (more, last) ← readPages onNext openPage limit pages continuation
      .ok (rows ++ more, last)

/-- A call that returns a row goes on with a smaller state; one that stops leaves the rows
that are to be read. A calm page only stops at the end. -/
def Outcome {State : Type} (Goes : State → Cursor → Prop) (calm : Prop) (Meaning : State → List Row → Prop)
    (size : State → Nat) (state state' : State) (cursor' : Cursor) : RecordCursorResult Row → Prop
  | .next row _ =>
    Goes state' cursor' ∧ size state' < size state ∧ ∀ rows, Meaning state' rows → Meaning state (row :: rows)
  | .noNext _ continuation =>
    (calm → continuation = .end_) ∧ size state' ≤ size state ∧ ∀ rows, Meaning state' rows → Meaning state rows

/-- What a cursor that can be paged guarantees. A state says where the cursor stands, and
`Meaning` which rows are left there. -/
structure Pageable (onNext : Cursor → Except CursorError (RecordCursorResult Row × Cursor))
    (openPage : Page → Option Bytes → Except CursorError Cursor) {State : Type} (Legal Calm : Page → Prop)
    (Inv : Page → State → Cursor → Prop) (At : State → RecordCursorContinuation → Prop)
    (Meaning : State → List Row → Prop) (size : State → Nat) : Prop where
  opened : ∀ {page state continuation}, Legal page → At state continuation → continuation.isEnd = false →
    ∃ cursor, openPage page continuation.toBytes = .ok cursor ∧ Inv page state cursor
  ended : ∀ {state}, At state .end_ → Meaning state []
  next : ∀ {page state cursor}, Inv page state cursor →
    ∃ result cursor' state', onNext cursor = .ok (result, cursor') ∧ At state' result.getContinuation ∧
      Outcome (Inv page) (Calm page) Meaning size state state' cursor' result

namespace Pageable

variable {onNext : Cursor → Except CursorError (RecordCursorResult Row × Cursor)}
  {openPage : Page → Option Bytes → Except CursorError Cursor} {State : Type} {Legal Calm : Page → Prop}
  {Inv : Page → State → Cursor → Prop} {At : State → RecordCursorContinuation → Prop}
  {Meaning : State → List Row → Prop} {size : State → Nat} {continuation : RecordCursorContinuation} {state : State}

variable (pageable : Pageable onNext openPage Legal Calm Inv At Meaning size)

include pageable

theorem readPage_run {page : Page} (limit : Nat)
    {cursor : Cursor} (inv : Inv page state cursor) (stands : At state continuation) :
    ∃ rows last state', readPage onNext limit cursor continuation = .ok (rows, last) ∧ At state' last ∧
      size state' ≤ size state ∧ (∀ more, Meaning state' more → Meaning state (rows ++ more)) ∧
      (Calm page → size state < limit → last = .end_) := by
  induction limit generalizing state cursor continuation with
  | zero =>
    exact ⟨[], continuation, state, rfl, stands, le_rfl, fun _ left => left, fun _ never => absurd never (Nat.not_lt_zero _)⟩
  | succ limit ih =>
    obtain ⟨result, cursor', state', ran, stands', outcome⟩ := pageable.next inv
    cases result with
    | noNext reason last =>
      obtain ⟨ends, smaller, meaning⟩ := outcome
      refine ⟨[], last, state', ?_, stands', smaller, meaning, fun calm _ => ends calm⟩
      simp only [readPage, ran, bind, Except.bind]
    | next row last =>
      obtain ⟨inv', smaller, meaning⟩ := outcome
      have stands' : At state' last := stands'
      obtain ⟨rows, final, state'', read, standsFinal, shrunk, left, finishes⟩ := ih inv' stands'
      refine ⟨row :: rows, final, state'', ?_, standsFinal, by omega, fun more found => meaning _ (left more found),
        fun calm enough => finishes calm (by omega)⟩
      simp only [readPage, ran, read, bind, Except.bind]

omit pageable in
theorem readPages_end (limit : Page → Nat) (pages : List Page) :
    readPages onNext openPage limit pages .end_ = .ok ([], .end_) := by
  cases pages with
  | nil => rfl
  | cons page pages => rfl

/-- All pages: what they deliver comes before what is left, and a page without stops and
with a limit above what is left reaches the end. -/
theorem readPages_left (limit : Page → Nat)
    {pages : List Page} (legal : ∀ page ∈ pages, Legal page) (stands : At state continuation) :
    ∃ rows last state', readPages onNext openPage limit pages continuation = .ok (rows, last) ∧ At state' last ∧
      (∀ more, Meaning state' more → Meaning state (rows ++ more)) ∧
      ((∃ page ∈ pages, Calm page ∧ size state < limit page) → last = .end_) := by
  induction pages generalizing state continuation with
  | nil =>
    refine ⟨[], continuation, state, rfl, stands, fun _ left => left, fun found => ?_⟩
    obtain ⟨page, never, _⟩ := found
    exact absurd never List.not_mem_nil
  | cons page pages ih =>
    by_cases ends : continuation = .end_
    · subst ends
      exact ⟨[], .end_, state, readPages_end limit _, stands, fun _ left => left, fun _ => rfl⟩
    · have open_ : continuation.isEnd = false := Bool.eq_false_iff.mpr fun isEnd => ends (RecordCursorContinuation.isEnd_iff.mp isEnd)
      obtain ⟨cursor, opened, inv⟩ := pageable.opened (legal page List.mem_cons_self) stands open_
      obtain ⟨rows, next, state', read, stands', shrunk, left, finishes⟩ := pageable.readPage_run (limit page) inv stands
      obtain ⟨more, last, final, rest, standsFinal, complete, reaches⟩ :=
        ih (List.forall_mem_cons.mp legal).2 stands'
      refine ⟨rows ++ more, last, final, ?_, standsFinal, fun others found => ?_, fun found => ?_⟩
      · simp only [readPages, open_, opened, read, rest, bind, Except.bind, Bool.false_eq_true, if_false]
      · rw [List.append_assoc]
        exact left _ (complete others found)
      · obtain ⟨big, member, calm, enough⟩ := found
        cases List.mem_cons.mp member with
        | inl isPage =>
          subst isPage
          have ended := finishes calm enough
          subst ended
          rw [readPages_end] at rest
          cases rest
          rfl
        | inr later => exact reaches ⟨big, later, calm, by omega⟩

theorem readPages_run (limit : Page → Nat)
    {pages : List Page} (legal : ∀ page ∈ pages, Legal page) (stands : At state continuation) :
    ∃ rows last, readPages onNext openPage limit pages continuation = .ok (rows, last) ∧
      (last = .end_ → Meaning state rows) ∧
      ((∃ page ∈ pages, Calm page ∧ size state < limit page) → last = .end_) := by
  obtain ⟨rows, last, state', read, stands', left, reaches⟩ := pageable.readPages_left limit legal stands
  refine ⟨rows, last, read, fun isEnd => ?_, reaches⟩
  have complete := left [] (pageable.ended (isEnd ▸ stands'))
  rwa [List.append_nil] at complete

end Pageable

end FdbGo.RecordLayer
