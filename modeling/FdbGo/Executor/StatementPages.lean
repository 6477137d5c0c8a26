import FdbGo.RecordLayer.ChildCursor

/-! A statement read in pages. A cursor is opened for each page from the continuation of the
page before it; what it counts for the whole statement is passed on from page to page, and
the rows before an error are delivered. -/

set_option autoImplicit false

namespace FdbGo.Executor

open Client RecordLayer

/-- A cursor of a statement, with what the statement keeps between its pages. -/
structure StatementCursor (Cursor Shared Page Row Error : Type) where
  onNext : Cursor → Shared → Except Error (RecordCursorResult Row × Cursor × Shared)
  openPage : Page → Option Bytes → Shared → Except Error (Cursor × Shared)
  limit : Page → Nat

namespace StatementCursor

variable {Cursor Shared Page Row Error : Type}

def readRows (statement : StatementCursor Cursor Shared Page Row Error) :
    Nat → Cursor → Shared → RecordCursorContinuation → List Row × Except Error (RecordCursorContinuation × Shared)
  | 0, _, shared, continuation => ([], .ok (continuation, shared))
  | limit + 1, cursor, shared, _ =>
    match statement.onNext cursor shared with
    | .error error => ([], .error error)
    | .ok (.noNext _ continuation, _, shared) => ([], .ok (continuation, shared))
    | .ok (.next row continuation, cursor, shared) =>
      let (rows, ending) := statement.readRows limit cursor shared continuation
      (row :: rows, ending)

def readPages (statement : StatementCursor Cursor Shared Page Row Error) :
    List Page → RecordCursorContinuation → Shared → List Row × Except Error (RecordCursorContinuation × Shared)
  | [], continuation, shared => ([], .ok (continuation, shared))
  | page :: pages, continuation, shared =>
    if continuation.isEnd then ([], .ok (continuation, shared))
    else
      match statement.openPage page continuation.toBytes shared with
      | .error error => ([], .error error)
      | .ok (cursor, shared) =>
        match statement.readRows (statement.limit page) cursor shared continuation with
        | (rows, .error error) => (rows, .error error)
        | (rows, .ok (continuation, shared)) =>
          let (more, ending) := statement.readPages pages continuation shared
          (rows ++ more, ending)

def unshared (onNext : Cursor → Except Error (RecordCursorResult Row × Cursor))
    (openPage : Page → Option Bytes → Except Error Cursor) (limit : Page → Nat) :
    StatementCursor Cursor Unit Page Row Error where
  onNext cursor _ := (onNext cursor).map fun found => (found.1, found.2, ())
  openPage page continuation _ := (openPage page continuation).map fun cursor => (cursor, ())
  limit

end StatementCursor

section Contract

variable {Cursor Shared Page Row Error Spot : Type}

/-- What a statement has to deliver from each spot, and the error that follows the last row. -/
structure Remainder (Spot Row Error : Type) where
  left : Spot → List Row
  fate : Option Error

/-- A call delivers the first row that is left, stops before it, or fails when none is left.
A calm page only stops at the end. -/
def CallOutcome (remainder : Remainder Spot Row Error) (Goes : Spot → Cursor → Shared → Prop)
    (At : Spot → RecordCursorContinuation → Shared → Prop) (calm : Prop) (rows : List Row) :
    Except Error (RecordCursorResult Row × Cursor × Shared) → Prop
  | .error error => rows = [] ∧ remainder.fate = some error
  | .ok (.next row continuation, cursor, shared) =>
    ∃ spot, At spot continuation shared ∧ Goes spot cursor shared ∧ rows = row :: remainder.left spot
  | .ok (.noNext _ continuation, _, shared) =>
    ∃ spot, At spot continuation shared ∧ rows = remainder.left spot ∧ (calm → continuation = .end_)

/-- A page is opened where its continuation stands, or refused. -/
def OpenOutcome (Goes : Cursor → Shared → Prop) (Refused : Error → Prop) : Except Error (Cursor × Shared) → Prop
  | .error error => Refused error
  | .ok (cursor, shared) => Goes cursor shared

/-- What a cursor guarantees so that a statement can be read in pages. -/
structure StatementPageable (statement : StatementCursor Cursor Shared Page Row Error) (Legal Calm : Page → Prop)
    (Inv : Page → Spot → Cursor → Shared → Prop) (At : Spot → RecordCursorContinuation → Shared → Prop)
    (remainder : Remainder Spot Row Error) (Refused : Spot → Error → Prop) : Prop where
  opened : ∀ {page spot continuation shared}, Legal page → At spot continuation shared → continuation.isEnd = false →
    OpenOutcome (fun cursor shared => Inv page spot cursor shared ∧ At spot continuation shared) (Refused spot)
      (statement.openPage page continuation.toBytes shared)
  ended : ∀ {spot shared}, At spot .end_ shared → remainder.left spot = [] ∧ remainder.fate = none
  next : ∀ {page spot cursor shared}, Inv page spot cursor shared →
    CallOutcome remainder (Inv page) At (Calm page) (remainder.left spot) (statement.onNext cursor shared)

/-- What was read comes before what is left where the reading ended. -/
def ReadOutcome (remainder : Remainder Spot Row Error) (At : Spot → RecordCursorContinuation → Shared → Prop)
    (Refused : Spot → Error → Prop) (all : List Row) :
    List Row × Except Error (RecordCursorContinuation × Shared) → Prop
  | (rows, .ok (last, shared)) => ∃ spot, At spot last shared ∧ rows ++ remainder.left spot = all
  | (rows, .error error) =>
    (rows = all ∧ remainder.fate = some error) ∨ ∃ spot, Refused spot error ∧ rows ++ remainder.left spot = all

def Finished : List Row × Except Error (RecordCursorContinuation × Shared) → Prop
  | (_, .ok (last, _)) => last = .end_
  | (_, .error _) => True

variable {ending : Except Error (RecordCursorContinuation × Shared)} {rows : List Row}

theorem ReadOutcome.prepend {remainder : Remainder Spot Row Error}
    {At : Spot → RecordCursorContinuation → Shared → Prop} {Refused : Spot → Error → Prop} {all : List Row}
    (outcome : ReadOutcome remainder At Refused all (rows, ending)) (front : List Row) :
    ReadOutcome remainder At Refused (front ++ all) (front ++ rows, ending) := by
  cases ending with
  | error error =>
    cases outcome with
    | inl failed => exact .inl ⟨congrArg (front ++ ·) failed.1, failed.2⟩
    | inr refused =>
      obtain ⟨spot, isRefused, whole⟩ := refused
      exact .inr ⟨spot, isRefused, by rw [List.append_assoc, whole]⟩
  | ok found =>
    obtain ⟨spot, stands, whole⟩ := outcome
    exact ⟨spot, stands, by rw [List.append_assoc, whole]⟩

theorem Finished.of_ending {more : List Row} (finished : Finished (rows, ending)) : Finished (more, ending) := by
  cases ending with
  | error error => trivial
  | ok found => exact finished

namespace StatementPageable

variable {statement : StatementCursor Cursor Shared Page Row Error} {Legal Calm : Page → Prop}
  {Inv : Page → Spot → Cursor → Shared → Prop} {At : Spot → RecordCursorContinuation → Shared → Prop}
  {remainder : Remainder Spot Row Error} {Refused : Spot → Error → Prop}
    {continuation : RecordCursorContinuation} {shared : Shared} {spot : Spot}

theorem readRows_run (pageable : StatementPageable statement Legal Calm Inv At remainder Refused) {page : Page}
    (limit : Nat) {cursor : Cursor} (inv : Inv page spot cursor shared) (stands : At spot continuation shared) :
    ReadOutcome remainder At (fun _ _ => False) (remainder.left spot)
        (statement.readRows limit cursor shared continuation) ∧
      (Calm page → (remainder.left spot).length < limit →
        Finished (statement.readRows limit cursor shared continuation)) := by
  induction limit generalizing spot cursor shared continuation with
  | zero => exact ⟨⟨spot, stands, List.nil_append _⟩, fun _ never => absurd never (Nat.not_lt_zero _)⟩
  | succ limit ih =>
    have outcome := pageable.next inv
    rw [StatementCursor.readRows]
    cases called : statement.onNext cursor shared with
    | error error =>
      rw [called] at outcome
      exact ⟨.inl ⟨outcome.1.symm, outcome.2⟩, fun _ _ => trivial⟩
    | ok found =>
      obtain ⟨result, cursor', shared'⟩ := found
      rw [called] at outcome
      cases result with
      | noNext reason last =>
        obtain ⟨spot', stands', same, ends⟩ := outcome
        exact ⟨⟨spot', stands', same.symm⟩, fun calm _ => ends calm⟩
      | next row last =>
        obtain ⟨spot', stands', inv', isRow⟩ := outcome
        obtain ⟨read, finishes⟩ := ih inv' stands'
        rw [isRow]
        dsimp only
        cases rest : statement.readRows limit cursor' shared' last with
        | mk rows ending =>
          rw [rest] at read finishes
          refine ⟨read.prepend [row], fun calm enough => ?_⟩
          rw [List.length_cons] at enough
          exact (finishes calm (by omega)).of_ending

private theorem readPages_end (statement : StatementCursor Cursor Shared Page Row Error) (pages : List Page) (shared : Shared) :
    statement.readPages pages .end_ shared = ([], .ok (.end_, shared)) := by
  cases pages with
  | nil => rfl
  | cons page pages => rfl

/-- All pages: what they deliver comes before what is left. A page without early stops and
with a limit above what is left comes to the end or to the error. -/
theorem readPages_run (pageable : StatementPageable statement Legal Calm Inv At remainder Refused) {pages : List Page}
    (legal : ∀ page ∈ pages, Legal page) (stands : At spot continuation shared) :
    ReadOutcome remainder At Refused (remainder.left spot) (statement.readPages pages continuation shared) ∧
      ((∃ page ∈ pages, Calm page ∧ (remainder.left spot).length < statement.limit page) →
        Finished (statement.readPages pages continuation shared)) := by
  induction pages generalizing spot continuation shared with
  | nil =>
    refine ⟨⟨spot, stands, List.nil_append _⟩, fun found => ?_⟩
    obtain ⟨page, never, _⟩ := found
    exact absurd never List.not_mem_nil
  | cons page pages ih =>
    by_cases ends : continuation = .end_
    · subst ends
      rw [readPages_end]
      exact ⟨⟨spot, stands, List.nil_append _⟩, fun _ => rfl⟩
    · have open_ : continuation.isEnd = false :=
        Bool.eq_false_iff.mpr fun isEnd => ends (RecordCursorContinuation.isEnd_iff.mp isEnd)
      have outcome := pageable.opened (legal page List.mem_cons_self) stands open_
      rw [StatementCursor.readPages, open_, if_neg Bool.false_ne_true]
      cases opening : statement.openPage page continuation.toBytes shared with
      | error error =>
        rw [opening] at outcome
        exact ⟨.inr ⟨spot, outcome, List.nil_append _⟩, fun _ => trivial⟩
      | ok found =>
        obtain ⟨cursor, shared'⟩ := found
        rw [opening] at outcome
        obtain ⟨inv, stands'⟩ := outcome
        obtain ⟨read, finishes⟩ := pageable.readRows_run (statement.limit page) inv stands'
        dsimp only
        cases pageRead : statement.readRows (statement.limit page) cursor shared' continuation with
        | mk rows ending =>
          rw [pageRead] at read finishes
          cases ending with
          | error error => exact ⟨.inl (read.resolve_right fun never => never.elim fun _ => And.left), fun _ => trivial⟩
          | ok found =>
            obtain ⟨next, sharedNext⟩ := found
            obtain ⟨spot', standsNext, whole⟩ := read
            obtain ⟨readRest, finishesRest⟩ :=
              ih (List.forall_mem_cons.mp legal).2 standsNext
            rw [← whole]
            dsimp only
            refine ⟨readRest.prepend rows, fun found => ?_⟩
            obtain ⟨big, member, calm, enough⟩ := found
            cases List.mem_cons.mp member with
            | inl isPage =>
              subst isPage
              have ended : next = .end_ := finishes calm (whole ▸ enough)
              subst ended
              rw [readPages_end]
              rfl
            | inr later =>
              rw [List.length_append] at enough
              exact (finishesRest ⟨big, later, calm, by omega⟩).of_ending

/-- Where no error follows the last row, reading fails at a page that the continuation of
those before it does not open. -/
theorem readPages_refused (pageable : StatementPageable statement Legal Calm Inv At remainder Refused)
    (fine : remainder.fate = none) {pages : List Page} (legal : ∀ page ∈ pages, Legal page)
    (stands : At spot continuation shared) {error : Error}
    (failed : statement.readPages pages continuation shared = (rows, .error error)) :
    ∃ front page more spot last shared', pages = front ++ page :: more ∧
      statement.readPages front continuation shared = (rows, .ok (last, shared')) ∧ At spot last shared' ∧
      last.isEnd = false ∧ statement.openPage page last.toBytes shared' = .error error := by
  induction pages generalizing spot continuation shared rows with
  | nil => cases failed
  | cons page pages ih =>
    cases open_ : continuation.isEnd with
    | true =>
      rw [StatementCursor.readPages, open_] at failed
      cases failed
    | false =>
      have outcome := pageable.opened (legal page List.mem_cons_self) stands open_
      have first : ∀ others, statement.readPages (page :: others) continuation shared = _ := fun others => by
        rw [StatementCursor.readPages, open_, if_neg Bool.false_ne_true]
      rw [first] at failed
      cases opening : statement.openPage page continuation.toBytes shared with
      | error other =>
        rw [opening] at failed
        cases failed
        exact ⟨[], page, pages, spot, continuation, shared, rfl, rfl, stands, open_, opening⟩
      | ok found =>
        rw [opening] at failed outcome first
        have read := (pageable.readRows_run (statement.limit page) outcome.1 outcome.2).1
        dsimp only at failed first
        cases pageRead : statement.readRows (statement.limit page) found.1 found.2 continuation with
        | mk some ending =>
          rw [pageRead] at failed read first
          cases ending with
          | error other =>
            have fails := (read.resolve_right fun never => never.elim fun _ => And.left).2
            rw [fine] at fails
            cases fails
          | ok next =>
            obtain ⟨spot', stands', -⟩ := read
            cases rest : statement.readPages pages next.1 next.2 with
            | mk more ending =>
              dsimp only at failed
              rw [rest] at failed
              cases failed
              obtain ⟨front, refused, later, spot'', last, shared'', split, isFront, standing⟩ :=
                ih (List.forall_mem_cons.mp legal).2 stands' rest
              refine ⟨page :: front, refused, later, spot'', last, shared'', by rw [split, List.cons_append], ?_, standing⟩
              rw [first]
              dsimp only
              rw [isFront]

end StatementPageable

end Contract

end FdbGo.Executor
