import FdbGo.Client.GrvMachineProperties

/-! Read your committed writes: a read that begins after a commit has returned is not
answered below the committed version in the epoch of the commit, and it decides on what
was published under the epoch of its own fence load. -/

set_option autoImplicit false

namespace FdbGo.Client

open Foundation

/-- A run in which the halves of the fence word do not wrap. -/
def Unwrapped : GrvState → GrvState → Prop := Reaches (guarded GrvState.unwrapped GrvState.step)

variable {s s' : GrvState} {t : GrvThread}

/-- A run whose bumps do not wrap keeps the shared state valid. -/
theorem Unwrapped.valid (run : Unwrapped s s') (valid : Valid s) : Valid s' := by
  refine Reaches.keeps run (fun s a s' valid stepped => ?_) valid
  obtain ⟨unwrapped, stepped⟩ := guarded_eq_some_iff.mp stepped
  exact valid.step unwrapped (transition_of_step stepped)

/-- A read holds an entry, or was answered, at or above `v`, if the epoch is still that of
the token. -/
def AnswerAbove (tok : Nat) (v : Int) (s : GrvShared) : GrvThread → Prop
  | .tryCache _ (.loadFences a) => ∃ cell, s.cells[a]? = some cell ∧
      (fenceEpoch s.fences ≤ fenceEpoch tok → v ≤ cell.entry.floor)
  | .tryCache _ (.returned (some (x, _)) (some (_, epoch))) => epoch = fenceEpoch tok → v ≤ x
  | _ => True

/-- A read that began late enough is above `v`. -/
def ReaderAbove (tok : Nat) (v : Int) (n : Nat) (s : GrvShared) (i : Nat) (t : GrvThread) : Prop :=
  n ≤ i → AnswerAbove tok v s t

/-- After a commit of `v` under `tok` has returned: its floor stands, or its epoch is over. -/
structure Committed (tok : Nat) (v : Int) (n : Nat) (s : GrvState) : Prop where
  valid : Valid s
  floor : v ≤ 0 ∨
    (∃ cell ∈ s.shared.cells, cell.entry.epoch = fenceEpoch tok ∧ v ≤ cell.entry.floor) ∨
      fenceEpoch tok < fenceEpoch s.shared.fences
  readers : AllThreads (ReaderAbove tok v n s.shared) s.threads

variable {tok n : Nat} {v : Int} {i : Nat}

theorem AnswerAbove.extends {s s' : GrvShared} (extended : Extends s s') (above : AnswerAbove tok v s t) :
    AnswerAbove tok v s' t := by
  unfold AnswerAbove at above ⊢
  split at above
  case h_1 =>
    obtain ⟨cell, found, floor⟩ := above
    exact ⟨cell, extended.cell found, fun notPast => floor (le_trans extended.epoch notPast)⟩
  case h_2 => exact above
  case h_3 => trivial

theorem Committed.entry (committed : Committed tok v n s) {a : Nat} {cell : GrvCell}
    (isEntry : s.shared.entry = some a) (found : s.shared.cells[a]? = some cell)
    (current : fenceEpoch s.shared.fences ≤ fenceEpoch tok) : v ≤ cell.entry.floor := by
  rcases committed.floor with low | ⟨other, member, epoch, floor⟩ | past
  · exact le_trans low (committed.valid.shared.cells cell (List.mem_of_getElem? found)).nonneg
  · have same : other.entry.epoch = fenceEpoch s.shared.fences :=
      le_antisymm (committed.valid.shared.epochs other member) (epoch ▸ current)
    obtain ⟨top, isTop, -, above⟩ := committed.valid.shared.floors other member same
    obtain rfl : cell = top := by
      simpa [GrvShared.deref, isEntry, found] using isTop
    exact le_trans floor above
  · exact absurd past current.not_gt

theorem Committed.moved (committed : Committed tok v n s) {t' : GrvThread} {shared' : GrvShared}
    (found : s.threads[i]? = some t) (moves : Moves s.shared i t shared' t') : ReaderAbove tok v n shared' i t' := by
  intro late
  have above := committed.readers i t found late
  cases moves with
  | @readerFinds priority a isEntry =>
    have inside := committed.valid.shared.pointer a isEntry
    refine ⟨s.shared.cells[a], List.getElem?_eq_getElem inside, fun current => ?_⟩
    exact committed.entry isEntry (List.getElem?_eq_getElem inside) current
  | @readerServes priority a cell nowT isCell current =>
    cases answer : serve cell.entry priority nowT with
    | none => trivial
    | some pair =>
      obtain ⟨x, anchor⟩ := pair
      intro epoch
      obtain ⟨held, isHeld, floor⟩ := above
      obtain rfl := Option.some.inj (isCell.symm.trans isHeld)
      exact le_trans (floor (le_of_eq epoch)) (serve_eq_some answer).2.2
  | _ => trivial

theorem Committed.step {a : GrvAction} (committed : Committed tok v n s) (unwrapped : s.unwrapped a = true)
    (transition : Transition s a s') : Committed tok v n s' := by
  have extended := transition.extends committed.valid unwrapped
  refine ⟨committed.valid.step unwrapped transition, ?_, ?_⟩
  · rcases committed.floor with low | ⟨cell, member, facts⟩ | past
    · exact .inl low
    · exact .inr (.inl ⟨cell, extended.mem member, facts⟩)
    · exact .inr (.inr (lt_of_lt_of_le past extended.epoch))
  · refine transition.allThreads committed.readers (fun t begins late => ?_)
      (fun i t shared' t' found moves => committed.moved found moves)
      fun i t _ above late => (above late).extends extended
    cases begins <;> trivial

theorem Valid.committed (valid : Valid s) {p : Nat} {r : Reply} {sameEpoch : Bool}
    (returned : s.threads[p]? = some (.publisher tok (.returned r sameEpoch))) (durable : r.durable = true) :
    Committed tok r.v s.threads.length s := by
  obtain ⟨-, -, publisherOk⟩ := valid.threads p _ returned
  obtain ⟨kept, refused⟩ := publisherOk durable
  refine ⟨valid, ?_, fun i t found => ?_⟩
  · cases sameEpoch with
    | true =>
      cases kept rfl with
      | inl low => exact .inl low
      | inr stands => exact .inr (.inl stands)
    | false => exact .inr (.inr (refused rfl))
  · -- No thread of this state began after it.
    obtain ⟨early, -⟩ := List.getElem?_eq_some_iff.mp found
    exact fun late => absurd early late.not_gt

/-- Once a commit of `r.v` under `tok` has returned, a read that begins later and is
answered under the epoch of the token is answered at least that version. Every read
decides on an entry whose version and floor were published under the epoch of its fence
load. -/
theorem committed_version_read_back {s s' : GrvState} (reached : Unwrapped {} s) (later : Unwrapped s s') :
    (∀ (p tok : Nat) (r : Reply) (sameEpoch : Bool),
      s.threads[p]? = some (GrvThread.publisher tok (.returned r sameEpoch)) → r.durable = true →
      ∀ (i priority a : Nat) (x : Int) (anchor : GoTime), s.threads.length ≤ i →
        s'.threads[i]? = some (GrvThread.tryCache priority
          (.returned (some (x, anchor)) (some (a, fenceEpoch tok)))) → r.v ≤ x) ∧
    ∀ (i priority : Nat) (answer : Option (Int × GoTime)) (consulted : Option (Nat × Nat)),
      s'.threads[i]? = some (GrvThread.tryCache priority (.returned answer consulted)) →
      (consulted = none → answer = none) ∧
      ∀ a epoch, consulted = some (a, epoch) →
        ∃ cell : GrvCell, s'.shared.cells[a]? = some cell ∧
          (∀ x anchor, answer = some (x, anchor) → cell.entry.version = x ∧ x ≠ 0 ∧ cell.entry.floor ≤ x) ∧
          (cell.entry.version ≠ 0 → ∃ q tok r, cell.source = some q ∧ Published s'.threads q tok r ∧
            r.v = cell.entry.version ∧ fenceEpoch tok = epoch) ∧
          (cell.entry.floor ≠ 0 → ∃ q tok r, Published s'.threads q tok r ∧ r.durable = true ∧
            r.v = cell.entry.floor ∧ fenceEpoch tok = epoch) := by
  have valid := reached.valid .empty
  constructor
  · intro p tok r sameEpoch returned durable i priority a x anchor late answered
    have committed : Committed tok r.v s.threads.length s' := by
      refine Reaches.keeps later (fun s a s' committed stepped => ?_) (valid.committed returned durable)
      obtain ⟨unwrapped, stepped⟩ := guarded_eq_some_iff.mp stepped
      exact committed.step unwrapped (transition_of_step stepped)
    exact committed.readers i _ answered late rfl
  · intro i priority answer consulted returned
    have valid' := later.valid valid
    have threadOk := valid'.threads i _ returned
    refine ⟨fun isNone => ?_, fun a epoch isSome => ?_⟩
    · subst isNone
      exact threadOk
    · subst isSome
      obtain ⟨cell, found, rfl, answers⟩ := threadOk
      have cellOk := valid'.shared.cells cell (List.mem_of_getElem? found)
      exact ⟨cell, found, answers, cellOk.version, cellOk.floor⟩

theorem committed_version_read_back_after_commit :
    ∃ (s s' : GrvState) (x : Int), Unwrapped {} s ∧ Unwrapped s s' ∧
      s.threads[0]? = some (.publisher 0 (.returned { durable := true, v := 7 } true)) ∧
      s'.threads[1]? = some (.tryCache 0 (.returned (some (x, {})) (some (0, 0)))) ∧ 7 ≤ x := by
  have reached : Unwrapped {} _ := reaches_of_foldlM
    (show ([.dispatch, .publish 0 { durable := true, v := 7 }, .run 0 {}, .run 0 {}, .run 0 {}] :
        List GrvAction).foldlM (guarded GrvState.unwrapped GrvState.step) {} = some _ from rfl)
  have later : Unwrapped _ _ := reaches_of_foldlM
    (show ([.tryCache 0, .run 1 {}, .run 1 {}] : List GrvAction).foldlM
        (guarded GrvState.unwrapped GrvState.step)
        { shared := { cells := [{ entry := { version := 7, floor := 7 }, source := some 0 }], entry := some 0 },
          threads := [.publisher 0 (.returned { durable := true, v := 7 } true)] } = some _ from rfl)
  refine ⟨_, _, 7, reached, later, rfl, rfl, ?_⟩
  exact (committed_version_read_back reached later).1 0 0 { durable := true, v := 7 } true rfl rfl
    1 0 0 7 {} le_rfl rfl

end FdbGo.Client
