import FdbGo.Client.GrvMachineProperties

/-! Invalidation. A read answered after an invalidation has returned gets the version of
a publisher that captured its token after the invalidation began, unless the invalidation
returned while the read held an older entry, or found the cache empty while an older
publisher was about to fill it. -/

set_option autoImplicit false

namespace FdbGo.Client

open Foundation

/-! ## The races -/

/-- The thread is not about to swap a version into an empty cache on the word of a fence
load that still matched its token. -/
def GrvThread.harmless : GrvThread → Bool
  | .publisher tok (.swap r none obs) => obs != tok || decide (r.v ≤ 0)
  | _ => true

/-- The version of the entry, if it has one, is of a publisher begun after `q`. -/
def FreshCell (q : Nat) (cell : GrvCell) : Prop :=
  cell.entry.version = 0 ∨ ∃ p ∈ cell.source, q < p

instance decidableFreshCell (q : Nat) (cell : GrvCell) : Decidable (FreshCell q cell) := by
  unfold FreshCell
  infer_instance

/-- The address of the entry that a read has loaded and has not yet answered from. -/
def GrvThread.pending : GrvThread → Option Nat
  | .tryCache _ (.loadFences a) => some a
  | _ => none

/-- A read in flight holds no version of a publisher begun before `q`. -/
def PendingFresh (q : Nat) (s : GrvShared) (_i : Nat) (t : GrvThread) : Prop :=
  ∀ a ∈ t.pending, ∃ cell ∈ s.cells[a]?, FreshCell q cell

instance decidablePendingFresh (q : Nat) (s : GrvShared) (i : Nat) (t : GrvThread) :
    Decidable (PendingFresh q s i t) := by
  unfold PendingFresh
  infer_instance

/-- The invalidation `q` returns with its next step. -/
def GrvState.returning (s : GrvState) (q : Nat) : Bool :=
  match s.threads[q]? with
  | some (.invalidate .loadEntry) => s.shared.entry.isNone
  | some (.invalidate (.swap cur)) => s.shared.entry == some cur
  | _ => false

/-- The step is not that with which an invalidation returns while a read in flight holds an
older version, or leaves the cache empty while an older publisher is about to fill it. -/
def GrvState.noRace (s : GrvState) : GrvAction → Bool
  | .run q _ => !s.returning q || s.threads.all (PendingFresh q s.shared q) &&
      (s.shared.entry.isSome || (s.threads.take q).all GrvThread.harmless)
  | _ => true

def GrvState.orderly (s : GrvState) (a : GrvAction) : Bool := s.unwrapped a && s.noRace a

def Orderly : GrvState → GrvState → Prop := Reaches (guarded GrvState.orderly GrvState.step)

variable {q tok i : Nat} {a : GrvAction} {t t' : GrvThread} {shared' : GrvShared}
    {s s' : GrvState} {obs n : Nat} {r : Reply} {nowT : GoTime} {p : Nat}

theorem noRace_run (noRace : s.noRace (.run q nowT) = true) (returning : s.returning q = true) :
    AllThreads (PendingFresh q s.shared) s.threads ∧
      (s.shared.entry = none → ∀ t ∈ s.threads.take q, t.harmless = true) := by
  have both : (∀ t ∈ s.threads, PendingFresh q s.shared q t) ∧
      (s.shared.entry.isSome = true ∨ ∀ t ∈ s.threads.take q, t.harmless = true) := by
    simpa [GrvState.noRace, returning] using noRace
  refine ⟨fun i t found => both.1 t (List.mem_of_getElem? found), fun empty => ?_⟩
  exact both.2.resolve_left (by simp [empty])

private theorem harmless_swap (harmless : ∀ t ∈ s.threads.take q, t.harmless = true) (before : p < q)
    (swaps : s.threads[p]? = some (.publisher tok (.swap r none obs))) (matched : obs = tok) : r.v ≤ 0 := by
  have member : GrvThread.publisher tok (.swap r none obs) ∈ s.threads.take q := by
    refine List.mem_of_getElem? (i := p) ?_
    rw [List.getElem?_take_of_lt before, swaps]
  simpa [GrvThread.harmless, matched] using harmless _ member

/-! ## Invariants -/

def InvalidatePc.bumped : InvalidatePc → Bool
  | .bumpLoad | .bumpSwap _ => false
  | .loadEntry | .swap _ | .returned => true

/-- The publishers begun before a bump hold tokens of an earlier generation. -/
def Outdated (s : GrvState) : Prop :=
  ∀ (q : Nat) (pc : InvalidatePc), s.threads[q]? = some (.invalidate pc) → pc.bumped = true →
    ∀ (p tok : Nat) (pc' : PublisherPc), s.threads[p]? = some (.publisher tok pc') → p < q →
      fenceGen tok < fenceGen s.shared.fences

/-- A publisher begun before `q` that could still swap has nothing to install. -/
def SwapOk (q : Nat) (s : GrvShared) (i : Nat) : GrvThread → Prop
  | .publisher tok (.swap r cur obs) => i < q → cur = s.entry → obs = tok → cur = none ∧ r.v ≤ 0
  | _ => True

structure Retired (q : Nat) (s : GrvState) : Prop where
  entry : ∀ cell, s.shared.deref s.shared.entry = some cell → FreshCell q cell
  swaps : AllThreads (SwapOk q s.shared) s.threads
  readers : AllThreads (PendingFresh q s.shared) s.threads

structure Sound (s : GrvState) : Prop where
  valid : Valid s
  outdated : Outdated s
  retired : ∀ q, s.threads[q]? = some (.invalidate .returned) → Retired q s

theorem Sound.empty : Sound {} where
  valid := .empty
  outdated := by
    intro q pc found
    simp at found
  retired q found := by simp at found

/-! ## Tokens -/

theorem Transition.publisher_origin (transition : Transition s a s') {pc : PublisherPc}
    (found : s'.threads[p]? = some (.publisher tok pc)) :
    p = s.threads.length ∨
      ∃ tok' pc', s.threads[p]? = some (.publisher tok' pc') ∧ fenceGen tok' = fenceGen tok := by
  cases transition with
  | begins _ =>
    cases thread_append_cases found with
    | inl new => exact .inl new.1
    | inr old => exact .inr ⟨tok, pc, old, rfl⟩
  | moves here moves =>
    cases thread_set_cases found with
    | inl moved =>
      obtain ⟨rfl, rfl⟩ := moved
      cases moves with
      | rebinds => exact .inr ⟨_, _, here, (fenceGen_withEpoch _ _).symm⟩
      | _ => exact .inr ⟨tok, _, here, rfl⟩
    | inr other => exact .inr ⟨tok, pc, other.2, rfl⟩

/-- An invalidation that has bumped the fences did so before, or in this step. -/
theorem Transition.bumped_origin (transition : Transition s a s') (unwrapped : s.unwrapped a = true)
    {pc : InvalidatePc} (found : s'.threads[q]? = some (.invalidate pc)) (bumped : pc.bumped = true) :
    (∃ pc', s.threads[q]? = some (.invalidate pc') ∧ pc'.bumped = true) ∨
      fenceGen s'.shared.fences = fenceGen s.shared.fences + 1 := by
  cases transition with
  | begins begins =>
    cases thread_append_cases found with
    | inl new =>
      obtain ⟨-, rfl⟩ := new
      cases begins
      cases bumped
    | inr old => exact .inl ⟨pc, old, bumped⟩
  | moves here moves runs =>
    cases thread_set_cases found with
    | inr other => exact .inl ⟨pc, other.2, bumped⟩
    | inl moved =>
      obtain ⟨rfl, rfl⟩ := moved
      cases moves with
      | invalidateBumps =>
        exact .inr (fenceGen_bumped (unwrapped_run here runs unwrapped (by simp [GrvThread.bumps])) false)
      | invalidateLoads | invalidateBumpRetries _ => cases bumped
      | _ => exact .inl ⟨_, here, rfl⟩

theorem Transition.length_le (transition : Transition s a s') : s'.threads.length ≤ s.threads.length + 1 := by
  cases transition <;> simp [GrvState.spawn]

theorem Outdated.step (outdated : Outdated s) (valid : Valid s) (unwrapped : s.unwrapped a = true)
    (transition : Transition s a s') : Outdated s' := by
  intro q pc found bumped p tok pc' publishes before
  have length := transition.length_le
  have gen := (transition.extends valid unwrapped).gen
  obtain ⟨inside, -⟩ := List.getElem?_eq_some_iff.mp found
  cases transition.publisher_origin publishes with
  | inl new => omega
  | inr old =>
    obtain ⟨tok', pc'', published, sameGen⟩ := old
    rw [← sameGen]
    cases transition.bumped_origin unwrapped found bumped with
    | inl earlier =>
      obtain ⟨pc₀, invalidates, wasBumped⟩ := earlier
      exact lt_of_lt_of_le (outdated q pc₀ invalidates wasBumped p tok' pc'' published before) gen
    | inr now =>
      rw [now]
      exact Nat.lt_succ_of_le (valid.threads p _ published).1

/-! ## Retirement -/

theorem deref_publishCell (s : GrvShared) (cell : GrvCell) :
    (s.publishCell cell).deref (s.publishCell cell).entry = some cell := by
  simp [GrvShared.publishCell, GrvShared.deref]

/-- A merge is fresh when the entry merged into is and the reply, if its version is
taken, is of a publisher begun after `q`. -/
theorem mergedCell_fresh {cur : Option GrvCell} (current : fenceEpoch obs = fenceEpoch tok)
    (curFresh : ∀ cell, cur = some cell → FreshCell q cell)
    (own : takesVersion (cur.map GrvCell.entry) obs tok r = true → r.v = 0 ∨ q < i) :
    FreshCell q (mergedCell i cur obs tok r) := by
  have version : (mergedCell i cur obs tok r).entry.version = _ := mergeReply_version current
  unfold FreshCell
  rw [version]
  cases takes : takesVersion (cur.map GrvCell.entry) obs tok r with
  | true =>
    cases own takes with
    | inl zero => exact .inl (by simp [zero])
    | inr later => exact .inr ⟨i, by simp [mergedCell, takes], later⟩
  | false =>
    simp only [Bool.false_eq_true, if_false]
    cases filter_entry_cases cur (fenceEpoch tok) with
    | inl missing => exact .inl (by simp [missing])
    | inr found =>
      obtain ⟨cell, rfl, -, isBase⟩ := found
      rw [isBase]
      cases curFresh cell rfl with
      | inl zero => exact .inl zero
      | inr fresh =>
        obtain ⟨p, source, later⟩ := fresh
        refine .inr ⟨p, ?_, later⟩
        simp only [mergedCell, takes, Bool.false_eq_true, if_false, Option.bind_some]
        exact source

private theorem takesVersion_none (takes : takesVersion none obs tok r = true) : obs = tok ∧ 0 ≤ r.v := by
  simp only [takesVersion, mergeBase, Bool.and_true, Bool.and_eq_true, beq_iff_eq, Bool.not_eq_true'] at takes
  obtain ⟨same, above⟩ := takes
  subst same
  have floor : 0 ≤ mergeFloor none true r := by simpa using (mergeFloor_spec none r).1
  have reached := not_lt.mp (of_decide_eq_false above)
  rw [beq_self_eq_true] at reached
  exact ⟨rfl, le_trans floor reached⟩

/-- A new entry is at a new address, so a publisher that had loaded the old one fails. -/
theorem swapOk_publishCell {s : GrvShared} {cell : GrvCell}
    (ok : ThreadOk s i t) : SwapOk q (s.publishCell cell) i t := by
  unfold SwapOk
  split
  case h_1 =>
    obtain ⟨-, -, -, inside, -⟩ := ok
    intro _ isEntry _
    exact absurd (inside _ isEntry) (lt_irrefl _)
  case h_2 => trivial

theorem Transition.entry_cases (transition : Transition s a s') :
    s'.shared.entry = s.shared.entry ∨ ∃ cell, s'.shared = s.shared.publishCell cell := by
  cases transition with
  | begins _ => exact .inl rfl
  | moves _ moves =>
    cases moves with
    | publisherSwaps | invalidateClears _ _ => exact .inr ⟨_, rfl⟩
    | _ => exact .inl rfl

theorem Transition.swapsOk (transition : Transition s a s') (valid : Valid s)
    (swaps : AllThreads (SwapOk q s.shared) s.threads)
    (outdated : ∀ i tok pc, s.threads[i]? = some (.publisher tok pc) → i < q →
      fenceGen tok < fenceGen s.shared.fences) : AllThreads (SwapOk q s'.shared) s'.threads := by
  refine transition.allThreads swaps (fun t begins => ?_) (fun i t shared' t' here moves => ?_)
    fun i t found ok => ?_
  · cases begins <;> trivial
  · cases moves with
    | publisherMerges _ =>
      intro before _ matched
      exact absurd (congrArg fenceGen matched) (Nat.ne_of_gt (outdated _ _ _ here before))
    | _ => trivial
  · cases transition.entry_cases with
    | inl same =>
      unfold SwapOk at ok ⊢
      rwa [same]
    | inr published =>
      obtain ⟨cell, published⟩ := published
      rw [published]
      exact swapOk_publishCell (valid.threads i t found)

theorem Moves.entryFresh (valid : Valid s) (retired : Retired q s)
    (isInvalidation : s.threads[q]? = some (.invalidate .returned)) (here : s.threads[i]? = some t)
    (moves : Moves s.shared i t shared' t') : ∀ cell, shared'.deref shared'.entry = some cell → FreshCell q cell := by
  intro cell isEntry
  cases moves with
  | @publisherSwaps tok r obs =>
    rw [deref_publishCell] at isEntry
    obtain rfl := Option.some.inj isEntry
    obtain ⟨-, -, current, -, -⟩ := valid.threads i _ here
    refine mergedCell_fresh current retired.entry fun takes => ?_
    rcases lt_trichotomy i q with before | same | after
    · have matched : obs = tok := by
        unfold takesVersion at takes
        simp only [Bool.and_eq_true, beq_iff_eq] at takes
        exact takes.1.1
      obtain ⟨empty, low⟩ := retired.swaps i _ here before rfl matched
      rw [empty] at takes
      exact .inl (le_antisymm low (takesVersion_none takes).2)
    · subst same
      rw [here] at isInvalidation
      cases isInvalidation
    · exact .inr after
  | invalidateClears _ _ =>
    rw [deref_publishCell] at isEntry
    obtain rfl := Option.some.inj isEntry
    exact .inl rfl
  | _ => exact retired.entry cell isEntry

/-- A read loads the entry, and what it has loaded stays where it is. -/
theorem Transition.pendingFresh (transition : Transition s a s') (valid : Valid s)
    (unwrapped : s.unwrapped a = true) (retired : Retired q s) : AllThreads (PendingFresh q s'.shared) s'.threads := by
  have extended := transition.extends valid unwrapped
  refine transition.allThreads retired.readers (fun t begins => ?_) (fun i t shared' t' here moves => ?_)
    fun i t _ fresh a held => ?_
  · cases begins <;> exact nofun
  · intro a held
    cases moves with
    | @readerFinds priority a isEntry =>
      cases held
      have inside := valid.shared.pointer a isEntry
      have found := List.getElem?_eq_getElem inside
      refine ⟨s.shared.cells[a], found, retired.entry _ ?_⟩
      rw [GrvShared.deref, isEntry, Option.bind_some, found]
    | _ => cases held
  · obtain ⟨cell, found, isFresh⟩ := fresh a held
    exact ⟨cell, extended.cell found, isFresh⟩

theorem Retired.step (retired : Retired q s) (valid : Valid s) (unwrapped : s.unwrapped a = true)
    (outdated : Outdated s) (returned : s.threads[q]? = some (.invalidate .returned))
    (transition : Transition s a s') : Retired q s' := by
  refine ⟨?_, ?_, transition.pendingFresh valid unwrapped retired⟩
  · cases transition with
    | begins _ => exact retired.entry
    | moves here moves => exact moves.entryFresh valid retired returned here
  · exact transition.swapsOk valid retired.swaps fun i tok pc => outdated q _ returned rfl i tok pc

theorem Moves.returning (here : s.threads[q]? = some t)
    (moves : Moves s.shared q t shared' (.invalidate .returned)) : s.returning q = true := by
  cases moves with
  | invalidateEmpty empty => simp [GrvState.returning, here, empty]
  | invalidateClears isEntry found => simp [GrvState.returning, here, isEntry]

theorem Retired.of_return (valid : Valid s) (extended : Extends s.shared shared')
    (noRace : s.noRace (.run q nowT) = true) (here : s.threads[q]? = some t)
    (moves : Moves s.shared q t shared' (.invalidate .returned)) :
    Retired q { shared := shared', threads := s.threads.set q (.invalidate .returned) } := by
  obtain ⟨fresh, harmless⟩ := noRace_run noRace (moves.returning here)
  have readers : AllThreads (PendingFresh q shared') (s.threads.set q (.invalidate .returned)) := by
    refine fresh.set (fun i t _ fresh a held => ?_) (fun a held => by cases held)
    obtain ⟨cell, found, isFresh⟩ := fresh a held
    exact ⟨cell, extended.cell found, isFresh⟩
  cases moves with
  | invalidateEmpty empty =>
    refine ⟨fun cell isEntry => by simp [GrvShared.deref, empty] at isEntry, ?_, readers⟩
    have all : AllThreads (SwapOk q s.shared) s.threads := by
      intro i u found
      unfold SwapOk
      split
      case h_1 =>
        intro before isEntry matched
        rw [empty] at isEntry
        subst isEntry
        exact ⟨rfl, harmless_swap (harmless empty) before found matched⟩
      case h_2 => trivial
    exact all.set (fun _ _ _ ok => ok) trivial
  | invalidateClears isEntry found =>
    refine ⟨fun cell isCell => ?_, ?_, readers⟩
    · rw [deref_publishCell] at isCell
      obtain rfl := Option.some.inj isCell
      exact .inl rfl
    · exact valid.threads.set (fun _ _ _ ok => swapOk_publishCell ok) trivial

theorem Sound.step (sound : Sound s) (orderly : s.orderly a = true) (transition : Transition s a s') : Sound s' := by
  obtain ⟨unwrapped, noRace⟩ := Bool.and_eq_true_iff.mp orderly
  have extended := transition.extends sound.valid unwrapped
  refine ⟨sound.valid.step unwrapped transition, sound.outdated.step sound.valid unwrapped transition, ?_⟩
  intro q returned
  by_cases before : s.threads[q]? = some (.invalidate .returned)
  · exact (sound.retired q before).step sound.valid unwrapped sound.outdated before transition
  cases transition with
  | begins begins =>
    cases thread_append_cases returned with
    | inl new =>
      obtain ⟨-, rfl⟩ := new
      cases begins
    | inr old => exact absurd old before
  | moves here moves runs =>
    cases thread_set_cases returned with
    | inl moved =>
      obtain ⟨rfl, rfl⟩ := moved
      obtain ⟨tok, rfl⟩ | ⟨nowT, rfl⟩ := runs
      · cases moves
      · exact Retired.of_return sound.valid extended noRace here moves
    | inr other => exact absurd other.2 before

/-! ## Reads -/

/-- An answer that was not given in `old` already is from an entry that is fresh. -/
def AnswerFresh (q : Nat) (old : List GrvThread) (s : GrvShared) (i : Nat) : GrvThread → Prop
  | .tryCache priority (.returned answer (some (a, epoch))) =>
    old[i]? = some (.tryCache priority (.returned answer (some (a, epoch)))) ∨
      ∃ cell ∈ s.cells[a]?, FreshCell q cell
  | _ => True

structure Afterwards (q : Nat) (old : List GrvThread) (s : GrvState) : Prop where
  sound : Sound s
  returned : s.threads[q]? = some (.invalidate .returned)
  answers : AllThreads (AnswerFresh q old s.shared) s.threads

theorem Transition.keeps_returned (transition : Transition s a s')
    (returned : s.threads[q]? = some (.invalidate .returned)) : s'.threads[q]? = some (.invalidate .returned) := by
  obtain ⟨inside, -⟩ := List.getElem?_eq_some_iff.mp returned
  have other : ∀ {i t t'}, s.threads[i]? = some t → t ≠ .invalidate .returned →
      (s.threads.set i t')[q]? = some (.invalidate .returned) := by
    intro i t t' here differs
    have apart : i ≠ q := by
      rintro rfl
      exact differs (Option.some.inj (here.symm.trans returned))
    rw [List.getElem?_set_ne apart, returned]
  cases transition with
  | begins _ => rw [GrvState.spawn, List.getElem?_append_left inside, returned]
  | moves here moves =>
    refine other here ?_
    rintro rfl
    cases moves

theorem Afterwards.step {old : List GrvThread} (afterwards : Afterwards q old s) (orderly : s.orderly a = true)
    (transition : Transition s a s') : Afterwards q old s' := by
  obtain ⟨unwrapped, -⟩ := Bool.and_eq_true_iff.mp orderly
  have extended := transition.extends afterwards.sound.valid unwrapped
  refine ⟨afterwards.sound.step orderly transition, transition.keeps_returned afterwards.returned, ?_⟩
  refine transition.allThreads afterwards.answers (fun t begins => ?_)
    (fun i t shared' t' here moves => ?_) fun i t _ fresh => ?_
  · cases begins <;> trivial
  · cases moves with
    | readerServes found _ =>
      exact .inr ((afterwards.sound.retired q afterwards.returned).readers i _ here _ rfl)
    | _ => trivial
  · unfold AnswerFresh at fresh ⊢
    split at fresh
    case h_1 => exact fresh.imp_right fun ⟨cell, found, isFresh⟩ => ⟨cell, extended.cell found, isFresh⟩
    case h_2 => trivial

theorem Sound.afterwards (sound : Sound s) (returned : s.threads[q]? = some (.invalidate .returned)) :
    Afterwards q s.threads s := by
  refine ⟨sound, returned, fun i t found => ?_⟩
  unfold AnswerFresh
  split
  case h_1 => exact .inl found
  case h_2 => trivial

/-- In a run without the races and without a wrap of the generation: once an invalidation
has returned, no read is answered any more with a version, except that of a publisher
which captured its token after the invalidation began. -/
theorem invalidated_version_not_served {s s' : GrvState} {q : Nat} (reached : Orderly {} s)
    (returned : s.threads[q]? = some (.invalidate .returned)) (later : Orderly s s') {i priority : Nat} {x : Int}
    {anchor : GoTime} {consulted : Option (Nat × Nat)}
    (unanswered : s.threads[i]? ≠ some (.tryCache priority (.returned (some (x, anchor)) consulted)))
    (answered : s'.threads[i]? = some (.tryCache priority (.returned (some (x, anchor)) consulted))) :
    ∃ a epoch cell p tok r, consulted = some (a, epoch) ∧ s'.shared.cells[a]? = some cell ∧
      cell.entry.version = x ∧ cell.source = some p ∧ Published s'.threads p tok r ∧ r.v = x ∧ q < p := by
  have sound : Sound s := by
    refine Reaches.keeps reached (fun s a s' sound stepped => ?_) .empty
    obtain ⟨orderly, stepped⟩ := guarded_eq_some_iff.mp stepped
    exact sound.step orderly (transition_of_step stepped)
  have afterwards : Afterwards q s.threads s' := by
    refine Reaches.keeps later (fun s a s' afterwards stepped => ?_) (sound.afterwards returned)
    obtain ⟨orderly, stepped⟩ := guarded_eq_some_iff.mp stepped
    exact afterwards.step orderly (transition_of_step stepped)
  have threadOk := afterwards.sound.valid.threads i _ answered
  cases consulted with
  | none => cases threadOk
  | some consulted =>
    obtain ⟨a, epoch⟩ := consulted
    obtain ⟨cell, found, fresh⟩ := (afterwards.answers i _ answered).resolve_left unanswered
    obtain ⟨same, isSame, -, answers⟩ := threadOk
    obtain rfl := Option.some.inj (found.symm.trans isSame)
    obtain ⟨version, present, -⟩ := answers x anchor rfl
    have present' : cell.entry.version ≠ 0 := version ▸ present
    obtain ⟨p, tok, r, source, published, isVersion, -⟩ :=
      (afterwards.sound.valid.shared.cells cell (List.mem_of_getElem? found)).version present'
    refine ⟨a, epoch, cell, p, tok, r, rfl, found, version, source, published, isVersion.trans version, ?_⟩
    cases fresh with
    | inl zero => exact absurd zero present'
    | inr isFresh =>
      obtain ⟨p', source', after⟩ := isFresh
      rw [source] at source'
      exact Option.some.inj source' ▸ after

/-- The read begins before the invalidation and loads the entry after it. -/
theorem invalidated_version_not_served_republished :
    ∃ s s' : GrvState, Orderly {} s ∧ s.threads[2]? = some (.invalidate .returned) ∧ Orderly s s' ∧
      s.threads[1]? = some (.tryCache 0 .loadEntry) ∧
      s'.threads[1]? = some (.tryCache 0 (.returned (some (6, {})) (some (0, 0)))) ∧
      ∃ a epoch cell p tok r, some (0, 0) = some (a, epoch) ∧ s'.shared.cells[a]? = some cell ∧
        cell.entry.version = 6 ∧ cell.source = some p ∧ Published s'.threads p tok r ∧ r.v = 6 ∧ 2 < p := by
  have reached : Orderly {} ⟨{ fences := 1 },
      [.publisher 0 (.returned { v := 5 } true), .tryCache 0 .loadEntry, .invalidate .returned]⟩ :=
    reaches_of_foldlM (show ([.dispatch, .publish 0 { v := 5 }, .tryCache 0, .invalidate, .run 2 {}, .run 2 {},
      .run 2 {}, .run 0 {}, .run 0 {}] : List GrvAction).foldlM (guarded GrvState.orderly GrvState.step) {} = _
        by decide +kernel)
  have later : Orderly _ ⟨{ cells := [{ entry := { version := 6 }, source := some 3 }], entry := some 0, fences := 1 },
      [.publisher 0 (.returned { v := 5 } true), .tryCache 0 (.returned (some (6, {})) (some (0, 0))),
        .invalidate .returned, .publisher 1 (.returned { v := 6 } true)]⟩ :=
    reaches_of_foldlM (show ([.dispatch, .publish 3 { v := 6 }, .run 3 {}, .run 3 {}, .run 3 {},
      .run 1 {}, .run 1 {}] : List GrvAction).foldlM (guarded GrvState.orderly GrvState.step)
        ⟨{ fences := 1 }, [.publisher 0 (.returned { v := 5 } true), .tryCache 0 .loadEntry,
          .invalidate .returned]⟩ = _ by decide +kernel)
  refine ⟨_, _, reached, rfl, later, rfl, rfl, ?_⟩
  exact invalidated_version_not_served reached rfl later (i := 1) (by decide) rfl

/-- An invalidation of the empty cache returns between a publisher's fence load and its
swap, and the version is served all the same. -/
theorem empty_cache_race_serves_invalidated :
    ∃ s s' : GrvState,
      GrvState.run {} [.dispatch, .publish 0 { v := 5 }, .run 0 {}, .run 0 {}, .invalidate, .run 1 {},
        .run 1 {}, .run 1 {}] = some s ∧
      s.threads[1]? = some (.invalidate .returned) ∧ s.threads.length = 2 ∧
      GrvState.run s [.run 0 {}, .tryCache 0, .run 2 {}, .run 2 {}] = some s' ∧
      s'.threads[2]? = some (.tryCache 0 (.returned (some (5, {})) (some (0, 0)))) ∧
      (s'.shared.cells[0]?).map (fun cell => (cell.entry.version, cell.source)) = some (5, some 0) ∧
      Published s'.threads 0 0 { v := 5 } :=
  ⟨_, _, rfl, rfl, rfl, rfl, rfl, rfl, _, rfl, rfl⟩

end FdbGo.Client
