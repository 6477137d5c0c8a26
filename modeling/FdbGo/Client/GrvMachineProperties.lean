import FdbGo.Client.GrvCacheProperties
import FdbGo.Foundation.Transition

/-! What each step of the read version cache can do, and what holds in every reachable
state as long as the fence word does not wrap. -/

set_option autoImplicit false

namespace FdbGo.Client

open Foundation

/-! ## Steps -/

inductive Moves (s : GrvShared) (i : Nat) : GrvThread → GrvShared → GrvThread → Prop where
  | publisherLoads {tok r} :
      Moves s i (.publisher tok (.loadEntry r)) s (.publisher tok (.loadFences r s.entry))
  | publisherKeeps {tok r cur} :
      mergeReply ((s.deref cur).map GrvCell.entry) s.fences tok r =
        ((s.deref cur).map GrvCell.entry).getD {} →
      Moves s i (.publisher tok (.loadFences r cur)) s
        (.publisher tok (.returned r (fenceEpoch s.fences == fenceEpoch tok)))
  | publisherMerges {tok r cur} :
      mergeReply ((s.deref cur).map GrvCell.entry) s.fences tok r ≠
        ((s.deref cur).map GrvCell.entry).getD {} →
      Moves s i (.publisher tok (.loadFences r cur)) s (.publisher tok (.swap r cur s.fences))
  | publisherSwaps {tok r obs} :
      Moves s i (.publisher tok (.swap r s.entry obs))
        (s.publishCell (mergedCell i (s.deref s.entry) obs tok r))
        (.publisher tok (.returned r (fenceEpoch obs == fenceEpoch tok)))
  | publisherRetries {tok r cur obs} :
      s.entry ≠ cur → Moves s i (.publisher tok (.swap r cur obs)) s (.publisher tok (.loadEntry r))
  | invalidateLoads : Moves s i (.invalidate .bumpLoad) s (.invalidate (.bumpSwap s.fences))
  | invalidateBumps :
      Moves s i (.invalidate (.bumpSwap s.fences)) { s with fences := bumpedFences false s.fences }
        (.invalidate .loadEntry)
  | invalidateBumpRetries {cur} :
      s.fences ≠ cur → Moves s i (.invalidate (.bumpSwap cur)) s (.invalidate .bumpLoad)
  | invalidateEmpty : s.entry = none → Moves s i (.invalidate .loadEntry) s (.invalidate .returned)
  | invalidateFinds {a} :
      s.entry = some a → Moves s i (.invalidate .loadEntry) s (.invalidate (.swap a))
  | invalidateClears {a cell} :
      s.entry = some a → s.cells[a]? = some cell →
      Moves s i (.invalidate (.swap a)) (s.publishCell { entry := sentinel cell.entry }) (.invalidate .returned)
  | invalidateRetries {a} :
      s.entry ≠ some a → Moves s i (.invalidate (.swap a)) s (.invalidate .loadEntry)
  | resetLoads : Moves s i (.reset .bumpLoad) s (.reset (.bumpSwap s.fences))
  | resetBumps :
      Moves s i (.reset (.bumpSwap s.fences)) { s with fences := bumpedFences true s.fences }
        (.reset (.returned (fenceEpoch (bumpedFences true s.fences))))
  | resetRetries {cur} : s.fences ≠ cur → Moves s i (.reset (.bumpSwap cur)) s (.reset .bumpLoad)
  | installLoads : Moves s i (.install .loadFences) s (.install (.store (fenceEpoch s.fences)))
  | installStores {epoch} :
      Moves s i (.install (.store epoch)) { s with infoEpoch := epoch } (.install .returned)
  | readerEmpty {priority} :
      s.entry = none → Moves s i (.tryCache priority .loadEntry) s (.tryCache priority (.returned none none))
  | readerFinds {priority a} :
      s.entry = some a → Moves s i (.tryCache priority .loadEntry) s (.tryCache priority (.loadFences a))
  | readerServes {priority a cell nowT} :
      s.cells[a]? = some cell → cell.entry.epoch = fenceEpoch s.fences →
      Moves s i (.tryCache priority (.loadFences a)) s
        (.tryCache priority
          (.returned (serve cell.entry priority nowT) (some (a, fenceEpoch s.fences))))
  | readerRefuses {priority a} :
      Moves s i (.tryCache priority (.loadFences a)) s (.tryCache priority (.returned none none))
  | rebinds {tok} : Moves s i (.publisher tok .inFlight) s (.publisher (withEpoch tok s.infoEpoch) .inFlight)
  | publishes {tok r} : Moves s i (.publisher tok .inFlight) s (.publisher tok (.loadEntry r))

variable {t t' : GrvThread} {i tok : Nat} {r : Reply} {s s' : GrvShared}

private theorem moves_of_stepThread {nowT : GoTime} (stepped : stepThread s i nowT t = some (s', t')) : Moves s i t s' t' := by
  have each : Gives (fun next : GrvShared × GrvThread => Moves s i t next.1 next.2) (stepThread s i nowT t) := by
    cases t with
    | publisher tok pc =>
      refine .map ?_
      cases pc with
      | inFlight => exact .none
      | loadEntry r => exact .some .publisherLoads
      | loadFences r cur =>
        exact .ite (fun same => .some (.publisherKeeps same)) fun changed => .some (.publisherMerges changed)
      | swap r cur obs =>
        refine .ite (fun same => ?_) fun changed => .some (.publisherRetries changed)
        subst same
        exact .some .publisherSwaps
      | returned r sameEpoch => exact .none
    | invalidate pc =>
      refine .map ?_
      cases pc with
      | bumpLoad => exact .some .invalidateLoads
      | bumpSwap cur =>
        refine .ite (fun same => ?_) fun changed => .some (.invalidateBumpRetries changed)
        subst same
        exact .some .invalidateBumps
      | loadEntry =>
        rw [stepInvalidate]
        split
        case h_1 empty => exact .some (.invalidateEmpty empty)
        case h_2 a found => exact .some (.invalidateFinds found)
      | swap cur =>
        refine .ite (fun same => ?_) fun changed => .some (.invalidateRetries changed)
        split
        case h_1 cell found => exact .some (.invalidateClears same found)
        case h_2 => exact .none
      | returned => exact .none
    | reset pc =>
      refine .map ?_
      cases pc with
      | bumpLoad => exact .some .resetLoads
      | bumpSwap cur =>
        refine .ite (fun same => ?_) fun changed => .some (.resetRetries changed)
        subst same
        exact .some .resetBumps
      | returned epoch => exact .none
    | install pc =>
      refine .map ?_
      cases pc with
      | loadFences => exact .some .installLoads
      | store epoch => exact .some .installStores
      | returned => exact .none
    | tryCache priority pc =>
      refine .map ?_
      cases pc with
      | loadEntry =>
        rw [stepReader]
        split
        case h_1 empty => exact .some (.readerEmpty empty)
        case h_2 a found => exact .some (.readerFinds found)
      | loadFences a =>
        rw [stepReader]
        split
        case h_1 => exact .none
        case h_2 cell found =>
          exact .ite (fun current => .some (.readerServes found current)) fun _ => .some .readerRefuses
      | returned answer consulted => exact .none
  exact each _ stepped

inductive Begins (s : GrvShared) : GrvThread → Prop where
  | publisher : Begins s (.publisher s.fences .inFlight)
  | invalidate : Begins s (.invalidate .bumpLoad)
  | reset : Begins s (.reset .bumpLoad)
  | install : Begins s (.install .loadFences)
  | tryCache {priority} : Begins s (.tryCache priority .loadEntry)

/-- A thread moves when it runs, and a publisher whose request is under way also when the
request is sent again or answered. -/
inductive Transition (s : GrvState) (a : GrvAction) : GrvState → Prop where
  | begins {t : GrvThread} : Begins s.shared t → Transition s a (s.spawn t)
  | moves {i : Nat} {t t' : GrvThread} {shared' : GrvShared} : s.threads[i]? = some t → Moves s.shared i t shared' t' →
      ((∃ tok, t = .publisher tok .inFlight) ∨ ∃ nowT, a = .run i nowT) →
      Transition s a { shared := shared', threads := s.threads.set i t' }

variable {a : GrvAction} {pc : PublisherPc} {cur : Option Nat} {p : Nat}

theorem transition_of_step {s s' : GrvState} (stepped : s.step a = some s') : Transition s a s' := by
  cases a with
  | dispatch =>
    cases stepped
    exact .begins .publisher
  | rebind i =>
    simp only [GrvState.step] at stepped
    split at stepped
    case h_1 tok found =>
      cases stepped
      exact .moves found .rebinds (.inl ⟨tok, rfl⟩)
    case h_2 => cases stepped
  | publish i r =>
    simp only [GrvState.step] at stepped
    split at stepped
    case h_1 tok found =>
      cases stepped
      exact .moves found .publishes (.inl ⟨tok, rfl⟩)
    case h_2 => cases stepped
  | invalidate =>
    cases stepped
    exact .begins .invalidate
  | reset =>
    cases stepped
    exact .begins .reset
  | install =>
    cases stepped
    exact .begins .install
  | tryCache priority =>
    cases stepped
    exact .begins .tryCache
  | run i nowT =>
    obtain ⟨t, found, rest⟩ := Option.bind_eq_some_iff.mp stepped
    obtain ⟨⟨shared', t'⟩, moved, done⟩ := Option.bind_eq_some_iff.mp rest
    cases done
    exact .moves found (moves_of_stepThread moved) (.inr ⟨nowT, rfl⟩)

/-! ## Publishers -/

def PublisherPc.reply : PublisherPc → Option Reply
  | .inFlight => none
  | .loadEntry r | .loadFences r _ | .swap r _ _ | .returned r _ => some r

/-- Thread `p` publishes the reply `r` under the token `tok`. -/
def Published (threads : List GrvThread) (p tok : Nat) (r : Reply) : Prop :=
  ∃ pc, threads[p]? = some (.publisher tok pc) ∧ pc.reply = some r

theorem Moves.publisher (moves : Moves s i (.publisher tok pc) s' t') (publishing : pc.reply = some r) :
    ∃ pc', t' = .publisher tok pc' ∧ pc'.reply = some r := by
  cases moves with
  | rebinds | publishes => cases publishing
  | _ => exact ⟨_, rfl, publishing⟩

variable {threads : List GrvThread}

theorem Transition.published {s s' : GrvState} {a : GrvAction} (transition : Transition s a s') {p tok : Nat}
    {r : Reply} (published : Published s.threads p tok r) : Published s'.threads p tok r := by
  obtain ⟨pc, found, publishing⟩ := published
  obtain ⟨inside, -⟩ := List.getElem?_eq_some_iff.mp found
  cases transition with
  | begins _ => exact ⟨pc, by rw [GrvState.spawn, List.getElem?_append_left inside, found], publishing⟩
  | @moves i t t' shared' here moves =>
    by_cases same : i = p
    · subst same
      obtain rfl := Option.some.inj (here.symm.trans found)
      obtain ⟨pc', rfl, publishing'⟩ := moves.publisher publishing
      exact ⟨pc', by rw [List.getElem?_set_self inside], publishing'⟩
    · exact ⟨pc, by rw [List.getElem?_set_ne same, found], publishing⟩

/-- What holds of every thread: it holds of those that begin and of the one that moves,
and the others rely on nothing that a step takes away. -/
theorem Transition.allThreads {s s' : GrvState} {ok : GrvShared → Nat → GrvThread → Prop}
    (transition : Transition s a s') (all : AllThreads (ok s.shared) s.threads)
    (begun : ∀ t, Begins s.shared t → ok s.shared s.threads.length t)
    (moved : ∀ i t shared' t', s.threads[i]? = some t → Moves s.shared i t shared' t' → ok shared' i t')
    (stable : ∀ i t, s.threads[i]? = some t → ok s.shared i t → ok s'.shared i t) :
    AllThreads (ok s'.shared) s'.threads := by
  cases transition with
  | begins begins => exact all.append stable (begun _ begins)
  | moves found moves => exact all.set stable (moved _ _ _ _ found moves)

/-! ## Invariants -/

/-- The version and the floor of an entry were published under its epoch. -/
structure CellOk (threads : List GrvThread) (cell : GrvCell) : Prop where
  version : cell.entry.version ≠ 0 → ∃ p tok r, cell.source = some p ∧ Published threads p tok r ∧
    r.v = cell.entry.version ∧ fenceEpoch tok = cell.entry.epoch
  floor : cell.entry.floor ≠ 0 → ∃ p tok r, Published threads p tok r ∧ r.durable = true ∧
    r.v = cell.entry.floor ∧ fenceEpoch tok = cell.entry.epoch
  nonneg : 0 ≤ cell.entry.floor

/-- What holds of the shared words. The entries of the current epoch are below the
current one in their floors. -/
structure SharedOk (s : GrvShared) (threads : List GrvThread) : Prop where
  ahead : fenceEpoch s.fences ≤ fenceGen s.fences
  pointer : ∀ a, s.entry = some a → a < s.cells.length
  info : s.infoEpoch ≤ fenceEpoch s.fences
  epochs : ∀ cell ∈ s.cells, cell.entry.epoch ≤ fenceEpoch s.fences
  cells : ∀ cell ∈ s.cells, CellOk threads cell
  floors : ∀ cell ∈ s.cells, cell.entry.epoch = fenceEpoch s.fences →
    ∃ top, s.deref s.entry = some top ∧ top.entry.epoch = fenceEpoch s.fences ∧
      cell.entry.floor ≤ top.entry.floor

/-- What holds of a publisher: a merge is of the current epoch, and over an entry that is
not of a later one; a durable reply published under the current epoch has left a floor. -/
def PublisherOk (s : GrvShared) (tok : Nat) : PublisherPc → Prop
  | .loadFences _ cur => ∀ a, cur = some a → a < s.cells.length
  | .swap _ cur obs => fenceEpoch obs = fenceEpoch tok ∧ (∀ a, cur = some a → a < s.cells.length) ∧
      ∀ cell, s.deref cur = some cell → cell.entry.epoch ≤ fenceEpoch obs
  | .returned r sameEpoch => r.durable = true →
      (sameEpoch = true → r.v ≤ 0 ∨
        ∃ cell ∈ s.cells, cell.entry.epoch = fenceEpoch tok ∧ r.v ≤ cell.entry.floor) ∧
      (sameEpoch = false → fenceEpoch tok < fenceEpoch s.fences)
  | _ => True

def ThreadOk (s : GrvShared) (_i : Nat) : GrvThread → Prop
  | .publisher tok pc => fenceGen tok ≤ fenceGen s.fences ∧ fenceEpoch tok ≤ fenceEpoch s.fences ∧
      PublisherOk s tok pc
  | .install (.store epoch) => epoch ≤ fenceEpoch s.fences
  | .tryCache _ (.returned answer (some (a, epoch))) =>
    ∃ cell, s.cells[a]? = some cell ∧ cell.entry.epoch = epoch ∧
      ∀ x anchor, answer = some (x, anchor) →
        cell.entry.version = x ∧ x ≠ 0 ∧ cell.entry.floor ≤ x
  | .tryCache _ (.returned answer none) => answer = none
  | _ => True

structure Valid (s : GrvState) : Prop where
  shared : SharedOk s.shared s.threads
  threads : AllThreads (ThreadOk s.shared) s.threads

theorem Valid.empty : Valid {} where
  shared :=
    { ahead := by decide
      pointer := by simp
      info := by decide
      epochs := by simp
      cells := by simp
      floors := by simp }
  threads i t found := by simp at found

/-! ## What threads rely on -/

/-- Entries stay where they are and the fences only advance. -/
structure Extends (s s' : GrvShared) : Prop where
  cells : ∃ more, s'.cells = s.cells ++ more
  gen : fenceGen s.fences ≤ fenceGen s'.fences
  epoch : fenceEpoch s.fences ≤ fenceEpoch s'.fences

theorem Extends.refl (s : GrvShared) : Extends s s := ⟨⟨[], by simp⟩, le_rfl, le_rfl⟩

namespace Extends

variable {s s' : GrvShared}

theorem cell (extends' : Extends s s') {a : Nat} {cell : GrvCell} (found : s.cells[a]? = some cell) :
    s'.cells[a]? = some cell := by
  obtain ⟨more, cells⟩ := extends'.cells
  obtain ⟨inside, -⟩ := List.getElem?_eq_some_iff.mp found
  rw [cells, List.getElem?_append_left inside, found]

theorem mem (extends' : Extends s s') {cell : GrvCell} (member : cell ∈ s.cells) : cell ∈ s'.cells := by
  obtain ⟨more, cells⟩ := extends'.cells
  rw [cells]
  exact List.mem_append_left more member

private theorem length_le (extends' : Extends s s') : s.cells.length ≤ s'.cells.length := by
  obtain ⟨more, cells⟩ := extends'.cells
  rw [cells, List.length_append]
  exact Nat.le_add_right _ _

private theorem deref (extends' : Extends s s') (inside : ∀ a, cur = some a → a < s.cells.length) :
    s'.deref cur = s.deref cur := by
  obtain ⟨more, cells⟩ := extends'.cells
  cases cur with
  | none => rfl
  | some a => simp only [GrvShared.deref, Option.bind_some, cells, List.getElem?_append_left (inside a rfl)]

private theorem publisherOk (extends' : Extends s s') (ok : PublisherOk s tok pc) : PublisherOk s' tok pc := by
  cases pc with
  | inFlight => trivial
  | loadEntry r => trivial
  | loadFences r cur => exact fun a isCur => lt_of_lt_of_le (ok a isCur) extends'.length_le
  | swap r cur obs =>
    obtain ⟨current, inside, older⟩ := ok
    refine ⟨current, fun a isCur => lt_of_lt_of_le (inside a isCur) extends'.length_le, ?_⟩
    rwa [extends'.deref inside]
  | returned r sameEpoch =>
    intro durable
    obtain ⟨kept, refused⟩ := ok durable
    refine ⟨fun same => ?_, fun other => lt_of_lt_of_le (refused other) extends'.epoch⟩
    cases kept same with
    | inl low => exact .inl low
    | inr found =>
      obtain ⟨cell, member, facts⟩ := found
      exact .inr ⟨cell, extends'.mem member, facts⟩

private theorem threadOk (extends' : Extends s s') (ok : ThreadOk s i t) : ThreadOk s' i t := by
  cases t with
  | publisher tok pc =>
    obtain ⟨gen, epoch, pcOk⟩ := ok
    exact ⟨le_trans gen extends'.gen, le_trans epoch extends'.epoch, extends'.publisherOk pcOk⟩
  | invalidate pc => trivial
  | reset pc => trivial
  | install pc =>
    cases pc with
    | store epoch => exact le_trans (show epoch ≤ fenceEpoch s.fences from ok) extends'.epoch
    | _ => trivial
  | tryCache priority pc =>
    cases pc with
    | loadEntry => trivial
    | loadFences a => trivial
    | returned answer consulted =>
      cases consulted with
      | none => exact ok
      | some consulted =>
        obtain ⟨cell, found, facts⟩ := ok
        exact ⟨cell, extends'.cell found, facts⟩

end Extends

/-! ## Steps keep the invariants -/

def GrvThread.bumps (fences : Nat) : GrvThread → Bool
  | .invalidate (.bumpSwap cur) => fences == cur
  | .reset (.bumpSwap cur) => fences == cur
  | _ => false

def GrvState.unwrapped (s : GrvState) : GrvAction → Bool
  | .run i _ => !(s.threads[i]?.any (GrvThread.bumps s.shared.fences)) ||
      decide (fenceGen s.shared.fences + 1 < fenceHalf)
  | _ => true

theorem unwrapped_run {s : GrvState} (found : s.threads[i]? = some t)
    (runs : (∃ tok, t = .publisher tok .inFlight) ∨ ∃ nowT, a = .run i nowT) (unwrapped : s.unwrapped a = true)
    (bumps : t.bumps s.shared.fences = true) : fenceGen s.shared.fences + 1 < fenceHalf := by
  obtain ⟨tok, rfl⟩ | ⟨nowT, rfl⟩ := runs
  · cases bumps
  · simpa [GrvState.unwrapped, found, bumps] using unwrapped

theorem extends_bump (ahead : fenceEpoch s.fences ≤ fenceGen s.fences) (unwrapped : fenceGen s.fences + 1 < fenceHalf)
    (newCluster : Bool) : Extends s { s with fences := bumpedFences newCluster s.fences } := by
  refine ⟨⟨[], by simp⟩, ?_, ?_⟩
  · rw [fenceGen_bumped unwrapped]
    exact Nat.le_succ _
  · rw [fenceEpoch_bumped unwrapped ahead]
    split
    · exact Nat.le_succ _
    · exact le_rfl

private theorem extends_publishCell (s : GrvShared) (cell : GrvCell) : Extends s (s.publishCell cell) :=
  ⟨⟨[cell], rfl⟩, le_rfl, le_rfl⟩

theorem Moves.extends (moves : Moves s i t s' t') (ahead : fenceEpoch s.fences ≤ fenceGen s.fences)
    (unwrapped : t.bumps s.fences = true → fenceGen s.fences + 1 < fenceHalf) : Extends s s' := by
  cases moves with
  | invalidateBumps => exact extends_bump ahead (unwrapped (by simp [GrvThread.bumps])) false
  | resetBumps => exact extends_bump ahead (unwrapped (by simp [GrvThread.bumps])) true
  | publisherSwaps | invalidateClears _ _ => exact extends_publishCell s _
  | installStores => exact ⟨⟨[], by simp⟩, le_rfl, le_rfl⟩
  | _ => exact .refl s

theorem CellOk.mono {threads' : List GrvThread} {cell : GrvCell} (ok : CellOk threads cell)
    (published : ∀ {p tok r}, Published threads p tok r → Published threads' p tok r) :
    CellOk threads' cell where
  version present := by
    obtain ⟨p, tok, r, source, isPublished, facts⟩ := ok.version present
    exact ⟨p, tok, r, source, published isPublished, facts⟩
  floor present := by
    obtain ⟨p, tok, r, isPublished, facts⟩ := ok.floor present
    exact ⟨p, tok, r, published isPublished, facts⟩
  nonneg := ok.nonneg

namespace SharedOk

variable {s : GrvShared} {threads threads' : List GrvThread}

private theorem mono (ok : SharedOk s threads)
    (published : ∀ {p tok r}, Published threads p tok r → Published threads' p tok r) : SharedOk s threads' :=
  { ok with cells := fun cell member => (ok.cells cell member).mono published }

private theorem bump (ok : SharedOk s threads) (unwrapped : fenceGen s.fences + 1 < fenceHalf) (newCluster : Bool) :
    SharedOk { s with fences := bumpedFences newCluster s.fences } threads := by
  have gen := fenceGen_bumped unwrapped newCluster
  have epoch := fenceEpoch_bumped unwrapped ok.ahead newCluster
  have advances := (extends_bump ok.ahead unwrapped newCluster).epoch
  refine ⟨?_, ok.pointer, le_trans ok.info advances, fun cell member => le_trans (ok.epochs cell member) advances,
    ok.cells, fun cell member current => ?_⟩
  · dsimp only
    have ahead := ok.ahead
    rw [gen, epoch]
    split <;> omega
  · have older := ok.epochs cell member
    dsimp only at current ⊢
    rw [epoch] at current ⊢
    cases newCluster with
    | true =>
      rw [if_pos rfl] at current
      omega
    | false => exact ok.floors cell member current

/-- A new entry that keeps the floor of the one it replaces, if that is of the current
epoch. -/
theorem publish (ok : SharedOk s threads) {cell : GrvCell} (cellOk : CellOk threads cell)
    (older : cell.entry.epoch ≤ fenceEpoch s.fences)
    (keeps : ∀ top, s.deref s.entry = some top → top.entry.epoch = fenceEpoch s.fences →
      cell.entry.epoch = fenceEpoch s.fences ∧ top.entry.floor ≤ cell.entry.floor) :
    SharedOk (s.publishCell cell) threads := by
  have here : (s.publishCell cell).deref (s.publishCell cell).entry = some cell := by
    simp [GrvShared.publishCell, GrvShared.deref]
  refine ⟨ok.ahead, ?_, ok.info, ?_, ?_, ?_⟩
  · intro a isEntry
    obtain rfl := Option.some.inj isEntry
    simp [GrvShared.publishCell]
  · exact List.forall_mem_append.mpr ⟨ok.epochs, List.forall_mem_singleton.mpr older⟩
  · exact List.forall_mem_append.mpr ⟨ok.cells, List.forall_mem_singleton.mpr cellOk⟩
  · refine List.forall_mem_append.mpr ⟨fun other before current => ?_, List.forall_mem_singleton.mpr fun current => ?_⟩
    · obtain ⟨top, isTop, topCurrent, below⟩ := ok.floors other before current
      obtain ⟨cellCurrent, above⟩ := keeps top isTop topCurrent
      exact ⟨cell, here, cellCurrent, le_trans below above⟩
    · exact ⟨cell, here, current, le_rfl⟩

end SharedOk

theorem filter_entry_cases (cur : Option GrvCell) (epoch : Nat) :
    (cur.map GrvCell.entry).filter (fun e => e.epoch == epoch) = none ∨
      ∃ cell, cur = some cell ∧ cell.entry.epoch = epoch ∧
        (cur.map GrvCell.entry).filter (fun e => e.epoch == epoch) = some cell.entry := by
  cases cur with
  | none => exact .inl rfl
  | some cell =>
    by_cases same : cell.entry.epoch = epoch
    · exact .inr ⟨cell, rfl, same, by simp [Option.filter, same]⟩
    · exact .inl (by simp [Option.filter, same])

/-- A merge of the current epoch holds a version and a floor published under it. -/
theorem mergedCell_ok {obs : Nat} {cur : Option GrvCell} (current : fenceEpoch obs = fenceEpoch tok)
    (published : Published threads i tok r) (curOk : ∀ cell, cur = some cell → CellOk threads cell) :
    CellOk threads (mergedCell i cur obs tok r) := by
  have epoch : (mergedCell i cur obs tok r).entry.epoch = fenceEpoch tok := mergeReply_epoch current
  have version : (mergedCell i cur obs tok r).entry.version = _ := mergeReply_version current
  have floor : (mergedCell i cur obs tok r).entry.floor = _ := mergeReply_floor current
  obtain ⟨-, -, origin⟩ :=
    mergeFloor_spec ((cur.map GrvCell.entry).filter fun e => e.epoch == fenceEpoch tok) r
  rw [← floor] at origin
  constructor
  · rw [version, epoch]
    intro present
    cases takes : takesVersion (cur.map GrvCell.entry) obs tok r with
    | true => exact ⟨i, tok, r, by simp [mergedCell, takes], published, by simp, rfl⟩
    | false =>
      simp only [takes, Bool.false_eq_true, if_false] at present ⊢
      cases filter_entry_cases cur (fenceEpoch tok) with
      | inl missing => simp [missing] at present
      | inr found =>
        obtain ⟨cell, rfl, same, isBase⟩ := found
        rw [isBase] at present ⊢
        obtain ⟨p, tok', r', source, published', isVersion, sameEpoch⟩ := (curOk cell rfl).version present
        refine ⟨p, tok', r', ?_, published', isVersion, sameEpoch.trans same⟩
        simp only [mergedCell, takes, Bool.false_eq_true, if_false, Option.bind_some]
        exact source
  · rw [epoch]
    intro present
    cases origin with
    | inr raised => exact ⟨i, tok, r, published, raised.1, raised.2.symm, rfl⟩
    | inl carried =>
      rw [carried] at present ⊢
      cases filter_entry_cases cur (fenceEpoch tok) with
      | inl missing => simp [missing] at present
      | inr found =>
        obtain ⟨cell, rfl, same, isBase⟩ := found
        rw [isBase] at present ⊢
        obtain ⟨p, tok', r', published', durable, isFloor, sameEpoch⟩ := (curOk cell rfl).floor present
        exact ⟨p, tok', r', published', durable, isFloor, sameEpoch.trans same⟩
  · rw [floor]
    refine le_trans ?_ (mergeFloor_spec _ r).1
    cases filter_entry_cases cur (fenceEpoch tok) with
    | inl missing => simp [missing]
    | inr found =>
      obtain ⟨cell, rfl, -, isBase⟩ := found
      rw [isBase]
      exact (curOk cell rfl).nonneg

/-- A merge keeps the floor of an entry of its epoch, and is not below its own version if
this is durable. -/
theorem mergedCell_floor {i obs tok : Nat} {r : Reply} {cur : Option GrvCell}
    (current : fenceEpoch obs = fenceEpoch tok) :
    (∀ top, cur = some top → top.entry.epoch = fenceEpoch tok →
      top.entry.floor ≤ (mergedCell i cur obs tok r).entry.floor) ∧
      (r.durable = true → r.v ≤ (mergedCell i cur obs tok r).entry.floor) := by
  have floor : (mergedCell i cur obs tok r).entry.floor = _ := mergeReply_floor current
  rw [floor]
  obtain ⟨carried, raised, -⟩ :=
    mergeFloor_spec ((cur.map GrvCell.entry).filter fun e => e.epoch == fenceEpoch tok) r
  refine ⟨fun top isTop same => ?_, raised⟩
  subst isTop
  simpa [Option.filter, same] using carried

theorem sentinel_ok {cell : GrvCell} (ok : CellOk threads cell) : CellOk threads { entry := sentinel cell.entry } :=
  ⟨fun present => absurd rfl present, ok.floor, ok.nonneg⟩

theorem mem_of_deref {cell : GrvCell} (found : s.deref cur = some cell) : cell ∈ s.cells := by
  obtain ⟨a, -, here⟩ := Option.bind_eq_some_iff.mp found
  exact List.mem_of_getElem? here

theorem Moves.sharedOk (moves : Moves s i t s' t') (ok : SharedOk s threads) (here : threads[i]? = some t)
    (threadOk : ThreadOk s i t) (unwrapped : t.bumps s.fences = true → fenceGen s.fences + 1 < fenceHalf) :
    SharedOk s' threads := by
  cases moves with
  | invalidateBumps => exact ok.bump (unwrapped (by simp [GrvThread.bumps])) false
  | resetBumps => exact ok.bump (unwrapped (by simp [GrvThread.bumps])) true
  | @publisherSwaps tok r obs =>
    obtain ⟨-, tokEpoch, current, -, older⟩ := threadOk
    have epoch : (mergedCell i (s.deref s.entry) obs tok r).entry.epoch = fenceEpoch tok :=
      mergeReply_epoch current
    refine ok.publish ?_ (epoch ▸ tokEpoch) fun top isTop topCurrent => ?_
    · exact mergedCell_ok current ⟨_, here, rfl⟩ fun cell found => ok.cells cell (mem_of_deref found)
    · -- The entry is of the current epoch, so the fence load and the token are too.
      have isCurrent : fenceEpoch tok = fenceEpoch s.fences :=
        le_antisymm tokEpoch (topCurrent ▸ current ▸ older top isTop)
      exact ⟨epoch.trans isCurrent, (mergedCell_floor current).1 top isTop (topCurrent.trans isCurrent.symm)⟩
  | @invalidateClears a cell isEntry found =>
    have member := List.mem_of_getElem? found
    refine ok.publish (sentinel_ok (ok.cells cell member)) (ok.epochs cell member) fun top isTop topCurrent => ?_
    obtain rfl : cell = top := by
      simpa [GrvShared.deref, isEntry, found] using isTop
    exact ⟨topCurrent, le_rfl⟩
  | installStores =>
    exact { ok with info := threadOk }
  | _ => exact ok

theorem Moves.threadOk (moves : Moves s i t s' t') (ok : SharedOk s threads) (threadOk : ThreadOk s i t) :
    ThreadOk s' i t' := by
  cases moves with
  | publisherLoads => exact ⟨threadOk.1, threadOk.2.1, ok.pointer⟩
  | @publisherKeeps tok r cur same =>
    refine ⟨threadOk.1, threadOk.2.1, fun durable => ⟨fun isCurrent => ?_, fun stale => ?_⟩⟩
    · have current : fenceEpoch s.fences = fenceEpoch tok := by simpa using isCurrent
      have floor := (@mergedCell_floor i _ _ r (s.deref cur) current).2 durable
      have epoch := @mergeReply_epoch ((s.deref cur).map GrvCell.entry) _ _ r current
      simp only [mergedCell, same] at floor
      rw [same] at epoch
      cases found : s.deref cur with
      | none =>
        rw [found] at floor
        exact .inl floor
      | some cell =>
        rw [found] at floor epoch
        exact .inr ⟨cell, mem_of_deref found, epoch, floor⟩
    · have differs : fenceEpoch s.fences ≠ fenceEpoch tok := by simpa using stale
      exact lt_of_le_of_ne threadOk.2.1 differs.symm
  | @publisherMerges tok r cur changed =>
    have current : fenceEpoch s.fences = fenceEpoch tok := by
      by_contra stale
      exact changed (mergeReply_stale stale _ r)
    exact ⟨threadOk.1, threadOk.2.1, current, threadOk.2.2,
      fun cell found => ok.epochs cell (mem_of_deref found)⟩
  | @publisherSwaps tok r obs =>
    obtain ⟨gen, epoch, current, -, -⟩ := threadOk
    refine ⟨gen, epoch, fun durable => ⟨fun _ => .inr ?_, fun stale => absurd current (by simpa using stale)⟩⟩
    refine ⟨mergedCell i (s.deref s.entry) obs tok r, by simp [GrvShared.publishCell], ?_, ?_⟩
    · exact mergeReply_epoch current
    · exact (mergedCell_floor current).2 durable
  | publisherRetries _ | publishes => exact ⟨threadOk.1, threadOk.2.1, trivial⟩
  | rebinds =>
    refine ⟨?_, le_trans (fenceEpoch_withEpoch_le _ _) ok.info, trivial⟩
    rw [fenceGen_withEpoch]
    exact threadOk.1
  | installLoads => exact le_rfl
  | readerEmpty _ => rfl
  | @readerServes priority a cell nowT found current =>
    exact ⟨cell, found, current, fun x anchor served => serve_eq_some served⟩
  | readerRefuses => rfl
  | _ => trivial

/-- No step takes back what another thread may have seen. -/
theorem Transition.extends {s s' : GrvState} (transition : Transition s a s') (valid : Valid s)
    (unwrapped : s.unwrapped a = true) : Extends s.shared s'.shared := by
  cases transition with
  | begins _ => exact .refl s.shared
  | moves found moves runs => exact moves.extends valid.shared.ahead (unwrapped_run found runs unwrapped)

theorem Valid.step {s s' : GrvState} (valid : Valid s) (unwrapped : s.unwrapped a = true)
    (transition : Transition s a s') : Valid s' := by
  have published := @transition.published
  have extended := transition.extends valid unwrapped
  constructor
  · cases transition with
    | begins _ => exact valid.shared.mono published
    | moves found moves runs =>
      have bumps := unwrapped_run found runs unwrapped
      exact (moves.sharedOk valid.shared found (valid.threads _ _ found) bumps).mono published
  · refine transition.allThreads valid.threads (fun t begins => ?_) (fun i t shared' t' found moves => ?_)
      fun i t _ ok => extended.threadOk ok
    · cases begins with
      | publisher => exact ⟨le_rfl, le_rfl, trivial⟩
      | _ => trivial
    · exact moves.threadOk valid.shared (valid.threads i t found)

end FdbGo.Client
