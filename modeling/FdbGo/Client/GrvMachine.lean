import FdbGo.Client.GrvCache

/-! The read version cache under concurrent calls. Each atomic load and each
compare-and-swap is one step, and any thread may take the next one. -/

set_option autoImplicit false

namespace FdbGo.Client

/-- A published entry. `source` is history: the publisher whose version it holds. -/
structure GrvCell where
  entry : GrvCacheEntry
  source : Option Nat := none
  deriving DecidableEq, Repr

/-- The shared words: the pointer to the entry, as an address among all entries ever
published, the fence word, and the epoch that the installed proxies were published with. -/
structure GrvShared where
  cells : List GrvCell := []
  entry : Option Nat := none
  fences : Nat := 0
  infoEpoch : Nat := 0
  deriving DecidableEq, Repr

/-- Where a publisher stands: its request under way, or in the loop of `publishReplyAt`
with what it has loaded. -/
inductive PublisherPc where
  | inFlight
  | loadEntry (r : Reply)
  | loadFences (r : Reply) (cur : Option Nat)
  | swap (r : Reply) (cur : Option Nat) (obs : Nat)
  | returned (r : Reply) (sameEpoch : Bool)
  deriving DecidableEq, Repr

inductive InvalidatePc where
  | bumpLoad
  | bumpSwap (cur : Nat)
  | loadEntry
  | swap (cur : Nat)
  | returned
  deriving DecidableEq, Repr

inductive ResetPc where
  | bumpLoad
  | bumpSwap (cur : Nat)
  | returned (epoch : Nat)
  deriving DecidableEq, Repr

/-- `installProxySet` publishes the epoch it has read. -/
inductive InstallPc where
  | loadFences
  | store (epoch : Nat)
  | returned
  deriving DecidableEq, Repr

/-- Where a read stands. Once it has returned, `consulted` is history: the address of the
entry it decided on, if that was of the epoch of its fence load, and this epoch. -/
inductive ReaderPc where
  | loadEntry
  | loadFences (cur : Nat)
  | returned (answer : Option (Int × GoTime)) (consulted : Option (Nat × Nat))
  deriving DecidableEq, Repr

inductive GrvThread where
  | publisher (tok : Nat) (pc : PublisherPc)
  | invalidate (pc : InvalidatePc)
  | reset (pc : ResetPc)
  | install (pc : InstallPc)
  | tryCache (priority : Nat) (pc : ReaderPc)
  deriving DecidableEq, Repr

/-- Threads are numbered in the order in which they begin; a publisher begins when it
captures its token. -/
structure GrvState where
  shared : GrvShared := {}
  threads : List GrvThread := []
  deriving DecidableEq, Repr

inductive GrvAction where
  | dispatch
  | rebind (i : Nat)
  | publish (i : Nat) (r : Reply)
  | invalidate
  | reset
  | install
  | tryCache (priority : Nat)
  | run (i : Nat) (nowT : GoTime)
  deriving DecidableEq, Repr

variable (s : GrvShared)

namespace GrvShared

def deref (cur : Option Nat) : Option GrvCell := cur.bind fun a => s.cells[a]?

def publishCell (cell : GrvCell) : GrvShared :=
  { s with cells := s.cells ++ [cell], entry := some s.cells.length }

end GrvShared

/-- History: whether the version of the merged entry is the reply's own. -/
def takesVersion (cur : Option GrvCacheEntry) (obs tok : Nat) (r : Reply) : Bool :=
  let sameEpoch := fenceEpoch obs == fenceEpoch tok
  let base := mergeBase cur sameEpoch (fenceEpoch obs)
  obs == tok && !decide (r.v < mergeFloor base sameEpoch r) &&
    match base with
    | some e => !decide (r.v < e.version)
    | none => true

/-- The entry that publisher `i` makes of the one it has loaded. -/
def mergedCell (i : Nat) (cur : Option GrvCell) (obs tok : Nat) (r : Reply) : GrvCell :=
  { entry := mergeReply (cur.map GrvCell.entry) obs tok r
    source :=
      if takesVersion (cur.map GrvCell.entry) obs tok r then some i else cur.bind GrvCell.source }

def stepPublisher (i tok : Nat) : PublisherPc → Option (GrvShared × PublisherPc)
  | .inFlight => none
  | .loadEntry r => some (s, .loadFences r s.entry)
  | .loadFences r cur =>
    let obs := s.fences
    let sameEpoch := fenceEpoch obs == fenceEpoch tok
    let next := mergeReply ((s.deref cur).map GrvCell.entry) obs tok r
    -- Nothing moved, or an empty cache and nothing to contribute.
    if next = ((s.deref cur).map GrvCell.entry).getD {} then some (s, .returned r sameEpoch)
    else some (s, .swap r cur obs)
  | .swap r cur obs =>
    if s.entry = cur then
      some (s.publishCell (mergedCell i (s.deref cur) obs tok r),
        .returned r (fenceEpoch obs == fenceEpoch tok))
    else some (s, .loadEntry r)
  | .returned _ _ => none

def stepInvalidate : InvalidatePc → Option (GrvShared × InvalidatePc)
  | .bumpLoad => some (s, .bumpSwap s.fences)
  | .bumpSwap cur =>
    if s.fences = cur then some ({ s with fences := bumpedFences false cur }, .loadEntry)
    else some (s, .bumpLoad)
  | .loadEntry =>
    match s.entry with
    | none => some (s, .returned)
    | some a => some (s, .swap a)
  | .swap cur =>
    if s.entry = some cur then
      match s.cells[cur]? with
      | some cell => some (s.publishCell { entry := sentinel cell.entry }, .returned)
      | none => none
    else some (s, .loadEntry)
  | .returned => none

def stepReset : ResetPc → Option (GrvShared × ResetPc)
  | .bumpLoad => some (s, .bumpSwap s.fences)
  | .bumpSwap cur =>
    if s.fences = cur then
      some ({ s with fences := bumpedFences true cur }, .returned (fenceEpoch (bumpedFences true cur)))
    else some (s, .bumpLoad)
  | .returned _ => none

/-- The fence load and the store of `installProxySet`. -/
def stepInstall : InstallPc → Option (GrvShared × InstallPc)
  | .loadFences => some (s, .store (fenceEpoch s.fences))
  | .store epoch => some ({ s with infoEpoch := epoch }, .returned)
  | .returned => none

/-- The next step of `tryCache`; the clock is read with the fences. -/
def stepReader (priority : Nat) (nowT : GoTime) : ReaderPc → Option (GrvShared × ReaderPc)
  | .loadEntry =>
    match s.entry with
    | none => some (s, .returned none none)
    | some a => some (s, .loadFences a)
  | .loadFences a =>
    match s.cells[a]? with
    | none => none
    | some cell =>
      if cell.entry.epoch = fenceEpoch s.fences then
        some (s, .returned (serve cell.entry priority nowT) (some (a, fenceEpoch s.fences)))
      else some (s, .returned none none)
  | .returned _ _ => none

def stepThread (i : Nat) (nowT : GoTime) : GrvThread → Option (GrvShared × GrvThread)
  | .publisher tok pc => (stepPublisher s i tok pc).map fun (s, pc) => (s, .publisher tok pc)
  | .invalidate pc => (stepInvalidate s pc).map fun (s, pc) => (s, .invalidate pc)
  | .reset pc => (stepReset s pc).map fun (s, pc) => (s, .reset pc)
  | .install pc => (stepInstall s pc).map fun (s, pc) => (s, .install pc)
  | .tryCache priority pc => (stepReader s priority nowT pc).map fun (s, pc) => (s, .tryCache priority pc)

namespace GrvState

def spawn (s : GrvState) (t : GrvThread) : GrvState := { s with threads := s.threads ++ [t] }

def step (s : GrvState) : GrvAction → Option GrvState
  | .dispatch => some (s.spawn (.publisher s.shared.fences .inFlight))
  | .rebind i =>
    match s.threads[i]? with
    | some (.publisher tok .inFlight) =>
      some { s with threads := s.threads.set i (.publisher (withEpoch tok s.shared.infoEpoch) .inFlight) }
    | _ => none
  | .publish i r =>
    match s.threads[i]? with
    | some (.publisher tok .inFlight) =>
      some { s with threads := s.threads.set i (.publisher tok (.loadEntry r)) }
    | _ => none
  | .invalidate => some (s.spawn (.invalidate .bumpLoad))
  | .reset => some (s.spawn (.reset .bumpLoad))
  | .install => some (s.spawn (.install .loadFences))
  | .tryCache priority => some (s.spawn (.tryCache priority .loadEntry))
  | .run i nowT => do
    let t ← s.threads[i]?
    let (shared, t) ← stepThread s.shared i nowT t
    return { shared := shared, threads := s.threads.set i t }

def run (s : GrvState) (actions : List GrvAction) : Option GrvState := actions.foldlM step s

end GrvState

end FdbGo.Client
