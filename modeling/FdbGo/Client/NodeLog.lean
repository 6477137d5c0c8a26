import FdbGo.Client.Nodes

/-! The lazy write map. Until the nodes are first built the mutators only log
their operations. Building replays the log, merging long runs of writes in one
sorted pass. Write conflicts are read from the log or from the built nodes. -/

set_option autoImplicit false

namespace FdbGo.Client

open Foundation

/-- `KeyRange`: the keys from `beginKey` up to, but not at, `endKey`. -/
structure KeyRange where
  beginKey : Key
  endKey : Key
  deriving DecidableEq, Repr

/-- `rywNodes`: the built nodes, or the log of the operations not yet applied. -/
structure RywNodes where
  seq : List Node := []
  built : Bool := false
  log : List NodeOp := []
  deriving DecidableEq, Repr

/-! ## Merging a run of writes -/

/-- The state of `mergeMutates`: the nodes written out, the old nodes and the
sorted operations left. -/
structure MergeState where
  out : List Node
  rest : List Node
  run : List NodeOp

/-- The fold over the operations on one key. Without a node at the key the first
operation starts from the last node written out. -/
def foldGroup (key : Key) (floor : Node) (cur : Option Node) (op : NodeOp) : Option Node :=
  match cur with
  | some cur => some (mutatedEntry cur.key cur (!cur.op) op.addConflict op.versionstamp)
  | none => some (mutatedEntry key floor true op.addConflict op.versionstamp)

def nodeAt (rest : List Node) (key : Key) : Option Node :=
  match rest with
  | [] => none
  | nd :: _ => if nd.key == key then some nd else none

def MergeState.step (state : MergeState) : MergeState :=
  match state.run with
  | [] => state
  | first :: _ =>
    let key := first.beginKey
    let out := state.out ++ state.rest.takeWhile fun nd => decide (nd.key < key)
    let rest := state.rest.dropWhile fun nd => decide (nd.key < key)
    let found := nodeAt rest key
    let rest := if found.isSome then rest.drop 1 else rest
    let group := state.run.takeWhile fun op => op.beginKey == key
    let cur := group.foldl (foldGroup key (out.getLastD default)) found
    { out := out ++ cur.toList
      rest := rest
      run := state.run.dropWhile fun op => op.beginKey == key }

/-- A run of consecutive writes applied in one sorted pass. `sort` is the sort by
key, which need not be stable. -/
def mergeMutates (sort : List NodeOp → List NodeOp) (seq : List Node) (run : List NodeOp) :
    List Node :=
  let final := Loop.run (fun state => !state.run.isEmpty) MergeState.step run.length
    { out := [], rest := seq, run := sort run }
  final.out ++ final.rest

/-! ## Building -/

structure BuildState where
  seq : List Node
  log : List NodeOp

/-- One operation of the log, or one run of consecutive writes. A run short
against the nodes is applied one by one. -/
def BuildState.step (sort : List NodeOp → List NodeOp) (state : BuildState) : BuildState :=
  match state.log with
  | [] => state
  | op :: rest =>
    match op.kind with
    | .mutate =>
      let run := op :: rest.takeWhile fun op => op.kind == .mutate
      { seq :=
          if run.length < state.seq.length / 8 then
            run.foldl
              (fun seq op => applyMutate seq op.beginKey op.addConflict op.versionstamp) state.seq
          else mergeMutates sort state.seq run
        log := rest.dropWhile fun op => op.kind == .mutate }
    | .clear => { seq := applyClear state.seq op.beginKey op.endKey op.addConflict, log := rest }
    | .conflict => { seq := applyConflictRange state.seq op.beginKey op.endKey, log := rest }
    | .unreadable => { seq := applyUnreadableRange state.seq op.beginKey op.endKey, log := rest }

namespace RywNodes

def build (sort : List NodeOp → List NodeOp) (n : RywNodes) : RywNodes :=
  if n.built then n
  else
    let final := Loop.run (fun state => !state.log.isEmpty) (BuildState.step sort) n.log.length
      { seq := rywNodeSentinels, log := n.log }
    { seq := final.seq, built := true, log := [] }

def logOp (n : RywNodes) (op : NodeOp) : RywNodes := { n with log := n.log ++ [op] }

def mutate (n : RywNodes) (key : Key) (addConflict versionstamp : Bool) : RywNodes :=
  if !n.built then
    n.logOp { kind := .mutate, beginKey := key, addConflict := addConflict, versionstamp := versionstamp }
  else { n with seq := applyMutate n.seq key addConflict versionstamp }

def clear (n : RywNodes) (beginKey endKey : Key) (addConflict : Bool) : RywNodes :=
  if endKey ≤ beginKey then n
  else if !n.built then
    n.logOp { kind := .clear, beginKey := beginKey, endKey := endKey, addConflict := addConflict }
  else { n with seq := applyClear n.seq beginKey endKey addConflict }

def addConflictRange (n : RywNodes) (beginKey endKey : Key) : RywNodes :=
  if endKey ≤ beginKey then n
  else if !n.built then n.logOp { kind := .conflict, beginKey := beginKey, endKey := endKey }
  else { n with seq := applyConflictRange n.seq beginKey endKey }

def addUnmodifiedAndUnreadableRange (n : RywNodes) (beginKey endKey : Key) : RywNodes :=
  if endKey ≤ beginKey then n
  else if !n.built then n.logOp { kind := .unreadable, beginKey := beginKey, endKey := endKey }
  else { n with seq := applyUnreadableRange n.seq beginKey endKey }

def perform (n : RywNodes) (op : NodeOp) : RywNodes :=
  match op.kind with
  | .mutate => n.mutate op.beginKey op.addConflict op.versionstamp
  | .clear => n.clear op.beginKey op.endKey op.addConflict
  | .conflict => n.addConflictRange op.beginKey op.endKey
  | .unreadable => n.addUnmodifiedAndUnreadableRange op.beginKey op.endKey

end RywNodes

/-! ## Write conflicts -/

def KeyRange.le (a b : KeyRange) : Bool :=
  match cmp a.beginKey b.beginKey with
  | .lt => true
  | .gt => false
  | .eq => decide (a.endKey ≤ b.endKey)

/-- The loop of `coalesceOwnedWriteConflicts`, `last` being the last range kept. -/
def mergeRanges (last : KeyRange) : List KeyRange → List KeyRange
  | [] => [last]
  | r :: rest =>
    if r.beginKey ≤ last.endKey then
      mergeRanges (if last.endKey < r.endKey then { last with endKey := r.endKey } else last) rest
    else last :: mergeRanges r rest

def coalesceOwnedWriteConflicts (rs : List KeyRange) : List KeyRange :=
  if rs.length ≤ 1 then rs
  else
    match rs.mergeSort KeyRange.le with
    | [] => []
    | r :: rest => mergeRanges r rest

def clipConflict (lo hi : Key) (b e : Boundary) : List KeyRange :=
  let b := if b.compare { key := lo } == .lt then { key := lo } else b
  let e := if e.compare { key := hi } == .gt then { key := hi } else e
  if b.compare e == .lt then [{ beginKey := b.materialize, endKey := e.materialize }] else []

def loggedConflicts (lo hi : Key) (op : NodeOp) : List KeyRange :=
  if op.kind == .mutate && op.addConflict then
    clipConflict lo hi { key := op.beginKey } { key := op.beginKey, after := true }
  else if (op.kind == .clear && op.addConflict) || op.kind == .conflict then
    clipConflict lo hi { key := op.beginKey } { key := op.endKey }
  else []

/-- The state of the scan over built nodes: the ranges found, and the start of the
run of conflicts the scan is in. -/
structure ConflictRuns where
  dst : List KeyRange
  start : Boundary := { key := [] }
  inside : Bool := false

def ConflictRuns.segment (low : Boundary) (runs : ConflictRuns) (begins : Boundary)
    (conflict : Bool) : ConflictRuns :=
  let begins := if begins.compare low == .lt then low else begins
  if conflict && !runs.inside then { runs with start := begins, inside := true }
  else if !conflict && runs.inside then
    { runs with
      dst :=
        if runs.start.compare begins == .lt then
          runs.dst ++ [{ beginKey := runs.start.materialize, endKey := begins.materialize }]
        else runs.dst
      inside := false }
  else runs

/-- The scan over the nodes from the one whose segments contain the low bound, up
to the high bound. -/
def ConflictRuns.scan (low high : Boundary) (runs : ConflictRuns) : List Node → ConflictRuns
  | [] => runs
  | e :: rest =>
    let begins : Boundary := { key := e.key }
    if begins.compare high != .lt then runs
    else if e.op then
      let runs := runs.segment low begins e.isConflict
      match rest with
      | [] => runs
      | next :: tail =>
        if equalsKeyAfter e.key next.key then runs.scan low high (next :: tail)
        else if begins.keyAfter.compare high != .lt then runs
        else (runs.segment low begins.keyAfter e.followingConflict).scan low high (next :: tail)
    else (runs.segment low begins e.followingConflict).scan low high rest

def RywNodes.appendWriteConflictsIn (n : RywNodes) (dst : List KeyRange) (lo hi : Key) :
    List KeyRange :=
  if !n.built then dst ++ coalesceOwnedWriteConflicts (n.log.flatMap (loggedConflicts lo hi))
  else
    let first := (n.seq.findIdx fun nd => decide (lo < nd.key)) - 1
    let runs := ConflictRuns.scan { key := lo } { key := hi } { dst := dst } (n.seq.drop first)
    if runs.inside && runs.start.compare { key := hi } == .lt then
      runs.dst ++ [{ beginKey := runs.start.materialize, endKey := hi }]
    else runs.dst

end FdbGo.Client
