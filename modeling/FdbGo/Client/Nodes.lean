import FdbGo.Client.Key
import FdbGo.Foundation.Loop
import FdbGo.Foundation.Ordered

/-! The node set of the write map. A node with an operation gives the segment
`[key, keyAfter key)` and then the range up to the next node. A node without one
gives the whole range up to the next node. The node sequence is modelled as the
list it holds, and a finger into it as a position. -/

set_option autoImplicit false

namespace FdbGo.Client

open Foundation

/-- `rywNode`: the flags of a key with an operation, and of the keys that follow
it up to the next node. -/
structure Node where
  key : Key
  op : Bool := false
  followingCleared : Bool := false
  followingConflict : Bool := false
  isConflict : Bool := false
  followingUnreadable : Bool := false
  isUnreadable : Bool := false
  deriving DecidableEq, Repr, Inhabited

inductive NodeOpKind where
  | mutate
  | clear
  | conflict
  | unreadable
  deriving DecidableEq, Repr

/-- `rywNodeOp`: a structural operation, whose key is `beginKey` when it is a
mutate. -/
structure NodeOp where
  kind : NodeOpKind
  beginKey : Key
  endKey : Key := []
  addConflict : Bool := false
  versionstamp : Bool := false
  deriving DecidableEq, Repr

structure NodeFlags where
  op : Bool
  cleared : Bool
  conflict : Bool
  unreadable : Bool
  deriving DecidableEq, Repr

structure NodeSeg extends NodeFlags where
  beginKey : Boundary
  endKey : Boundary
  deriving DecidableEq, Repr

def rywNodeSentinels : List Node :=
  [{ key := allKeysBegin }, { key := allKeysEnd }, { key := afterAllKeys }]

/-! ## The iterator -/

/-- `rywNodeIter`: `cur` is the entry's position and `offset` tells the range
after the entry from the operation at it. -/
structure NodeIter where
  s : List Node
  cur : Nat := 0
  next : Node := default
  offset : Bool := false
  deriving DecidableEq, Repr

variable (it : NodeIter)

namespace NodeIter

def entry : Node := it.s.getD it.cur default

def nextEntry : Node := it.next

def isClearedRange : Bool := it.offset && it.entry.followingCleared

def isUnmodifiedRange : Bool := it.offset && !it.entry.followingCleared

def isOperation : Bool := !it.offset

def isConflictRange : Bool :=
  if it.offset then it.entry.followingConflict else it.entry.isConflict

def isUnreadable (it : NodeIter) : Bool :=
  if it.offset then it.entry.followingUnreadable else it.entry.isUnreadable

def beginKey : Boundary :=
  { key := it.entry.key, after := it.offset && it.entry.op }

def endKey : Boundary :=
  if it.offset then { key := it.nextEntry.key } else { key := it.entry.key, after := true }

def keyAtBegin : Bool := !it.offset || !it.entry.op

/-- The segment containing `key`. A key past the last node clamps to the segment
before it. -/
def skip (key : Key) : NodeIter :=
  let first := it.s.findIdx fun nd => decide (key < nd.key)
  let last := it.s.length - 1
  let above := if last < first then last else first
  let entry := it.s.getD (above - 1) default
  { it with
    cur := above - 1
    next := it.s.getD above default
    offset := !entry.op || entry.key != key }

def inc : NodeIter :=
  if !it.offset && !equalsKeyAfter it.entry.key it.nextEntry.key then { it with offset := true }
  else
    { it with
      cur := it.cur + 1
      next := it.s.getD (it.cur + 2) default
      offset := !(it.s.getD (it.cur + 1) default).op }

def moveTo (endKey : Key) : NodeIter :=
  match it.endKey.compare { key := endKey } with
  | .eq => it.inc
  | .lt => it.skip endKey
  | .gt => it

def seg : NodeSeg where
  beginKey := it.beginKey
  endKey := it.endKey
  op := it.isOperation
  cleared := it.isClearedRange
  conflict := it.isConflictRange
  unreadable := it.isUnreadable

end NodeIter

variable (seq : List Node)

def segmentAt (p : Key) : NodeSeg :=
  (NodeIter.skip { s := seq } p).seg

/-! ## Inserting and removing nodes -/

def insertNode (node : Node) : List Node := putAt Node.key node seq

def removeRange (beginB endB : Boundary) : List Node :=
  deleteRange seq
    (seq.findIdx fun nd => Boundary.compare { key := nd.key } beginB != .lt)
    (seq.findIdx fun nd => Boundary.compare { key := nd.key } endB != .lt)

/-! ## The mutators -/

/-- The node a mutate leaves at `key` when the iterator, skipped to `key`, is at
`e` with `offset`. -/
def mutatedEntry (key : Key) (e : Node) (offset addConflict versionstamp : Bool) : Node where
  key := key
  op := true
  followingCleared := e.followingCleared
  followingConflict := e.followingConflict
  isConflict := addConflict || (if offset then e.followingConflict else e.isConflict)
  followingUnreadable := e.followingUnreadable
  isUnreadable := (if offset then e.followingUnreadable else e.isUnreadable) || versionstamp

def applyMutate (key : Key) (addConflict versionstamp : Bool) : List Node :=
  let i := (seq.findIdx fun nd => decide (key < nd.key)) - 1
  let e := seq.getD i default
  if seq.length < i + 2 then
    let it := NodeIter.skip { s := seq } key
    insertNode seq (mutatedEntry key it.entry it.offset addConflict versionstamp)
  else
    let found := e.key == key
    let node := mutatedEntry key e (!e.op || !found) addConflict versionstamp
    if found then seq.set i node else insertAt seq (i + 1) node

def insertToggles (conflicted : Bool) : List Node → List Boundary → List Node
  | seq, [] => seq
  | seq, b :: rest =>
    insertToggles (!conflicted)
      (insertNode seq
        { key := b.materialize, followingCleared := true, followingConflict := conflicted,
          isConflict := conflicted })
      rest

structure ToggleScan where
  it : NodeIter
  lastConflicted : Bool
  conflictRanges : List Boundary

def ToggleScan.step (scan : ToggleScan) : ToggleScan :=
  let it := scan.it.inc
  if scan.lastConflicted != it.isConflictRange then
    { it := it, lastConflicted := it.isConflictRange,
      conflictRanges := scan.conflictRanges ++ [it.beginKey] }
  else { scan with it := it }

variable (beginKey endKey : Key)

/-- A clear that keeps the conflict state of every key it covers. It leaves a
node at each change of that state. -/
def applyClearNoConflict : List Node :=
  let endB : Boundary := { key := endKey }
  let it := NodeIter.skip { s := seq } beginKey
  let insertBegin := !it.isClearedRange || it.isUnreadable
  let conflicted := if insertBegin then it.isConflictRange else !it.isConflictRange
  let scan := Loop.run (fun scan => scan.it.endKey.compare endB == .lt) ToggleScan.step
    (2 * seq.length)
    { it := it, lastConflicted := it.isConflictRange,
      conflictRanges := if insertBegin then [{ key := beginKey }] else [] }
  let it := if scan.it.endKey.equal endB then scan.it.inc else scan.it
  let beginIsEnd := it.beginKey.equal endB
  let insertEnd :=
    ((it.isUnmodifiedRange || it.isUnreadable) && (!it.keyAtBegin || !beginIsEnd)) ||
      (it.entry.isConflict && !it.entry.followingConflict && beginIsEnd && !it.keyAtBegin)
  let endCleared := it.isClearedRange
  let endCoalesceClear := it.isClearedRange && beginIsEnd &&
    it.isConflictRange == scan.lastConflicted && !it.isUnreadable
  let endConflict := it.isConflictRange
  let endUnreadable := it.isUnreadable
  let seq := removeRange seq { key := beginKey, after := !insertBegin }
    { key := endKey, after := endCoalesceClear }
  let seq := insertToggles conflicted seq scan.conflictRanges
  if insertEnd then
    insertNode seq
      { key := endKey, followingCleared := endCleared, followingConflict := endConflict,
        isConflict := endConflict, followingUnreadable := endUnreadable,
        isUnreadable := endUnreadable }
  else seq

/-- The last step of `applyClear` and `applyUnreadableRange`: the range's nodes
go, and a node may come at its begin and at its end. -/
def replaceRange (insertBegin insertEnd coalesce : Bool)
    (beginNode endNode : Node) : List Node :=
  let seq := removeRange seq { key := beginKey, after := !insertBegin }
    { key := endKey, after := coalesce }
  let seq := if insertBegin then insertNode seq beginNode else seq
  if insertEnd then insertNode seq endNode else seq

def applyClear (addConflict : Bool) : List Node :=
  if !addConflict then applyClearNoConflict seq beginKey endKey
  else
    let endB : Boundary := { key := endKey }
    let it := NodeIter.skip { s := seq } beginKey
    let insertBegin := !it.isClearedRange || !it.isConflictRange || it.isUnreadable
    let it := it.moveTo endKey
    let insertEnd := (it.isUnmodifiedRange || !it.isConflictRange || it.isUnreadable) &&
      (!it.keyAtBegin || !it.beginKey.equal endB)
    let endCoalesceClear := it.isClearedRange && it.beginKey.equal endB &&
      it.isConflictRange && !it.isUnreadable
    replaceRange seq beginKey endKey insertBegin insertEnd endCoalesceClear
      { key := beginKey, followingCleared := true, followingConflict := true, isConflict := true }
      { key := endKey, followingCleared := it.isClearedRange,
        followingConflict := it.isConflictRange, isConflict := it.isConflictRange,
        followingUnreadable := it.isUnreadable, isUnreadable := it.isUnreadable }

def applyUnreadableRange : List Node :=
  let endB : Boundary := { key := endKey }
  let it := NodeIter.skip { s := seq } beginKey
  let insertBegin := !it.isUnmodifiedRange || it.isConflictRange || !it.isUnreadable
  let it := it.moveTo endKey
  let insertEnd := (it.isClearedRange || it.isConflictRange || !it.isUnreadable) &&
    (!it.keyAtBegin || !it.beginKey.equal endB)
  let endCoalesceUnmodified := it.isUnmodifiedRange && it.beginKey.equal endB &&
    !it.isConflictRange && it.isUnreadable
  replaceRange seq beginKey endKey insertBegin insertEnd endCoalesceUnmodified
    { key := beginKey, followingUnreadable := true, isUnreadable := true }
    { key := endKey, followingCleared := it.isClearedRange,
      followingConflict := it.isConflictRange, isConflict := it.isConflictRange,
      followingUnreadable := it.isUnreadable, isUnreadable := it.isUnreadable }

/-- An edit of `applyConflictRange`, by position. -/
structure NodeEdit where
  pos : Nat
  replace : Bool
  node : Node

def NodeEdit.apply (edit : NodeEdit) (seq : List Node) : List Node :=
  if edit.replace then seq.set edit.pos edit.node else insertAt seq edit.pos edit.node

/-- Applied from the last, so that earlier positions stay valid. -/
def applyEdits (edits : List NodeEdit) (seq : List Node) : List Node :=
  edits.foldr NodeEdit.apply seq

def beginEdits (beginKey : Key) : List NodeEdit :=
  let e := it.entry
  if !e.followingConflict || !e.isConflict then
    let node : Node :=
      { key := beginKey, op := it.isOperation, followingCleared := e.followingCleared,
        followingConflict := true, isConflict := true,
        followingUnreadable := e.followingUnreadable, isUnreadable := e.isUnreadable }
    if e.key == beginKey then [{ pos := it.cur, replace := true, node := node }]
    else [{ pos := it.cur + 1, replace := false, node := node }]
  else []

structure ConflictScan where
  it : NodeIter
  edits : List NodeEdit

def ConflictScan.step (scan : ConflictScan) : ConflictScan :=
  let it := scan.it.inc
  let e := it.entry
  if it.keyAtBegin && (!e.followingConflict || !e.isConflict) then
    { it := it
      edits := scan.edits ++
        [{ pos := it.cur, replace := true,
           node := { e with followingConflict := true, isConflict := true } }] }
  else { scan with it := it }

def endEdits (endKey : Key) : List NodeEdit :=
  let e := it.entry
  if !e.followingConflict || !e.isConflict then
    let next := it.inc
    if !next.keyAtBegin || !next.beginKey.equal { key := endKey } then
      [{ pos := it.cur + 1, replace := false,
         node := { key := endKey, followingCleared := e.followingCleared,
                   followingUnreadable := e.followingUnreadable,
                   isUnreadable := e.isUnreadable } }]
    else []
  else []

def applyConflictRange : List Node :=
  let endB : Boundary := { key := endKey }
  let it := NodeIter.skip { s := seq } beginKey
  let scan := Loop.run (fun scan => scan.it.endKey.compare endB == .lt) ConflictScan.step
    (2 * seq.length) { it := it, edits := beginEdits it beginKey }
  applyEdits (scan.edits ++ endEdits scan.it endKey) seq

def applyOp (op : NodeOp) : List Node :=
  match op.kind with
  | .mutate => applyMutate seq op.beginKey op.addConflict op.versionstamp
  | .clear => applyClear seq op.beginKey op.endKey op.addConflict
  | .conflict => applyConflictRange seq op.beginKey op.endKey
  | .unreadable => applyUnreadableRange seq op.beginKey op.endKey

/-- The operations the write map's callers pass: a key below the end of the
keyspace, or a non-empty range below it. -/
def NodeOp.InKeyspace (op : NodeOp) : Prop :=
  op.beginKey < allKeysEnd ∧
    (op.kind ≠ .mutate → op.beginKey < op.endKey ∧ op.endKey ≤ allKeysEnd)

instance (op : NodeOp) : Decidable op.InKeyspace :=
  inferInstanceAs (Decidable (_ ∧ (_ → _)))

end FdbGo.Client
