import FdbGo.Client.Atomic
import FdbGo.Client.NodeLog

/-! One version of the write map: the entries of the written keys, the cleared
ranges, the unreadable keys and ranges, and the nodes.

The entries are kept in a map until the first ordered access moves them to a sorted
sequence. A map is a list of entries with distinct keys, in no order. -/

set_option autoImplicit false

namespace FdbGo.Client

open Foundation

structure RywEntry where
  value : Option Bytes := none
  -- A matched `compareAndClear`: the key is an operation that reads as absent.
  absent : Bool := false
  dependent : Bool := false
  hasAtomics : Bool := false
  atomics : List RywMutation := []
  unreadable : Bool := false
  -- Whether an atomic mutation has set the conflict flag of the key's node.
  nodeConflict : Bool := false
  deriving DecidableEq, Repr

structure RywWrite where
  key : Key
  e : RywEntry
  deriving DecidableEq, Repr

structure RywWrites where
  writes : Option (List RywWrite) := none
  sorted : List RywWrite := []
  isSorted : Bool := false
  cleared : List KeyRange := []
  unreadableRanges : List KeyRange := []
  unreadableKeys : List Key := []
  bypassUnreadable : Bool := false
  nodes : RywNodes := {}
  pins : Nat := 0
  deriving DecidableEq, Repr

/-! ## Sorted sequences of ranges -/

/-- The range that contains `key`: the first one that ends after it, when it begins
at or before it. -/
def rangeContaining (s : List KeyRange) (key : Key) : Option KeyRange :=
  match s[s.findIdx fun r => decide (key < r.endKey)]? with
  | some r => if r.beginKey ≤ key then some r else none
  | none => none

def addRangeOwned (s : List KeyRange) (beginKey endKey : Key) : List KeyRange :=
  let hiIdx := s.findIdx fun r => decide (endKey < r.beginKey)
  let loIdx := s.findIdx fun r => decide (beginKey ≤ r.endKey)
  let newBegin :=
    match s[loIdx]? with
    | some r => if loIdx < hiIdx ∧ r.beginKey < beginKey then r.beginKey else beginKey
    | none => beginKey
  let newEnd :=
    match s[hiIdx - 1]? with
    | some r => if loIdx < hiIdx ∧ endKey < r.endKey then r.endKey else endKey
    | none => endKey
  let merged : KeyRange := { beginKey := newBegin, endKey := newEnd }
  if hiIdx - loIdx == 1 then s.set loIdx merged
  else insertAt (deleteRange s loIdx hiIdx) loIdx merged

def subtractRange (s : List KeyRange) (beginKey endKey : Key) : List KeyRange :=
  if s.isEmpty || decide (endKey ≤ beginKey) then s
  else
    let lo := s.findIdx fun r => decide (beginKey < r.endKey)
    let hi := s.findIdx fun r => decide (endKey ≤ r.beginKey)
    if lo ≥ hi then s
    else
      let left :=
        match s[lo]? with
        | some r => if r.beginKey < beginKey then [{ beginKey := r.beginKey, endKey := beginKey }] else []
        | none => []
      let right :=
        match s[hi - 1]? with
        | some r => if endKey < r.endKey then [{ beginKey := endKey, endKey := r.endKey }] else []
        | none => []
      s.take lo ++ (left ++ right) ++ s.drop hi

/-! ## The nodes' keyspace -/

def nodeKey (key : Key) : Bool := decide (key < allKeysEnd)

variable (w : RywWrites) (beginKey endKey : Key)

def nodeClip : Option (Key × Key) :=
  let endKey := if allKeysEnd < endKey then allKeysEnd else endKey
  if beginKey < endKey then some (beginKey, endKey) else none

namespace RywWrites

/-! ## Entries -/

def ensureSorted : RywWrites :=
  if w.isSorted then w
  else
    { w with
      sorted := (w.writes.getD []).mergeSort fun a b => decide (a.key ≤ b.key)
      writes := none
      isSorted := true }

def numWrites : Nat :=
  if w.isSorted then w.sorted.length else (w.writes.getD []).length

def writeIndex (k : Key) : Nat := w.sorted.findIdx fun x => decide (k ≤ x.key)

def entry (k : Key) : Option RywEntry :=
  if !w.isSorted then ((w.writes.getD []).find? fun x => decide (x.key = k)).map RywWrite.e
  else
    match w.sorted[w.writeIndex k]? with
    | some x => if x.key = k then some x.e else none
    | none => none

def putEntry (k : Key) (e : RywEntry) : RywWrites :=
  if !w.isSorted then
    { w with writes := some ({ key := k, e := e } :: (w.writes.getD []).filter fun x => x.key != k) }
  else { w with sorted := putAt RywWrite.key { key := k, e := e } w.sorted }

def deleteEntry (k : Key) : RywWrites × Option RywEntry :=
  if !w.isSorted then
    ({ w with writes := w.writes.map (List.filter fun x => x.key != k) }, w.entry k)
  else ({ w with sorted := deleteKey RywWrite.key k w.sorted }, w.entry k)

def isCleared (key : Key) : Bool := (rangeContaining w.cleared key).isSome

def isUnreadable (key : Key) : Bool := (rangeContaining w.unreadableRanges key).isSome

def insertUnreadableKey (k : Key) : RywWrites :=
  { w with unreadableKeys := putAt id k w.unreadableKeys }

def removeUnreadableKey (k : Key) : RywWrites :=
  { w with unreadableKeys := deleteKey id k w.unreadableKeys }

/-! ## Operations -/

def setWith (key : Key) (value : Bytes) (addConflict : Bool) : RywWrites :=
  let prev := (w.entry key).getD {}
  let w := if nodeKey key then { w with nodes := w.nodes.mutate key addConflict false } else w
  w.putEntry key { value := some value, unreadable := prev.unreadable }

def clearNodes (addConflict : Bool) : RywWrites :=
  match nodeClip beginKey endKey with
  | some (b, e) => { w with nodes := w.nodes.clear b e addConflict }
  | none => w

/-- The ranges' part of a clear: what is cleared is readable. -/
def clearRanges : RywWrites :=
  { w with
    cleared := addRangeOwned w.cleared beginKey endKey
    unreadableRanges := subtractRange w.unreadableRanges beginKey endKey }

def clearWith (key : Key) (addConflict : Bool) : RywWrites :=
  let w := w.clearNodes key (keyAfter key) addConflict
  let (w, removed) := w.deleteEntry key
  let w := if (removed.map RywEntry.unreadable).getD false then w.removeUnreadableKey key else w
  w.clearRanges key (keyAfter key)

def deleteEntries : RywWrites :=
  if w.numWrites > 0 then
    let w := w.ensureSorted
    let wStart := w.writeIndex beginKey
    let wEnd := w.writeIndex endKey
    if wStart < wEnd then
      let removed := (w.sorted.take wEnd).drop wStart
      let w := removed.foldl (fun w x => if x.e.unreadable then w.removeUnreadableKey x.key else w) w
      { w with sorted := deleteRange w.sorted wStart wEnd }
    else w
  else w

def clearRangeWith (addConflict : Bool) : RywWrites :=
  ((w.clearNodes beginKey endKey addConflict).deleteEntries beginKey endKey).clearRanges beginKey endKey

def foldedEntry (entry : RywEntry) (op : MutationType) (param : Bytes) : RywEntry :=
  match applyAtomic op entry.value param with
  | (_, true) => { entry with value := none, absent := true }
  | (value, false) => { entry with value := some (existing value), absent := false }

/-- Whether an atomic mutation has to reach the key's node: on an operation it only
sets flags, which may be set already. -/
def mutatesNode (op : MutationType) (key : Key) (addConflict : Bool) : Bool :=
  let found := w.entry key
  let entry := found.getD {}
  nodeKey key && !(found.isSome && (!addConflict || entry.nodeConflict) &&
    (!isUnresolvedVersionstamp op || entry.unreadable) && !w.isUnreadable key)

/-- The entry an atomic mutation leaves. A resolved entry takes the mutation at once;
so does a cleared key, whose base is known to be absent. Else it joins the chain, as a
versionstamped one always does. -/
def atomicEntry (op : MutationType) (key : Key) (param : Bytes) (addConflict : Bool) :
    RywEntry :=
  let found := w.entry key
  let entry := found.getD {}
  let entry := { entry with nodeConflict := entry.nodeConflict || (addConflict && nodeKey key) }
  let versionstamp := isUnresolvedVersionstamp op
  if !versionstamp && found.isSome && !entry.hasAtomics then foldedEntry entry op param
  else if !versionstamp && found.isNone && w.isCleared key then
    foldedEntry { nodeConflict := entry.nodeConflict } op param
  else
    { entry with
      hasAtomics := true
      unreadable := entry.unreadable || versionstamp
      value := none
      atomics := coalesceOverAtomics entry.atomics { typ := op, param := param } }

def atomicWith (op : MutationType) (key : Key) (param : Bytes) (addConflict : Bool) :
    RywWrites :=
  let versionstamp := isUnresolvedVersionstamp op
  let nodes :=
    if w.mutatesNode op key addConflict then w.nodes.mutate key addConflict versionstamp else w.nodes
  let fresh := versionstamp && !((w.entry key).getD {}).unreadable
  let marked := if fresh then w.insertUnreadableKey key else w
  { marked with nodes := nodes }.putEntry key (w.atomicEntry op key param addConflict)

end RywWrites

end FdbGo.Client
