import FdbGo.Client.Writes

/-! The read-your-writes cache: versions of the write map in a heap, the live one and
those that reads have pinned. A write to a pinned version clones it first. -/

set_option autoImplicit false

namespace FdbGo.Client

/-- The versions by address, and the address of the live one. The version at address 0
is the cache's own, which it starts with. -/
structure RywCache where
  heap : List RywWrites := [{}]
  w : Option Nat := none
  deriving DecidableEq, Repr

def RywWrites.empty (w : RywWrites) : Bool :=
  w.writes.isNone && !w.isSorted && w.sorted.isEmpty && w.cleared.isEmpty &&
    w.unreadableRanges.isEmpty && w.unreadableKeys.isEmpty && !w.nodes.built && w.nodes.log.isEmpty

def RywWrites.clone (w : RywWrites) : RywWrites :=
  { sorted := w.ensureSorted.sorted
    isSorted := true
    cleared := w.cleared
    unreadableRanges := w.unreadableRanges
    unreadableKeys := w.unreadableKeys
    bypassUnreadable := w.bypassUnreadable
    nodes := w.nodes }

namespace RywCache

variable (c : RywCache)

def version (a : Nat) : RywWrites := c.heap.getD a {}

def store (a : Nat) (w : RywWrites) : RywCache := { c with heap := c.heap.set a w }

/-- The address of the live version; the first use starts the cache's own version. -/
def liveLocked : RywCache × Nat :=
  match c.w with
  | some a => (c, a)
  | none => ({ c.store 0 {} with w := some 0 }, 0)

/-- Empties the cache's own version once it is neither live nor pinned. -/
def dropObsoleteBaseLocked : RywCache :=
  if c.w != some 0 && (c.version 0).pins == 0 && !(c.version 0).empty then c.store 0 {} else c

def resetWritesLocked : RywCache :=
  match c.w with
  | none => c
  | some a =>
    let c :=
      if (c.version a).pins == 0 then c.store a {}
      else { heap := c.heap ++ [{}], w := some c.heap.length }
    c.dropObsoleteBaseLocked

/-- The address of the live version, cloned first if a read pins it. -/
def mutableWritesLocked : RywCache × Nat :=
  let (c, a) := c.liveLocked
  let w := c.version a
  if w.pins > 0 then
    ({ heap := (c.store a w.ensureSorted).heap ++ [w.clone], w := some c.heap.length }, c.heap.length)
  else (c, a)

def write (f : RywWrites → RywWrites) : RywCache :=
  let (c, a) := c.mutableWritesLocked
  c.store a (f (c.version a))

def setWith (c : RywCache) (key : Key) (value : Bytes) (addConflict : Bool) : RywCache :=
  c.write fun w => w.setWith key value addConflict

def clearWith (c : RywCache) (key : Key) (addConflict : Bool) : RywCache :=
  c.write fun w => w.clearWith key addConflict

def clearRangeWith (c : RywCache) (beginKey endKey : Key) (addConflict : Bool) : RywCache :=
  c.write fun w => w.clearRangeWith beginKey endKey addConflict

def atomicWith (c : RywCache) (op : MutationType) (key : Key) (param : Bytes) (addConflict : Bool) :
    RywCache :=
  c.write fun w => w.atomicWith op key param addConflict

def addConflictRange (c : RywCache) (beginKey endKey : Key) : RywCache :=
  match nodeClip beginKey endKey with
  | some (b, e) => c.write fun w => { w with nodes := w.nodes.addConflictRange b e }
  | none => c

def set (key : Key) (value : Bytes) : RywCache := c.setWith key value true

def clearRange (beginKey endKey : Key) : RywCache := c.clearRangeWith beginKey endKey true

def atomic (op : MutationType) (key : Key) (param : Bytes) : RywCache :=
  c.atomicWith op key param (op != .setVersionstampedKey)

def pinWritesForCommitLocked : RywCache :=
  let (c, a) := c.liveLocked
  let w := (c.version a).ensureSorted
  c.store a { w with pins := w.pins + 1 }

def pinWritesLocked (sort : List NodeOp → List NodeOp) (c : RywCache) : RywCache :=
  let (c, a) := c.liveLocked
  let w := c.version a
  (c.store a { w with nodes := w.nodes.build sort }).pinWritesForCommitLocked

/-- Releases a pin; there must be one. -/
def unpinWritesLocked (a : Nat) : Option RywCache :=
  let w := c.version a
  if w.pins = 0 then none else some (c.store a { w with pins := w.pins - 1 }).dropObsoleteBaseLocked

end RywCache

end FdbGo.Client
