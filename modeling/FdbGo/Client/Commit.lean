import FdbGo.Client.Cache

/-! The mutations a commit ships: the operation log coalesced through a write map. -/

set_option autoImplicit false

namespace FdbGo.Client

/-- The clears of one cleared range: the stretches between the written keys of it. -/
def clearStretches (beginKey endKey : Key) : List RywWrite → List Mutation
  | [] => if beginKey < endKey then [{ typ := .clearRange, key := beginKey, value := endKey }] else []
  | x :: rest =>
    if x.key < endKey then
      (if beginKey < x.key then [{ typ := .clearRange, key := beginKey, value := x.key }] else []) ++
        clearStretches (keyAfter x.key) endKey rest
    else if beginKey < endKey then [{ typ := .clearRange, key := beginKey, value := endKey }]
    else []

def RywWrite.mutations (x : RywWrite) : List Mutation :=
  if x.e.hasAtomics then x.e.atomics.map fun m => { typ := m.typ, key := x.key, value := m.param }
  else if x.e.absent then [{ typ := .clearRange, key := x.key, value := keyAfter x.key }]
  else [{ typ := .setValue, key := x.key, value := existing x.e.value }]

/-- The clears in the order of the cleared ranges, then the operations in key order. -/
def RywWrites.materializeCommit (w : RywWrites) : List Mutation :=
  let w := w.ensureSorted
  w.cleared.flatMap (fun r =>
      clearStretches r.beginKey r.endKey (w.sorted.drop (w.writeIndex r.beginKey))) ++
    w.sorted.flatMap RywWrite.mutations

def RywCache.materializeCommit (c : RywCache) : List Mutation :=
  let (c, a) := c.liveLocked
  (c.version a).materializeCommit

def plainSets : List Mutation → Bool
  | [] => true
  | [m] => m.typ == .setValue
  | m :: next :: rest => m.typ == .setValue && decide (m.key ≤ next.key) && plainSets (next :: rest)

def lastSets (out : List Mutation) : List Mutation → List Mutation
  | [] => out
  | m :: rest =>
    match out.getLast? with
    | some last =>
      if last.key = m.key then lastSets (out.dropLast ++ [m]) rest else lastSets (out ++ [m]) rest
    | none => lastSets [m] rest

/-- Sets in key order need no write map: the last one of each key wins. -/
def coalescePlainSetMutations (muts : List Mutation) : Option (List Mutation) :=
  if plainSets muts then some (lastSets [] muts) else none

def RywCache.replay (c : RywCache) (m : Mutation) : RywCache :=
  match m.typ with
  | .setValue => c.set m.key m.value
  | .clearRange => c.clearRange m.key m.value
  | op => c.atomic op m.key m.value

def coalesceCommitMutations (muts : List Mutation) : List Mutation :=
  match coalescePlainSetMutations muts with
  | some out => out
  | none => (muts.foldl RywCache.replay {}).materializeCommit

end FdbGo.Client
