import FdbGo.Client.Key
import FdbGo.Foundation.Ordered

/-! The snapshot cache: ranges of the database known at the read version, each with all
its rows. -/

set_option autoImplicit false

namespace FdbGo.Client

open Foundation

structure KeyValue where
  key : Key
  value : Bytes
  deriving DecidableEq, Repr

/-- `cacheEntry`: the keys of `[beginKey, endKey)` are known, and `kvs` are the rows. -/
structure CacheEntry where
  beginKey : Key
  endKey : Key
  kvs : List KeyValue
  deriving DecidableEq, Repr

structure SnapshotCache where
  entries : List CacheEntry := []
  deriving DecidableEq, Repr

/-! ## Inserting -/

/-- The begin of an insert moved past an entry that strictly contains it, and the index
of the first entry after it. -/
def trimBegin (entries : List CacheEntry) (beginKey : Key) : Key × Nat :=
  let lo := entries.findIdx fun e => decide (beginKey < e.endKey)
  match entries[lo]? with
  | some e => if e.beginKey < beginKey then (e.endKey, lo + 1) else (beginKey, lo)
  | none => (beginKey, lo)

/-- The end of an insert moved back to the begin of an entry that strictly contains it,
and the index of the first entry not before it. -/
def trimEnd (entries : List CacheEntry) (endKey : Key) : Key × Nat :=
  let hi := entries.findIdx fun e => decide (endKey ≤ e.beginKey)
  if hi > 0 then
    match entries[hi - 1]? with
    | some e => if endKey < e.endKey then (e.beginKey, hi - 1) else (endKey, hi)
    | none => (endKey, hi)
  else (endKey, hi)

variable (sc : SnapshotCache) (beginKey endKey : Key)

namespace SnapshotCache

def insertKVs (kvs : List KeyValue) : SnapshotCache :=
  if endKey ≤ beginKey then sc
  else
    let (newBegin, lo) := trimBegin sc.entries beginKey
    let (newEnd, hi) := trimEnd sc.entries endKey
    if newEnd ≤ newBegin then sc
    else
      let lok := kvs.findIdx fun kv => decide (newBegin ≤ kv.key)
      let hik := kvs.findIdx fun kv => decide (newEnd ≤ kv.key)
      let fresh := { beginKey := newBegin, endKey := newEnd, kvs := (kvs.take hik).drop lok }
      -- The switch on the number of entries that the insert supersedes.
      if hi = lo then { entries := insertAt sc.entries lo fresh }
      else if hi = lo + 1 then { entries := sc.entries.set lo fresh }
      else { entries := insertAt (deleteRange sc.entries lo hi) lo fresh }

def insert (kvs : List KeyValue) : SnapshotCache :=
  sc.insertKVs beginKey endKey kvs

def insertOwned (kvs : List KeyValue) : SnapshotCache :=
  sc.insertKVs beginKey endKey kvs

def insertPoint (key : Key) (value : Option Bytes) : SnapshotCache :=
  let rows := (value.map fun value => { key := key, value := value }).toList
  if sc.entries.length = 0 then
    { entries := insertAt sc.entries 0 { beginKey := key, endKey := keyAfter key, kvs := rows } }
  else sc.insert key (keyAfter key) rows

end SnapshotCache

/-! ## Reading -/

/-- The rows of one entry up to the first past the range, added to the result until the
budget is met; the flag says that it is. -/
def collectRows (past : KeyValue → Bool) (budget : Int) (result : List KeyValue) :
    List KeyValue → List KeyValue × Bool
  | [] => (result, false)
  | kv :: rest =>
    if past kv then (result, false)
    else
      let result := result ++ [kv]
      if budget > 0 ∧ budget ≤ result.length then (result, true)
      else collectRows past budget result rest

/-- The ascending walk. Everything from the begin up to `cur` is accounted for. -/
def walkKVs (beginKey endKey : Key) (budget : Int) (cur : Key) (result : List KeyValue) :
    List CacheEntry → Option (List KeyValue)
  | [] => none
  | e :: rest =>
    if cur < e.beginKey then none
    else
      let lo := e.kvs.findIdx fun kv => decide (beginKey ≤ kv.key)
      let (result, decided) :=
        collectRows (fun kv => decide (endKey ≤ kv.key)) budget result (e.kvs.drop lo)
      if decided then some result
      else if endKey ≤ e.endKey then some result
      else walkKVs beginKey endKey budget e.endKey result rest

/-- The descending walk, over the entries from the last one. Everything from `cur` up to
the end is accounted for. -/
def walkKVsBack (beginKey endKey : Key) (budget : Int) (cur : Key) (desc : List KeyValue) :
    List CacheEntry → Option (List KeyValue)
  | [] => none
  | e :: rest =>
    if e.endKey < cur then none
    else
      let hi := e.kvs.findIdx fun kv => decide (endKey ≤ kv.key)
      let (desc, decided) :=
        collectRows (fun kv => decide (kv.key < beginKey)) budget desc (e.kvs.take hi).reverse
      if decided then some desc.reverse
      else if e.beginKey ≤ beginKey then some desc.reverse
      else walkKVsBack beginKey endKey budget e.beginKey desc rest

namespace SnapshotCache

def getRangeKVsBack (budget : Int) :
    Option (List KeyValue) :=
  let above := sc.entries.findIdx fun e => decide (endKey ≤ e.beginKey)
  if above = 0 then none
  else walkKVsBack beginKey endKey budget endKey [] (sc.entries.take above).reverse

/-- The cached rows of a range, or nothing when a part that counts is not known. A budget
of zero or less is no budget. The rows are in ascending order also in reverse, where the
budget counts from the end. -/
def getRangeKVsLimited (budget : Int) (reverse : Bool) :
    Option (List KeyValue) :=
  if sc.entries.length = 0 ∨ endKey ≤ beginKey then none
  else if reverse then sc.getRangeKVsBack beginKey endKey budget
  else
    let i := sc.entries.findIdx fun e => decide (beginKey < e.endKey)
    match sc.entries[i]? with
    | none => none
    | some e =>
      if beginKey < e.beginKey then none
      else walkKVs beginKey endKey budget beginKey [] (sc.entries.drop i)

end SnapshotCache

/-- The value of a key when its range is known; no value is an absent key. -/
def cacheGetKey (entries : List CacheEntry) (key : Key) : Option (Option Bytes) :=
  match entries[entries.findIdx fun e => decide (key < e.endKey)]? with
  | none => none
  | some e =>
    if key < e.beginKey then none
    else
      match e.kvs[e.kvs.findIdx fun kv => decide (key ≤ kv.key)]? with
      | some kv => if kv.key = key then some (some kv.value) else some none
      | none => some none

def SnapshotCache.getKey (key : Key) : Option (Option Bytes) :=
  cacheGetKey sc.entries key

end FdbGo.Client
