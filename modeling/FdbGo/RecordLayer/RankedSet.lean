import FdbGo.RecordLayer.Subspace

/-! `rankedSet`: a skip list in a subspace, one row for each key of a level. Level 0 holds
every key with its count; a coarser level holds some of the keys of the level below, each
with the count of all keys from it up to the next one. -/

set_option autoImplicit false

namespace FdbGo.RecordLayer.RankedSet

open Client Foundation
open FdbGo.Tuple (Element)

inductive Error where
  | emptyKey
  | hashFailed
  | corruptedCount (length : Nat)
  | noKeyOnLevel (level : Nat)
  | unpack (cause : SubspaceError)
  | notBytes
  deriving DecidableEq, Repr

structure Config where
  nLevels : Nat
  countDuplicates : Bool
  deriving DecidableEq, Repr

def rankedSetLevelFanPow : Nat := 4

def rankedSetLevelFanValue (level : Nat) : Int32 := Int32.ofNat (2 ^ (level * rankedSetLevelFanPow) - 1)

def rsEncodeLong (count : Int64) : Bytes := encode 8 count.toUInt64.toNat

def rsDecodeLong : Option Bytes → Except Error Int64
  | none => .ok 0
  | some v => if v.length < 8 then .error (.corruptedCount v.length) else .ok (UInt64.ofNat (decode (v.take 8))).toInt64

def decodeLong (v : Option Bytes) : Tx Error Int64 :=
  match rsDecodeLong v with
  | .ok count => pure count
  | .error cause => Tx.fail cause

variable (ss : Bytes)

/-- `subspace.Pack(Tuple{level, key})`. -/
def levelKey (level : Nat) (key : Bytes) : Tx Error Key :=
  subspacePack ss [.int64 (Int64.ofNat level), .bytes key]

/-- `subspace.Sub(level)`. -/
def levelSub (level : Nat) : Tx Error Bytes := subspacePack ss [.int64 (Int64.ofNat level)]

def keyBytesAt (prefixLen index : Nat) (key : Key) : Tx Error Bytes :=
  match subspaceUnpack key prefixLen with
  | .error cause => Tx.fail (.unpack cause)
  | .ok t =>
    match t[index]? with
    | some (.bytes b) => pure b
    | some _ => Tx.fail .notBytes
    | none => Tx.panics

def forLevels (body : Nat → Tx Error Unit) : Nat → Nat → Tx Error Unit
  | 0, _ => pure ()
  | remaining + 1, level => do
    body level
    forLevels body remaining (level + 1)

/-! ## Initialization -/

def initLevel (level : Nat) : Tx Error Unit := do
  let k ← levelKey ss level []
  match ← Tx.get k with
  | none => Tx.set k (rsEncodeLong 0)
  | some _ => pure ()

def init (config : Config) : Tx Error Unit := forLevels (initLevel ss) config.nLevels 0

/-! ## Helpers -/

variable (key : Bytes)

def countCheckedKey : Tx Error (Option Int64) := do
  let k ← levelKey ss 0 key
  match ← Tx.get k with
  | none => pure none
  | some v => do
    let count ← decodeLong (some v)
    pure (some count)

/-- The conflict range of `getPreviousKey`: a key inserted between the two. -/
def conflictBetween (orEqual : Bool) (prevk k : Key) : Tx Error Unit :=
  if orEqual && decide (prevk = k) then pure () else Tx.addReadConflictRange (keyAfter prevk) k

def getPreviousKey (level : Nat) (key : Bytes) (orEqual : Bool) : Tx Error Bytes := do
  let k ← levelKey ss level key
  let begin_ ← levelKey ss level []
  let kvs ← Tx.snapshotGetRange begin_ (if orEqual then keyAfter k else k) 1 true
  match kvs with
  | [] => Tx.fail (.noKeyOnLevel level)
  | kv :: _ => do
    conflictBetween orEqual kv.key k
    let prevKeyBytes ← keyBytesAt ss.length 1 kv.key
    let level0Key ← levelKey ss 0 prevKeyBytes
    Tx.addReadConflictKey level0Key
    pure prevKeyBytes

def sumCounts : Int64 → List KeyValue → Tx Error Int64
  | sum, [] => pure sum
  | sum, kv :: kvs => do
    let count ← decodeLong (some kv.value)
    sumCounts (sum + count) kvs

def countRange (level : Nat) (beginKey endKey : Bytes) : Tx Error Int64 := do
  let sub ← levelSub ss level
  let b ← subspacePack sub [.bytes beginKey]
  let e ← subspacePack sub [.bytes endKey]
  let kvs ← Tx.getRange b e 0 false
  sumCounts 0 kvs

/-! ## Adding and removing -/

def addInsertLevelKey (level : Nat) : Tx Error Unit := do
  let prevKey ← getPreviousKey ss level key false
  let prevk ← levelKey ss level prevKey
  let prevCountBytes ← Tx.get prevk
  let prevCount ← decodeLong prevCountBytes
  let newPrevCount ← countRange ss (level - 1) prevKey key
  let count := prevCount - newPrevCount + 1
  Tx.set prevk (rsEncodeLong newPrevCount)
  let k ← levelKey ss level key
  Tx.set k (rsEncodeLong count)

def skipsLevel (keyHash : Int32) (level : Nat) : Bool := decide (keyHash &&& rankedSetLevelFanValue level ≠ 0)

/-- The body of the loop of `Add`. -/
def addLevel (keyHash : Int32) (duplicate : Bool) (level : Nat) : Tx Error Unit :=
  if level = 0 then do
    let k ← levelKey ss 0 key
    if duplicate then Tx.add k (rsEncodeLong 1) else Tx.set k (rsEncodeLong 1)
  else if duplicate || skipsLevel keyHash level then do
    let prevKey ← getPreviousKey ss level key duplicate
    let prevk ← levelKey ss level prevKey
    Tx.add prevk (rsEncodeLong 1)
  else addInsertLevelKey ss key level

/-- The hash of the key, of any hash function: `none` is a failed draw. -/
def add (config : Config) (key : Bytes) (hash : Option Int32) : Tx Error Bool :=
  if key.length = 0 then Tx.fail .emptyKey
  else
    match hash with
    | none => Tx.fail .hashFailed
    | some keyHash => do
      let count ← countCheckedKey ss key
      let duplicate := count.any fun count => decide (0 < count)
      if duplicate && !config.countDuplicates then pure false
      else do
        forLevels (addLevel ss key keyHash duplicate) config.nLevels 0
        pure true

/-- The body of the loop of `Remove` for a key that stays. -/
def removeDuplicateLevel (count : Int64) (level : Nat) : Tx Error Unit :=
  if level = 0 then do
    let k ← levelKey ss 0 key
    Tx.set k (rsEncodeLong (count - 1))
  else do
    let prevKey ← getPreviousKey ss level key true
    let prevk ← levelKey ss level prevKey
    Tx.add prevk (rsEncodeLong (-1))

/-- What the entry of a removed key gives back, with the key itself taken out. -/
def giveBack (k : Key) : Option Bytes → Tx Error Int64
  | some existing => do
    let existingCount ← decodeLong (some existing)
    Tx.clear k
    pure (-1 + existingCount)
  | none => pure (-1)

/-- The body of the loop of `Remove` for a key that goes. -/
def removeKeyLevel (level : Nat) : Tx Error Unit := do
  let k ← levelKey ss level key
  if level = 0 then Tx.clear k
  else do
    let existing ← Tx.get k
    let prevKey ← getPreviousKey ss level key false
    let countChange ← giveBack k existing
    let prevk ← levelKey ss level prevKey
    Tx.add prevk (rsEncodeLong countChange)

def removeLevel (count : Int64) (level : Nat) : Tx Error Unit :=
  if 1 < count then removeDuplicateLevel ss key count level else removeKeyLevel ss key level

def remove (config : Config) (key : Bytes) : Tx Error Bool :=
  if key.length = 0 then Tx.fail .emptyKey
  else do
    match ← countCheckedKey ss key with
    | none => pure false
    | some count =>
      if count ≤ 0 then pure false
      else do
        forLevels (removeLevel ss key count) config.nLevels 0
        pure true

/-! ## Reading -/

/-- The loop over the rows of a level in `Rank`: the rank so far, the last key and its count. -/
def rankRows (prefixLen : Nat) : Int64 → Bytes → Int64 → List KeyValue → Tx Error (Int64 × Bytes × Int64)
  | rank, rankKey, lastCount, [] => pure (rank, rankKey, lastCount)
  | rank, _, _, kv :: kvs => do
    let rankKey ← keyBytesAt prefixLen 0 kv.key
    let lastCount ← decodeLong (some kv.value)
    rankRows prefixLen (rank + lastCount) rankKey lastCount kvs

/-- The loop of `Rank` over the levels, from the top one down. -/
def rankLevels (ss key : Bytes) (keyShouldBePresent : Bool) : Nat → Bytes → Int64 → Tx Error Int64
  | 0, _, rank => pure rank
  | level + 1, rankKey, rank => do
    let sub ← levelSub ss level
    let b ← subspacePack sub [.bytes rankKey]
    let endPacked ← subspacePack sub [.bytes key]
    let kvs ← Tx.getRange b (endPacked ++ [0x00]) 0 false
    let (rank, rankKey, lastCount) ← rankRows sub.length rank rankKey 0 kvs
    let rank := rank - lastCount
    if rankKey = key then pure rank
    else
      rankLevels ss key keyShouldBePresent level rankKey
        (if !keyShouldBePresent && decide (level = 0) && decide (0 < lastCount) then rank + 1 else rank)

/-- Whether `Rank` finds that it has no key to rank. -/
def isMissing (ss key : Bytes) (nullIfMissing : Bool) : Tx Error Bool :=
  if nullIfMissing then do
    let count ← countCheckedKey ss key
    pure (count.all fun count => decide (count ≤ 0))
  else pure false

def rank (ss : Bytes) (config : Config) (key : Bytes) (nullIfMissing : Bool) : Tx Error (Option Int64) :=
  if key.length = 0 then Tx.fail .emptyKey
  else do
    let missing ← isMissing ss key nullIfMissing
    if missing then pure none
    else do
      let rank ← rankLevels ss key nullIfMissing config.nLevels [] 0
      pure (some rank)

/-- How the loop over the rows of a level ends in `GetNth`. -/
inductive Nth where
  | found (key : Bytes)
  | drillDown (key : Bytes) (rank : Int64)
  | outOfBounds
  deriving DecidableEq, Repr

def nthRows (prefixLen : Nat) : Int64 → List KeyValue → Tx Error Nth
  | _, [] => pure .outOfBounds
  | rank, kv :: kvs => do
    let key ← keyBytesAt prefixLen 0 kv.key
    if rank = 0 ∧ 0 < key.length then pure (.found key)
    else do
      let count ← decodeLong (some kv.value)
      if rank < count then pure (.drillDown key rank) else nthRows prefixLen (rank - count) kvs

def nthLevels (ss : Bytes) (config : Config) : Nat → Bytes → Int64 → Tx Error (Option Bytes)
  | 0, key, _ => pure (if config.countDuplicates && decide (0 < key.length) then some key else none)
  | level + 1, key, rank => do
    let sub ← levelSub ss level
    let b ← subspacePack sub [.bytes key]
    let kvs ← Tx.getRange b (subspaceEnd sub) 0 false
    match ← nthRows sub.length rank kvs with
    | .found key => pure (some key)
    | .outOfBounds => pure none
    | .drillDown key rank => nthLevels ss config level key rank

def getNth (config : Config) (rank : Int64) : Tx Error (Option Bytes) :=
  if rank < 0 then pure none else nthLevels ss config config.nLevels [] rank

def count (ss : Bytes) (key : Bytes) : Tx Error Int64 :=
  if key.length = 0 then Tx.fail .emptyKey
  else do
    let count ← countCheckedKey ss key
    pure (count.getD 0)

def size (config : Config) : Tx Error Int64 := do
  let sub ← levelSub ss (config.nLevels - 1)
  let kvs ← Tx.getRange (subspaceBegin sub) (subspaceEnd sub) 0 false
  sumCounts 0 kvs

end FdbGo.RecordLayer.RankedSet
