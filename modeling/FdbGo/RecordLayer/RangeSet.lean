import FdbGo.Foundation.Gaps
import FdbGo.RecordLayer.Subspace

/-! `RangeSet`: the ranges of completed work, each one row of a subspace. The key holds
the packed begin of a range, the value its raw end. -/

set_option autoImplicit false

namespace FdbGo.RecordLayer.RangeSet

open Client Foundation
open FdbGo.Tuple (Element)

def rangeSetFirstKey : Key := [0x00]

def rangeSetFinalKey : Key := [0xff]

inductive Error where
  | emptyKey
  | keyTooLarge (key : Key)
  | invertedRange (beginKey endKey : Key)
  | unpack (cause : SubspaceError)
  | unexpectedElement
  deriving DecidableEq, Repr

def rangeSetCheckKey (key : Key) : Option Error :=
  if key.length = 0 then some .emptyKey
  else if rangeSetFinalKey ≤ key then some (.keyTooLarge key)
  else none

def rangeSetKeyAfter (key : Key) : Key := key ++ [0x00]

variable (ss : Bytes)

def unpackBegin (kv : KeyValue) : Tx Error Key :=
  match subspaceUnpack kv.key ss.length with
  | .error cause => Tx.fail (.unpack cause)
  | .ok (.bytes keyBytes :: _) => pure keyBytes
  | .ok (_ :: _) => Tx.fail .unexpectedElement
  | .ok [] => Tx.panics

def contains (key : Key) : Tx Error Bool := do
  Tx.check (rangeSetCheckKey key)
  let frobnicated ← subspacePack ss [.bytes key]
  Tx.addReadConflictKey frobnicated
  let kvs ← Tx.snapshotGetRange (subspaceBegin ss) (rangeSetKeyAfter frobnicated) 1 true
  match kvs with
  | [] => pure false
  | kv :: _ => pure (decide (key < kv.value))

/-- The loop that fills the gaps before the rows of a range, with the final gap at its end. -/
def fillGaps (ss : Bytes) (e frobnicatedEnd lastSeen : Key) (changed : Bool) : List KeyValue → Tx Error Bool
  | [] =>
    if lastSeen < frobnicatedEnd then do
      Tx.set lastSeen e
      Tx.addWriteConflictRange lastSeen frobnicatedEnd
      pure true
    else pure changed
  | kv :: rest => do
    let changed ←
      if lastSeen < kv.key then do
        let keyBytes ← unpackBegin ss kv
        Tx.set lastSeen keyBytes
        Tx.addWriteConflictRange lastSeen kv.key
        pure true
      else pure changed
    let lastSeen ← subspacePack ss [.bytes kv.value]
    fillGaps ss e frobnicatedEnd lastSeen changed rest

/-- Where the filling starts: at the packed end of the range before, if it covers the begin. -/
def firstSeen (b frobnicatedBegin : Key) : Option KeyValue → Tx Error Key
  | some kv => if b < kv.value then subspacePack ss [.bytes kv.value] else pure frobnicatedBegin
  | none => pure frobnicatedBegin

/-- The write of a range into an empty place: a range that ends where it begins is extended. -/
def consolidate (b e frobnicatedBegin : Key) : Option KeyValue → Tx Error Unit
  | some kv =>
    if kv.value = b then do
      Tx.addReadConflictKey kv.key
      Tx.set kv.key e
    else Tx.set frobnicatedBegin e
  | none => Tx.set frobnicatedBegin e

/-- The insertion once the rows around the range have been read. -/
def insertBetween (b e : Key) (requireEmpty : Bool) (frobnicatedBegin frobnicatedEnd : Key)
    (before : Option KeyValue) (afterKVs : List KeyValue) : Tx Error Bool := do
  let covers := before.any fun kv => decide (b < kv.value)
  if requireEmpty then
    if covers || !afterKVs.isEmpty then pure false
    else do
      consolidate b e frobnicatedBegin before
      Tx.addWriteConflictRange frobnicatedBegin frobnicatedEnd
      pure true
  else do
    let lastSeen ← firstSeen ss b frobnicatedBegin before
    fillGaps ss e frobnicatedEnd lastSeen false afterKVs

def insertRange (beginKey endKey : Option Key) (requireEmpty : Bool) : Tx Error Bool := do
  let b := beginKey.getD rangeSetFirstKey
  let e := endKey.getD rangeSetFinalKey
  Tx.check (rangeSetCheckKey b)
  if e < b then Tx.fail (.invertedRange b e)
  else if b = e then pure false
  else do
    let frobnicatedBegin ← subspacePack ss [.bytes b]
    let frobnicatedEnd ← subspacePack ss [.bytes e]
    Tx.addReadConflictRange frobnicatedBegin frobnicatedEnd
    let keyAfterBegin := rangeSetKeyAfter frobnicatedBegin
    let beforeKVs ← Tx.snapshotGetRange (subspaceBegin ss) keyAfterBegin 1 true
    let afterKVs ← Tx.snapshotGetRange keyAfterBegin frobnicatedEnd (if requireEmpty then 1 else 0) false
    insertBetween ss b e requireEmpty frobnicatedBegin frobnicatedEnd beforeKVs.head? afterKVs

/-- The loop of `MissingRanges`, with the final gap at its end. -/
def missingLoop (ss : Bytes) (e : Key) (limit : Int) (currBegin : Key) (results : List (Stretch Key)) :
    List KeyValue → Tx Error (List (Stretch Key))
  | [] =>
    if currBegin < e then
      if limit ≤ 0 ∨ (results.length : Int) < limit then pure (results ++ [⟨currBegin, e⟩]) else pure results
    else pure results
  | kv :: rest => do
    let nextBegin ← unpackBegin ss kv
    if currBegin < nextBegin then
      let results := results ++ [⟨currBegin, nextBegin⟩]
      if 0 < limit ∧ limit ≤ (results.length : Int) then pure results
      else missingLoop ss e limit kv.value results rest
    else missingLoop ss e limit kv.value results rest

def missingRanges (beginKey endKey : Option Key) (limit : Int) :
    Tx Error (List (Stretch Key)) := do
  let b := beginKey.getD rangeSetFirstKey
  let e := endKey.getD rangeSetFinalKey
  Tx.check (rangeSetCheckKey b)
  if e < b then Tx.fail (.invertedRange b e)
  else if b = e then pure []
  else do
    let frobnicatedBegin ← subspacePack ss [.bytes b]
    let frobnicatedEnd ← subspacePack ss [.bytes e]
    Tx.addReadConflictRange frobnicatedBegin frobnicatedEnd
    let keyAfterBegin := rangeSetKeyAfter frobnicatedBegin
    let beforeKVs ← Tx.snapshotGetRange (subspaceBegin ss) keyAfterBegin 1 true
    let afterKVs ← Tx.snapshotGetRange keyAfterBegin frobnicatedEnd 0 false
    let currBegin :=
      match beforeKVs with
      | [] => b
      | kv :: _ => if b < kv.value then kv.value else b
    missingLoop ss e limit currBegin [] afterKVs

def isEmpty : Tx Error Bool := do
  let ranges ← missingRanges ss none none 1
  match ranges with
  | [range] => pure (decide (range.low = rangeSetFirstKey ∧ range.high = rangeSetFinalKey))
  | _ => pure false

def clear : Tx Error Unit := Tx.clearRange (subspaceBegin ss) (subspaceEnd ss)

end FdbGo.RecordLayer.RangeSet
