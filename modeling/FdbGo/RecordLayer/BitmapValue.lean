import FdbGo.Foundation.ByteBits
import FdbGo.RecordLayer.AtomicMutation
import FdbGo.RecordLayer.IndexEntries

/-! The maintainer of `BITMAP_VALUE` indexes: a bit for each position of a group, in bitmaps
of a fixed size, for indexes that are readable and records that no filter refuses. -/

set_option autoImplicit false

namespace FdbGo.RecordLayer

open Client Foundation FdbGo.Tuple

def bitmapValueMaxEntrySize : Int64 := 250000

/-- A bitmap index, with an entry size that `BitmapValueEntrySizeOption` accepts. -/
structure BitmapIndex where
  root : GroupingKeyExpression
  entrySize : Int64
  unique : Bool
  indexSubspace : Bytes
  primaryKeyComponentPositions : Option (List Int)
  /-- The index type needs a grouped position. -/
  grouped : root.groupedCount = 1
  positive : 0 < entrySize
  small : entrySize ≤ bitmapValueMaxEntrySize

inductive BitmapError where
  | entry (cause : IndexEntryError)
  | position (cause : AtomicIndexError)
  | uniquenessViolation (key primaryKey : List Element)

def floorMod (x y : Int64) : Int64 := (x % y + y) % y

def bitmapByteSize (entrySize : Int64) : Nat := ((entrySize + 7) / 8).toInt.toNat

namespace BitmapIndex

variable (index : BitmapIndex)

def groupPrefixSize : Nat := index.root.getGroupingCount

def byteSize : Nat := bitmapByteSize index.entrySize

def filteredIndexEntries (primaryKey : List Element) : Option Message → Tx BitmapError (List EvaluatedIndexEntry)
  | none => pure []
  | some message =>
    match index.root.evaluate message with
    | .ok tuples => pure (tuples.map fun values => { key := values, primaryKey })
    | .error cause => Tx.fail (.entry (.evaluate cause))

variable (conversion : FloatConversion)

def locate (entry : EvaluatedIndexEntry) : Tx BitmapError (Option (Key × Nat)) :=
  match entry.key[index.groupPrefixSize]? with
  | none | some .null => pure none
  | some positionRaw =>
    match toInt64 conversion positionRaw with
    | .error cause => Tx.fail (.position cause)
    | .ok position => do
      let offset := floorMod position index.entrySize
      let alignedPos := position - offset
      let fdbKey ← subspacePack index.indexSubspace (entry.key.take index.groupPrefixSize ++ [.int64 alignedPos])
      pure (some (fdbKey, offset.toInt.toNat))

def checkBitmapUniqueness (fdbKey : Key) (offset : Nat) (entry : EvaluatedIndexEntry) : Tx BitmapError Unit := do
  let existing ← Tx.snapshotGet fdbKey
  if (existing.elim false fun bitmap => bitAt bitmap offset) = true then
    Tx.fail (.uniquenessViolation entry.key entry.primaryKey)
  else
    let conflictKey ← subspacePack fdbKey [.int64 (Int64.ofNat offset)]
    Tx.addReadConflictKey conflictKey
    Tx.addWriteConflictKey conflictKey

def addEntry (entry : EvaluatedIndexEntry) : Tx BitmapError Unit := do
  match ← index.locate conversion entry with
  | none => pure ()
  | some (fdbKey, offset) =>
    if index.unique then checkBitmapUniqueness fdbKey offset entry
    Tx.bitOr fdbKey (onlyBit index.byteSize offset)

/-- `removeEntry` of a readable index. -/
def removeEntry (entry : EvaluatedIndexEntry) : Tx BitmapError Unit := do
  match ← index.locate conversion entry with
  | none => pure ()
  | some (fdbKey, offset) =>
    Tx.bitAnd fdbKey (allBut index.byteSize offset)
    Tx.compareAndClear fdbKey (List.replicate index.byteSize 0)

def forEach (apply : EvaluatedIndexEntry → Tx BitmapError Unit) : List EvaluatedIndexEntry → Tx BitmapError Unit
  | [] => pure ()
  | entry :: entries => do
    apply entry
    forEach apply entries

/-- `bitmapValueIndexMaintainer.Update`. -/
def update (primaryKey : List Element) (old new : Option Message) : Tx BitmapError Unit := do
  let oldEntries ← index.filteredIndexEntries primaryKey old
  let newEntries ← index.filteredIndexEntries primaryKey new
  let (oldEntries, newEntries) ←
    if old.isSome && new.isSome then
      removeCommonEntries index.primaryKeyComponentPositions .entry oldEntries newEntries
    else pure (oldEntries, newEntries)
  forEach (index.removeEntry conversion) oldEntries
  forEach (index.addEntry conversion) newEntries

end BitmapIndex

end FdbGo.RecordLayer
