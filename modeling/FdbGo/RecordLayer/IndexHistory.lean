import FdbGo.Foundation.Table
import FdbGo.RecordLayer.AtomicMutation

/-! Histories of an index: calls of `Update` with the versions of records, each with the
version that the index knows as the old one. -/

set_option autoImplicit false

namespace FdbGo.RecordLayer

open Client Foundation

/-- An index that is maintained: the current records by primary key, and the transaction that
the next call runs in. -/
structure Maintained (PrimaryKey : Type) where
  records : Table PrimaryKey Message
  tx : Transaction

inductive Change (PrimaryKey : Type) where
  /-- A record is saved, or with nil deleted. -/
  | update (primaryKey : PrimaryKey) (new : Option Message)
  | commit

section Histories

variable {PrimaryKey Error : Type} [DecidableEq PrimaryKey]

/-- `Update` of an index, with the old and the new version of a record. -/
abbrev Update (PrimaryKey Error : Type) := PrimaryKey → Option Message → Option Message → Tx Error Unit

/-- A transaction whose call fails is done again without the call. After a commit the next
transaction begins. -/
def Change.run (update : Update PrimaryKey Error) (index : Maintained PrimaryKey) : Change PrimaryKey → Maintained PrimaryKey
  | .update primaryKey new =>
    match (update primaryKey (index.records.get primaryKey) new).run index.tx with
    | (.ok (), tx) => ⟨index.records.set primaryKey new, tx⟩
    | (.error _, _) => index
  | .commit => { index with tx := { base := index.tx.view } }

def runChanges (update : Update PrimaryKey Error) (index : Maintained PrimaryKey) (changes : List (Change PrimaryKey)) :
    Maintained PrimaryKey :=
  changes.foldl (Change.run update) index

def Maintained.start (d : Snapshot) : Maintained PrimaryKey := ⟨.empty, { base := d }⟩

def noRows : Snapshot := ∅

/-- For records without floats. -/
def noFloats : FloatConversion := ⟨fun _ => 0, fun _ => 0⟩

/-- What each allowed change keeps holds after all of them. What is allowed may depend on the
changes before. -/
theorem runChanges_keeps {update : Update PrimaryKey Error} {Holds : Maintained PrimaryKey → Prop}
    {Allowed : Maintained PrimaryKey → Change PrimaryKey → Prop}
    (step : ∀ index change, Allowed index change → Holds index → Holds (change.run update index))
    {changes : List (Change PrimaryKey)} {index : Maintained PrimaryKey}
    (allowed : ∀ n change, changes[n]? = some change → Allowed (runChanges update index (changes.take n)) change)
    (holds : Holds index) : Holds (runChanges update index changes) := by
  induction changes generalizing index with
  | nil => exact holds
  | cons change changes ih =>
    exact ih (fun n next found => allowed (n + 1) next found) (step index change (allowed 0 change rfl) holds)

variable {update : Update PrimaryKey Error}

theorem records_of_changes {P : Message → Prop} {d : Snapshot} {changes : List (Change PrimaryKey)}
    (fits : ∀ primaryKey message, Change.update primaryKey (some message) ∈ changes → P message) :
    ∀ row ∈ (runChanges update (.start d) changes).records.rows, P row.2 := by
  refine @runChanges_keeps _ _ _ update (fun index => ∀ row ∈ index.records.rows, P row.2)
    (fun _ change => ∀ primaryKey message, change = .update primaryKey (some message) → P message) ?_ changes _
    (fun _ change found primaryKey message isChange => fits primaryKey message (isChange ▸ List.mem_of_getElem? found)) nofun
  intro index change allowed holds
  cases change with
  | commit => exact holds
  | update primaryKey new =>
    rw [Change.run]
    split
    case h_2 => exact holds
    case h_1 =>
      intro row member
      cases Table.mem_set member with
      | inl old => exact holds row old
      | inr isNew => exact allowed primaryKey row.2 (isNew ▸ rfl)

end Histories

end FdbGo.RecordLayer
