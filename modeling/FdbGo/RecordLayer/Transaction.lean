import FdbGo.Client.CommitProperties
import FdbGo.Client.Snapshot

/-! A transaction as the record layer uses it: reads see the database at the read version
with the transaction's own mutations applied, and conflict ranges are collected beside
them. -/

set_option autoImplicit false

namespace FdbGo.Client.Snapshot

open Foundation

def set (d : Snapshot) (key : Key) (value : Bytes) : Snapshot :=
  ⟨put KeyValue.key { key, value } d.rows, d.ordered.put _⟩

def clearRange (d : Snapshot) (b e : Key) : Snapshot :=
  ⟨d.rows.filter fun kv => !decide (b ≤ kv.key ∧ kv.key < e), d.ordered.filter _⟩

def apply (d : Snapshot) (m : Mutation) : Snapshot :=
  match m.typ with
  | .setValue => d.set m.key m.value
  | .clearRange => d.clearRange m.key m.value
  | op =>
    match atomicMeaning op m.value (d.get m.key) with
    | some value => d.set m.key value
    | none => d.clearRange m.key (keyAfter m.key)

end FdbGo.Client.Snapshot

namespace FdbGo.RecordLayer

open Client Foundation

/-- Whether the mutation fixes the value of a key, whatever it was before. -/
def fixes (m : Mutation) (k : Key) : Bool :=
  match m.typ with
  | .setValue => decide (m.key = k)
  | .clearRange => decide (m.key ≤ k ∧ k < m.value)
  | _ => false

def touches (m : Mutation) (k : Key) : Bool :=
  match m.typ with
  | .clearRange => decide (m.key ≤ k ∧ k < m.value)
  | _ => decide (m.key = k)

/-- A read conflict range. It leaves out the keys whose values the transaction's own
mutations had fixed when the range was added. -/
structure ReadConflict where
  range : KeyRange
  own : List Mutation
  deriving DecidableEq, Repr

def ReadConflict.covers (r : ReadConflict) (k : Key) : Bool :=
  decide (r.range.beginKey ≤ k ∧ k < r.range.endKey) && !r.own.any (fixes · k)

structure Transaction where
  base : Snapshot
  mutations : List Mutation := []
  reads : List ReadConflict := []
  writes : List KeyRange := []

namespace Transaction

variable (t : Transaction)

def view : Snapshot := t.mutations.foldl Snapshot.apply t.base

def mutate (m : Mutation) : Transaction :=
  { t with mutations := t.mutations ++ [m] }

def addRead (b e : Key) : Transaction :=
  { t with reads := t.reads ++ [⟨⟨b, e⟩, t.mutations⟩] }

def addWrite (b e : Key) : Transaction :=
  { t with writes := t.writes ++ [⟨b, e⟩] }

def Reads (k : Key) : Prop := ∃ r ∈ t.reads, r.covers k = true

/-- The key is written, or lies in a declared write conflict range. -/
def Writes (k : Key) : Prop :=
  (∃ m ∈ t.mutations, touches m k = true) ∨ ∃ range ∈ t.writes, range.beginKey ≤ k ∧ k < range.endKey

end Transaction

/-- How a call of the layer ends other than by its result. -/
inductive Failure (Error : Type) where
  | invertedRange
  | panic
  | error (cause : Error)
  deriving DecidableEq, Repr

/-- A call of the layer against a transaction. What it did before it failed stays in the
transaction. -/
structure Tx (Error Result : Type) where
  run : Transaction → Except (Failure Error) Result × Transaction

namespace Tx

variable {Error Result : Type}

instance : Monad (Tx Error) where
  pure result := ⟨fun t => (.ok result, t)⟩
  bind call next := ⟨fun t =>
    match call.run t with
    | (.ok result, t') => (next result).run t'
    | (.error cause, t') => (.error cause, t')⟩

def fail (cause : Error) : Tx Error Result := ⟨fun t => (.error (.error cause), t)⟩

def panics : Tx Error Result := ⟨fun t => (.error .panic, t)⟩

def check (outcome : Option Error) : Tx Error Unit :=
  match outcome with
  | some cause => fail cause
  | none => pure ()

def get (key : Key) : Tx Error (Option Bytes) := ⟨fun t =>
  (.ok (t.view.get key), t.addRead key (keyAfter key))⟩

variable (key : Key)

/-- `tx.Snapshot().Get`. -/
def snapshotGet : Tx Error (Option Bytes) := ⟨fun t => (.ok (t.view.get key), t)⟩

/-- `tx.Snapshot().GetRange` over two keys: no conflict range is added. -/
def snapshotGetRange (b e : Key) (limit : Int) (reverse : Bool) : Tx Error (List KeyValue) := ⟨fun t =>
  let rows := t.view.page b e limit reverse
  (.ok (if reverse then rows.reverse else rows), t)⟩

/-- `tx.GetRange` over two keys: a read that its limit ends conflicts up to the last row. -/
def getRange (b e : Key) (limit : Int) (reverse : Bool) : Tx Error (List KeyValue) := ⟨fun t =>
  let page := t.view.page b e limit reverse
  let rows := if reverse then page.reverse else page
  let t :=
    match rows.getLast? with
    | some last =>
      if 0 < limit ∧ rows.length = limit.toNat then
        if reverse then t.addRead last.key e else t.addRead b (keyAfter last.key)
      else t.addRead b e
    | none => t.addRead b e
  (.ok rows, t)⟩

def mutate (m : Mutation) : Tx Error Unit := ⟨fun t => (.ok (), t.mutate m)⟩

def set (value : Bytes) : Tx Error Unit := mutate { typ := .setValue, key, value }

def clear : Tx Error Unit := mutate { typ := .clearRange, key, value := keyAfter key }

def clearRange (b e : Key) : Tx Error Unit := mutate { typ := .clearRange, key := b, value := e }

def add (param : Bytes) : Tx Error Unit := mutate { typ := .addValue, key, value := param }

def compareAndClear (key : Key) (param : Bytes) : Tx Error Unit :=
  mutate { typ := .compareAndClear, key, value := param }

def bitOr (param : Bytes) : Tx Error Unit := mutate { typ := .or, key, value := param }

def bitAnd (param : Bytes) : Tx Error Unit := mutate { typ := .andV2, key, value := param }

def addReadConflictKey : Tx Error Unit := ⟨fun t => (.ok (), t.addRead key (keyAfter key))⟩

def addReadConflictRange (b e : Key) : Tx Error Unit := ⟨fun t =>
  if e < b then (.error .invertedRange, t) else (.ok (), t.addRead b e)⟩

def addWriteConflictKey : Tx Error Unit := ⟨fun t => (.ok (), t.addWrite key (keyAfter key))⟩

def addWriteConflictRange (b e : Key) : Tx Error Unit := ⟨fun t =>
  if e < b then (.error .invertedRange, t) else (.ok (), t.addWrite b e)⟩

end Tx

end FdbGo.RecordLayer
