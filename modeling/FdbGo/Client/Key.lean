import Mathlib.Data.List.Lex
import Mathlib.Order.SuccPred.Basic
import Mathlib.Data.UInt

/-! Byte-string keys in the order of `bytes.Compare`, and the write map's
boundaries, whose trailing zero bytes stay virtual until a bound escapes a
search. -/

set_option autoImplicit false

namespace FdbGo.Client

instance byteOrder : LinearOrder UInt8 where
  le_refl := UInt8.le_refl
  le_trans _ _ _ := UInt8.le_trans
  le_antisymm _ _ := UInt8.le_antisymm
  le_total := UInt8.le_total
  lt_iff_le_not_ge _ _ := by
    rw [UInt8.not_le]
    exact ⟨fun less => ⟨UInt8.le_of_lt less, less⟩, fun both => both.2⟩
  toDecidableLE := inferInstance
  toDecidableLT := inferInstance
  toDecidableEq := inferInstance

/-! The order on byte strings is Mathlib's lexicographic one. These instances
make every comparison reach it by one path. -/

instance (priority := high) bytesLT : LT (List UInt8) := List.instLinearOrder.toLT
instance (priority := high) bytesLE : LE (List UInt8) := List.instLinearOrder.toLE
instance (priority := high) bytesDecidableLT : DecidableLT (List UInt8) := List.instLinearOrder.toDecidableLT
instance (priority := high) bytesDecidableLE : DecidableLE (List UInt8) := List.instLinearOrder.toDecidableLE

/-- A Go byte slice, where nothing depends on its capacity or on nil. -/
abbrev Bytes := List UInt8

/-- Keys, ordered as `bytes.Compare` orders them. -/
abbrev Key := Bytes

/-- `keyAfterBytes`: the key followed by one zero byte. -/
def keyAfter (key : Key) : Key := key ++ [0]

def allKeysBegin : Key := []

/-- The end of the keyspace, `\xff\xff`. -/
def allKeysEnd : Key := [0xff, 0xff]

/-- `\xff\xff\x00`, the successor of `allKeysEnd`. -/
def afterAllKeys : Key := [0xff, 0xff, 0x00]

def equalsKeyAfter (key compareKey : Key) : Bool :=
  compareKey.length == key.length + 1 && compareKey.getD key.length 1 == 0 &&
    compareKey.take key.length == key

/-- `rywBoundary`: a key followed, when `after` is set, by one zero byte and
`extra` more. -/
structure Boundary where
  key : Key
  after : Bool := false
  extra : Nat := 0
  deriving DecidableEq, Repr

namespace Boundary

def size (b : Boundary) : Nat :=
  if b.after then b.key.length + 1 + b.extra else b.key.length

def keyAfter (b : Boundary) : Boundary :=
  if !b.after then { key := b.key, after := true }
  else { key := b.key, after := true, extra := b.extra + 1 }

def materialize (b : Boundary) : Key :=
  if b.after then b.key ++ List.replicate (1 + b.extra) 0 else b.key

def compare (b other : Boundary) : Ordering :=
  if !b.after && !other.after then cmp b.key other.key
  else
    let n := min b.key.length other.key.length
    match cmp (b.key.take n) (other.key.take n) with
    | .lt => .lt
    | .gt => .gt
    | .eq =>
      if (b.key.drop n).any (· != 0) then .gt
      else if (other.key.drop n).any (· != 0) then .lt
      else cmp b.size other.size

/-- Equality compares the sizes first, so only boundaries of one size compare
their bytes. -/
def equal (b other : Boundary) : Bool :=
  if b.after != other.after || b.extra != other.extra then
    b.size == other.size && b.compare other == .eq
  else b.key == other.key

end Boundary

end FdbGo.Client
