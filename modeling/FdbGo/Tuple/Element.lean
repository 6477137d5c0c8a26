import FdbGo.Client.Key
import FdbGo.Foundation.BigEndian

/-! Tuple elements as Go values, and the values they stand for: an integer
element is one of several Go types but one mathematical integer. -/

set_option autoImplicit false

namespace FdbGo.Tuple

open Client (Bytes)
open Foundation (byteLength)

structure Versionstamp where
  transactionVersion : Vector UInt8 10
  userVersion : UInt16
  deriving DecidableEq, Repr

def incompleteTransactionVersion : Vector UInt8 10 := Vector.replicate 10 0xFF

/-- A `TupleElement`. Strings and keys are byte strings, floats their bit
patterns, and `bigInt` both `*big.Int` and `big.Int`. -/
inductive Element where
  | null
  | tuple (elements : List Element)
  | int (value : Int64)
  | int64 (value : Int64)
  | uint (value : UInt64)
  | uint64 (value : UInt64)
  | bigInt (value : Int)
  | bytes (value : Bytes)
  | keyConvertible (key : Bytes)
  | string (value : Bytes)
  | float32 (bits : UInt32)
  | float64 (bits : UInt64)
  | bool (value : Bool)
  | uuid (value : Vector UInt8 16)
  | versionstamp (value : Versionstamp)

/-- What an element stands for, whatever its Go type. -/
inductive Value where
  | null
  | bytes (value : Bytes)
  | string (value : Bytes)
  | nested (values : List Value)
  | integer (value : Int)
  | float32 (bits : UInt32)
  | float64 (bits : UInt64)
  | bool (value : Bool)
  | uuid (value : Vector UInt8 16)
  | versionstamp (value : Versionstamp)

mutual

def Element.value : Element → Value
  | .null => .null
  | .tuple elements => .nested (values elements)
  | .int value | .int64 value => .integer value.toInt
  | .uint value | .uint64 value => .integer value.toNat
  | .bigInt value => .integer value
  | .bytes value | .keyConvertible value => .bytes value
  | .string value => .string value
  | .float32 bits => .float32 bits
  | .float64 bits => .float64 bits
  | .bool value => .bool value
  | .uuid value => .uuid value
  | .versionstamp value => .versionstamp value

def values : List Element → List Value
  | [] => []
  | element :: elements => element.value :: values elements

end

mutual

/-- Neither an integer of more than 255 bytes nor an incomplete versionstamp,
at any depth. -/
def Value.packable : Value → Bool
  | .nested values => packables values
  | .integer value => byteLength value.natAbs ≤ 255
  | .versionstamp value => value.transactionVersion != incompleteTransactionVersion
  | _ => true

def packables : List Value → Bool
  | [] => true
  | value :: values => value.packable && packables values

end

/-! ## The order of values -/

/-- The bits of a float with the sign bit flipped or, below zero, all of them. -/
def signAdjusted {width : Nat} (bits : BitVec width) : Nat :=
  if bits.msb then (~~~ bits).toNat else bits.toNat + 2 ^ (width - 1)

def Value.kind : Value → Nat
  | .null => 0
  | .bytes _ => 1
  | .string _ => 2
  | .nested _ => 3
  | .integer _ => 4
  | .float32 _ => 5
  | .float64 _ => 6
  | .bool false => 7
  | .bool true => 8
  | .uuid _ => 9
  | .versionstamp _ => 10

mutual

def Value.compare : Value → Value → Ordering
  | .bytes value, .bytes other | .string value, .string other => cmp value other
  | .nested values, .nested others => compareValues values others
  | .integer value, .integer other => cmp value other
  | .float32 bits, .float32 others =>
    cmp (signAdjusted bits.toBitVec) (signAdjusted others.toBitVec)
  | .float64 bits, .float64 others =>
    cmp (signAdjusted bits.toBitVec) (signAdjusted others.toBitVec)
  | .uuid value, .uuid other => cmp value.toList other.toList
  | .versionstamp value, .versionstamp other =>
    (cmp value.transactionVersion.toList other.transactionVersion.toList).then
      (cmp value.userVersion.toNat other.userVersion.toNat)
  | value, other => cmp value.kind other.kind

def compareValues : List Value → List Value → Ordering
  | [], [] => .eq
  | [], _ :: _ => .lt
  | _ :: _, [] => .gt
  | value :: values, other :: others => (value.compare other).then (compareValues values others)

end

end FdbGo.Tuple
