import FdbGo.Executor.StatementPages
import FdbGo.Tuple.Pack
import Mathlib.Data.List.DropRight

/-! The accumulators of the streaming aggregation, over integer operands: how a row is
accumulated, what a group results in, and the state that is written in a continuation. -/

set_option autoImplicit false

namespace FdbGo.Executor

open Client Foundation RecordLayer FdbGo.Tuple

inductive IntType where
  | int
  | long
  deriving DecidableEq, Repr

/-- `countStar` is a COUNT for which `IsCountStar` holds. -/
inductive AggregateFunction where
  | countStar
  | count
  | sum
  | min
  | max
  | arrayAgg
  | bitmapConstructAgg
  deriving DecidableEq, Repr

def FitsInt (n : Int64) : Prop := -2 ^ 31 ≤ n.toInt ∧ n.toInt < 2 ^ 31

instance (n : Int64) : Decidable (FitsInt n) := inferInstanceAs (Decidable (_ ∧ _))

/-- An aggregate of the plan. The operand of a row may be NULL; an operand of type INT only
has values of that type. -/
structure AggregateSpec (Row : Type) where
  function : AggregateFunction
  operand : Row → Option Int64
  operandType : IntType := .long
  operandIntType : Option IntType := none
  ignoreNulls : Bool := false
  limit : Option Nat := none
  typed : operandType = .int ∨ operandIntType = some .int → ∀ row n, operand row = some n → FitsInt n

inductive AggregateError where
  | sumOverflow (int32 : Bool)
  | bitmapPosition (position : Int)
  | nullArrayElement
  | notAnInt
  | invalidContinuation
  | cursor (error : CursorError)
  deriving DecidableEq, Repr

structure Accumulator where
  count : Int64 := 0
  sumI : Int64 := 0
  min : Option Int64 := none
  max : Option Int64 := none
  array : List Int64 := []
  bitmap : Bytes := []
  deriving DecidableEq, Repr

/-! ## Accumulating a row -/

def aggMinMax (acc : Option Int64) (val : Int64) (isMin : Bool) : Option Int64 :=
  match acc with
  | none => some val
  | some a => if (isMin && decide (val < a)) || (!isMin && decide (a < val)) then some val else some a

/-- Adds a value to an integer sum. The sum of an INT operand stays an INT. -/
def addToSum (operandIntType : Option IntType) (sumI val : Int64) : Except AggregateError Int64 :=
  let s := sumI + val
  if operandIntType = some .int then
    if s > 2147483647 ∨ s < -2147483648 then .error (.sumOverflow true) else .ok s
  else if sumI ^^^ val ≥ 0 ∧ sumI ^^^ s < 0 then .error (.sumOverflow false)
  else .ok s

/-- Sets a bit; a bitmap has at least 1250 bytes. -/
def setBit (bitmap : Bytes) (position : Nat) : Bytes :=
  let size := if position / 8 + 1 < 1250 then 1250 else position / 8 + 1
  (bitmap ++ List.replicate (size - bitmap.length) 0).modify (position / 8) (· ||| (1 <<< UInt8.ofNat (position % 8)))

def accumulateArrayAgg {Row : Type} (agg : AggregateSpec Row) (acc : Accumulator) (val : Option Int64) :
    Except AggregateError Accumulator :=
  if (agg.limit.map fun limit => decide (limit ≤ acc.array.length)).getD false then .ok acc
  else
    match val with
    | none => if agg.ignoreNulls then .ok acc else .error .nullArrayElement
    | some n => .ok { acc with array := acc.array ++ [n] }

def accumulate {Row : Type} (agg : AggregateSpec Row) (acc : Accumulator) (row : Row) :
    Except AggregateError Accumulator :=
  if agg.function = .countStar then .ok acc
  else if agg.function = .arrayAgg then accumulateArrayAgg agg acc (agg.operand row)
  else
    match agg.operand row with
    | none => .ok acc
    | some val =>
      let acc := { acc with count := acc.count + 1 }
      match agg.function with
      | .bitmapConstructAgg =>
        -- A LONG is narrowed to 32 bits first.
        let position := val.toInt32.toInt
        if position < 0 ∨ position ≥ 250000 then .error (.bitmapPosition position)
        else .ok { acc with bitmap := setBit acc.bitmap position.toNat }
      | .sum => do
        let sumI ← addToSum agg.operandIntType acc.sumI val
        .ok { acc with sumI }
      | .min | .max => .ok { acc with min := aggMinMax acc.min val true, max := aggMinMax acc.max val false }
      | .countStar | .count | .arrayAgg => .ok acc

/-! ## Results -/

inductive AggregateValue where
  | null
  | integer (n : Int)
  | array (elements : List Int64)
  | bitmap (b : Bytes)
  deriving DecidableEq, Repr

def finalize {Row : Type} (agg : AggregateSpec Row) (rows : Int64) (acc : Accumulator) : AggregateValue :=
  match agg.function with
  | .countStar => .integer rows.toInt
  | .count => .integer acc.count.toInt
  | .sum => if acc.count = 0 then .null else .integer acc.sumI.toInt
  | .bitmapConstructAgg => if 0 < acc.count then .bitmap acc.bitmap else .null
  | .min => (acc.min.map fun n => .integer n.toInt).getD .null
  | .max => (acc.max.map fun n => .integer n.toInt).getD .null
  | .arrayAgg => .array acc.array

/-! ## States in a continuation -/

/-- `OneOfTypedState`: numbers are the varints of the wire. -/
inductive TypedState where
  | int32 (bits : Nat)
  | int64 (bits : Nat)
  | bytes (b : Bytes)
  deriving DecidableEq, Repr

def int64Bits (n : Int64) : Nat := n.toUInt64.toNat

def int64OfBits (bits : Nat) : Int64 := (UInt64.ofNat bits).toInt64

def int32OfBits (bits : Nat) : Int64 := (int64OfBits bits).toInt32.toInt64

def intOfBits : IntType → Nat → Int64
  | .int, bits => int32OfBits bits
  | .long, bits => int64OfBits bits

/-- The width of the state; an operand without a static type has the widest. -/
def aggregateLane {Row : Type} (agg : AggregateSpec Row) : IntType := agg.operandIntType.getD .long

def typedState (lane : IntType) (v : Option Int64) : Except AggregateError TypedState :=
  match lane, v with
  | _, none => .error .notAnInt
  | .int, some n => if FitsInt n then .ok (.int32 (int64Bits n)) else .error .notAnInt
  | .long, some n => .ok (.int64 (int64Bits n))

def laneValue (lane : IntType) (state : TypedState) : Except AggregateError Int64 :=
  match lane, state with
  | .int, .int32 bits => .ok (int32OfBits bits)
  | .long, .int64 bits => .ok (int64OfBits bits)
  | _, _ => .error .invalidContinuation

def encodeArray (elements : List Int64) : Bytes :=
  encodeFields (elements.map fun n => { number := 1, value := .varint (int64Bits n) })

def decodeArray (type : IntType) (data : Bytes) : Option (List Int64) :=
  (decodeFields data).map fun fields =>
    fields.filterMap fun field =>
      match field.number, field.value with
      | 1, .varint bits => some (intOfBits type bits)
      | _, _ => none

def trimBitmap (bitmap : Bytes) : Bytes := bitmap.rdropWhile (· == 0)

def restoreBitmap (b : Bytes) : Bytes := b ++ List.replicate (1250 - b.length) 0

def encodeAccumulator {Row : Type} (agg : AggregateSpec Row) (rows : Int64) (acc : Accumulator) :
    Except AggregateError (List TypedState) :=
  match agg.function with
  | .countStar => .ok (if 0 < rows then [.int64 (int64Bits rows)] else [])
  | .count => .ok (if 0 < rows then [.int64 (int64Bits acc.count)] else [])
  | .arrayAgg => .ok (if 0 < rows then [.bytes (encodeArray acc.array)] else [])
  | .bitmapConstructAgg => .ok (if acc.count = 0 then [] else [.bytes (trimBitmap acc.bitmap)])
  | .sum => if acc.count = 0 then .ok [] else do .ok [← typedState (aggregateLane agg) (some acc.sumI)]
  | .min => if acc.count = 0 then .ok [] else do .ok [← typedState (aggregateLane agg) acc.min]
  | .max => if acc.count = 0 then .ok [] else do .ok [← typedState (aggregateLane agg) acc.max]

/-- Restores an aggregate, and the number of rows of the group if the aggregate counts them. -/
def decodeAccumulator {Row : Type} (agg : AggregateSpec Row) (rows : Int64) (states : List TypedState) :
    Except AggregateError (Int64 × Accumulator) :=
  match states with
  | [] => .ok (rows, {})
  | [state] =>
    match agg.function, state with
    | .countStar, .int64 bits =>
      if int64OfBits bits < 0 then .error .invalidContinuation else .ok (int64OfBits bits, {})
    | .count, .int64 bits =>
      if int64OfBits bits < 0 then .error .invalidContinuation else .ok (rows, { count := int64OfBits bits })
    | .arrayAgg, .bytes b =>
      match decodeArray agg.operandType b with
      | none => .error .invalidContinuation
      | some elements =>
        if (agg.limit.map fun limit => decide (limit < elements.length)).getD false then .error .invalidContinuation
        else .ok (rows, { array := elements })
    | .bitmapConstructAgg, .bytes b =>
      if 31250 < b.length then .error .invalidContinuation
      else .ok (rows, { count := 1, bitmap := restoreBitmap b })
    | .sum, state => do
      let n ← laneValue (aggregateLane agg) state
      .ok (rows, { count := 1, sumI := n })
    | .min, state => do
      let n ← laneValue (aggregateLane agg) state
      .ok (rows, { count := 1, min := some n })
    | .max, state => do
      let n ← laneValue (aggregateLane agg) state
      .ok (rows, { count := 1, max := some n })
    | _, _ => .error .invalidContinuation
  | _ => .error .invalidContinuation

end FdbGo.Executor
