import FdbGo.Tuple.Pack

/-! Unpacking a byte string: one decoder for each type code, and the loop over
the elements. -/

set_option autoImplicit false

namespace FdbGo.Tuple

open Client (Bytes)
open Foundation (bigEndianValue)

/-- The errors of `decodeTuple`, with the position of the element. -/
inductive DecodeError where
  /-- "no 0x00 terminator found for bytes/string element" -/
  | noTerminator
  /-- "insufficient bytes to decode %d-byte integer" -/
  | integerBytes (n : Nat)
  /-- "insufficient bytes to decode big integer length" -/
  | bigIntegerLength
  /-- "insufficient bytes to decode %d-byte big integer" -/
  | bigIntegerBytes (length : Nat)
  /-- "unable to decode bytes starting at position %d of byte array for tuple: %w" -/
  | bytesAt (position : Nat) (cause : DecodeError)
  /-- "unable to decode string starting at position %d of byte array for tuple: %w" -/
  | stringAt (position : Nat) (cause : DecodeError)
  /-- "unable to decode integer starting at position %d of byte array for tuple: %w" -/
  | integerAt (position : Nat) (cause : DecodeError)
  /-- "unable to decode big integer starting at position %d of byte array for tuple: %w" -/
  | bigIntegerAt (position : Nat) (cause : DecodeError)
  /-- "insufficient bytes to decode float starting at position %d of byte array for tuple" -/
  | floatAt (position : Nat)
  /-- "insufficient bytes to decode double starting at position %d of byte array for tuple" -/
  | doubleAt (position : Nat)
  /-- "insufficient bytes to decode UUID starting at position %d of byte array for tuple" -/
  | uuidAt (position : Nat)
  /-- "insufficient bytes to decode Versionstamp starting at position %d of byte array for tuple" -/
  | versionstampAt (position : Nat)
  /-- "unable to decode tuple element with unknown typecode %02x" -/
  | unknownTypecode (code : UInt8)
  /-- The model's own: the loop was given too few rounds. -/
  | outOfRounds
  deriving DecidableEq, Repr

/-- The loop of `findTerminator` over the zero bytes of `bp`, after `length`
bytes. -/
def findTerminatorLoop : Nat → Bytes → Nat → Option Nat
  | 0, _, _ => none
  | rounds + 1, bp, length =>
    match bp.idxOf? 0x00 with
    | none => none
    | some idx =>
      if idx + 1 = bp.length ∨ bp.getD (idx + 1) 0 ≠ 0xFF then some (length + idx)
      else findTerminatorLoop rounds (bp.drop (idx + 2)) (length + idx + 2)

variable (b : Bytes)

/-- The length of a payload before its terminator, an escaped zero byte
skipped. -/
def findTerminator : Option Nat := findTerminatorLoop (b.length + 1) b 0

/-- `bytes.Replace` of every `0x00 0xFF` by `0x00`. -/
def replaceEscapes : Bytes → Bytes
  | 0x00 :: 0xFF :: rest => 0x00 :: replaceEscapes rest
  | byte :: rest => byte :: replaceEscapes rest
  | [] => []

def decodeBytes : Except DecodeError (Bytes × Nat) :=
  match findTerminator (b.drop 1) with
  | none => .error .noTerminator
  | some idx => .ok (replaceEscapes ((b.drop 1).take idx), idx + 2)

/-- The Go `int64` of eight big-endian bytes. -/
def int64Value (bytes : Bytes) : Int64 := (UInt64.ofNat (bigEndianValue bytes)).toInt64

def decodeInt : Except DecodeError (Element × Nat) :=
  let code := b.headD 0
  if code = intZeroCode then .ok (.int64 0, 1)
  else
    let neg := code < intZeroCode
    let n := if neg then 0x14 - code.toNat else code.toNat - 0x14
    if n + 1 > b.length then .error (.integerBytes n)
    else
      let bp := List.replicate (8 - n) 0x00 ++ (b.drop 1).take n
      let ret := int64Value bp
      if neg then .ok (.int64 (ret - (sizeLimits.getD n 0).toInt64), n + 1)
      else if 0 < ret then .ok (.int64 ret, n + 1)
      -- a positive integer that uses the most significant bit
      else .ok (.uint64 ret.toUInt64, n + 1)

/-- The length and offset that `decodeBigInt` reads the integer at. -/
def bigIntFrame : Except DecodeError (Nat × Nat) :=
  let code := b.headD 0
  if code = negIntStart ∨ code = posIntEnd then
    if b.length < 2 then .error .bigIntegerLength
    else
      let length := b.getD 1 0
      .ok ((if code = negIntStart then length ^^^ 0xff else length).toNat, 2)
  else .ok (8, 1)

def decodeBigInt : Except DecodeError (Element × Nat) := do
  let (length, offset) ← bigIntFrame b
  if length + offset > b.length then .error (.bigIntegerBytes length)
  else
    let val : Int := bigEndianValue ((b.drop offset).take length)
    let val := if b.headD 0 < intZeroCode then val - ((1 <<< (length * 8) : Nat) - 1 : Int) else val
    if val = -2 ^ 63 then .ok (.int64 (Int64.ofInt val), length + offset)
    else .ok (.bigInt val, length + offset)

def decodeFloat : UInt32 × Nat :=
  (UInt32.ofNat (bigEndianValue (adjustFloatBytes ((b.drop 1).take 4) false)), 5)

def decodeDouble : UInt64 × Nat :=
  (UInt64.ofNat (bigEndianValue (adjustFloatBytes ((b.drop 1).take 8) false)), 9)

/-- `copy` of the start of `b` into an array of `size` bytes. -/
def copyArray (size : Nat) (b : Bytes) : Vector UInt8 size :=
  Vector.ofFn fun i => b.getD i 0

def decodeUUID : Vector UInt8 16 × Nat := (copyArray 16 (b.drop 1), 17)

def decodeVersionstamp : Versionstamp × Nat :=
  (⟨copyArray 10 (b.drop 1), UInt16.ofNat (bigEndianValue ((b.drop 11).take 2))⟩,
    versionstampLength + 1)

/-- What one round of the loop of `decodeTuple` does: an element and the bytes
it takes, or the end of a nested tuple. -/
inductive Round where
  | element (el : Element) (off : Nat)
  | finish (off : Nat)

/-- One round of the loop of `decodeTuple`, on the bytes from position `i` on.
A nested tuple is decoded by `decodeNested`. -/
def decodeRound (decodeNested : Bytes → Except DecodeError (List Element × Nat)) (nested : Bool)
    (b : Bytes) (i : Nat) : Except DecodeError Round :=
  let code := b.headD 0
  if code = nilCode then
    if !nested then .ok (.element .null 1)
    else if 1 < b.length ∧ b.getD 1 0 = 0xff then .ok (.element .null 2)
    else .ok (.finish 1)
  else if code = bytesCode then
    match decodeBytes b with
    | .error cause => .error (.bytesAt i cause)
    | .ok (bytes, off) => .ok (.element (.bytes bytes) off)
  else if code = stringCode then
    match decodeBytes b with
    | .error cause => .error (.stringAt i cause)
    | .ok (bytes, off) => .ok (.element (.string bytes) off)
  else if negIntStart + 1 < code ∧ code < posIntEnd then
    match decodeInt b with
    | .error cause => .error (.integerAt i cause)
    | .ok (el, off) => .ok (.element el off)
  else if negIntStart + 1 = code ∧ 1 < b.length ∧ b.getD 1 0 &&& 0x80 ≠ 0 then
    match decodeInt b with
    | .error cause => .error (.integerAt i cause)
    | .ok (el, off) => .ok (.element el off)
  else if negIntStart ≤ code ∧ code ≤ posIntEnd then
    match decodeBigInt b with
    | .error cause => .error (.bigIntegerAt i cause)
    | .ok (el, off) => .ok (.element el off)
  else if code = floatCode then
    if 5 > b.length then .error (.floatAt i)
    else .ok (.element (.float32 (decodeFloat b).1) (decodeFloat b).2)
  else if code = doubleCode then
    if 9 > b.length then .error (.doubleAt i)
    else .ok (.element (.float64 (decodeDouble b).1) (decodeDouble b).2)
  else if code = trueCode then .ok (.element (.bool true) 1)
  else if code = falseCode then .ok (.element (.bool false) 1)
  else if code = uuidCode then
    if 17 > b.length then .error (.uuidAt i)
    else .ok (.element (.uuid (decodeUUID b).1) (decodeUUID b).2)
  else if code = versionstampCode then
    if versionstampLength + 1 > b.length then .error (.versionstampAt i)
    else .ok (.element (.versionstamp (decodeVersionstamp b).1) (decodeVersionstamp b).2)
  else if code = nestedCode then
    match decodeNested (b.drop 1) with
    | .error cause => .error cause
    | .ok (elements, off) => .ok (.element (.tuple elements) (off + 1))
  else .error (.unknownTypecode code)

/-- The loop of `decodeTuple` from position `i` on, where `b` are the bytes left.
It takes at most one round more than there are bytes. -/
def decodeLoop : Nat → Bool → Bytes → Nat → Except DecodeError (List Element × Nat)
  | 0, _, _, _ => .error .outOfRounds
  | rounds + 1, nested, b, i =>
    if b = [] then .ok ([], i)
    else
      match decodeRound (fun rest => decodeLoop rounds true rest 0) nested b i with
      | .error cause => .error cause
      | .ok (.finish off) => .ok ([], i + off)
      | .ok (.element el off) =>
        match decodeLoop rounds nested (b.drop off) (i + off) with
        | .error cause => .error cause
        | .ok (els, consumed) => .ok (el :: els, consumed)

def decodeTuple (nested : Bool) : Except DecodeError (List Element × Nat) :=
  decodeLoop (b.length + 1) nested b 0

def unpack : Except DecodeError (List Element) :=
  match decodeTuple b false with
  | .error cause => .error cause
  | .ok (t, _) => .ok t

end FdbGo.Tuple
