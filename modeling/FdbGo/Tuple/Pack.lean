import FdbGo.Tuple.Element

/-! Packing a tuple: the packer with its buffer, and one encoder for each
element type. -/

set_option autoImplicit false

namespace FdbGo.Tuple

open Client (Bytes)
open Foundation (bigEndian byteLength)

def nilCode : UInt8 := 0x00
def bytesCode : UInt8 := 0x01
def stringCode : UInt8 := 0x02
def nestedCode : UInt8 := 0x05
def intZeroCode : UInt8 := 0x14
def posIntEnd : UInt8 := 0x1d
def negIntStart : UInt8 := 0x0b
def floatCode : UInt8 := 0x20
def doubleCode : UInt8 := 0x21
def falseCode : UInt8 := 0x26
def trueCode : UInt8 := 0x27
def uuidCode : UInt8 := 0x30
def versionstampCode : UInt8 := 0x33

def versionstampLength : Nat := 12

def sizeLimits : List UInt64 :=
  [0, 0xff, 0xffff, 0xffffff, 0xffffffff, 0xffffffffff, 0xffffffffffff, 0xffffffffffffff,
    0xffffffffffffffff]

/-- The width of an integer: the first size limit it does not pass. -/
def bisectLeft (u : UInt64) : Nat := sizeLimits.findIdx fun limit => !decide (limit < u)

/-- `i.Bytes()`: the magnitude, without leading zero bytes. -/
def bigIntBytes (i : Int) : Bytes := bigEndian (byteLength i.natAbs) i.natAbs

def adjustFloatBytes (b : Bytes) (encoding : Bool) : Bytes :=
  let negative := b.headD 0 &&& 0x80 ≠ 0x00
  if (encoding ∧ negative) ∨ (¬ encoding ∧ ¬ negative) then b.map (· ^^^ 0xff)
  else b.modifyHead (· ^^^ 0x80)

/-- `Versionstamp.Bytes`. -/
def Versionstamp.wireBytes (v : Versionstamp) : Bytes :=
  v.transactionVersion.toList ++ bigEndian 2 v.userVersion.toNat

inductive PackPanic where
  /-- "Integer magnitude is too large (more than 255 bytes)" -/
  | integerTooLarge
  /-- "Tuple can only contain one incomplete versionstamp" -/
  | secondIncompleteVersionstamp
  /-- "Incomplete Versionstamp included in vanilla tuple pack" -/
  | incompleteVersionstamp
  deriving DecidableEq, Repr

structure Packer where
  versionstampPos : Int := -1
  buf : Bytes := []
  deriving DecidableEq, Repr

namespace Packer

variable (p : Packer)

def putByte (b : UInt8) : Packer := { p with buf := p.buf ++ [b] }

def putBytes (b : Bytes) : Packer := { p with buf := p.buf ++ b }

/-- The loop over the zero bytes of `b`, the next one at `i`; it ends within
one round more than `b` has bytes. -/
def putBytesNil : Nat → Packer → Bytes → Option Nat → Packer
  | rounds + 1, p, b, some i =>
    let rest := b.drop (i + 1)
    putBytesNil rounds ((p.putBytes (b.take (i + 1))).putByte 0xFF) rest (rest.idxOf? 0x00)
  | _, p, b, _ => p.putBytes b

def encodeBytes (code : UInt8) (b : Bytes) : Packer :=
  let p := p.putByte code
  let p := match b.idxOf? 0x00 with
    | some i => putBytesNil (b.length + 1) p b (some i)
    | none => p.putBytes b
  p.putByte 0x00

def encodeUint (i : UInt64) : Packer :=
  if i = 0 then p.putByte intZeroCode
  else
    let n := bisectLeft i
    (p.putByte (intZeroCode + UInt8.ofNat n)).putBytes ((bigEndian 8 i.toNat).drop (8 - n))

def encodeInt (i : Int64) : Packer :=
  if 0 ≤ i then p.encodeUint i.toUInt64
  else
    -- the most negative integer is its own negation, so its width is that of 2^63
    let n := bisectLeft (-i).toUInt64
    let offsetEncoded := (sizeLimits.getD n 0).toInt64 + i
    (p.putByte (intZeroCode - UInt8.ofNat n)).putBytes
      ((bigEndian 8 offsetEncoded.toUInt64.toNat).drop (8 - n))

def encodeBigInt (i : Int) : Except PackPanic Packer :=
  let length := (bigIntBytes i).length
  if length > 0xff then .error .integerTooLarge
  else if 0 ≤ i then
    let intBytes := bigIntBytes i
    let p :=
      if length > 8 then (p.putByte posIntEnd).putByte (UInt8.ofNat intBytes.length)
      else p.putByte (intZeroCode + UInt8.ofNat length)
    .ok (p.putBytes intBytes)
  else
    let transformed := i + ((1 <<< (length * 8) : Nat) - 1 : Int)
    let intBytes := bigIntBytes transformed
    let p :=
      if length > 8 then (p.putByte negIntStart).putByte (UInt8.ofNat length ^^^ 0xff)
      else p.putByte (intZeroCode - UInt8.ofNat length)
    .ok ((p.putBytes (List.replicate (length - intBytes.length) 0x00)).putBytes intBytes)

def encodeFloat (bits : UInt32) : Packer :=
  (p.putByte floatCode).putBytes (adjustFloatBytes (bigEndian 4 bits.toNat) true)

def encodeDouble (bits : UInt64) : Packer :=
  (p.putByte doubleCode).putBytes (adjustFloatBytes (bigEndian 8 bits.toNat) true)

def encodeUUID (u : Vector UInt8 16) : Packer :=
  (p.putByte uuidCode).putBytes u.toList

def encodeVersionstamp (v : Versionstamp) : Except PackPanic Packer :=
  let p := p.putByte versionstampCode
  if v.transactionVersion = incompleteTransactionVersion then
    if p.versionstampPos ≠ -1 then .error .secondIncompleteVersionstamp
    else
      let p := { p with versionstampPos := Int.bmod p.buf.length (2 ^ 32) }
      .ok (p.putBytes v.wireBytes)
  else .ok (p.putBytes v.wireBytes)

mutual

/-- One case of the type switch of `encodeTuple`. -/
def encodeMember (p : Packer) (nested versionstamps : Bool) : Element → Except PackPanic Packer
  | .tuple elements => do
      let p ← encodeMembers (p.putByte nestedCode) true versionstamps elements
      .ok (p.putByte 0x00)
  | .null => .ok (if nested then (p.putByte nilCode).putByte 0xff else p.putByte nilCode)
  | .int value | .int64 value => .ok (p.encodeInt value)
  | .uint value | .uint64 value => .ok (p.encodeUint value)
  | .bigInt value => p.encodeBigInt value
  | .bytes value | .keyConvertible value => .ok (p.encodeBytes bytesCode value)
  | .string value => .ok (p.encodeBytes stringCode value)
  | .float32 bits => .ok (p.encodeFloat bits)
  | .float64 bits => .ok (p.encodeDouble bits)
  | .bool value => .ok (p.putByte (if value then trueCode else falseCode))
  | .uuid value => .ok (p.encodeUUID value)
  | .versionstamp value =>
    if versionstamps = false ∧ value.transactionVersion = incompleteTransactionVersion then
      .error .incompleteVersionstamp
    else p.encodeVersionstamp value

/-- The loop of `encodeTuple` over the elements. -/
def encodeMembers (p : Packer) (nested versionstamps : Bool) :
    List Element → Except PackPanic Packer
  | [] => .ok p
  | element :: elements => do
      let p ← encodeMember p nested versionstamps element
      encodeMembers p nested versionstamps elements

end

def encodeTuple (t : List Element) (nested versionstamps : Bool) :
    Except PackPanic Packer := do
  let p ← encodeMembers (if nested then p.putByte nestedCode else p) nested versionstamps t
  .ok (if nested then p.putByte 0x00 else p)

end Packer

def pack (t : List Element) : Except PackPanic Bytes := do
  let p ← ({} : Packer).encodeTuple t false false
  .ok p.buf

end FdbGo.Tuple
