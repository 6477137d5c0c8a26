import FdbGo.Tuple.Unpack

/-! The record layer's own tuple decoder: a decoder, a validator and a skipper
over the same wire format. -/

set_option autoImplicit false

namespace FdbGo.Tuple.Fast

open Client (Bytes)
open Foundation (bigEndianValue)

/-- The errors of the fast decoder and of its validator. -/
inductive FastError where
  /-- "truncated bytes/string at offset 0 (len=%d)" -/
  | truncatedBytes (length : Nat)
  /-- "unterminated bytes/string element" -/
  | unterminatedBytes
  /-- "truncated integer at offset 0 (need %d bytes, have %d)" -/
  | truncatedInteger (need available : Nat)
  /-- "truncated big integer at offset 0" -/
  | truncatedBigIntegerLength
  /-- "truncated big integer (need %d bytes, have %d)" -/
  | truncatedBigInteger (need available : Nat)
  /-- "insufficient bytes for float at %d" -/
  | floatAt (position : Nat)
  /-- "insufficient bytes for double at %d" -/
  | doubleAt (position : Nat)
  /-- "insufficient bytes for UUID at %d" -/
  | uuidAt (position : Nat)
  /-- "insufficient bytes for Versionstamp at %d" -/
  | versionstampAt (position : Nat)
  /-- "unknown tuple typecode 0x%02x at %d" -/
  | unknownTypecode (code : UInt8) (position : Nat)
  /-- The model's own: the loop was given too few rounds. -/
  | outOfRounds
  deriving DecidableEq, Repr

def sizeLimits : List Int64 :=
  [0, 0xff, 0xffff, 0xffffff, 0xffffffff, 0xffffffffff, 0xffffffffffff, 0xffffffffffffff, -1]

variable (b : Bytes)

def fastDecodeInt : Except FastError (Element × Nat) :=
  let code := b.headD 0
  if code = intZeroCode then .ok (.int64 0, 1)
  else
    let neg := code < intZeroCode
    let n := if neg then 0x14 - code.toNat else code.toNat - 0x14
    if 1 + n > b.length then .error (.truncatedInteger (1 + n) b.length)
    else
      let buf := List.replicate (8 - n) 0x00 ++ (b.drop 1).take n
      let ret := int64Value buf
      if neg then .ok (.int64 (ret - sizeLimits.getD n 0), 1 + n)
      else if 0 < ret then .ok (.int64 ret, 1 + n)
      else .ok (.uint64 ret.toUInt64, 1 + n)

/-- The length and offset of the integer that `fastDecodeBigInt` reads. -/
def bigIntFrame : Nat × Nat :=
  let code := b.headD 0
  if code = negIntStart ∨ code = posIntEnd then
    let length := b.getD 1 0
    ((if code = negIntStart then length ^^^ 0xff else length).toNat, 2)
  else (8, 1)

def fastDecodeBigInt : Except FastError (Element × Nat) :=
  if b.length < 2 then .error .truncatedBigIntegerLength
  else
    let (length, offset) := bigIntFrame b
    if offset + length > b.length then .error (.truncatedBigInteger (offset + length) b.length)
    else
      let val : Int := bigEndianValue ((b.drop offset).take length)
      let val :=
        if b.headD 0 < intZeroCode then val - ((1 <<< (length * 8) : Nat) - 1 : Int) else val
      if val = -2 ^ 63 then .ok (.int64 (Int64.ofInt val), length + offset)
      else .ok (.bigInt val, length + offset)

/-- `DecodeBytes`, with the reference's terminator search and replacement. -/
def decodeBytes : Except FastError (Bytes × Nat) :=
  if b.length < 2 then .error (.truncatedBytes b.length)
  else
    match findTerminator (b.drop 1) with
    | none => .error .unterminatedBytes
    | some idx => .ok (replaceEscapes ((b.drop 1).take idx), idx + 2)

/-- One round of the loop of `fastDecodeTuple`; the fixed-width elements are
read as the reference reads them. -/
def fastDecodeRound (decodeNested : Bytes → Except FastError (List Element × Nat)) (nested : Bool)
    (b : Bytes) (i : Nat) : Except FastError Round :=
  let code := b.headD 0
  if code = nilCode then
    if !nested then .ok (.element .null 1)
    else if 1 < b.length ∧ b.getD 1 0 = 0xff then .ok (.element .null 2)
    else .ok (.finish 1)
  else if code = bytesCode then
    match decodeBytes b with
    | .error cause => .error cause
    | .ok (bytes, off) => .ok (.element (.bytes bytes) off)
  else if code = stringCode then
    match decodeBytes b with
    | .error cause => .error cause
    | .ok (bytes, off) => .ok (.element (.string bytes) off)
  else if negIntStart + 1 < code ∧ code < posIntEnd then
    match fastDecodeInt b with
    | .error cause => .error cause
    | .ok (el, off) => .ok (.element el off)
  else if negIntStart + 1 = code ∧ 1 < b.length ∧ b.getD 1 0 &&& 0x80 ≠ 0 then
    match fastDecodeInt b with
    | .error cause => .error cause
    | .ok (el, off) => .ok (.element el off)
  else if negIntStart ≤ code ∧ code ≤ posIntEnd then
    match fastDecodeBigInt b with
    | .error cause => .error cause
    | .ok (el, off) => .ok (.element el off)
  else if code = floatCode then
    if 5 > b.length then .error (.floatAt i)
    else .ok (.element (.float32 (decodeFloat b).1) (decodeFloat b).2)
  else if code = doubleCode then
    if 9 > b.length then .error (.doubleAt i)
    else .ok (.element (.float64 (decodeDouble b).1) (decodeDouble b).2)
  else if code = trueCode then .ok (.element (.bool true) 1)
  else if code = falseCode then .ok (.element (.bool false) 1)
  else if code = uuidCode then
    if 17 > b.length then .error (.uuidAt i)
    else .ok (.element (.uuid (decodeUUID b).1) (decodeUUID b).2)
  else if code = versionstampCode then
    if versionstampLength + 1 > b.length then .error (.versionstampAt i)
    else .ok (.element (.versionstamp (decodeVersionstamp b).1) (decodeVersionstamp b).2)
  else if code = nestedCode then
    match decodeNested (b.drop 1) with
    | .error cause => .error cause
    | .ok (elements, off) => .ok (.element (.tuple elements) (off + 1))
  else .error (.unknownTypecode code i)

/-- The loop of `fastDecodeTuple` from position `i` on. -/
def fastDecodeLoop : Nat → Bool → Bytes → Nat → Except FastError (List Element × Nat)
  | 0, _, _, _ => .error .outOfRounds
  | rounds + 1, nested, b, i =>
    if b = [] then .ok ([], i)
    else
      match fastDecodeRound (fun rest => fastDecodeLoop rounds true rest 0) nested b i with
      | .error cause => .error cause
      | .ok (.finish off) => .ok ([], i + off)
      | .ok (.element el off) =>
        match fastDecodeLoop rounds nested (b.drop off) (i + off) with
        | .error cause => .error cause
        | .ok (els, consumed) => .ok (el :: els, consumed)

def fastDecodeTuple (nested : Bool) : Except FastError (List Element × Nat) :=
  fastDecodeLoop (b.length + 1) nested b 0

/-- `tuplefast.Unpack`. -/
def unpack : Except FastError (List Element) :=
  match fastDecodeTuple b false with
  | .error cause => .error cause
  | .ok (t, _) => .ok t

/-! ## Validation -/

inductive Frame where
  | element (off : Nat)
  | finish (off : Nat)
  deriving DecidableEq, Repr

def validateBytes : Except FastError Frame :=
  if b.length < 2 then .error (.truncatedBytes b.length)
  else
    match findTerminator (b.drop 1) with
    | none => .error .unterminatedBytes
    | some idx => .ok (.element (idx + 2))

def validateInt : Except FastError Frame :=
  let c := b.headD 0
  let n := if c < intZeroCode then 0x14 - c.toNat else c.toNat - 0x14
  if 1 + n > b.length then .error (.truncatedInteger (1 + n) b.length)
  else .ok (.element (1 + n))

def validateBigInt : Except FastError Frame :=
  if b.length < 2 then .error .truncatedBigIntegerLength
  else
    let (length, offset) := bigIntFrame b
    if offset + length > b.length then .error (.truncatedBigInteger (offset + length) b.length)
    else .ok (.element (offset + length))

/-- One round of the loop of `validateTuple`, on the bytes from position `i` on. -/
def validateRound (validateNested : Bytes → Except FastError Nat) (nested : Bool) (b : Bytes)
    (i : Nat) : Except FastError Frame :=
  let c := b.headD 0
  if c = nilCode then
    if !nested then .ok (.element 1)
    else if 1 < b.length ∧ b.getD 1 0 = 0xff then .ok (.element 2)
    else .ok (.finish 1)
  else if c = bytesCode ∨ c = stringCode then validateBytes b
  else if negIntStart + 1 < c ∧ c < posIntEnd ∨
      negIntStart + 1 = c ∧ 1 < b.length ∧ b.getD 1 0 &&& 0x80 ≠ 0 then validateInt b
  else if negIntStart ≤ c ∧ c ≤ posIntEnd then validateBigInt b
  else if c = floatCode then
    if 5 > b.length then .error (.floatAt i) else .ok (.element 5)
  else if c = doubleCode then
    if 9 > b.length then .error (.doubleAt i) else .ok (.element 9)
  else if c = trueCode ∨ c = falseCode then .ok (.element 1)
  else if c = uuidCode then
    if 17 > b.length then .error (.uuidAt i) else .ok (.element 17)
  else if c = versionstampCode then
    if versionstampLength + 1 > b.length then .error (.versionstampAt i)
    else .ok (.element (versionstampLength + 1))
  else if c = nestedCode then
    match validateNested (b.drop 1) with
    | .error cause => .error cause
    | .ok n => .ok (.element (n + 1))
  else .error (.unknownTypecode c i)

/-- The loop of `validateTuple` from position `i` on. -/
def validateLoop : Nat → Bool → Bytes → Nat → Except FastError Nat
  | 0, _, _, _ => .error .outOfRounds
  | rounds + 1, nested, b, i =>
    if b = [] then .ok i
    else
      match validateRound (fun rest => validateLoop rounds true rest 0) nested b i with
      | .error cause => .error cause
      | .ok (.finish off) => .ok (i + off)
      | .ok (.element off) => validateLoop rounds nested (b.drop off) (i + off)

def validateTuple (nested : Bool) : Except FastError Nat :=
  validateLoop (b.length + 1) nested b 0

def validate : Option FastError :=
  match validateTuple b false with
  | .error cause => some cause
  | .ok _ => none

/-! ## Skipping -/

def skipBytes : Int :=
  if b.length < 2 then -1
  else
    match findTerminator (b.drop 1) with
    | none => -1
    | some idx => 1 + idx + 1

def skipInt : Int :=
  let code := b.headD 0
  let n := if code < intZeroCode then 0x14 - code.toNat else code.toNat - 0x14
  if 1 + n > b.length then -1 else 1 + n

def skipBigInt : Int :=
  if b.length < 2 then -1
  else
    let length := b.getD 1 0
    let length := (if b.headD 0 = negIntStart then length ^^^ 0xff else length).toNat
    if 2 + length > b.length then -1 else 2 + length

/-- The cases of `Skip` on a non-empty string; a nested tuple is left to
`skipNested`, which gives nothing when the model's rounds run out. -/
def skipElement (skipNested : Bytes → Option Int) (b : Bytes) : Option Int :=
  let code := b.headD 0
  if code = nilCode then some 1
  else if code = bytesCode ∨ code = stringCode then some (skipBytes b)
  else if negIntStart < code ∧ code < posIntEnd then some (skipInt b)
  else if code = negIntStart ∨ code = posIntEnd then some (skipBigInt b)
  else if code = floatCode then
    if b.length < 5 then some (-1) else some 5
  else if code = doubleCode then
    if b.length < 9 then some (-1) else some 9
  else if code = falseCode ∨ code = trueCode then some 1
  else if code = uuidCode then
    if b.length < 17 then some (-1) else some 17
  else if code = versionstampCode then
    if b.length < 1 + versionstampLength then some (-1) else some (1 + versionstampLength)
  else if code = nestedCode then skipNested b
  else some (-1)

/-- The loop of `Skip` over the members of the nested tuple `b`, from position
`i` on. -/
def skipMembers : Nat → Bytes → Nat → Option Int
  | 0, _, _ => none
  | rounds + 1, b, i =>
    let rest := b.drop i
    if rest = [] then some b.length
    else if rest.headD 0 = 0x00 then
      if 1 < rest.length ∧ rest.getD 1 0 = 0xff then skipMembers rounds b (i + 2)
      else some (i + 1)
    else do
      let sz ← skipElement (fun inner => skipMembers rounds inner 1) rest
      if sz ≤ 0 then some (-1) else skipMembers rounds b (i + sz.toNat)

/-- `Skip`: the size of the first element, or -1. -/
def skip : Int :=
  if b = [] then -1
  else (skipElement (fun inner => skipMembers b.length inner 1) b).getD (-1)

end FdbGo.Tuple.Fast
