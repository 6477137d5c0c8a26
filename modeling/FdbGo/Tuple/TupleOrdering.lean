import FdbGo.Tuple.Unpack

/-! Tuples packed so that their byte order is a chosen direction: NULLs can be
placed last, and the packed bytes inverted. -/

set_option autoImplicit false

namespace FdbGo.Tuple.TupleOrdering

open Client (Bytes)

structure Direction where
  /-- DESC: the packed bytes are inverted. -/
  inverted : Bool
  /-- NULLs opposite to their natural position. -/
  counterflowNulls : Bool
  deriving DecidableEq, Repr

def descNullsFirst : Direction := ⟨true, true⟩

def nullLastByte : UInt8 := 0xFE

/-! ## Inversion -/

/-- A Go `int` used as a bit buffer. -/
abbrev Word := BitVec 64

/-- The state of the loops of `Invert` and `Uninvert`: the buffer, how many of
its low bits are waiting, and the bytes written. -/
structure Shifter where
  bits : Word := 0
  nbits : Nat := 0
  out : Bytes := []
  deriving DecidableEq, Repr

def Shifter.top (s : Shifter) (width : Nat) : UInt8 :=
  UInt8.ofBitVec ((s.bits.sshiftRight (s.nbits - width) &&& BitVec.ofNat 64 (2 ^ width - 1)).truncate 8)

/-- The inner loop: a byte is written, where there is room for it, while
`width` bits are waiting. Nothing stands for an index out of range. -/
def Shifter.drain (width room : Nat) : Nat → Shifter → Option Shifter
  | rounds + 1, s =>
    if width ≤ s.nbits then
      if s.out.length < room then
        drain width room rounds { s with out := s.out ++ [s.top width], nbits := s.nbits - width }
      else none
    else some s
  | 0, s => some s

/-- One round of the outer loop: `width` more bits, then the inner loop. -/
def Shifter.feed (width outWidth room : Nat) (s : Shifter) (word : Word) : Option Shifter :=
  let nbits := s.nbits + width
  drain outWidth room nbits { s with bits := s.bits <<< width ||| word, nbits := nbits }

/-- `Invert`; nothing is a panic. -/
def invert (input : Bytes) : Option Bytes := do
  let invertedLength := (input.length * 8 + 6) / 7 + 1
  let s ← input.foldlM
    (fun s byte => s.feed 8 7 invertedLength (BitVec.ofNat 64 byte.toNat ^^^ 0xFF)) ({} : Shifter)
  let tail : Bytes :=
    if s.nbits = 0 then [0x80]
    else
      let npad := 7 - s.nbits
      [UInt8.ofBitVec (((s.bits <<< npad ||| BitVec.ofNat 64 (2 ^ npad - 1)) &&& 0x7F).truncate 8),
        UInt8.ofNat (0x80 ||| npad <<< 4)]
  -- more bytes than were made would be an index out of range, fewer the explicit panic
  if s.out.length + tail.length = invertedLength then some (s.out ++ tail) else none

inductive UninvertError where
  /-- "inverted bytes not in expected format" -/
  | format
  /-- "inverted length not even number of bytes" -/
  | length
  /-- "non-final inverted byte has high bit set at offset %d" -/
  | highBit (offset : Nat)
  /-- "ordering uninvert: expected %d bytes, got %d" -/
  | count (expected got : Nat)
  deriving DecidableEq, Repr

inductive Outcome (Error Result : Type) where
  | ok (result : Result)
  | error (cause : Error)
  | panic
  deriving DecidableEq, Repr

/-- The loop of `Uninvert` over the bytes before the last, from offset `offset` on. -/
def uninvertLoop (room : Nat) : Bytes → Nat → Shifter → Outcome UninvertError Shifter
  | [], _, s => .ok s
  | byte :: rest, offset, s =>
    let next := BitVec.ofNat 64 byte.toNat ^^^ 0x7F
    if next &&& 0x80 ≠ 0 then .error (.highBit offset)
    else
      match s.feed 7 8 room next with
      | none => .panic
      | some s => uninvertLoop room rest (offset + 1) s

def uninvert (inverted : Bytes) : Outcome UninvertError Bytes :=
  if inverted.length = 0 ∨ inverted.getLastD 0 &&& 0x80 = 0 then .error .format
  else
    let npadBits := ((inverted.getLastD 0 &&& 0x70) >>> 4).toNat
    let uninvertedBitLength : Int := ((inverted.length - 1 : Nat) : Int) * 7 - npadBits
    if uninvertedBitLength.tmod 8 ≠ 0 then .error .length
    else
      let uninvertedLength := uninvertedBitLength.tdiv 8
      -- a slice of negative length
      if uninvertedLength < 0 then .panic
      else
        match uninvertLoop uninvertedLength.toNat inverted.dropLast 0 {} with
        | .panic => .panic
        | .error cause => .error cause
        | .ok s =>
          if s.out.length ≠ uninvertedLength.toNat then
            .error (.count uninvertedLength.toNat s.out.length)
          else .ok s.out

/-! ## NULLs last -/

def packNullsLast : List Element → Except PackPanic Bytes
  | [] => .ok []
  | .null :: t => do .ok (nullLastByte :: (← packNullsLast t))
  | elem :: t => do
      let packed ← Tuple.pack [elem]
      .ok (packed ++ (← packNullsLast t))

inductive EndPosError where
  /-- "position %d beyond data length %d" -/
  | beyond (pos length : Nat)
  /-- "unterminated string/bytes at offset %d" -/
  | unterminatedBytes (pos : Nat)
  /-- "in nested tuple: %w" -/
  | inNested (cause : EndPosError)
  /-- "unterminated nested tuple at offset %d" -/
  | unterminatedNested (pos : Nat)
  /-- "truncated %s at offset %d: need %d bytes, have %d" -/
  | truncated (what : String) (pos need available : Nat)
  /-- "truncated %s at offset %d" -/
  | truncatedLength (what : String) (pos : Nat)
  /-- "unknown tuple type code 0x%02X at offset %d" -/
  | unknownCode (code : UInt8) (pos : Nat)
  deriving DecidableEq, Repr

/-- The scan of a bytes or string payload for its terminator, from offset `i` on. -/
def terminatorEnd : Bytes → Nat → Option Nat
  | [], _ => none
  | byte :: rest, i =>
    if byte = 0x00 then
      match rest with
      | [] => some (i + 1)
      | next :: more => if next = 0xFF then terminatorEnd more (i + 2) else some (i + 1)
    else terminatorEnd rest (i + 1)

def fixedEnd (data : Bytes) (pos size : Nat) (what : String) : Except EndPosError Nat :=
  if pos + size > data.length then .error (.truncated what pos size (data.length - pos))
  else .ok (pos + size)

/-- A big integer, its length from the byte after the code. -/
def bigIntEnd (data : Bytes) (pos : Nat) (what : String) (n : UInt8 → Nat) :
    Except EndPosError Nat :=
  if pos + 1 ≥ data.length then .error (.truncatedLength what pos)
  else fixedEnd data pos (2 + n (data.getD (pos + 1) 0)) what

/-- The cases of `ElementEndPos` other than a nested tuple, which is left to
`nestedEnd`. -/
def endPosOf (nestedEnd : Except EndPosError Nat) (data : Bytes) (pos : Nat) :
    Except EndPosError Nat :=
  let typeCode := data.getD pos 0
  if pos ≥ data.length then .error (.beyond pos data.length)
  else if typeCode = 0x00 then .ok (pos + 1)
  else if typeCode = 0x01 ∨ typeCode = 0x02 then
    match terminatorEnd (data.drop (pos + 1)) (pos + 1) with
    | some i => .ok i
    | none => .error (.unterminatedBytes pos)
  else if typeCode = 0x05 then nestedEnd
  else if typeCode = 0x14 then .ok (pos + 1)
  else if 0x0C ≤ typeCode ∧ typeCode ≤ 0x13 then
    fixedEnd data pos (1 + (0x14 - typeCode).toNat) "negative int"
  else if 0x15 ≤ typeCode ∧ typeCode ≤ 0x1C then
    fixedEnd data pos (1 + (typeCode - 0x14).toNat) "positive int"
  else if typeCode = 0x0B then
    bigIntEnd data pos "negative bigint" fun length => 255 - length.toNat
  else if typeCode = 0x1D then
    bigIntEnd data pos "positive bigint" fun length => length.toNat
  else if typeCode = 0x20 then fixedEnd data pos 5 "float32"
  else if typeCode = 0x21 then fixedEnd data pos 9 "float64"
  else if typeCode = 0x26 then .ok (pos + 1)
  else if typeCode = 0x27 then .ok (pos + 1)
  else if typeCode = 0x30 then fixedEnd data pos 17 "UUID"
  else if typeCode = 0x33 then fixedEnd data pos 13 "versionstamp"
  else .error (.unknownCode typeCode pos)

/-- The loop over the members of the nested tuple at `pos`, now at `i` and
`depth` levels deep. A member that is skipped is never itself a nested tuple. -/
def nestedEndLoop (data : Bytes) (pos : Nat) : Nat → Nat → Nat → Except EndPosError Nat
  | 0, _, _ => .error (.unterminatedNested pos)
  | rounds + 1, i, depth =>
    if i < data.length ∧ 0 < depth then
      if data.getD i 0 = 0x05 then nestedEndLoop data pos rounds (i + 1) (depth + 1)
      else if data.getD i 0 = 0x00 then
        if i + 1 < data.length ∧ data.getD (i + 1) 0 = 0xFF then
          nestedEndLoop data pos rounds (i + 2) depth
        else nestedEndLoop data pos rounds (i + 1) (depth - 1)
      else
        match endPosOf (.error (.unknownCode 0x05 i)) data i with
        | .error cause => .error (.inNested cause)
        | .ok end_ => nestedEndLoop data pos rounds end_ depth
    else if depth ≠ 0 then .error (.unterminatedNested pos)
    else .ok i

def elementEndPos (data : Bytes) (pos : Nat) : Except EndPosError Nat :=
  endPosOf (nestedEndLoop data pos (data.length + 1) (pos + 1) 1) data pos

inductive UnpackError where
  /-- "uninvert: %w" -/
  | uninvert (cause : UninvertError)
  /-- "unpack: %w" -/
  | unpack (cause : DecodeError)
  /-- "at offset %d: %w" -/
  | endPos (pos : Nat) (cause : EndPosError)
  /-- "unpack element at offset %d: %w" -/
  | element (pos : Nat) (cause : DecodeError)
  /-- "expected 1 element at offset %d, got %d" -/
  | count (pos got : Nat)
  /-- The model's own: the loop was given too few rounds. -/
  | outOfRounds
  deriving DecidableEq, Repr

/-- The loop of `UnpackNullsLast` from offset `pos` on. -/
def unpackNullsLastLoop (data : Bytes) : Nat → Nat → Except UnpackError (List Element)
  | 0, _ => .error .outOfRounds
  | rounds + 1, pos =>
    if pos < data.length then
      if data.getD pos 0 = nullLastByte then do
        .ok (.null :: (← unpackNullsLastLoop data rounds (pos + 1)))
      else
        match elementEndPos data pos with
        | .error cause => .error (.endPos pos cause)
        | .ok endPos =>
          match Tuple.unpack ((data.take endPos).drop pos) with
          | .error cause => .error (.element pos cause)
          | .ok [elem] => do .ok (elem :: (← unpackNullsLastLoop data rounds endPos))
          | .ok elemTuple => .error (.count pos elemTuple.length)
    else .ok []

def unpackNullsLast (data : Bytes) : Except UnpackError (List Element) :=
  unpackNullsLastLoop data (data.length + 1) 0

/-! ## Directions -/

inductive OrderingPanic where
  | pack (cause : PackPanic)
  /-- "ordering invert: expected %d bytes, got %d", or an index out of range -/
  | invert
  deriving DecidableEq, Repr

def pack (t : List Element) (dir : Direction) : Except OrderingPanic Bytes :=
  match if dir.counterflowNulls then packNullsLast t else Tuple.pack t with
  | .error cause => .error (.pack cause)
  | .ok packed =>
    if dir.inverted then
      match invert packed with
      | none => .error .invert
      | some inverted => .ok inverted
    else .ok packed

def unpack (packed : Bytes) (dir : Direction) : Outcome UnpackError (List Element) :=
  match if dir.inverted then uninvert packed else .ok packed with
  | .panic => .panic
  | .error cause => .error (.uninvert cause)
  | .ok data =>
    if dir.counterflowNulls then
      match unpackNullsLast data with
      | .error cause => .error cause
      | .ok t => .ok t
    else
      match Tuple.unpack data with
      | .error cause => .error (.unpack cause)
      | .ok t => .ok t

end FdbGo.Tuple.TupleOrdering
