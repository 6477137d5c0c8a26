import FdbGo.Client.Key
import FdbGo.Foundation.LittleEndian

/-! Atomic mutations and their effect on a value. A byte slice that may be nil is
an `Option Bytes`: nil is the value of an absent key, and is not the empty value. -/

set_option autoImplicit false

namespace FdbGo.Client

open Foundation

inductive MutationType where
  | setValue
  | clearRange
  | addValue
  | and
  | or
  | xor
  | appendIfFits
  | max
  | min
  | setVersionstampedKey
  | setVersionstampedValue
  | byteMin
  | byteMax
  | minV2
  | andV2
  | compareAndClear
  deriving DecidableEq, Repr

structure Mutation where
  typ : MutationType
  key : Key
  value : Bytes
  deriving DecidableEq, Repr

/-- `append([]byte(nil), b...)`: a copy, nil when there is nothing to copy. -/
def copied (b : Bytes) : Option Bytes := if b.isEmpty then none else some b

/-- The first `n` bytes of `e`, filled up with zeros. -/
def copyInto (n : Nat) (e : Bytes) : Bytes := e.take n ++ List.replicate (n - e.length) 0

variable (base : Option Bytes)

def existing : Bytes := base.getD []

/-- The loop of `doAdd` that carries from byte to byte. -/
def addCarry (carry : UInt16) : Bytes → Bytes → Bytes
  | a :: as, b :: bs =>
    let sum := carry + a.toUInt16 + b.toUInt16
    sum.toUInt8 :: addCarry (sum >>> 8) as bs
  | _, _ => []

variable (param : Bytes)

def doAdd : Option Bytes :=
  let e := existing base
  let size := param.length
  if size == 0 then some []
  else
    let a := copyInto size e
    if size == 8 then
      some (encode 8 (UInt64.ofNat (decode a) + UInt64.ofNat (decode param)).toNat)
    else some (addCarry 0 a param)

def doAnd : Option Bytes :=
  let e := existing base
  if param.isEmpty then some []
  else some (List.zipWith (· &&& ·) e param ++ List.replicate (param.length - e.length) 0)

def doAndV2 : Option Bytes :=
  if base.isNone then copied param else doAnd base param

/-- `doOr` and `doXor`: the operator byte by byte, and the operand's own bytes past
the end of the value. -/
def bytewise (op : UInt8 → UInt8 → UInt8) (base : Option Bytes) (param : Bytes) : Option Bytes :=
  let e := existing base
  if e.isEmpty then copied param
  else if param.isEmpty then copied param
  else some (List.zipWith op e param ++ param.drop e.length)

def doOr : Option Bytes → Bytes → Option Bytes := bytewise (· ||| ·)

def doXor : Option Bytes → Bytes → Option Bytes := bytewise (· ^^^ ·)

def firstDifference : List (UInt8 × UInt8) → Ordering
  | [] => .eq
  | (p, e) :: rest => if p > e then .gt else if p < e then .lt else firstDifference rest

/-- The operand against the value, from the operand's last byte down: its bytes past
the end of the value first, then those that both have. -/
def compareFromTop (param e : Bytes) : Ordering :=
  if (param.drop e.length).any (· != 0) then .gt else firstDifference (param.zip e).reverse

def doMax : Option Bytes :=
  let e := existing base
  if e.isEmpty then copied param
  else if param.isEmpty then copied param
  else
    match compareFromTop param e with
    | .gt => copied param
    | .lt => some (copyInto param.length e)
    | .eq => copied param

def doMin : Option Bytes :=
  if param.isEmpty then copied param
  else
    let e := existing base
    match compareFromTop param e with
    | .gt => some (copyInto param.length e)
    | .lt => copied param
    | .eq => copied param

def doMinV2 : Option Bytes :=
  if base.isNone then copied param else doMin base param

def doByteMax : Option Bytes :=
  match base with
  | none => copied param
  | some base => if param < base then copied base else copied param

def doByteMin : Option Bytes :=
  match base with
  | none => copied param
  | some base => if base < param then copied base else copied param

def valueSizeLimit : Nat := 100000

def doAppendIfFits : Option Bytes :=
  let e := existing base
  if e.isEmpty then copied param
  else if param.isEmpty then copied e
  else if e.length + param.length > valueSizeLimit then copied e
  else some (e ++ param)

def doCompareAndClear : Option Bytes × Bool :=
  match base with
  | none => (none, true)
  | some base => if base = param then (none, true) else (copied base, false)

def applyAtomic (op : MutationType) (base : Option Bytes) (param : Bytes) : Option Bytes × Bool :=
  match op with
  | .setValue => (copied param, false)
  | .addValue => (doAdd base param, false)
  | .and => (doAnd base param, false)
  | .andV2 => (doAndV2 base param, false)
  | .or => (doOr base param, false)
  | .xor => (doXor base param, false)
  | .max => (doMax base param, false)
  | .min => (doMin base param, false)
  | .minV2 => (doMinV2 base param, false)
  | .byteMax => (doByteMax base param, false)
  | .byteMin => (doByteMin base param, false)
  | .appendIfFits => (doAppendIfFits base param, false)
  | .compareAndClear => doCompareAndClear base param
  -- Versionstamped mutations cannot be resolved by the client.
  | .clearRange | .setVersionstampedKey | .setVersionstampedValue =>
    match base with
    | none => (none, false)
    | some base => (copied base, false)

def isAtomicOp : MutationType → Bool
  | .setValue | .clearRange => false
  | _ => true

/-- Whether the client cannot know the mutation's effect before the commit. -/
def isUnresolvedVersionstamp (op : MutationType) : Bool :=
  op == .setVersionstampedKey || op == .setVersionstampedValue

def isNonAssociativeOp : MutationType → Bool
  | .addValue | .or | .xor | .max | .min | .minV2 | .setVersionstampedKey | .setVersionstampedValue
  | .compareAndClear => true
  | _ => false

structure RywMutation where
  typ : MutationType
  param : Bytes
  deriving DecidableEq, Repr

def foldsOnto (stack : List RywMutation) (newMut : RywMutation) : Bool :=
  match stack.getLast? with
  | none => false
  | some top =>
    if isUnresolvedVersionstamp newMut.typ || newMut.typ == .compareAndClear then false
    else if top.typ != newMut.typ || isUnresolvedVersionstamp top.typ then false
    else !isNonAssociativeOp top.typ || top.param.length == newMut.param.length

def coalesceOverAtomics (stack : List RywMutation) (newMut : RywMutation) : List RywMutation :=
  if foldsOnto stack newMut then
    match stack.getLast? with
    | none => [newMut]
    | some top =>
      -- An operand is present even when it is empty; for `appendIfFits` the source
      -- appends the same bytes in place.
      let folded := (applyAtomic top.typ (some top.param) newMut.param).1
      stack.dropLast ++ [{ typ := top.typ, param := existing folded }]
  else stack ++ [newMut]

/-- The loop of `resolveAtomics` from a value, with the flag of the mutation before. -/
def resolveFrom (base : Option Bytes) (cleared : Bool) :
    List RywMutation → Option Bytes × Bool × Bool
  | [] => (base, cleared, false)
  | m :: rest =>
    if isUnresolvedVersionstamp m.typ then (none, false, true)
    else
      match applyAtomic m.typ base m.param with
      | (_, true) => resolveFrom none true rest
      | (value, false) => resolveFrom (some (existing value)) false rest

/-- What a chain of atomic mutations makes of a base value: the value, whether the
key is removed, and whether the chain holds a versionstamp. -/
def resolveAtomics (atomics : List RywMutation) :
    Option Bytes × Bool × Bool :=
  resolveFrom base false atomics

def atomicsOutcome (atomics : List RywMutation) : Bool × Bool :=
  if atomics.any fun m => isUnresolvedVersionstamp m.typ then (false, true)
  else
    match atomics.getLast? with
    | none => (false, false)
    | some last =>
      if last.typ != .compareAndClear then (false, false)
      else ((resolveAtomics base atomics).2.1, false)

end FdbGo.Client
