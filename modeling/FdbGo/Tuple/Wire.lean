import FdbGo.Tuple.Pack

/-! The wire form of a value, as a function of the value alone, and that the
packer appends it. -/

set_option autoImplicit false

namespace FdbGo.Tuple

open Client (Bytes)
open Foundation

def escape : Bytes → Bytes
  | [] => []
  | byte :: rest => if byte = 0 then 0 :: 0xFF :: escape rest else byte :: escape rest

/-- The type code of an integer and, past eight bytes, its length. -/
def integerHeader (i : Int) : Bytes :=
  let n := byteLength i.natAbs
  if 0 ≤ i then if n ≤ 8 then [UInt8.ofNat (0x14 + n)] else [posIntEnd, UInt8.ofNat n]
  else if n ≤ 8 then [UInt8.ofNat (0x14 - n)] else [negIntStart, UInt8.ofNat (255 - n)]

/-- What the bytes after the header stand for: a negative integer counts up
from the least one of its width. -/
def integerOffset (i : Int) : Nat :=
  if 0 ≤ i then i.natAbs else 256 ^ byteLength i.natAbs - 1 - i.natAbs

def integerWire (i : Int) : Bytes :=
  integerHeader i ++ bigEndian (byteLength i.natAbs) (integerOffset i)

mutual

/-- The wire form of a value, at the top level or as a member of a nested
tuple. -/
def Value.wire (nested : Bool) : Value → Bytes
  | .null => if nested then [nilCode, 0xff] else [nilCode]
  | .bytes value => bytesCode :: (escape value ++ [0x00])
  | .string value => stringCode :: (escape value ++ [0x00])
  | .nested values => nestedCode :: (wires true values ++ [0x00])
  | .integer value => integerWire value
  | .float32 bits => floatCode :: adjustFloatBytes (bigEndian 4 bits.toNat) true
  | .float64 bits => doubleCode :: adjustFloatBytes (bigEndian 8 bits.toNat) true
  | .bool value => [if value then trueCode else falseCode]
  | .uuid value => uuidCode :: value.toList
  | .versionstamp value => versionstampCode :: value.wireBytes

def wires (nested : Bool) : List Value → Bytes
  | [] => []
  | value :: values => value.wire nested ++ wires nested values

end

/-- The offset of an integer fits the bytes of its magnitude. -/
theorem integerOffset_lt (i : Int) : integerOffset i < 256 ^ byteLength i.natAbs := by
  have fits := lt_pow_byteLength i.natAbs
  unfold integerOffset
  split
  · exact fits
  · omega

/-! ## The packer appends the wire form -/

variable (p : Packer)

namespace Packer

@[simp] theorem putBytes_nil : p.putBytes [] = p := by
  simp [putBytes]

theorem putBytes_putBytes (b others : Bytes) : (p.putBytes b).putBytes others = p.putBytes (b ++ others) := by
  simp [putBytes]

theorem putByte_eq (b : UInt8) : p.putByte b = p.putBytes [b] := rfl

end Packer

theorem escape_append (b others : Bytes) : escape (b ++ others) = escape b ++ escape others := by
  induction b with
  | nil => rfl
  | cons byte b ih =>
    simp only [List.cons_append, escape, ih]
    split <;> rfl

variable {b : Bytes}

theorem escape_of_notMem (absent : (0 : UInt8) ∉ b) : escape b = b := by
  induction b with
  | nil => rfl
  | cons byte b ih =>
    have nonzero : byte ≠ 0 := fun zero => absent (by simp [zero])
    rw [escape, if_neg nonzero, ih fun member => absent (List.mem_cons_of_mem _ member)]

theorem idxOf?_split {i : Nat} (found : b.idxOf? 0 = some i) :
    ∃ before after, b = before ++ 0 :: after ∧ before.length = i ∧ (0 : UInt8) ∉ before := by
  induction b generalizing i with
  | nil => simp at found
  | cons byte b ih =>
    rw [List.idxOf?_cons] at found
    by_cases zero : byte = 0
    · simp only [zero, beq_self_eq_true, if_true, Option.some.injEq] at found
      exact ⟨[], b, by rw [zero, List.nil_append], found, List.not_mem_nil⟩
    · simp only [beq_eq_false_iff_ne.mpr zero, Bool.false_eq_true, if_false,
        Option.map_eq_some_iff] at found
      obtain ⟨j, foundRest, rfl⟩ := found
      obtain ⟨before, after, split, length, absent⟩ := ih foundRest
      refine ⟨byte :: before, after, by rw [split, List.cons_append], by simp [length], ?_⟩
      rw [List.mem_cons, not_or]
      exact ⟨fun same => zero same.symm, absent⟩

theorem idxOf?_eq_none (absent : b.idxOf? 0 = none) : (0 : UInt8) ∉ b :=
  List.idxOf?_eq_none_iff.mp absent

namespace Packer

private theorem putBytesNil_eq {rounds : Nat} {p : Packer} (enough : b.length < rounds) :
    p.putBytesNil rounds b (b.idxOf? 0x00) = p.putBytes (escape b) := by
  induction rounds generalizing p b with
  | zero => exact absurd enough (Nat.not_lt_zero _)
  | succ rounds ih =>
    cases found : b.idxOf? 0x00 with
    | none => rw [putBytesNil, escape_of_notMem (idxOf?_eq_none found)]; simp
    | some i =>
      obtain ⟨before, after, rfl, rfl, absent⟩ := idxOf?_split found
      have upTo : (before ++ 0 :: after).take (before.length + 1) = before ++ [0] := by
        simp [List.take_append]
      have rest : (before ++ 0 :: after).drop (before.length + 1) = after := by
        simp [List.drop_append]
      have shorter : after.length < rounds := by
        rw [List.length_append, List.length_cons] at enough
        omega
      simp only [putBytesNil, upTo, rest, ih shorter, putByte_eq, putBytes_putBytes,
        escape_append, escape_of_notMem absent, escape, if_true]
      simp

private theorem encodeBytes_eq (code : UInt8) (b : Bytes) :
    p.encodeBytes code b = p.putBytes (code :: (escape b ++ [0x00])) := by
  unfold encodeBytes
  cases found : b.idxOf? 0x00 with
  | none =>
    simp only [putByte_eq, putBytes_putBytes, escape_of_notMem (idxOf?_eq_none found)]
    simp
  | some i =>
    have loop := putBytesNil_eq (p := p.putByte code) (Nat.lt_succ_self b.length)
    rw [found] at loop
    simp only [loop]
    simp [putByte_eq, putBytes_putBytes]

end Packer

/-! Integers -/

theorem sizeLimits_toNat {n : Nat} (small : n ≤ 8) : (sizeLimits.getD n 0).toNat = 256 ^ n - 1 := by
  revert n
  decide +kernel

theorem bisectLeft_eq (u : UInt64) : bisectLeft u = byteLength u.toNat := by
  have least : byteLength u.toNat ≤ 8 := byteLength_le_iff.mpr u.toNat_lt
  have size : sizeLimits.length = 9 := rfl
  have passes (n : Nat) (inside : n < sizeLimits.length) :
      (!decide (sizeLimits[n] < u)) = true ↔ byteLength u.toNat ≤ n := by
    have limit := sizeLimits_toNat (n := n) (by omega)
    rw [List.getD_eq_getElem?_getD, List.getElem?_eq_getElem inside, Option.getD_some] at limit
    have positive : 0 < 256 ^ n := Nat.pow_pos (by decide)
    rw [byteLength_le_iff, Bool.not_eq_true', decide_eq_false_iff_not, UInt64.lt_iff_toNat_lt, limit]
    omega
  rw [bisectLeft, List.findIdx_eq (by omega)]
  refine ⟨(passes _ _).mpr le_rfl, fun n below => ?_⟩
  rw [← Bool.not_eq_true, passes]
  omega

private theorem toNat_toUInt64 (i : Int64) : (i.toUInt64.toNat : Int) = i.toInt % 2 ^ 64 := by
  have word := i.toBitVec.isLt
  rw [← Int64.toInt_toBitVec, BitVec.toInt_eq_toNat_cond]
  change (i.toBitVec.toNat : Int) = _
  split <;> omega

theorem toInt_toInt64 (u : UInt64) :
    u.toInt64.toInt = if u.toNat < 2 ^ 63 then (u.toNat : Int) else u.toNat - 2 ^ 64 := by
  rw [← Int64.toInt_toBitVec, BitVec.toInt_eq_toNat_cond]
  change (if 2 * u.toNat < 2 ^ 64 then (u.toNat : Int) else u.toNat - (2 ^ 64 : Nat)) = _
  split <;> split <;> omega

theorem int64_bounds (i : Int64) : -2 ^ 63 ≤ i.toInt ∧ i.toInt < 2 ^ 63 :=
  ⟨i.le_toInt, i.toInt_lt⟩

namespace Packer

theorem encodeUint_eq (i : UInt64) : p.encodeUint i = p.putBytes (integerWire i.toNat) := by
  unfold encodeUint
  by_cases zero : i = 0
  · subst zero
    rfl
  · have least : byteLength i.toNat ≤ 8 := byteLength_le_iff.mpr i.toNat_lt
    have header : intZeroCode + UInt8.ofNat (byteLength i.toNat) =
        UInt8.ofNat (0x14 + byteLength i.toNat) := by
      rw [UInt8.ofNat_add]; rfl
    simp only [if_neg zero, bisectLeft_eq, drop_bigEndian least, integerWire, integerHeader,
      integerOffset, Int.natAbs_natCast, Int.natCast_nonneg, if_true, least, header, putByte_eq,
      putBytes_putBytes]

private theorem encodeInt_eq (i : Int64) : p.encodeInt i = p.putBytes (integerWire i.toInt) := by
  have bounds := int64_bounds i
  unfold encodeInt
  by_cases nonneg : 0 ≤ i
  · have positive : 0 ≤ i.toInt := by
      simpa using Int64.le_iff_toInt_le.mp nonneg
    have word : (i.toUInt64.toNat : Int) = i.toInt := by
      rw [toNat_toUInt64]; omega
    rw [if_pos nonneg, encodeUint_eq, word]
  · have negative : i.toInt < 0 := by
      have less := Int64.lt_iff_toInt_lt.mp (Int64.not_le.mp nonneg)
      simpa using less
    have word := i.toUInt64.toNat_lt
    have low := toNat_toUInt64 i
    have magnitude : (-i).toUInt64.toNat = i.toInt.natAbs := by
      rw [Int64.toUInt64_neg, UInt64.toNat_neg, UInt64.size]
      omega
    have fits := lt_pow_byteLength i.toInt.natAbs
    have least : byteLength i.toInt.natAbs ≤ 8 := byteLength_le_iff.mpr (by omega)
    have narrow : 256 ^ byteLength i.toInt.natAbs ≤ 2 ^ 64 :=
      Nat.pow_le_pow_right (n := 256) (by decide) least
    have offset : ((sizeLimits.getD (byteLength i.toInt.natAbs) 0).toInt64 + i).toUInt64.toNat =
        256 ^ byteLength i.toInt.natAbs - 1 - i.toInt.natAbs := by
      rw [Int64.toUInt64_add, UInt64.toUInt64_toInt64, UInt64.toNat_add, sizeLimits_toNat least]
      omega
    have header : intZeroCode - UInt8.ofNat (byteLength i.toInt.natAbs) =
        UInt8.ofNat (0x14 - byteLength i.toInt.natAbs) := by
      rw [UInt8.ofNat_sub (by omega)]; rfl
    simp only [if_neg nonneg, bisectLeft_eq, magnitude, offset, drop_bigEndian least, integerWire,
      integerHeader, integerOffset, not_le.mpr negative, if_false, least, if_true, header,
      putByte_eq, putBytes_putBytes]

private theorem length_bigIntBytes (i : Int) : (bigIntBytes i).length = byteLength i.natAbs := by
  simp [bigIntBytes]

private theorem encodeBigInt_eq {i : Int} (small : byteLength i.natAbs ≤ 255) :
    p.encodeBigInt i = .ok (p.putBytes (integerWire i)) := by
  have fits := lt_pow_byteLength i.natAbs
  have power := one_shiftLeft_bytes (byteLength i.natAbs)
  unfold encodeBigInt
  simp only [length_bigIntBytes, gt_iff_lt, not_lt.mpr small, if_false]
  by_cases nonneg : 0 ≤ i
  · simp only [nonneg, if_true, integerWire, integerHeader, integerOffset, bigIntBytes]
    by_cases long : 8 < byteLength i.natAbs
    · simp [long, not_le.mpr long, putByte_eq, putBytes_putBytes]
    · have header : intZeroCode + UInt8.ofNat (byteLength i.natAbs) =
          UInt8.ofNat (0x14 + byteLength i.natAbs) := by
        rw [UInt8.ofNat_add]; rfl
      simp [long, not_lt.mp long, putByte_eq, putBytes_putBytes, header]
  · have transformed : (i + ((1 <<< (byteLength i.natAbs * 8) : Nat) - 1 : Int)).natAbs =
        256 ^ byteLength i.natAbs - 1 - i.natAbs := by
      rw [power]; omega
    have narrower : byteLength (256 ^ byteLength i.natAbs - 1 - i.natAbs) ≤ byteLength i.natAbs :=
      byteLength_le_iff.mpr (by omega)
    simp only [nonneg, if_false, transformed, bigIntBytes, putBytes_putBytes,
      zeros_append_bigEndian narrower (lt_pow_byteLength _), integerWire, integerHeader,
      integerOffset]
    by_cases long : 8 < byteLength i.natAbs
    · have header : UInt8.ofNat (byteLength i.natAbs) ^^^ 0xff =
          UInt8.ofNat (255 - byteLength i.natAbs) := by
        generalize byteLength i.natAbs = n at small
        revert n
        decide +kernel
      simp [long, not_le.mpr long, putByte_eq, putBytes_putBytes, header]
    · have header : intZeroCode - UInt8.ofNat (byteLength i.natAbs) =
          UInt8.ofNat (0x14 - byteLength i.natAbs) := by
        rw [UInt8.ofNat_sub (by omega)]; rfl
      simp [long, not_lt.mp long, putByte_eq, putBytes_putBytes, header]

end Packer

/-! ## Tuples -/

namespace Packer

private theorem encodeVersionstamp_eq {v : Versionstamp} (complete : v.transactionVersion ≠ incompleteTransactionVersion) :
    p.encodeVersionstamp v = .ok (p.putBytes (versionstampCode :: v.wireBytes)) := by
  simp [encodeVersionstamp, complete, putByte_eq, putBytes_putBytes]

mutual

theorem encodeMember_eq (p : Packer) (nested : Bool) (element : Element) (packable : element.value.packable = true) :
    p.encodeMember nested false element = .ok (p.putBytes (element.value.wire nested)) := by
  cases element with
  | null => cases nested <;> simp [encodeMember, Element.value, Value.wire, putByte_eq, putBytes_putBytes]
  | tuple elements =>
    rw [encodeMember, encodeMembers_eq _ true elements packable]
    simp [Element.value, Value.wire, putByte_eq, putBytes_putBytes, bind, Except.bind]
  | int value | int64 value => exact congrArg _ (encodeInt_eq p value)
  | uint value | uint64 value => exact congrArg _ (encodeUint_eq p value)
  | bigInt value => exact encodeBigInt_eq p (of_decide_eq_true packable)
  | bytes value | keyConvertible value => exact congrArg _ (encodeBytes_eq p bytesCode value)
  | string value => exact congrArg _ (encodeBytes_eq p stringCode value)
  | float32 bits => simp [encodeMember, Element.value, Value.wire, encodeFloat, putByte_eq, putBytes_putBytes]
  | float64 bits => simp [encodeMember, Element.value, Value.wire, encodeDouble, putByte_eq, putBytes_putBytes]
  | bool value => rfl
  | uuid value => simp [encodeMember, Element.value, Value.wire, encodeUUID, putByte_eq, putBytes_putBytes]
  | versionstamp value =>
    have complete : value.transactionVersion ≠ incompleteTransactionVersion := by
      simpa [Element.value, Value.packable] using packable
    rw [encodeMember, if_neg fun both => complete both.2, encodeVersionstamp_eq p complete]
    rfl

theorem encodeMembers_eq (p : Packer) (nested : Bool) (elements : List Element)
    (packable : packables (values elements) = true) :
    p.encodeMembers nested false elements = .ok (p.putBytes (wires nested (values elements))) := by
  cases elements with
  | nil => simp [encodeMembers, values, wires]
  | cons element elements =>
    simp only [values, packables, Bool.and_eq_true] at packable
    simp only [encodeMembers, encodeMember_eq p nested element packable.1, bind, Except.bind,
      encodeMembers_eq _ nested elements packable.2, values, wires, putBytes_putBytes]

end

end Packer

/-- A packable tuple packs to the written values. -/
theorem pack_eq {t : List Element} (packable : packables (values t) = true) :
    pack t = .ok (wires false (values t)) := by
  simp [pack, Packer.encodeTuple, Packer.encodeMembers_eq _ false t packable, bind, Except.bind,
    Packer.putBytes]

end FdbGo.Tuple
