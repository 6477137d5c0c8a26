import FdbGo.Tuple.Unpack
import FdbGo.Tuple.Wire

/-! Unpacking reads back the wire form of every packable value. -/

set_option autoImplicit false

namespace FdbGo.Tuple

open Client (Bytes)
open Foundation Value

/-- What may follow a payload: a `0xFF` there would read as an escape. -/
def Tail (rest : Bytes) : Prop := rest.head? ≠ some 0xFF

/-! ## Payloads -/

variable {rest : Bytes} {i : Int}

theorem idxOf?_zero {before : Bytes} (absent : (0 : UInt8) ∉ before) :
    (before ++ 0 :: rest).idxOf? 0 = some before.length := by
  induction before with
  | nil => simp [List.idxOf?_cons]
  | cons byte before ih =>
    rw [List.mem_cons, not_or] at absent
    have nonzero : (byte == 0) = false := beq_eq_false_iff_ne.mpr fun same => absent.1 same.symm
    rw [List.cons_append, List.idxOf?_cons, nonzero, ih absent.2]
    rfl

private theorem findTerminatorLoop_escaped {rounds length : Nat} {before more : Bytes} (absent : (0 : UInt8) ∉ before) :
    findTerminatorLoop (rounds + 1) (before ++ 0 :: 0xFF :: more) length =
      findTerminatorLoop rounds more (length + before.length + 2) := by
  have goesOn : ¬ (before.length + 1 = (before ++ 0 :: 0xFF :: more).length ∨
      (before ++ 0 :: 0xFF :: more).getD (before.length + 1) 0 ≠ 0xFF) := by
    simp [List.getD_eq_getElem?_getD]
  have next : (before ++ 0 :: 0xFF :: more).drop (before.length + 2) = more := by simp [List.drop_append]
  rw [findTerminatorLoop, idxOf?_zero absent]
  simp only [goesOn, if_false, next]

variable {b : Bytes}

private theorem findTerminatorLoop_escape {rounds length : Nat} (tail : Tail rest) (enough : b.length < rounds) :
    findTerminatorLoop rounds (escape b ++ 0 :: rest) length = some (length + (escape b).length) := by
  induction rounds generalizing b length with
  | zero => exact absurd enough (Nat.not_lt_zero _)
  | succ rounds ih =>
    cases found : b.idxOf? 0 with
    | none =>
      have absent := idxOf?_eq_none found
      rw [escape_of_notMem absent, findTerminatorLoop, idxOf?_zero absent]
      have ends : b.length + 1 = (b ++ 0 :: rest).length ∨
          (b ++ 0 :: rest).getD (b.length + 1) 0 ≠ 0xFF := by
        cases rest with
        | nil => exact Or.inl (by simp)
        | cons byte rest =>
          refine Or.inr ?_
          have next : byte ≠ 0xFF := fun same => tail (by rw [same]; rfl)
          simpa [List.getD_eq_getElem?_getD] using next
      simp only [ends, if_true]
    | some i =>
      obtain ⟨before, after, rfl, rfl, absent⟩ := idxOf?_split found
      have shorter : after.length < rounds := by
        rw [List.length_append, List.length_cons] at enough
        omega
      have escaped : escape (before ++ 0 :: after) = before ++ 0 :: 0xFF :: escape after := by
        rw [escape_append, escape_of_notMem absent, escape, if_pos rfl]
      rw [escaped, List.append_assoc, List.cons_append, List.cons_append, findTerminatorLoop_escaped absent, ih shorter]
      simp
      omega

private theorem length_le_escape (b : Bytes) : b.length ≤ (escape b).length := by
  induction b with
  | nil => exact le_rfl
  | cons byte b ih =>
    unfold escape
    split <;> simp only [List.length_cons] <;> omega

private theorem findTerminator_escape (tail : Tail rest) : findTerminator (escape b ++ 0 :: rest) = some (escape b).length := by
  have longer := length_le_escape b
  rw [findTerminator, findTerminatorLoop_escape tail, Nat.zero_add]
  rw [List.length_append]
  omega

private theorem replaceEscapes_escape (b : Bytes) : replaceEscapes (escape b) = b := by
  induction b with
  | nil => rfl
  | cons byte b ih =>
    unfold escape
    by_cases zero : byte = 0
    · rw [if_pos zero, zero, replaceEscapes, ih]
    · rw [if_neg zero, replaceEscapes, ih]
      exact fun rest same => absurd same zero

private theorem decodeBytes_escape {code : UInt8} (tail : Tail rest) :
    decodeBytes (code :: (escape b ++ 0 :: rest)) = .ok (b, (escape b).length + 2) := by
  simp [decodeBytes, findTerminator_escape tail, replaceEscapes_escape]

/-! ## Fixed widths -/

/-- A property of bytes can be checked at each of them. -/
theorem forall_byte {p : UInt8 → Prop} (checked : ∀ n : Fin 256, p (UInt8.ofNat n)) (byte : UInt8) : p byte := by
  simpa using checked ⟨byte.toNat, byte.toNat_lt⟩

theorem adjustFloatBytes_adjustFloatBytes (b : Bytes) : adjustFloatBytes (adjustFloatBytes b true) false = b := by
  cases b with
  | nil => rfl
  | cons byte b =>
    have flipped : byte &&& 0x80 ≠ 0 → (byte ^^^ 0xff) &&& 0x80 = 0 := by
      revert byte
      exact forall_byte (by decide +kernel)
    have signed : byte &&& 0x80 = 0 → (byte ^^^ 0x80) &&& 0x80 ≠ 0 := by
      revert byte
      exact forall_byte (by decide +kernel)
    have twice (other : UInt8) : other ^^^ 0xff ^^^ 0xff = other := by
      rw [UInt8.xor_assoc, UInt8.xor_self, UInt8.xor_zero]
    have sign : byte ^^^ 0x80 ^^^ 0x80 = byte := by
      rw [UInt8.xor_assoc, UInt8.xor_self, UInt8.xor_zero]
    by_cases negative : byte &&& 0x80 = 0
    · simp [adjustFloatBytes, negative, signed negative, sign]
    · simp [adjustFloatBytes, negative, flipped negative, twice, Function.comp_def]

theorem length_adjustFloatBytes (b : Bytes) (encoding : Bool) : (adjustFloatBytes b encoding).length = b.length := by
  simp only [adjustFloatBytes]
  split <;> simp

theorem copyArray_toList {size : Nat} (array : Vector UInt8 size) (rest : Bytes) :
    copyArray size (array.toList ++ rest) = array := by
  apply Vector.ext
  intro i inside
  have stored : (array.toList ++ rest)[i]? = some array[i] := by
    rw [List.getElem?_append_left (by simpa using inside)]
    simp [inside]
  simp [copyArray, List.getD_eq_getElem?_getD, stored]

/-! ## Integers -/

def integerElement (i : Int) : Element :=
  if -2 ^ 63 ≤ i ∧ i < 2 ^ 63 then .int64 (Int64.ofInt i)
  else if 0 ≤ i ∧ i < 2 ^ 64 then .uint64 (UInt64.ofNat i.toNat)
  else .bigInt i

private theorem integerElement_value (i : Int) : (integerElement i).value = .integer i := by
  unfold integerElement
  split
  · next bounds => rw [Element.value, Int64.toInt_ofInt_of_le bounds.1 bounds.2]
  · split
    · next bounds =>
        have word : (UInt64.ofNat i.toNat).toNat = i.toNat :=
          UInt64.toNat_ofNat_of_lt' (by rw [UInt64.size]; omega)
        rw [Element.value, word, Int.toNat_of_nonneg bounds.1]
    · rfl

variable {value n : Nat}

theorem int64Value_bigEndian (fits : value < 256 ^ n) :
    int64Value (List.replicate (8 - n) 0x00 ++ bigEndian n value) = (UInt64.ofNat value).toInt64 := by
  rw [int64Value, bigEndianValue_zeros, bigEndianValue_bigEndian fits]

theorem eq_ofInt {value : Int64} (low : -2 ^ 63 ≤ i) (high : i < 2 ^ 63)
    (same : value.toInt = i) : value = Int64.ofInt i := by
  rw [← Int64.toInt_inj, Int64.toInt_ofInt_of_le low high, same]

theorem toNat_posCode (short : n ≤ 8) : (UInt8.ofNat (0x14 + n)).toNat = 0x14 + n :=
  UInt8.toNat_ofNat_of_lt' (by rw [UInt8.size]; omega)

theorem toNat_negCode (n : Nat) : (UInt8.ofNat (0x14 - n)).toNat = 0x14 - n :=
  UInt8.toNat_ofNat_of_lt' (by rw [UInt8.size]; omega)

theorem byteLength_ne_zero (nonzero : i ≠ 0) : byteLength i.natAbs ≠ 0 :=
  fun none => nonzero (Int.natAbs_eq_zero.mp (byteLength_eq_zero_iff.mp none))

private theorem decodeInt_nonneg (nonneg : 0 ≤ i) (short : byteLength i.natAbs ≤ 8) :
    decodeInt (integerWire i ++ rest) = .ok (integerElement i, byteLength i.natAbs + 1) := by
  have fits := lt_pow_byteLength i.natAbs
  have small : i.natAbs < 2 ^ 64 := byteLength_le_iff.mp short
  by_cases zero : i = 0
  · subst zero
    rfl
  · have positive := byteLength_ne_zero zero
    have code := toNat_posCode short
    have nonzero : UInt8.ofNat (0x14 + byteLength i.natAbs) ≠ intZeroCode := fun same => by
      rw [same] at code
      simp only [intZeroCode, UInt8.reduceToNat] at code
      omega
    have above : ¬ UInt8.ofNat (0x14 + byteLength i.natAbs) < intZeroCode := by
      rw [UInt8.lt_iff_toNat_lt, code]
      simp only [intZeroCode, UInt8.reduceToNat]
      omega
    have word : (UInt64.ofNat i.natAbs).toNat = i.natAbs := UInt64.toNat_ofNat_of_lt' small
    have signed := toInt_toInt64 (UInt64.ofNat i.natAbs)
    simp only [decodeInt, integerWire, integerHeader, integerOffset, nonneg, if_true, short,
      List.cons_append, List.nil_append, List.headD_cons, nonzero, if_false, above, code,
      Nat.add_sub_cancel_left, List.length_cons, List.length_append, length_bigEndian,
      List.drop_succ_cons, List.drop_zero, List.take_left', int64Value_bigEndian fits]
    rw [if_neg (by omega)]
    rw [word] at signed
    by_cases fitsSigned : i.natAbs < 2 ^ 63
    · rw [if_pos fitsSigned] at signed
      have greater : 0 < (UInt64.ofNat i.natAbs).toInt64 := by
        rw [Int64.lt_iff_toInt_lt, signed, Int64.toInt_zero]
        omega
      have same : (UInt64.ofNat i.natAbs).toInt64 = Int64.ofInt i :=
        eq_ofInt (by omega) (by omega) (signed.trans (by omega))
      rw [if_pos greater, integerElement, if_pos (by omega), same]
    · rw [if_neg fitsSigned] at signed
      have notGreater : ¬ 0 < (UInt64.ofNat i.natAbs).toInt64 := by
        rw [Int64.lt_iff_toInt_lt, signed, Int64.toInt_zero]
        omega
      have magnitude : i.toNat = i.natAbs := by omega
      rw [if_neg notGreater, integerElement, if_neg (by omega), if_pos (by omega), magnitude,
        UInt64.toUInt64_toInt64]

private theorem decodeInt_negative (negative : i < 0) (fitsSigned : -2 ^ 63 ≤ i) :
    decodeInt (integerWire i ++ rest) = .ok (integerElement i, byteLength i.natAbs + 1) := by
  have fits := lt_pow_byteLength i.natAbs
  have short : byteLength i.natAbs ≤ 8 := byteLength_le_iff.mpr (by omega)
  have positive := byteLength_ne_zero negative.ne
  have code := toNat_negCode (byteLength i.natAbs)
  have below : UInt8.ofNat (0x14 - byteLength i.natAbs) < intZeroCode := by
    rw [UInt8.lt_iff_toNat_lt, code]
    simp only [intZeroCode, UInt8.reduceToNat]
    omega
  have nonzero : UInt8.ofNat (0x14 - byteLength i.natAbs) ≠ intZeroCode := UInt8.ne_of_lt below
  have width : 0x14 - (0x14 - byteLength i.natAbs) = byteLength i.natAbs := by omega
  have narrow : 256 ^ byteLength i.natAbs ≤ 2 ^ 64 :=
    Nat.pow_le_pow_right (n := 256) (by decide) short
  have offset := integerOffset_lt i
  simp only [integerOffset, not_le.mpr negative, if_false] at offset
  have word : (UInt64.ofNat (256 ^ byteLength i.natAbs - 1 - i.natAbs)).toNat =
      256 ^ byteLength i.natAbs - 1 - i.natAbs :=
    UInt64.toNat_ofNat_of_lt' (by rw [UInt64.size]; omega)
  have value : ((UInt64.ofNat (256 ^ byteLength i.natAbs - 1 - i.natAbs)).toInt64 -
      (sizeLimits.getD (byteLength i.natAbs) 0).toInt64).toInt = i := by
    rw [← UInt64.toInt64_sub, toInt_toInt64, UInt64.toNat_sub, word, sizeLimits_toNat short,
      if_neg (by omega)]
    omega
  simp only [decodeInt, integerWire, integerHeader, integerOffset, not_le.mpr negative, if_true,
    short, List.cons_append, List.nil_append, List.headD_cons, nonzero, if_false, below, code,
    width, List.length_cons, List.length_append, length_bigEndian, List.drop_succ_cons,
    List.drop_zero, List.take_left', int64Value_bigEndian offset]
  rw [if_neg (by omega), integerElement, if_pos (by omega), eq_ofInt (by omega) (by omega) value]

private theorem bigInt_value (i : Int) :
    (if i < 0 then (integerOffset i : Int) - ((1 <<< (byteLength i.natAbs * 8) : Nat) - 1 : Int)
      else integerOffset i) = i := by
  have fits := lt_pow_byteLength i.natAbs
  unfold integerOffset
  rw [one_shiftLeft_bytes]
  split
  · rw [if_neg (by omega)]
    omega
  · rw [if_pos (by omega)]
    omega

/-- An integer that `decodeBigInt` reads: a frame of the right width, and the
sign in the code. -/
theorem decodeBigInt_eq {header : Bytes} {offset : Nat}
    (frame : bigIntFrame (header ++ (bigEndian (byteLength i.natAbs) (integerOffset i) ++ rest)) =
      .ok (byteLength i.natAbs, offset)) (skips : header.length = offset)
    (sign : (header ++ (bigEndian (byteLength i.natAbs) (integerOffset i) ++ rest)).headD 0 <
      intZeroCode ↔ i < 0) (wide : i < -2 ^ 63 + 1 ∨ 2 ^ 64 ≤ i) :
    decodeBigInt (header ++ (bigEndian (byteLength i.natAbs) (integerOffset i) ++ rest)) =
      .ok (integerElement i, byteLength i.natAbs + offset) := by
  have value := bigInt_value i
  subst skips
  simp only [decodeBigInt, frame, bind, Except.bind, List.length_append, length_bigEndian,
    List.drop_left', List.take_left', bigEndianValue_bigEndian (integerOffset_lt i), sign, value]
  rw [if_neg (by omega)]
  by_cases least : i = -2 ^ 63
  · rw [if_pos least, integerElement, if_pos (by omega)]
  · rw [if_neg least, integerElement, if_neg (by omega), if_neg (by omega)]

/-! ## One round -/

section Round

variable (decodeNested : Bytes → Except DecodeError (List Element × Nat)) (nested : Bool) {el : Element} {off : Nat}

/-- No code below the integers' is that of the payload. -/
theorem ne_of_code {code other : UInt8} (low : negIntStart ≤ code) (small : ¬ negIntStart ≤ other) : code ≠ other :=
  fun same => small (same ▸ low)

theorem decodeRound_int {i : Nat} (code : negIntStart + 1 < b.headD 0 ∧ b.headD 0 < posIntEnd ∨
      negIntStart + 1 = b.headD 0 ∧ 1 < b.length ∧ b.getD 1 0 &&& 0x80 ≠ 0) (decoded : decodeInt b = .ok (el, off)) :
    decodeRound decodeNested nested b i = .ok (.element el off) := by
  have low : negIntStart < b.headD 0 := by
    cases code with
    | inl within => exact lt_trans (by decide) within.1
    | inr edge => rw [← edge.1]; decide
  rw [decodeRound, if_neg (ne_of_code low.le (by decide)), if_neg (ne_of_code low.le (by decide)),
    if_neg (ne_of_code low.le (by decide))]
  cases code with
  | inl within => rw [if_pos within, decoded]
  | inr edge =>
    have notWithin : ¬ (negIntStart + 1 < b.headD 0 ∧ b.headD 0 < posIntEnd) := fun within =>
      absurd within.1 (by rw [← edge.1]; decide)
    rw [if_neg notWithin, if_pos edge, decoded]

theorem decodeRound_bigInt {i : Nat} (code : b.headD 0 = negIntStart ∨ b.headD 0 = posIntEnd ∨
      negIntStart + 1 = b.headD 0 ∧ b.getD 1 0 &&& 0x80 = 0) (decoded : decodeBigInt b = .ok (el, off)) :
    decodeRound decodeNested nested b i = .ok (.element el off) := by
  have others : negIntStart ≤ b.headD 0 ∧ b.headD 0 ≤ posIntEnd ∧
      ¬ (negIntStart + 1 < b.headD 0 ∧ b.headD 0 < posIntEnd) := by
    rcases code with code | code | ⟨code, -⟩
    · rw [code]; decide
    · rw [code]; decide
    · rw [← code]; decide
  have notEdge : ¬ (negIntStart + 1 = b.headD 0 ∧ 1 < b.length ∧ b.getD 1 0 &&& 0x80 ≠ 0) := by
    rcases code with code | code | code
    · rw [code]; exact fun edge => absurd edge.1 (by decide)
    · rw [code]; exact fun edge => absurd edge.1 (by decide)
    · exact fun edge => edge.2.2 code.2
  rw [decodeRound, if_neg (ne_of_code others.1 (by decide)), if_neg (ne_of_code others.1 (by decide)),
    if_neg (ne_of_code others.1 (by decide)), if_neg others.2.2, if_neg notEdge, if_pos ⟨others.1, others.2.1⟩, decoded]

theorem signBit_iff (byte : UInt8) : byte &&& 0x80 = 0 ↔ byte.toNat < 128 := by
  revert byte
  exact forall_byte (by decide +kernel)

theorem signBit_bigEndian (fits : value < 2 ^ 64) (code : UInt8) (rest : Bytes) :
    (code :: (bigEndian 8 value ++ rest)).getD 1 0 &&& 0x80 = 0 ↔ value < 2 ^ 63 := by
  have byte : (UInt8.ofNat (value / 256 ^ 7)).toNat = value / 256 ^ 7 :=
    UInt8.toNat_ofNat_of_lt' (by rw [UInt8.size]; omega)
  rw [bigEndian_succ, List.cons_append, List.getD_cons_succ, List.getD_cons_zero, signBit_iff, byte]
  omega

/-- A round reads the wire form of the element in front of the rest. -/
def RoundReads (wire : Bytes) (el : Element) (rest : Bytes) : Prop :=
  ∀ position, decodeRound decodeNested nested (wire ++ rest) position = .ok (.element el wire.length)

theorem length_integerWire_short (short : byteLength i.natAbs ≤ 8) : (integerWire i).length = byteLength i.natAbs + 1 := by
  rw [integerWire, List.length_append, length_bigEndian, Nat.add_comm]
  simp only [integerHeader, short, if_true]
  split <;> rfl

private theorem decodeRound_nonneg (nonneg : 0 ≤ i) (short : byteLength i.natAbs ≤ 8) (rest : Bytes) :
    RoundReads decodeNested nested (integerWire i) (integerElement i) rest := by
  intro position
  have code := toNat_posCode short
  rw [length_integerWire_short short]
  apply decodeRound_int _ _ _ (decodeInt_nonneg nonneg short)
  left
  simp only [integerWire, integerHeader, nonneg, short, if_true, List.cons_append,
    List.headD_cons, UInt8.lt_iff_toNat_lt, code]
  change 0x0c < 0x14 + byteLength i.natAbs ∧ 0x14 + byteLength i.natAbs < 0x1d
  omega

theorem integerOffset_eight (negative : i < 0) (eight : byteLength i.natAbs = 8) :
    integerOffset i = 2 ^ 64 - 1 - i.natAbs := by
  rw [integerOffset, if_neg (by omega), eight, show 256 ^ 8 = 2 ^ 64 from rfl]

private theorem decodeRound_negative (negative : i < 0) (fitsSigned : -2 ^ 63 < i) (rest : Bytes) :
    RoundReads decodeNested nested (integerWire i) (integerElement i) rest := by
  intro position
  have short : byteLength i.natAbs ≤ 8 := byteLength_le_iff.mpr (by omega)
  have code := toNat_negCode (byteLength i.natAbs)
  rw [length_integerWire_short short]
  apply decodeRound_int _ _ _ (decodeInt_negative negative fitsSigned.le)
  simp only [integerWire, integerHeader, not_le.mpr negative, short, if_true, if_false,
    List.cons_append, List.nil_append, List.headD_cons]
  by_cases eight : byteLength i.natAbs = 8
  · right
    have offset := integerOffset_eight negative eight
    have word : integerOffset i < 2 ^ 64 := by omega
    rw [eight]
    refine ⟨rfl, by simp, fun clear => ?_⟩
    have low := (signBit_bigEndian word (UInt8.ofNat 0x0c) rest).mp clear
    omega
  · left
    rw [UInt8.lt_iff_toNat_lt, UInt8.lt_iff_toNat_lt, code]
    change 0x0c < 0x14 - byteLength i.natAbs ∧ 0x14 - byteLength i.natAbs < 0x1d
    omega

/-- A negative integer of eight bytes that does not fit `int64`, and the least
one that does. -/
theorem decodeRound_eightBytes (eight : byteLength i.natAbs = 8) (low : i ≤ -2 ^ 63) (rest : Bytes) :
    RoundReads decodeNested nested (integerWire i) (integerElement i) rest := by
  intro position
  have fits := lt_pow_byteLength i.natAbs
  have offset := integerOffset_eight (by omega) eight
  have wire : integerWire i ++ rest =
      [negIntStart + 1] ++ (bigEndian (byteLength i.natAbs) (integerOffset i) ++ rest) := by
    simp only [integerWire, integerHeader, not_le.mpr (show i < 0 by omega), if_false, eight,
      le_refl, if_true, List.append_assoc]
    rfl
  rw [length_integerWire_short eight.le, wire]
  apply decodeRound_bigInt
  · right; right
    refine ⟨rfl, ?_⟩
    rw [eight]
    exact (signBit_bigEndian (by omega) _ rest).mpr (by omega)
  · apply decodeBigInt_eq _ rfl
    · exact ⟨fun _ => by omega, fun _ => show negIntStart + 1 < intZeroCode by decide⟩
    · left; omega
    · rw [bigIntFrame, eight]
      rfl

private theorem decodeRound_long (long : 8 < byteLength i.natAbs) (small : byteLength i.natAbs ≤ 255) (rest : Bytes) :
    RoundReads decodeNested nested (integerWire i) (integerElement i) rest := by
  intro position
  have wide : ¬ i.natAbs < 2 ^ 64 := fun short =>
    absurd long (not_lt.mpr (byteLength_le_iff.mpr short))
  have length : (integerWire i).length = byteLength i.natAbs + 2 := by
    simp only [integerWire, integerHeader, not_le.mpr long, if_false]
    split <;> simp
  rw [length, integerWire, List.append_assoc]
  by_cases nonneg : 0 ≤ i
  · have header : integerHeader i = [posIntEnd, UInt8.ofNat (byteLength i.natAbs)] := by
      simp [integerHeader, nonneg, not_le.mpr long]
    have width : (UInt8.ofNat (byteLength i.natAbs)).toNat = byteLength i.natAbs :=
      UInt8.toNat_ofNat_of_lt' (by rw [UInt8.size]; omega)
    rw [header]
    apply decodeRound_bigInt
    · exact Or.inr (Or.inl rfl)
    · apply decodeBigInt_eq _ rfl
      · exact ⟨fun below => absurd below (show ¬ posIntEnd < intZeroCode by decide),
          fun negative => absurd nonneg (not_le.mpr negative)⟩
      · right; omega
      · simp [bigIntFrame, negIntStart, posIntEnd, width]
  · have header : integerHeader i = [negIntStart, UInt8.ofNat (255 - byteLength i.natAbs)] := by
      simp [integerHeader, nonneg, not_le.mpr long]
    have width : (UInt8.ofNat (255 - byteLength i.natAbs) ^^^ 0xff).toNat = byteLength i.natAbs := by
      generalize byteLength i.natAbs = n at small
      revert n
      decide +kernel
    rw [header]
    apply decodeRound_bigInt
    · exact Or.inl rfl
    · apply decodeBigInt_eq _ rfl
      · exact ⟨fun _ => by omega, fun _ => show negIntStart < intZeroCode by decide⟩
      · left; omega
      · simp [bigIntFrame, negIntStart, posIntEnd, width]

private theorem decodeRound_integer (small : byteLength i.natAbs ≤ 255) (rest : Bytes) :
    RoundReads decodeNested nested (integerWire i) (integerElement i) rest := by
  by_cases short : byteLength i.natAbs ≤ 8
  · by_cases nonneg : 0 ≤ i
    · exact decodeRound_nonneg _ _ nonneg short rest
    · by_cases fitsSigned : -2 ^ 63 < i
      · exact decodeRound_negative _ _ (by omega) fitsSigned rest
      · have eight : byteLength i.natAbs = 8 := by
          have wide : ¬ byteLength i.natAbs ≤ 7 := fun seven => by
            have magnitude := byteLength_le_iff.mp seven
            omega
          omega
        exact decodeRound_eightBytes _ _ eight (by omega) rest
  · exact decodeRound_long _ _ (by omega) small rest

end Round

/-! ## Whole tuples -/

mutual

def Value.element : Value → Element
  | .null => .null
  | .bytes value => .bytes value
  | .string value => .string value
  | .nested values => .tuple (elements values)
  | .integer value => integerElement value
  | .float32 bits => .float32 bits
  | .float64 bits => .float64 bits
  | .bool value => .bool value
  | .uuid value => .uuid value
  | .versionstamp value => .versionstamp value

def elements : List Value → List Element
  | [] => []
  | value :: values => value.element :: elements values

end

mutual

theorem element_value (value : Value) : value.element.value = value := by
  cases value with
  | nested vs => rw [element, Element.value, values_elements vs]
  | integer i => exact integerElement_value i
  | _ => rfl

theorem values_elements (vs : List Value) : values (elements vs) = vs := by
  cases vs with
  | nil => rfl
  | cons value vs => rw [elements, values, element_value value, values_elements vs]

end

theorem tail_cons {byte : UInt8} (low : byte < 0xFF) : Tail (byte :: rest) := by
  intro same
  rw [List.head?_cons, Option.some.injEq] at same
  exact absurd low (by rw [same]; decide)

theorem integerHeader_head (i : Int) : ∃ code rest, integerHeader i = code :: rest ∧
    negIntStart ≤ code ∧ code ≤ posIntEnd := by
  simp only [integerHeader]
  generalize byteLength i.natAbs = n
  have codes : n ≤ 8 → (negIntStart ≤ UInt8.ofNat (0x14 + n) ∧ UInt8.ofNat (0x14 + n) ≤ posIntEnd) ∧
      negIntStart ≤ UInt8.ofNat (0x14 - n) ∧ UInt8.ofNat (0x14 - n) ≤ posIntEnd := by
    revert n
    decide +kernel
  split_ifs with nonneg short short
  · exact ⟨_, [], rfl, (codes short).1⟩
  · exact ⟨_, _, rfl, by decide⟩
  · exact ⟨_, [], rfl, (codes short).2⟩
  · exact ⟨_, _, rfl, by decide⟩

/-- A written value starts with a code below 0xFF. -/
theorem wire_head (nested : Bool) (value : Value) : ∃ code rest, value.wire nested = code :: rest ∧ code < 0xFF := by
  cases value with
  | null => cases nested <;> exact ⟨_, _, rfl, by decide⟩
  | integer i =>
    obtain ⟨code, rest, header, _, high⟩ := integerHeader_head i
    refine ⟨code, rest ++ bigEndian (byteLength i.natAbs) (integerOffset i), ?_,
      lt_of_le_of_lt high (by decide)⟩
    rw [wire, integerWire, header, List.cons_append]
  | bool b => cases b <;> exact ⟨_, _, rfl, by decide⟩
  | _ => exact ⟨_, _, rfl, by decide⟩

theorem tail_wires (nested : Bool) (tail : Tail rest) (vs : List Value) : Tail (wires nested vs ++ rest) := by
  cases vs with
  | nil => exact tail
  | cons value vs =>
    obtain ⟨code, more, wire, low⟩ := wire_head nested value
    rw [wires, wire]
    exact tail_cons low

section FixedWidth

variable (decodeNested : Bytes → Except DecodeError (List Element × Nat)) (nested : Bool)

private theorem decodeRound_float (bits : UInt32) (rest : Bytes) :
    RoundReads decodeNested nested (wire nested (.float32 bits)) (.float32 bits) rest := by
  intro position
  have room : ¬ 4 + rest.length + 1 < 5 := by omega
  simp [decodeRound, wire, nilCode, bytesCode, stringCode, negIntStart, posIntEnd, floatCode,
    decodeFloat, length_adjustFloatBytes, adjustFloatBytes_adjustFloatBytes,
    bigEndianValue_bigEndian (show bits.toNat < 256 ^ 4 from bits.toNat_lt), room]

private theorem decodeRound_double (bits : UInt64) (rest : Bytes) :
    RoundReads decodeNested nested (wire nested (.float64 bits)) (.float64 bits) rest := by
  intro position
  have room : ¬ 8 + rest.length + 1 < 9 := by omega
  simp [decodeRound, wire, nilCode, bytesCode, stringCode, negIntStart, posIntEnd, floatCode,
    doubleCode, decodeDouble, length_adjustFloatBytes, adjustFloatBytes_adjustFloatBytes,
    bigEndianValue_bigEndian (show bits.toNat < 256 ^ 8 from bits.toNat_lt), room]

private theorem decodeRound_uuid (u : Vector UInt8 16) (rest : Bytes) :
    RoundReads decodeNested nested (wire nested (.uuid u)) (.uuid u) rest := by
  intro position
  simp [decodeRound, wire, nilCode, bytesCode, stringCode, negIntStart, posIntEnd, floatCode,
    doubleCode, trueCode, falseCode, uuidCode, decodeUUID, copyArray_toList]

private theorem decodeVersionstamp_wire (v : Versionstamp) (rest : Bytes) :
    decodeVersionstamp (versionstampCode :: (v.wireBytes ++ rest)) = (v, 13) := by
  have user : (v.transactionVersion.toList ++ (bigEndian 2 v.userVersion.toNat ++ rest)).drop 10 =
      bigEndian 2 v.userVersion.toNat ++ rest := List.drop_left' (by simp)
  have payload : (bigEndian 2 v.userVersion.toNat ++ rest).take 2 = bigEndian 2 v.userVersion.toNat :=
    List.take_left' (by simp)
  rw [decodeVersionstamp, Versionstamp.wireBytes, List.append_assoc, List.drop_succ_cons, List.drop_succ_cons,
    List.drop_zero, copyArray_toList, user, payload, bigEndianValue_bigEndian v.userVersion.toNat_lt]
  simp [versionstampLength]

private theorem decodeRound_versionstamp (v : Versionstamp) (rest : Bytes) :
    RoundReads decodeNested nested (wire nested (.versionstamp v)) (.versionstamp v) rest := by
  intro position
  have long : v.wireBytes.length = 12 := by simp [Versionstamp.wireBytes]
  have room : ¬ versionstampLength + 1 > (versionstampCode :: (v.wireBytes ++ rest)).length := by
    simp [versionstampLength, long]
  rw [wire, List.cons_append]
  simp only [decodeRound, List.headD_cons, decodeVersionstamp_wire, room]
  simp [versionstampCode, nilCode, bytesCode, stringCode, negIntStart, posIntEnd, floatCode,
    doubleCode, trueCode, falseCode, uuidCode, long]

end FixedWidth

private theorem decodeRound_flat (decodeNested : Bytes → Except DecodeError (List Element × Nat))
    (nested : Bool) {value : Value} (packable : value.packable = true)
    (flat : ∀ vs, value ≠ .nested vs) (tail : Tail rest) :
    RoundReads decodeNested nested (value.wire nested) value.element rest := by
  cases value with
  | null => cases nested <;> exact fun _ => rfl
  | bytes b =>
    simp [RoundReads, decodeRound, wire, nilCode, bytesCode, decodeBytes_escape tail, element]
  | string b =>
    simp [RoundReads, decodeRound, wire, nilCode, bytesCode, stringCode, decodeBytes_escape tail,
      element]
  | nested vs => exact absurd rfl (flat vs)
  | integer i => exact decodeRound_integer _ _ (of_decide_eq_true packable) rest
  | float32 bits => exact decodeRound_float decodeNested nested bits rest
  | float64 bits => exact decodeRound_double decodeNested nested bits rest
  | bool b => cases b <;> exact fun _ => rfl
  | uuid u => exact decodeRound_uuid decodeNested nested u rest
  | versionstamp v => exact decodeRound_versionstamp decodeNested nested v rest

private theorem decodeLoop_terminator (tail : Tail rest) (rounds position : Nat)
    (enough : (0 :: rest : Bytes).length < rounds) :
    decodeLoop rounds true (0 :: rest) position = .ok ([], position + 1) := by
  cases rounds with
  | zero => exact absurd enough (Nat.not_lt_zero _)
  | succ rounds =>
    cases rest with
    | nil => rfl
    | cons byte rest =>
      have next : byte ≠ 0xFF := fun same => tail (by rw [same]; rfl)
      simp [decodeLoop, decodeRound, nilCode, next]

mutual

theorem decodeRound_wire (value : Value) (packable : value.packable = true) (nested : Bool) {rounds : Nat}
    {rest : Bytes} (tail : Tail rest) (enough : (value.wire nested).length + rest.length ≤ rounds) :
    RoundReads (fun b => decodeLoop rounds true b 0) nested (value.wire nested) value.element rest := by
  cases value with
  | nested vs =>
    intro position
    have shorter : (wires true vs).length + (0 :: rest : Bytes).length < rounds := by
      simp only [wire, List.length_cons, List.length_append] at enough ⊢
      simp at enough
      omega
    have inner := decodeLoop_wires vs packable true (tail_cons (by decide))
      (decodeLoop_terminator tail) shorter 0
    have whole : wire nested (.nested vs) ++ rest =
        nestedCode :: (wires true vs ++ 0 :: rest) := by
      simp [wire]
    rw [whole]
    simp [decodeRound, nilCode, bytesCode, stringCode, nestedCode, negIntStart, posIntEnd,
      floatCode, doubleCode, trueCode, falseCode, uuidCode, versionstampCode, inner,
      element, wire]
  | _ => exact decodeRound_flat _ nested packable (fun vs same => nomatch same) tail

theorem decodeLoop_wires (vs : List Value) (packable : packables vs = true) (nested : Bool) {rounds consumed : Nat}
    {rest : Bytes} (tail : Tail rest) (ends : ∀ rounds position, rest.length < rounds →
      decodeLoop rounds nested rest position = .ok ([], position + consumed))
    (enough : (wires nested vs).length + rest.length < rounds) (position : Nat) :
    decodeLoop rounds nested (wires nested vs ++ rest) position =
      .ok (elements vs, position + (wires nested vs).length + consumed) := by
  cases vs with
  | nil =>
    rw [wires, List.nil_append, ends rounds position (by simpa [wires] using enough)]
    rfl
  | cons value vs =>
    cases rounds with
    | zero => exact absurd enough (Nat.not_lt_zero _)
    | succ rounds =>
      simp only [packables, Bool.and_eq_true] at packable
      simp only [wires, List.length_append] at enough ⊢
      obtain ⟨code, more, wire, _⟩ := wire_head nested value
      have positive : 0 < (value.wire nested).length := by rw [wire]; simp
      have room : (value.wire nested).length + (wires nested vs ++ rest).length ≤ rounds := by
        rw [List.length_append]
        omega
      have roomLeft : (wires nested vs).length + rest.length < rounds := by omega
      have first := decodeRound_wire value packable.1 nested (tail_wires nested tail vs) room
        position
      have others := decodeLoop_wires vs packable.2 nested tail ends roomLeft
        (position + (value.wire nested).length)
      have nonempty : ¬ (value.wire nested ++ wires nested vs ++ rest = []) := by
        rw [wire]; simp
      rw [List.append_assoc] at nonempty ⊢
      rw [decodeLoop, if_neg nonempty, first]
      simp only [List.drop_left', others, elements]
      simp only [Nat.add_assoc]

end

/-- What was packed is unpacked. -/
theorem unpack_wires {vs : List Value} (packable : packables vs = true) :
    unpack (wires false vs) = .ok (elements vs) := by
  have ends (rounds position : Nat) (more : ([] : Bytes).length < rounds) :
      decodeLoop rounds false [] position = .ok ([], position + 0) := by
    cases rounds with
    | zero => exact absurd more (Nat.not_lt_zero _)
    | succ rounds => rfl
  have tail : Tail [] := by simp [Tail]
  have loop := decodeLoop_wires vs packable false tail ends
    (Nat.lt_succ_self ((wires false vs).length + ([] : Bytes).length)) 0
  simp only [List.append_nil, List.length_nil, Nat.add_zero] at loop
  rw [unpack, decodeTuple, loop]

end FdbGo.Tuple
