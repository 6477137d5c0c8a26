import Mathlib.Order.CountableDenseLinearOrder
import FdbGo.Client.KeyProperties
import FdbGo.Foundation.Bits
import FdbGo.Tuple.UnpackProperties

/-! Wire forms compare as the values do, whatever follows them. -/

set_option autoImplicit false

namespace FdbGo.Tuple

open Client (Bytes cmp_cons cmp_append cons_lt_cons)
open Foundation

theorem cmp_append_left (first second third : Bytes) : cmp (first ++ second) (first ++ third) = cmp second third := by
  rw [cmp_append rfl, cmp_self_eq_eq]
  rfl

theorem cmp_toNat (byte other : UInt8) : cmp byte other = cmp byte.toNat other.toNat := by
  simp only [cmp, cmpUsing, UInt8.lt_iff_toNat_lt]

theorem cmp_bigEndianValue {bytes others : Bytes} (lengths : bytes.length = others.length) :
    cmp bytes others = cmp (bigEndianValue bytes) (bigEndianValue others) := by
  induction bytes generalizing others with
  | nil =>
    cases others with
    | nil => rfl
    | cons => simp at lengths
  | cons byte bytes ih =>
    cases others with
    | nil => simp at lengths
    | cons other others =>
      have same : bytes.length = others.length := by simpa using lengths
      have small := bigEndianValue_lt bytes
      rw [same] at small
      rw [cmp_cons, ih same, bigEndianValue_cons, bigEndianValue_cons, same,
        cmp_digit small (bigEndianValue_lt others), cmp_toNat]

theorem cmp_bigEndian {width value other : Nat} (fits : value < 256 ^ width) (otherFits : other < 256 ^ width) :
    cmp (bigEndian width value) (bigEndian width other) = cmp value other := by
  rw [cmp_bigEndianValue (by simp), bigEndianValue_bigEndian fits, bigEndianValue_bigEndian otherFits]

/-! ## Payloads -/

variable {s : Bytes} {i j : Int}

theorem Tail.lt (tail : Tail s) (rest : Bytes) : s < 0xFF :: rest := by
  cases s with
  | nil => exact FdbGo.Client.nil_lt_cons _ _
  | cons byte s =>
    have below : byte.toNat < 256 := byte.toNat_lt
    have other : byte ≠ 0xFF := fun same => tail (by rw [same]; rfl)
    have different : byte.toNat ≠ 255 := fun same => other (UInt8.toNat_inj.mp same)
    refine cons_lt_cons.mpr (Or.inl (UInt8.lt_iff_toNat_lt.mpr ?_))
    change byte.toNat < 255
    omega

private theorem terminator_lt (tail : Tail s) (byte : UInt8) (b rest : Bytes) : 0 :: s < escape (byte :: b) ++ rest := by
  unfold escape
  by_cases zero : byte = 0
  · rw [if_pos zero]
    exact cons_lt_cons.mpr (Or.inr ⟨rfl, tail.lt _⟩)
  · rw [if_neg zero]
    exact cons_lt_cons.mpr (Or.inl (UInt8.pos_iff_ne_zero.mpr zero))

private theorem cmp_escape {t : Bytes} (tail : Tail s) (otherTail : Tail t) (b others : Bytes) :
    cmp (escape b ++ 0 :: s) (escape others ++ 0 :: t) = (cmp b others).then (cmp s t) := by
  induction b generalizing others with
  | nil =>
    cases others with
    | nil => rw [escape, List.nil_append, List.nil_append, cmp_cons, cmp_self_eq_eq, cmp_self_eq_eq]
    | cons other others =>
      rw [(FdbGo.Client.nil_lt_cons other others).cmp_eq_lt]
      exact (terminator_lt tail other others _).cmp_eq_lt
  | cons byte b ih =>
    cases others with
    | nil =>
      rw [(FdbGo.Client.nil_lt_cons byte b).cmp_eq_gt]
      exact (terminator_lt otherTail byte b _).cmp_eq_gt
    | cons other others =>
      by_cases zero : byte = 0 <;> by_cases otherZero : other = 0
      · subst zero otherZero
        simp only [escape, if_true, List.cons_append, cmp_cons, cmp_self_eq_eq, ih, Ordering.then]
      · have less : byte < other := by rw [zero]; exact UInt8.pos_iff_ne_zero.mpr otherZero
        simp only [escape, zero, otherZero, if_true, if_false, List.cons_append, cmp_cons]
        rw [zero] at less
        simp only [less.cmp_eq_lt, Ordering.then]
      · have more : other < byte := by rw [otherZero]; exact UInt8.pos_iff_ne_zero.mpr zero
        simp only [escape, zero, otherZero, if_true, if_false, List.cons_append, cmp_cons]
        rw [otherZero] at more
        simp only [more.cmp_eq_gt, Ordering.then]
      · simp only [escape, zero, otherZero, if_false, List.cons_append, cmp_cons, ih,
          Ordering.then_assoc]

/-! ## Integers -/

def integerRank (i : Int) : Int := if 0 ≤ i then byteLength i.natAbs else -byteLength i.natAbs

def rankHeader (rank : Int) : Bytes :=
  if 8 < rank then [posIntEnd, UInt8.ofNat rank.toNat]
  else if rank < -8 then [negIntStart, UInt8.ofNat (255 + rank).toNat]
  else [UInt8.ofNat (0x14 + rank).toNat]

private theorem integerRank_bounds (small : byteLength i.natAbs ≤ 255) : -255 ≤ integerRank i ∧ integerRank i ≤ 255 := by
  unfold integerRank
  split <;> omega

theorem integerHeader_eq_rankHeader (i : Int) : integerHeader i = rankHeader (integerRank i) := by
  unfold integerHeader rankHeader integerRank
  by_cases nonneg : 0 ≤ i
  · simp only [nonneg, if_true]
    by_cases short : byteLength i.natAbs ≤ 8
    · rw [if_pos short, if_neg (by omega), if_neg (by omega)]
      rfl
    · rw [if_neg short, if_pos (by omega)]
      rfl
  · simp only [nonneg, if_false]
    by_cases short : byteLength i.natAbs ≤ 8
    · rw [if_pos short, if_neg (by omega), if_neg (by omega)]
      congr 2
      omega
    · rw [if_neg short, if_neg (by omega), if_pos (by omega)]
      congr 3
      omega

theorem toNat_ofNat {n : Nat} (small : n < 256) : (UInt8.ofNat n).toNat = n :=
  UInt8.toNat_ofNat_of_lt' small

private theorem rankHeader_lt {r q : Int} (low : -255 ≤ r) (high : q ≤ 255) (less : r < q) (s t : Bytes) :
    rankHeader r ++ s < rankHeader q ++ t := by
  have first {a b : UInt8} {u v : Bytes} (below : a.toNat < b.toNat) : a :: u < b :: v :=
    cons_lt_cons.mpr (Or.inl (UInt8.lt_iff_toNat_lt.mpr below))
  have second {a b c : UInt8} {u v : Bytes} (below : a.toNat < b.toNat) : c :: a :: u < c :: b :: v :=
    cons_lt_cons.mpr (Or.inr ⟨rfl, first below⟩)
  unfold rankHeader
  -- each rank is past eight bytes, below minus eight or between
  split_ifs
  · apply second
    rw [toNat_ofNat (by omega), toNat_ofNat (by omega)]
    omega
  · omega
  · omega
  · exact first (by decide)
  · apply second
    rw [toNat_ofNat (by omega), toNat_ofNat (by omega)]
    omega
  · apply first
    rw [toNat_ofNat (by omega)]
    change 0x0b < _
    omega
  · apply first
    rw [toNat_ofNat (by omega)]
    change _ < 0x1d
    omega
  · omega
  · apply first
    rw [toNat_ofNat (by omega), toNat_ofNat (by omega)]
    omega

private theorem integerHeader_lt (small : byteLength i.natAbs ≤ 255) (otherSmall : byteLength j.natAbs ≤ 255)
    (ranks : integerRank i < integerRank j) (s t : Bytes) : integerHeader i ++ s < integerHeader j ++ t := by
  rw [integerHeader_eq_rankHeader, integerHeader_eq_rankHeader]
  exact rankHeader_lt (integerRank_bounds small).1 (integerRank_bounds otherSmall).2 ranks s t

private theorem integerRank_eq (ranks : integerRank i = integerRank j) :
    byteLength i.natAbs = byteLength j.natAbs ∧ (0 ≤ i ↔ 0 ≤ j) := by
  have zero : byteLength i.natAbs = 0 ↔ i.natAbs = 0 := byteLength_eq_zero_iff
  have otherZero : byteLength j.natAbs = 0 ↔ j.natAbs = 0 := byteLength_eq_zero_iff
  unfold integerRank at ranks
  split at ranks <;> split at ranks <;> omega

private theorem integerWire_lt (small : byteLength i.natAbs ≤ 255) (otherSmall : byteLength j.natAbs ≤ 255) (less : i < j)
    (s t : Bytes) : integerWire i ++ s < integerWire j ++ t := by
  have ranks : integerRank i ≤ integerRank j := by
    unfold integerRank
    split <;> split
    · exact Int.ofNat_le.mpr (byteLength_mono (by omega))
    · omega
    · omega
    · exact Int.neg_le_neg (Int.ofNat_le.mpr (byteLength_mono (by omega)))
  rw [integerWire, integerWire, List.append_assoc, List.append_assoc]
  rcases lt_or_eq_of_le ranks with lower | same
  · exact integerHeader_lt small otherSmall lower _ _
  · have widths := integerRank_eq same
    have offsets : integerOffset i < integerOffset j := by
      have fits := lt_pow_byteLength i.natAbs
      unfold integerOffset
      rw [← widths.1]
      split <;> split <;> omega
    have offset := integerOffset_lt i
    rw [widths.1] at offset
    have headers : integerHeader i = integerHeader j := by
      rw [integerHeader_eq_rankHeader, integerHeader_eq_rankHeader, same]
    rw [headers, widths.1, ← cmp_eq_lt_iff, cmp_append_left, cmp_append (by simp),
      cmp_bigEndian offset (integerOffset_lt j), offsets.cmp_eq_lt]
    rfl

private theorem cmp_integerWire (small : byteLength i.natAbs ≤ 255) (otherSmall : byteLength j.natAbs ≤ 255) (s t : Bytes) :
    cmp (integerWire i ++ s) (integerWire j ++ t) = (cmp i j).then (cmp s t) := by
  rcases lt_trichotomy i j with less | rfl | more
  · rw [less.cmp_eq_lt, (integerWire_lt small otherSmall less s t).cmp_eq_lt]
    rfl
  · rw [cmp_self_eq_eq, cmp_append_left]
    rfl
  · rw [more.cmp_eq_gt, (integerWire_lt otherSmall small more t s).cmp_eq_gt]
    rfl

/-! ## Floats -/

private theorem bigEndianValue_flip (bytes : Bytes) :
    bigEndianValue (bytes.map (· ^^^ 0xff)) = 256 ^ bytes.length - 1 - bigEndianValue bytes := by
  induction bytes with
  | nil => rfl
  | cons byte bytes ih =>
    have flip : (byte ^^^ 0xff).toNat = 255 - byte.toNat := by
      revert byte
      exact forall_byte (by decide +kernel)
    have small := bigEndianValue_lt bytes
    have room : byte.toNat * 256 ^ bytes.length ≤ 255 * 256 ^ bytes.length :=
      Nat.mul_le_mul_right _ (Nat.le_of_lt_succ byte.toNat_lt)
    rw [List.map_cons, bigEndianValue_cons, bigEndianValue_cons, ih, flip, List.length_map,
      List.length_cons, pow_succ, Nat.sub_mul]
    omega

private theorem bigEndianValue_adjustFloatBytes {width : Nat} {bits : BitVec (8 * (width + 1))} :
    bigEndianValue (adjustFloatBytes (bigEndian (width + 1) bits.toNat) true) =
      signAdjusted bits := by
  have power : 2 ^ (8 * (width + 1)) = 256 ^ (width + 1) := by
    rw [pow_mul, show (2 : Nat) ^ 8 = 256 from rfl]
  have halfPower : 2 ^ (8 * (width + 1) - 1) = 128 * 256 ^ width := by
    rw [show 8 * (width + 1) - 1 = 7 + 8 * width by omega, pow_add, pow_mul,
      show (2 : Nat) ^ 8 = 256 from rfl, show (2 : Nat) ^ 7 = 128 from rfl]
  have fits : bits.toNat < 256 ^ (width + 1) := power ▸ bits.isLt
  have value := bigEndianValue_bigEndian fits
  have small : bits.toNat / 256 ^ width < 256 :=
    Nat.div_lt_of_lt_mul (by rw [← pow_succ]; exact fits)
  have sign : UInt8.ofNat (bits.toNat / 256 ^ width) &&& 0x80 = 0 ↔
      bits.toNat < 128 * 256 ^ width := by
    rw [signBit_iff, toNat_ofNat small, Nat.div_lt_iff_lt_mul (Nat.pow_pos (by decide))]
  have msb : bits.msb = true ↔ ¬ bits.toNat < 128 * 256 ^ width := by
    rw [BitVec.msb_eq_decide, decide_eq_true_eq, halfPower, not_lt]
  unfold signAdjusted
  by_cases negative : bits.toNat < 128 * 256 ^ width
  · have low : bits.toNat / 256 ^ width < 128 := by
      rw [Nat.div_lt_iff_lt_mul (Nat.pow_pos (by decide))]
      exact negative
    have flipped : (UInt8.ofNat (bits.toNat / 256 ^ width) ^^^ 0x80).toNat =
        (UInt8.ofNat (bits.toNat / 256 ^ width)).toNat + 128 := by
      rw [toNat_ofNat small]
      generalize bits.toNat / 256 ^ width = n at low
      revert n
      decide +kernel
    have adjusted : adjustFloatBytes (bigEndian (width + 1) bits.toNat) true =
        (UInt8.ofNat (bits.toNat / 256 ^ width) ^^^ 0x80) :: bigEndian width bits.toNat := by
      simp [adjustFloatBytes, bigEndian_succ, sign.mpr negative]
    rw [bigEndian_succ, bigEndianValue_cons] at value
    rw [if_neg (fun set => msb.mp set negative), adjusted, bigEndianValue_cons, flipped, halfPower,
      Nat.add_mul]
    rw [length_bigEndian] at value ⊢
    omega
  · have adjusted : adjustFloatBytes (bigEndian (width + 1) bits.toNat) true =
        (bigEndian (width + 1) bits.toNat).map (· ^^^ 0xff) := by
      simp [adjustFloatBytes, bigEndian_succ, mt sign.mp negative]
    rw [if_pos (msb.mpr negative), adjusted, bigEndianValue_flip, value, length_bigEndian,
      BitVec.toNat_not, power]

private theorem cmp_adjustFloatBytes {width : Nat} (bits others : BitVec (8 * (width + 1))) (s t : Bytes) :
    cmp (adjustFloatBytes (bigEndian (width + 1) bits.toNat) true ++ s)
        (adjustFloatBytes (bigEndian (width + 1) others.toNat) true ++ t) =
      (cmp (signAdjusted bits) (signAdjusted others)).then (cmp s t) := by
  have lengths : (adjustFloatBytes (bigEndian (width + 1) bits.toNat) true).length =
      (adjustFloatBytes (bigEndian (width + 1) others.toNat) true).length := by
    rw [length_adjustFloatBytes, length_adjustFloatBytes, length_bigEndian, length_bigEndian]
  rw [cmp_append lengths, cmp_bigEndianValue lengths, bigEndianValue_adjustFloatBytes,
    bigEndianValue_adjustFloatBytes]

/-! ## Kinds -/

def kindCodes (kind : Nat) : UInt8 × UInt8 :=
  [(nilCode, nilCode), (bytesCode, bytesCode), (stringCode, stringCode), (nestedCode, nestedCode),
    (negIntStart, posIntEnd), (floatCode, floatCode), (doubleCode, doubleCode),
    (falseCode, falseCode), (trueCode, trueCode), (uuidCode, uuidCode),
    (versionstampCode, versionstampCode)].getD kind (0, 0)

theorem wire_code (nested : Bool) (value : Value) : ∃ code rest, value.wire nested = code :: rest ∧
    (kindCodes value.kind).1 ≤ code ∧ code ≤ (kindCodes value.kind).2 := by
  cases value with
  | null => cases nested <;> exact ⟨_, _, rfl, le_rfl, le_rfl⟩
  | integer i =>
    obtain ⟨code, rest, header, low, high⟩ := integerHeader_head i
    refine ⟨code, rest ++ bigEndian (byteLength i.natAbs) (integerOffset i), ?_, low, high⟩
    rw [Value.wire, integerWire, header, List.cons_append]
  | bool b => cases b <;> exact ⟨_, _, rfl, le_rfl, le_rfl⟩
  | _ => exact ⟨_, _, rfl, le_rfl, le_rfl⟩

theorem Value.kind_le (value : Value) : value.kind ≤ 10 := by
  cases value with
  | bool b => cases b <;> decide
  | _ => exact Nat.le_of_ble_eq_true rfl

theorem kindCodes_lt {kind other : Nat} (known : other ≤ 10) (less : kind < other) :
    (kindCodes kind).2 < (kindCodes other).1 := by
  have table : ∀ other ≤ 10, ∀ kind < other, (kindCodes kind).2 < (kindCodes other).1 := by
    decide +kernel
  exact table other known kind less

variable {value other : Value}

private theorem wire_lt_of_kind_lt (nested : Bool) (less : value.kind < other.kind) (s t : Bytes) :
    value.wire nested ++ s < other.wire nested ++ t := by
  obtain ⟨code, rest, wire, _, high⟩ := wire_code nested value
  obtain ⟨otherCode, otherRest, otherWire, low, _⟩ := wire_code nested other
  rw [wire, otherWire]
  exact cons_lt_cons.mpr (Or.inl
    (lt_of_le_of_lt high (lt_of_lt_of_le (kindCodes_lt other.kind_le less) low)))

private theorem cmp_wire_of_kind_ne (nested : Bool) (kinds : value.kind ≠ other.kind) (s t : Bytes) :
    cmp (value.wire nested ++ s) (other.wire nested ++ t) = cmp value.kind other.kind := by
  rcases lt_or_gt_of_ne kinds with less | more
  · rw [less.cmp_eq_lt, (wire_lt_of_kind_lt nested less s t).cmp_eq_lt]
  · rw [more.cmp_eq_gt, (wire_lt_of_kind_lt nested more t s).cmp_eq_gt]

private theorem compare_of_kind_ne (kinds : value.kind ≠ other.kind) : value.compare other = cmp value.kind other.kind := by
  cases value <;> cases other <;> first | rfl | exact absurd rfl kinds

private theorem then_of_kind_ne {first second : Nat} (kinds : first ≠ second) (order : Ordering) :
    (cmp first second).then order = cmp first second := by
  rcases lt_or_gt_of_ne kinds with less | more
  · rw [less.cmp_eq_lt]; rfl
  · rw [more.cmp_eq_gt]; rfl

/-! ## Tuples -/

private theorem terminator_lt_wire (tail : Tail s) (value : Value) (rest : Bytes) : 0 :: s < value.wire true ++ rest := by
  by_cases null : value.kind = 0
  · cases value with
    | null => exact cons_lt_cons.mpr (Or.inr ⟨rfl, tail.lt rest⟩)
    | bool b => cases b <;> cases null
    | _ => cases null
  · obtain ⟨code, more, wire, low, _⟩ := wire_code true value
    have positive := kindCodes_lt value.kind_le (Nat.pos_of_ne_zero null)
    rw [wire]
    exact cons_lt_cons.mpr (Or.inl (lt_of_lt_of_le positive low))

private theorem cmp_versionstamp (v w : Versionstamp) (s t : Bytes) :
    cmp (v.wireBytes ++ s) (w.wireBytes ++ t) =
      ((cmp v.transactionVersion.toList w.transactionVersion.toList).then
        (cmp v.userVersion.toNat w.userVersion.toNat)).then (cmp s t) := by
  have lengths : v.wireBytes.length = w.wireBytes.length := by simp [Versionstamp.wireBytes]
  rw [cmp_append lengths, Versionstamp.wireBytes, Versionstamp.wireBytes, cmp_append (by simp),
    cmp_bigEndian v.userVersion.toNat_lt w.userVersion.toNat_lt]

inductive SameKind : Value → Value → Prop
  | null : SameKind .null .null
  | bytes (b c : Bytes) : SameKind (.bytes b) (.bytes c)
  | string (b c : Bytes) : SameKind (.string b) (.string c)
  | nested (vs others : List Value) : SameKind (.nested vs) (.nested others)
  | integer (i j : Int) : SameKind (.integer i) (.integer j)
  | float32 (bits others : UInt32) : SameKind (.float32 bits) (.float32 others)
  | float64 (bits others : UInt64) : SameKind (.float64 bits) (.float64 others)
  | bool (b : Bool) : SameKind (.bool b) (.bool b)
  | uuid (u w : Vector UInt8 16) : SameKind (.uuid u) (.uuid w)
  | versionstamp (v w : Versionstamp) : SameKind (.versionstamp v) (.versionstamp w)

private theorem sameKind_of_eq (kinds : value.kind = other.kind) : SameKind value other := by
  rcases value with _ | _ | _ | _ | _ | _ | _ | (_ | _) | _ | _ <;>
    rcases other with _ | _ | _ | _ | _ | _ | _ | (_ | _) | _ | _ <;> first | constructor | cases kinds

mutual

/-- Before any tail, written values compare as the values do. -/
theorem cmp_wire (nested : Bool) (value other : Value) (packable : value.packable = true)
    (otherPackable : other.packable = true) {s t : Bytes} (tail : Tail s) (otherTail : Tail t) :
    cmp (value.wire nested ++ s) (other.wire nested ++ t) =
      (value.compare other).then (cmp s t) := by
  by_cases kinds : value.kind = other.kind
  · cases sameKind_of_eq kinds with
    | null | bool =>
      rw [cmp_append_left, Value.compare, cmp_self_eq_eq]
      · rfl
      all_goals simp
    | bytes b c | string b c =>
      simp only [Value.wire, List.cons_append, List.append_assoc, List.nil_append, cmp_cons, cmp_self_eq_eq]
      exact cmp_escape tail otherTail b c
    | nested vs others =>
      simp only [Value.wire, List.cons_append, List.append_assoc, List.nil_append, cmp_cons, cmp_self_eq_eq]
      exact cmp_wires vs others packable otherPackable tail otherTail
    | integer i j => exact cmp_integerWire (of_decide_eq_true packable) (of_decide_eq_true otherPackable) s t
    | float32 bits others =>
      simp only [Value.wire, List.cons_append, cmp_cons, cmp_self_eq_eq]
      exact @cmp_adjustFloatBytes 3 bits.toBitVec others.toBitVec s t
    | float64 bits others =>
      simp only [Value.wire, List.cons_append, cmp_cons, cmp_self_eq_eq]
      exact @cmp_adjustFloatBytes 7 bits.toBitVec others.toBitVec s t
    | uuid u w =>
      simp only [Value.wire, List.cons_append, cmp_cons, cmp_self_eq_eq]
      exact cmp_append (by simp)
    | versionstamp v w =>
      simp only [Value.wire, List.cons_append, cmp_cons, cmp_self_eq_eq]
      exact cmp_versionstamp v w s t
  · rw [compare_of_kind_ne kinds, then_of_kind_ne kinds, cmp_wire_of_kind_ne nested kinds]

theorem cmp_wires (vs others : List Value) (packable : packables vs = true)
    (otherPackable : packables others = true) {s t : Bytes} (tail : Tail s) (otherTail : Tail t) :
    cmp (wires true vs ++ 0 :: s) (wires true others ++ 0 :: t) =
      (compareValues vs others).then (cmp s t) := by
  cases vs with
  | nil =>
    cases others with
    | nil => rw [wires, List.nil_append, List.nil_append, cmp_cons, cmp_self_eq_eq]; rfl
    | cons other others =>
      rw [wires, wires, List.append_assoc, compareValues]
      exact (terminator_lt_wire tail other _).cmp_eq_lt
  | cons value vs =>
    cases others with
    | nil =>
      rw [wires, wires, List.append_assoc, compareValues]
      exact (terminator_lt_wire otherTail value _).cmp_eq_gt
    | cons other others =>
      simp only [packables, Bool.and_eq_true] at packable otherPackable
      rw [wires, wires, List.append_assoc, List.append_assoc, compareValues,
        cmp_wire true value other packable.1 otherPackable.1
          (tail_wires true (tail_cons (by decide)) vs)
          (tail_wires true (tail_cons (by decide)) others),
        cmp_wires vs others packable.2 otherPackable.2 tail otherTail, Ordering.then_assoc]

end

/-- Packed tuples compare as their values do. -/
theorem cmp_packed (vs others : List Value) (packable : packables vs = true) (otherPackable : packables others = true) :
    cmp (wires false vs) (wires false others) = compareValues vs others := by
  have tail : Tail [] := by simp [Tail]
  induction vs generalizing others with
  | nil =>
    cases others with
    | nil => exact cmp_self_eq_eq _
    | cons other others =>
      obtain ⟨code, more, wire, _⟩ := wire_head false other
      rw [wires, wires, wire, compareValues]
      exact (FdbGo.Client.nil_lt_cons _ _).cmp_eq_lt
  | cons value vs ih =>
    cases others with
    | nil =>
      obtain ⟨code, more, wire, _⟩ := wire_head false value
      rw [wires, wires, wire, compareValues]
      exact (FdbGo.Client.nil_lt_cons _ _).cmp_eq_gt
    | cons other others =>
      simp only [packables, Bool.and_eq_true] at packable otherPackable
      have tails (vs : List Value) : Tail (wires false vs) := by
        simpa using tail_wires false tail vs
      rw [wires, wires, compareValues, cmp_wire false value other packable.1 otherPackable.1
        (tails vs) (tails others), ih others packable.2 otherPackable.2]

/-- Packable tuples pack, unpack to the same values, and their packed forms
compare as the tuples do. -/
theorem pack_round_trips_in_order (a b : List Element) (packable : packables (values a) = true)
    (otherPackable : packables (values b) = true) :
    ∃ packed otherPacked back,
      pack a = .ok packed ∧ pack b = .ok otherPacked ∧
      unpack packed = .ok back ∧ values back = values a ∧
      cmp packed otherPacked = compareValues (values a) (values b) := by
  refine ⟨_, _, elements (values a), pack_eq packable, pack_eq otherPackable, ?_, ?_, ?_⟩
  · exact unpack_wires packable
  · exact values_elements (values a)
  · exact cmp_packed _ _ packable otherPackable

/-- A nested null and an escaped string before integers of different Go types. -/
theorem pack_round_trips_in_order_nested :
    ∃ packed otherPacked back,
      pack [.tuple [.null, .string [0x61, 0x00]], .bigInt (-2 ^ 70)] = .ok packed ∧
      pack [.tuple [.null, .string [0x61, 0x00]], .uint64 5] = .ok otherPacked ∧
      unpack packed = .ok back ∧
      values back = values [.tuple [.null, .string [0x61, 0x00]], .bigInt (-2 ^ 70)] ∧
      cmp packed otherPacked =
        compareValues (values [.tuple [.null, .string [0x61, 0x00]], .bigInt (-2 ^ 70)])
          (values [.tuple [.null, .string [0x61, 0x00]], .uint64 5]) :=
  pack_round_trips_in_order _ _ (by decide +kernel) (by decide +kernel)

end FdbGo.Tuple
