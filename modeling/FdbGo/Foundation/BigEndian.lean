import FdbGo.Foundation.LittleEndian

/-! Numbers written as lists of bytes, the most significant byte first, and the
least width a number needs. -/

set_option autoImplicit false

namespace FdbGo.Foundation

def bigEndian (width value : Nat) : List UInt8 := (encode width value).reverse

def bigEndianValue (bytes : List UInt8) : Nat := decode bytes.reverse

def byteLength (value : Nat) : Nat := if value = 0 then 0 else value.log2 / 8 + 1

@[simp] theorem length_bigEndian (width value : Nat) : (bigEndian width value).length = width := by
  simp [bigEndian]

theorem bigEndian_succ (width value : Nat) :
    bigEndian (width + 1) value = UInt8.ofNat (value / 256 ^ width) :: bigEndian width value := by
  simp [bigEndian, encode, List.range_succ]

variable {width value : Nat}

/-- A number that fits is read back. -/
theorem bigEndianValue_bigEndian (fits : value < 256 ^ width) : bigEndianValue (bigEndian width value) = value := by
  rw [bigEndianValue, bigEndian, List.reverse_reverse, decode_encode, Nat.mod_eq_of_lt fits]

theorem bigEndianValue_lt (bytes : List UInt8) : bigEndianValue bytes < 256 ^ bytes.length := by
  simpa [bigEndianValue] using decode_lt bytes.reverse

theorem bigEndianValue_cons (byte : UInt8) (bytes : List UInt8) :
    bigEndianValue (byte :: bytes) = byte.toNat * 256 ^ bytes.length + bigEndianValue bytes := by
  simp only [bigEndianValue, List.reverse_cons, decode_append, List.length_reverse, decode_cons,
    decode_nil]
  ring

theorem bigEndianValue_zeros (count : Nat) (bytes : List UInt8) :
    bigEndianValue (List.replicate count 0 ++ bytes) = bigEndianValue bytes := by
  simp only [bigEndianValue, List.reverse_append, List.reverse_replicate, decode_append,
    decode_zeros, Nat.mul_zero, Nat.add_zero]

theorem bigEndianValue_injective {bytes others : List UInt8} (lengths : bytes.length = others.length)
    (same : bigEndianValue bytes = bigEndianValue others) : bytes = others :=
  List.reverse_injective (decode_injective (by simpa using lengths) same)

theorem eq_bigEndian {bytes : List UInt8} (length : bytes.length = width)
    (same : bigEndianValue bytes = value) : bytes = bigEndian width value := by
  apply bigEndianValue_injective (by simpa using length)
  rw [bigEndianValue_bigEndian, same]
  rw [← same, ← length]
  exact bigEndianValue_lt bytes

theorem drop_bigEndian {wider : Nat} (narrow : width ≤ wider) :
    (bigEndian wider value).drop (wider - width) = bigEndian width value := by
  rw [bigEndian, bigEndian, List.drop_reverse, length_encode, Nat.sub_sub_self narrow]
  simp only [encode, ← List.map_take, List.take_range, Nat.min_eq_left narrow]

theorem zeros_append_bigEndian {wider : Nat} (narrow : width ≤ wider) (fits : value < 256 ^ width) :
    List.replicate (wider - width) 0 ++ bigEndian width value = bigEndian wider value := by
  apply eq_bigEndian
  · simp [narrow]
  · rw [bigEndianValue_zeros, bigEndianValue_bigEndian fits]

/-- A number fits as many bytes as its length, and more. -/
theorem byteLength_le_iff : byteLength value ≤ width ↔ value < 256 ^ width := by
  have base : (256 : Nat) ^ width = 2 ^ (8 * width) := by
    rw [pow_mul, show (2 : Nat) ^ 8 = 256 from rfl]
  unfold byteLength
  by_cases zero : value = 0
  · simp [zero]
  · rw [if_neg zero, base, ← Nat.log2_lt zero]
    omega

theorem one_shiftLeft_bytes (width : Nat) : (1 <<< (width * 8) : Nat) = 256 ^ width := by
  rw [Nat.one_shiftLeft, Nat.mul_comm, pow_mul, show (2 : Nat) ^ 8 = 256 from rfl]

theorem lt_pow_byteLength (value : Nat) : value < 256 ^ byteLength value :=
  byteLength_le_iff.mp le_rfl

theorem byteLength_mono {other : Nat} (le : value ≤ other) : byteLength value ≤ byteLength other :=
  byteLength_le_iff.mpr (lt_of_le_of_lt le (lt_pow_byteLength other))

theorem byteLength_eq_zero_iff : byteLength value = 0 ↔ value = 0 := by
  rw [← Nat.le_zero, byteLength_le_iff]
  simp

end FdbGo.Foundation
