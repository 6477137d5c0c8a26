import Mathlib.Data.List.Basic
import Mathlib.Tactic.Ring

/-! Numbers written as lists of bytes, the least significant byte first. -/

set_option autoImplicit false

namespace FdbGo.Foundation

def decode (bytes : List UInt8) : Nat := bytes.foldr (fun byte rest => byte.toNat + 256 * rest) 0

def encode (width value : Nat) : List UInt8 :=
  (List.range width).map fun i => UInt8.ofNat (value / 256 ^ i)

@[simp] theorem decode_nil : decode [] = 0 := rfl

@[simp] theorem decode_cons (byte : UInt8) (rest : List UInt8) :
    decode (byte :: rest) = byte.toNat + 256 * decode rest := rfl

variable (width value : Nat)

@[simp] theorem length_encode : (encode width value).length = width := by
  simp [encode]

theorem encode_succ : encode (width + 1) value = UInt8.ofNat value :: encode width (value / 256) := by
  simp only [encode, List.range_succ_eq_map, List.map_cons, List.map_map, pow_zero, Nat.div_one]
  congr 2
  funext i
  simp only [Function.comp_apply, Nat.div_div_eq_div_mul, pow_succ']

/-- A number is read back up to the width. -/
theorem decode_encode : decode (encode width value) = value % 256 ^ width := by
  induction width generalizing value with
  | zero => simp [encode, Nat.mod_one]
  | succ width ih =>
    have wider : value % 256 ^ (width + 1) = value % 256 + 256 * (value / 256 % 256 ^ width) := by
      rw [pow_succ', Nat.mod_mul]
    rw [encode_succ, decode_cons, ih, UInt8.toNat_ofNat', wider]

theorem decode_lt (bytes : List UInt8) : decode bytes < 256 ^ bytes.length := by
  induction bytes with
  | nil => simp
  | cons byte rest ih =>
    have small := byte.toNat_lt
    rw [decode_cons, List.length_cons, pow_succ']
    omega

theorem decode_append (low high : List UInt8) : decode (low ++ high) = decode low + 256 ^ low.length * decode high := by
  induction low with
  | nil => simp
  | cons byte rest ih =>
    rw [List.cons_append, decode_cons, decode_cons, ih, List.length_cons, pow_succ']
    ring

theorem decode_zeros (count : Nat) : decode (List.replicate count 0) = 0 := by
  induction count with
  | zero => rfl
  | succ count ih => rw [List.replicate_succ, decode_cons, ih]; rfl

/-- Strings of one length are told apart by their numbers. -/
theorem decode_injective {bytes others : List UInt8} (lengths : bytes.length = others.length)
    (values : decode bytes = decode others) : bytes = others := by
  induction bytes generalizing others with
  | nil => exact (List.length_eq_zero_iff.mp lengths.symm).symm
  | cons byte rest ih =>
    cases others with
    | nil => exact absurd lengths (by simp)
    | cons other others =>
      rw [decode_cons, decode_cons] at values
      have small := byte.toNat_lt
      have otherSmall := other.toNat_lt
      have sameByte : byte = other := UInt8.toNat_inj.mp (by omega)
      rw [sameByte, ih (by simpa using lengths) (by omega)]

end FdbGo.Foundation
