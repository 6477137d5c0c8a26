import Mathlib.Data.Nat.Bitwise
import Mathlib.Order.Compare

/-! Numbers written as lists of bits, the highest bit first, and the order of
bit strings in which a string comes after its extensions. -/

set_option autoImplicit false

namespace FdbGo.Foundation

theorem cmp_digit {base first second low otherLow : Nat} (small : low < base) (otherSmall : otherLow < base) :
    cmp (first * base + low) (second * base + otherLow) =
      (cmp first second).then (cmp low otherLow) := by
  rcases lt_trichotomy first second with less | rfl | more
  · have step : first * base + base ≤ second * base := by
      rw [← Nat.succ_mul]
      exact Nat.mul_le_mul_right base less
    have below : first * base + low < second * base + otherLow := by omega
    rw [less.cmp_eq_lt, below.cmp_eq_lt]
    rfl
  · rw [cmp_self_eq_eq]
    unfold cmp cmpUsing
    simp only [Nat.add_lt_add_iff_left]
    rfl
  · have step : second * base + base ≤ first * base := by
      rw [← Nat.succ_mul]
      exact Nat.mul_le_mul_right base more
    have above : second * base + otherLow < first * base + low := by omega
    rw [more.cmp_eq_gt, above.cmp_eq_gt]
    rfl

def toBits : Nat → Nat → List Bool
  | 0, _ => []
  | width + 1, value => value.testBit width :: toBits width value

def ofBits : List Bool → Nat
  | [] => 0
  | bit :: bits => bit.toNat * 2 ^ bits.length + ofBits bits

@[simp] theorem length_toBits (width value : Nat) : (toBits width value).length = width := by
  induction width with
  | zero => rfl
  | succ width ih => rw [toBits, List.length_cons, ih]

theorem ofBits_lt (bits : List Bool) : ofBits bits < 2 ^ bits.length := by
  induction bits with
  | nil => exact Nat.one_pos
  | cons bit bits ih =>
    rw [ofBits, List.length_cons, pow_succ]
    cases bit <;> simp only [Bool.toNat_false, Bool.toNat_true] <;> omega

/-- The bits of a number give it back, up to the width. -/
theorem ofBits_toBits (width value : Nat) : ofBits (toBits width value) = value % 2 ^ width := by
  induction width with
  | zero => rw [pow_zero, Nat.mod_one]; rfl
  | succ width ih =>
    have bit : (value.testBit width).toNat = value / 2 ^ width % 2 := by
      rw [Nat.testBit_eq_decide_div_mod_eq]
      rcases Nat.mod_two_eq_zero_or_one (value / 2 ^ width) with even | odd
      · rw [even]; rfl
      · rw [odd]; rfl
    rw [toBits, ofBits, length_toBits, ih, Nat.mod_pow_succ, bit, Nat.mul_comm, Nat.add_comm]

theorem ofBits_append (bits others : List Bool) :
    ofBits (bits ++ others) = ofBits bits * 2 ^ others.length + ofBits others := by
  induction bits with
  | nil => rw [List.nil_append, ofBits, Nat.zero_mul, Nat.zero_add]
  | cons bit bits ih =>
    rw [List.cons_append, ofBits, ofBits, ih, List.length_append, Nat.add_mul, pow_add,
      Nat.mul_assoc, Nat.add_assoc]

variable {bits others : List Bool} {width : Nat}

theorem ofBits_injective (lengths : bits.length = others.length) (same : ofBits bits = ofBits others) :
    bits = others := by
  induction bits generalizing others with
  | nil => exact (List.length_eq_zero_iff.mp lengths.symm).symm
  | cons bit bits ih =>
    cases others with
    | nil => exact absurd lengths (by simp)
    | cons other others =>
      have rest : bits.length = others.length := by simpa using lengths
      have low := ofBits_lt bits
      have otherLow := ofBits_lt others
      rw [ofBits, ofBits, rest] at same
      rw [rest] at low
      have bits_eq : bit = other ∧ ofBits bits = ofBits others := by
        cases bit <;> cases other <;>
          simp only [Bool.toNat_false, Bool.toNat_true] at same ⊢ <;> simp <;> omega
      rw [bits_eq.1, ih rest bits_eq.2]

theorem eq_toBits {value : Nat} (length : bits.length = width) (same : ofBits bits = value % 2 ^ width) :
    bits = toBits width value :=
  ofBits_injective (by rw [length, length_toBits]) (by rw [same, ofBits_toBits])

theorem toBits_add (high low value : Nat) :
    toBits (high + low) value = toBits high (value / 2 ^ low) ++ toBits low value := by
  refine (eq_toBits (by simp) ?_).symm
  rw [ofBits_append, ofBits_toBits, ofBits_toBits, length_toBits, Nat.add_comm high, pow_add,
    Nat.mod_mul, Nat.mul_comm, Nat.add_comm]

theorem toBits_ofBits (bits : List Bool) : toBits bits.length (ofBits bits) = bits :=
  (eq_toBits rfl (Nat.mod_eq_of_lt (ofBits_lt bits)).symm).symm

theorem toBits_congr {value other : Nat} (same : value % 2 ^ width = other % 2 ^ width) :
    toBits width value = toBits width other :=
  eq_toBits (length_toBits width value) (by rw [ofBits_toBits, same])

theorem toBits_xor (width value : Nat) : toBits width (value ^^^ (2 ^ width - 1)) = (toBits width value).map (!·) := by
  have bits (wide : Nat) (low : Nat) (below : low ≤ wide) :
      toBits low (value ^^^ (2 ^ wide - 1)) = (toBits low value).map (!·) := by
    induction low with
    | zero => rfl
    | succ low ih =>
      have inside : low < wide := below
      rw [toBits, toBits, List.map_cons, ih (Nat.le_of_succ_le below), Nat.testBit_xor,
        Nat.testBit_two_pow_sub_one, decide_eq_true inside, Bool.xor_true]
  exact bits width width le_rfl

theorem toBits_zero (width : Nat) : toBits width 0 = List.replicate width false := by
  induction width with
  | zero => rfl
  | succ width ih => rw [toBits, Nat.zero_testBit, ih, List.replicate_succ]

theorem toBits_ones (width : Nat) : toBits width (2 ^ width - 1) = List.replicate width true := by
  have flipped := toBits_xor width 0
  rw [Nat.zero_xor, toBits_zero, List.map_replicate] at flipped
  exact flipped

/-- Lexicographically, an extension before what it extends. -/
def cmpLongFirst : List Bool → List Bool → Ordering
  | [], [] => .eq
  | [], _ :: _ => .gt
  | _ :: _, [] => .lt
  | bit :: bits, other :: others => (cmp bit other).then (cmpLongFirst bits others)

theorem cmpLongFirst_cons (bit other : Bool) (bits others : List Bool) :
    cmpLongFirst (bit :: bits) (other :: others) = (cmp bit other).then (cmpLongFirst bits others) := rfl

/-- Strings of bits compare part by part where the first parts are equally long. -/
theorem cmpLongFirst_append {first second third fourth : List Bool} (lengths : first.length = second.length) :
    cmpLongFirst (first ++ third) (second ++ fourth) =
      (cmpLongFirst first second).then (cmpLongFirst third fourth) := by
  induction first generalizing second with
  | nil =>
    rw [List.length_eq_zero_iff.mp lengths.symm]
    rfl
  | cons bit first ih =>
    cases second with
    | nil => exact absurd lengths (by simp)
    | cons other second =>
      rw [List.cons_append, List.cons_append, cmpLongFirst_cons, cmpLongFirst_cons,
        ih (by simpa using lengths), Ordering.then_assoc]

theorem cmpLongFirst_eq (lengths : bits.length = others.length) :
    cmpLongFirst bits others = cmp (ofBits bits) (ofBits others) := by
  induction bits generalizing others with
  | nil =>
    rw [List.length_eq_zero_iff.mp lengths.symm]
    rfl
  | cons bit bits ih =>
    cases others with
    | nil => exact absurd lengths (by simp)
    | cons other others =>
      have rest : bits.length = others.length := by simpa using lengths
      have low := ofBits_lt bits
      rw [rest] at low
      have bitOrder : cmp bit other = cmp bit.toNat other.toNat := by
        cases bit <;> cases other <;> decide
      rw [cmpLongFirst_cons, ih rest, ofBits, ofBits, rest, cmp_digit low (ofBits_lt others), bitOrder]

theorem cmpLongFirst_swap (bits others : List Bool) : (cmpLongFirst bits others).swap = cmpLongFirst others bits := by
  induction bits generalizing others with
  | nil => cases others <;> rfl
  | cons bit bits ih =>
    cases others with
    | nil => rfl
    | cons other others =>
      rw [cmpLongFirst_cons, cmpLongFirst_cons, Ordering.swap_then, ih, cmp_swap]

theorem cmpLongFirst_not (lengths : bits.length = others.length) :
    cmpLongFirst (bits.map (!·)) (others.map (!·)) = (cmpLongFirst bits others).swap := by
  induction bits generalizing others with
  | nil =>
    rw [List.length_eq_zero_iff.mp lengths.symm]
    rfl
  | cons bit bits ih =>
    cases others with
    | nil => exact absurd lengths (by simp)
    | cons other others =>
      have flip : cmp (!bit) (!other) = (cmp bit other).swap := by
        cases bit <;> cases other <;> decide
      rw [List.map_cons, List.map_cons, cmpLongFirst_cons, cmpLongFirst_cons,
        ih (by simpa using lengths), flip, Ordering.swap_then]

theorem cmpLongFirst_ones (length : bits.length = width) : cmpLongFirst (List.replicate width true) bits ≠ .lt := by
  induction width generalizing bits with
  | zero =>
    rw [List.length_eq_zero_iff.mp length]
    exact nofun
  | succ width ih =>
    cases bits with
    | nil => exact absurd length (by simp)
    | cons bit bits =>
      have rest := ih (show bits.length = width by simpa using length)
      rw [List.replicate_succ, cmpLongFirst_cons]
      cases bit with
      | false => exact nofun
      | true =>
        rw [cmp_self_eq_eq]
        exact rest

end FdbGo.Foundation
