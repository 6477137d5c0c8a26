import Mathlib.Data.List.GetD
import Mathlib.Data.Nat.Bitwise

/-! Byte strings as sets of bits, eight to a byte, the lowest bit of a byte first. -/

set_option autoImplicit false

namespace FdbGo.Foundation

def bitAt (bytes : List UInt8) (bit : Nat) : Bool := (bytes[bit / 8]?.getD 0).toNat.testBit (bit % 8)

def bitByte (bit : Nat) : UInt8 := 1 <<< UInt8.ofNat (bit % 8)

def onlyBit (size bit : Nat) : List UInt8 := (List.replicate size 0).modify (bit / 8) (· ||| bitByte bit)

def allBut (size bit : Nat) : List UInt8 := (List.replicate size 0xff).modify (bit / 8) (· &&& ~~~ bitByte bit)

theorem length_onlyBit (size bit : Nat) : (onlyBit size bit).length = size := by
  rw [onlyBit, List.length_modify, List.length_replicate]

theorem length_allBut (size bit : Nat) : (allBut size bit).length = size := by
  rw [allBut, List.length_modify, List.length_replicate]

theorem bitAt_zero (size bit : Nat) : bitAt (List.replicate size 0) bit = false := by
  have byte : ((List.replicate size (0 : UInt8))[bit / 8]?.getD 0) = 0 := by
    rw [List.getElem?_replicate]
    split <;> rfl
  rw [bitAt, byte]
  exact Nat.zero_testBit _

variable {bytes others : List UInt8}

theorem getD_zipWith {op : UInt8 → UInt8 → UInt8} (zero : op 0 0 = 0) (lengths : bytes.length = others.length)
    (i : Nat) : (List.zipWith op bytes others)[i]?.getD 0 = op (bytes[i]?.getD 0) (others[i]?.getD 0) := by
  rw [List.getElem?_zipWith]
  cases found : bytes[i]? with
  | none =>
    rw [List.getElem?_eq_none (lengths ▸ List.getElem?_eq_none_iff.mp found)]
    exact zero.symm
  | some byte =>
    have inside : i < others.length := lengths ▸ (List.getElem?_eq_some_iff.mp found).1
    rw [List.getElem?_eq_getElem inside]
    rfl

theorem bitAt_or (lengths : bytes.length = others.length) (bit : Nat) :
    bitAt (List.zipWith (· ||| ·) bytes others) bit = (bitAt bytes bit || bitAt others bit) := by
  rw [bitAt, getD_zipWith rfl lengths, UInt8.toNat_or, Nat.testBit_or]
  rfl

theorem bitAt_and (lengths : bytes.length = others.length) (bit : Nat) :
    bitAt (List.zipWith (· &&& ·) bytes others) bit = (bitAt bytes bit && bitAt others bit) := by
  rw [bitAt, getD_zipWith rfl lengths, UInt8.toNat_and, Nat.testBit_and]
  rfl

/-- The masks of a bit set it alone, and clear it alone. -/
theorem testBit_bitByte (bit other : Nat) (small : other < 8) :
    ((0 : UInt8) ||| bitByte bit).toNat.testBit other = decide (other = bit % 8) ∧
      ((0xff : UInt8) &&& ~~~ bitByte bit).toNat.testBit other = decide (other ≠ bit % 8) := by
  have all : ∀ i j : Fin 8,
      ((0 : UInt8) ||| (1 <<< UInt8.ofNat i.val)).toNat.testBit j.val = decide (j = i) ∧
        ((0xff : UInt8) &&& ~~~ (1 <<< UInt8.ofNat i.val)).toNat.testBit j.val = decide (j ≠ i) := by decide
  have one := all ⟨bit % 8, Nat.mod_lt _ (by decide)⟩ ⟨other, small⟩
  simpa only [bitByte, Fin.mk.injEq, ne_eq] using one

theorem div_mod_eq_iff {bit other : Nat} : other = bit ↔ other / 8 = bit / 8 ∧ other % 8 = bit % 8 := by
  omega

theorem bitAt_onlyBit {size bit : Nat} (inside : bit / 8 < size) (other : Nat) :
    bitAt (onlyBit size bit) other = decide (other = bit) := by
  rw [bitAt, onlyBit, List.getElem?_modify]
  by_cases same : bit / 8 = other / 8
  · have byte : (List.replicate size (0 : UInt8))[other / 8]? = some 0 := by
      rw [List.getElem?_replicate, if_pos (same ▸ inside)]
    simp only [same, if_true, byte, Option.map_eq_map, Option.map_some, Option.getD_some]
    rw [(testBit_bitByte bit (other % 8) (Nat.mod_lt _ (by decide))).1]
    simp only [@div_mod_eq_iff _ other, same, true_and]
  · have apart : other ≠ bit := fun equal => same (equal ▸ rfl)
    simp only [same, if_false, Option.map_eq_map, Option.map_id_fun', id_eq, decide_eq_false apart]
    exact bitAt_zero size other

theorem bitAt_allBut {size : Nat} (bit : Nat) {other : Nat} (below : other / 8 < size) :
    bitAt (allBut size bit) other = decide (other ≠ bit) := by
  have byte : (List.replicate size (0xff : UInt8))[other / 8]? = some 0xff := by
    rw [List.getElem?_replicate, if_pos below]
  rw [bitAt, allBut, List.getElem?_modify]
  by_cases same : bit / 8 = other / 8
  · simp only [same, if_true, byte, Option.map_eq_map, Option.map_some, Option.getD_some]
    rw [(testBit_bitByte bit (other % 8) (Nat.mod_lt _ (by decide))).2]
    simp only [@div_mod_eq_iff _ other, same, true_and, ne_eq]
  · have apart : other ≠ bit := fun equal => same (equal ▸ rfl)
    have all : ∀ i : Fin 8, (0xff : UInt8).toNat.testBit i.val = true := by decide
    simp only [same, if_false, byte, Option.map_eq_map, Option.map_some, Option.getD_some, decide_eq_true apart]
    exact all ⟨other % 8, Nat.mod_lt _ (by decide)⟩

theorem bitAt_of_length {bit : Nat} (set : bitAt bytes bit = true) : bit / 8 < bytes.length := by
  by_contra past
  rw [bitAt, List.getElem?_eq_none (Nat.not_lt.mp past)] at set
  cases (Nat.zero_testBit _).symm.trans set

end FdbGo.Foundation
