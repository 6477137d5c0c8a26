import Mathlib.Data.List.Basic

/-! The protocol-buffer wire form: a sequence of numbered fields, each a variable-length
number or a string of bytes. -/

set_option autoImplicit false

namespace FdbGo.Foundation

/-! ## Variable-length numbers -/

/-- Seven bits a byte, the lowest first; the high bit says that more follow. -/
def encodeVarintWithin : Nat → Nat → List UInt8
  | 0, n => [UInt8.ofNat n]
  | fuel + 1, n =>
    if n < 128 then [UInt8.ofNat n] else UInt8.ofNat (n % 128 + 128) :: encodeVarintWithin fuel (n / 128)

def encodeVarint (n : Nat) : List UInt8 := encodeVarintWithin n n

def decodeVarint : List UInt8 → Option (Nat × List UInt8)
  | [] => none
  | b :: rest =>
    if b.toNat < 128 then some (b.toNat, rest)
    else (decodeVarint rest).map fun found => (b.toNat - 128 + 128 * found.1, found.2)

theorem decode_encodeVarintWithin {fuel n : Nat} (enough : n ≤ fuel) (rest : List UInt8) :
    decodeVarint (encodeVarintWithin fuel n ++ rest) = some (n, rest) := by
  induction fuel generalizing n with
  | zero =>
    have none : n = 0 := by omega
    subst none
    rfl
  | succ fuel ih =>
    rw [encodeVarintWithin]
    split
    case isTrue small =>
      have same : (UInt8.ofNat n).toNat = n := UInt8.toNat_ofNat_of_lt' (show n < 256 by omega)
      rw [List.singleton_append, decodeVarint, same, if_pos small]
    case isFalse large =>
      have same : (UInt8.ofNat (n % 128 + 128)).toNat = n % 128 + 128 := UInt8.toNat_ofNat_of_lt' (show _ < 256 by omega)
      rw [List.cons_append, decodeVarint, same, if_neg (by omega), ih (by omega)]
      have whole : n % 128 + 128 - 128 + 128 * (n / 128) = n := by omega
      rw [Option.map_some, whole]

theorem decode_encodeVarint (n : Nat) (rest : List UInt8) : decodeVarint (encodeVarint n ++ rest) = some (n, rest) :=
  decode_encodeVarintWithin (Nat.le_refl _) rest

theorem encodeVarint_ne_nil (n : Nat) : encodeVarint n ≠ [] := by
  rw [encodeVarint]
  cases n with
  | zero => exact List.cons_ne_nil _ _
  | succ n =>
    rw [encodeVarintWithin]
    split <;> exact List.cons_ne_nil _ _

/-! ## Fields -/

inductive WireValue where
  | varint (n : Nat)
  | bytes (b : List UInt8)
  deriving DecidableEq, Repr

structure WireField where
  number : Nat
  value : WireValue
  deriving DecidableEq, Repr

def WireField.encode (field : WireField) : List UInt8 :=
  match field.value with
  | .varint n => encodeVarint (field.number * 8) ++ encodeVarint n
  | .bytes b => encodeVarint (field.number * 8 + 2) ++ encodeVarint b.length ++ b

def encodeFields (fields : List WireField) : List UInt8 := fields.flatMap WireField.encode

def decodeValue (wireType : Nat) (data : List UInt8) : Option (WireValue × List UInt8) :=
  match wireType with
  | 0 => (decodeVarint data).map fun found => (.varint found.1, found.2)
  | 2 =>
    (decodeVarint data).bind fun found =>
      if found.1 ≤ found.2.length then some (.bytes (found.2.take found.1), found.2.drop found.1) else none
  | _ => none

def decodeField (data : List UInt8) : Option (WireField × List UInt8) :=
  (decodeVarint data).bind fun tag =>
    (decodeValue (tag.1 % 8) tag.2).map fun found => ({ number := tag.1 / 8, value := found.1 }, found.2)

def decodeFieldsWithin : Nat → List UInt8 → Option (List WireField)
  | _, [] => some []
  | 0, _ :: _ => none
  | fuel + 1, data => (decodeField data).bind fun found => (decodeFieldsWithin fuel found.2).map (found.1 :: ·)

def decodeFields (data : List UInt8) : Option (List WireField) := decodeFieldsWithin data.length data

theorem decodeField_encode (field : WireField) (rest : List UInt8) :
    decodeField (field.encode ++ rest) = some (field, rest) := by
  obtain ⟨number, value⟩ := field
  cases value with
  | varint n =>
    have tag : number * 8 % 8 = 0 ∧ number * 8 / 8 = number := by omega
    simp only [WireField.encode, List.append_assoc, decodeField, decode_encodeVarint, Option.bind_some, tag.1, tag.2,
      decodeValue, Option.map_some]
  | bytes b =>
    have tag : (number * 8 + 2) % 8 = 2 ∧ (number * 8 + 2) / 8 = number := by omega
    simp only [WireField.encode, List.append_assoc, decodeField, decode_encodeVarint, Option.bind_some, tag.1, tag.2,
      decodeValue, List.length_append, Nat.le_add_right, if_true, List.take_left, List.drop_left, Option.map_some]

theorem WireField.encode_ne_nil (field : WireField) : field.encode ≠ [] := by
  intro empty
  rw [WireField.encode] at empty
  split at empty <;> simp [encodeVarint_ne_nil] at empty

/-- Written fields are read back in their order. -/
theorem decodeFields_encode (fields : List WireField) : decodeFields (encodeFields fields) = some fields := by
  have within : ∀ fuel, (encodeFields fields).length ≤ fuel → decodeFieldsWithin fuel (encodeFields fields) = some fields := by
    induction fields with
    | nil =>
      intro fuel _
      cases fuel <;> rfl
    | cons field fields ih =>
      intro fuel enough
      rw [encodeFields, List.flatMap_cons] at enough ⊢
      rw [encodeFields] at ih
      have positive := List.length_pos_iff.mpr field.encode_ne_nil
      rw [List.length_append] at enough
      obtain ⟨less, rfl⟩ : ∃ less, fuel = less + 1 := ⟨fuel - 1, by omega⟩
      obtain ⟨head, tail, shape⟩ := List.exists_cons_of_ne_nil
        (show field.encode ++ fields.flatMap WireField.encode ≠ [] by simp [field.encode_ne_nil])
      rw [shape, decodeFieldsWithin, ← shape, decodeField_encode, Option.bind_some, ih less (by omega), Option.map_some]
      exact nofun
  exact within _ (Nat.le_refl _)

theorem encodeFields_isEmpty {fields : List WireField} (some_ : fields ≠ []) : (encodeFields fields).isEmpty = false := by
  refine List.isEmpty_eq_false_iff.mpr fun empty => some_ ?_
  have read := decodeFields_encode fields
  rw [empty] at read
  exact (Option.some.inj read).symm

end FdbGo.Foundation
