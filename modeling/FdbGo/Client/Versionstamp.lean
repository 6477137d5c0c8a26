import FdbGo.Client.KeyProperties
import FdbGo.Foundation.BigEndian

/-! The operands of versionstamped operations: the check of the offset in their last four
bytes, and the candidate range of a versionstamped key. -/

set_option autoImplicit false

namespace FdbGo.Client

open Foundation

structure FDBError where
  code : Nat
  deriving DecidableEq, Repr

/-- The last four bytes as a little-endian `int32`. -/
def trailingOffset (data : Bytes) : Int32 := (UInt32.ofNat (decode (data.drop (data.length - 4)))).toInt32

def validateVersionstampOffset (data : Bytes) : Except FDBError Unit :=
  if data.length < 4 then .error ⟨2000⟩
  else
    let offset := trailingOffset data
    let bodyLen := Int32.ofInt (data.length - 4)
    if offset < 0 ∨ offset + 10 > bodyLen then .error ⟨2000⟩ else .ok ()

def copyAt (dst : Bytes) (pos : Nat) (src : Bytes) : Bytes := dst.take pos ++ (src ++ dst.drop (pos + src.length))

def versionstampBytes (version : Int64) (txnNumber : UInt16) : Bytes :=
  bigEndian 8 version.toUInt64.toNat ++ bigEndian 2 txnNumber.toNat

/-- `placeVersionstamp` into `dst[pos:]`. -/
def placeVersionstamp (dst : Bytes) (pos : Nat) (version : Int64) (txnNumber : UInt16) : Bytes :=
  copyAt dst pos (versionstampBytes version txnNumber)

structure VersionstampKeyRange where
  beginKey : Key
  endKey : Key
  transformed : Key

def versionstampKeyRange (key : Key) (minVersion : Int64) (maxKey : Key) : Option VersionstampKeyRange :=
  if key.length < 4 then none
  else
    let pos := (trailingOffset key).toInt
    if pos < 0 ∨ pos > key.length - 4 - 10 then none
    else
      let endKey := copyAt ((key.take (key.length - 3)).set (key.length - 4) 0) pos.toNat (List.replicate 10 0xff)
      some
        { beginKey := placeVersionstamp (key.take (key.length - 4)) pos.toNat minVersion 0
          endKey := if maxKey < endKey then maxKey else endKey
          transformed := placeVersionstamp key pos.toNat minVersion 0 }

/-! ## Checks -/

/-- The ten bytes of a stamp fit between the offset and the last four bytes. -/
def StampFits (data : Bytes) : Prop :=
  4 ≤ data.length ∧ 0 ≤ (trailingOffset data).toInt ∧ (trailingOffset data).toInt + 10 ≤ (data.length : Int) - 4

/-- The operands whose check is exact: a negative offset is refused before any sum; a body
shorter than `2 ^ 31` needs the end of the stamp to be so too; a longer one wraps as well,
and its wrapped length has to stand to the wrapped end as the length to the end. -/
def OffsetExact (data : Bytes) : Prop :=
  (trailingOffset data).toInt < 0 ∨
    if (data.length : Int) - 4 < 2 ^ 31 then data.length < 4 ∨ (trailingOffset data).toInt + 10 < 2 ^ 31
    else (trailingOffset data).toInt + 10 ≤ (data.length : Int) - 4 ↔
      ((trailingOffset data).toInt + 10).bmod (2 ^ 32) ≤ ((data.length : Int) - 4).bmod (2 ^ 32)

variable {data dst src : Bytes} {pos : Nat}

private theorem validateVersionstampOffset_iff (long : 4 ≤ data.length) :
    validateVersionstampOffset data = .ok () ↔ 0 ≤ (trailingOffset data).toInt ∧
      ((trailingOffset data).toInt + 10).bmod (2 ^ 32) ≤ ((data.length : Int) - 4).bmod (2 ^ 32) := by
  simp only [validateVersionstampOffset, if_neg (not_lt.mpr long), gt_iff_lt, Int32.lt_iff_toInt_lt, Int32.toInt_add,
    Int32.toInt_ofInt, show Int32.size = 2 ^ 32 from rfl, show (10 : Int32).toInt = 10 from rfl,
    show (0 : Int32).toInt = 0 from rfl]
  split
  case isTrue refused => exact ⟨nofun, fun accepted => by omega⟩
  case isFalse accepted => exact ⟨fun _ => by omega, fun _ => rfl⟩

private theorem bmod_stampEnd (nonneg : 0 ≤ (trailingOffset data).toInt) :
    ((trailingOffset data).toInt + 10).bmod (2 ^ 32) =
      if (trailingOffset data).toInt + 10 < 2 ^ 31 then (trailingOffset data).toInt + 10
      else (trailingOffset data).toInt + 10 - 2 ^ 32 := by
  have high := (trailingOffset data).toInt_lt
  rw [Int.bmod_def]
  split <;> split <;> omega

private theorem offsetExact_iff : OffsetExact data ↔ (validateVersionstampOffset data = .ok () ↔ StampFits data) := by
  rw [StampFits, OffsetExact]
  by_cases short : data.length < 4
  · have refused : validateVersionstampOffset data ≠ .ok () := by rw [validateVersionstampOffset, if_pos short]; nofun
    rw [if_pos (by omega)]
    exact iff_of_true (.inr (.inl short)) (iff_of_false refused fun fits => by omega)
  · rw [validateVersionstampOffset_iff (not_lt.mp short)]
    by_cases negative : (trailingOffset data).toInt < 0
    · exact iff_of_true (.inl negative) (iff_of_false (fun ok => by omega) fun fits => by omega)
    · have stampEnd := bmod_stampEnd (not_lt.mp negative)
      split
      case isTrue small =>
        have body : ((data.length : Int) - 4).bmod (2 ^ 32) = data.length - 4 :=
          Int.bmod_eq_of_le (by omega) (by omega)
        rw [body, stampEnd]
        by_cases wraps : (trailingOffset data).toInt + 10 < 2 ^ 31
        · rw [if_pos wraps]
          omega
        · have high := (trailingOffset data).toInt_lt
          rw [if_neg wraps]
          omega
      case isFalse => omega

private theorem versionstampKeyRange_isSome_iff {version : Int64} {maxKey : Key} :
    (versionstampKeyRange data version maxKey).isSome ↔ StampFits data := by
  rw [versionstampKeyRange, StampFits]
  split
  · simp; omega
  · simp only
    split <;> simp <;> omega

/-! ## Stamped keys -/

private theorem copyAt_mono {stamp other : Bytes} (lengths : stamp.length = other.length) (le : stamp ≤ other) :
    copyAt dst pos stamp ≤ copyAt dst pos other := by
  refine not_lt.mp fun less => not_lt.mpr le ?_
  rw [copyAt, copyAt, lengths, ← cmp_eq_lt_iff, cmp_append rfl, cmp_append lengths.symm, cmp_self_eq_eq,
    cmp_self_eq_eq] at less
  rw [← cmp_eq_lt_iff]
  cases compared : cmp other stamp with
  | lt => rfl
  | eq | gt => rw [compared] at less; cases less

private theorem le_replicate_max (stamp : Bytes) : stamp ≤ List.replicate stamp.length 0xff := by
  induction stamp with
  | nil => exact le_rfl
  | cons byte stamp ih =>
    rw [List.length_cons, List.replicate_succ, cons_le_cons]
    rcases lt_or_eq_of_le (show byte ≤ 0xff from UInt8.le_iff_toNat_le.mpr (Nat.le_of_lt_succ byte.toNat_lt)) with less | same
    · exact .inl less
    · exact .inr ⟨same, ih⟩

private theorem copyAt_getElem? {i : Nat} (fits : pos + src.length ≤ dst.length) (outside : i < pos ∨ pos + src.length ≤ i) :
    (copyAt dst pos src)[i]? = dst[i]? := by
  have before : (dst.take pos).length = pos := List.length_take_of_le (by omega)
  rw [copyAt]
  cases outside with
  | inl below => rw [List.getElem?_append_left (by omega), List.getElem?_take_of_lt below]
  | inr above =>
    rw [List.getElem?_append_right (by omega), List.getElem?_append_right (by omega), List.getElem?_drop, before]
    congr 1
    omega

/-- The unclamped end: the body with the greatest stamp, and a zero byte. -/
theorem copyAt_end {key : Bytes} (long : 4 ≤ key.length) (fits : pos + src.length ≤ key.length - 4) :
    copyAt ((key.take (key.length - 3)).set (key.length - 4) 0) pos src =
      keyAfter (copyAt (key.take (key.length - 4)) pos src) := by
  have body : (key.take (key.length - 3)).set (key.length - 4) 0 = key.take (key.length - 4) ++ [0] := by
    rw [List.set_eq_take_append_cons_drop, if_pos (by rw [List.length_take]; omega), List.take_take,
      Nat.min_eq_left (by omega), List.drop_eq_nil_of_le (by rw [List.length_take]; omega)]
  have length : (key.take (key.length - 4)).length = key.length - 4 := List.length_take_of_le (by omega)
  rw [body, copyAt, copyAt, keyAfter, List.take_append_of_le_length (by omega), List.drop_append_of_le_length (by omega)]
  simp only [List.append_assoc]

/-- Both checks of the offset accept the same operands, those in which a stamp fits, exactly
when no sum of the first is led astray. Every candidate of an accepted key lies in its range
or past the greatest key, and the key is changed in the bytes of the stamp only. -/
theorem versionstamp_operands_checked (data : Bytes) (version : Int64) (maxKey : Key) :
    (OffsetExact data ↔ (validateVersionstampOffset data = .ok () ↔ StampFits data)) ∧
    (OffsetExact data ↔
      (validateVersionstampOffset data = .ok () ↔ (versionstampKeyRange data version maxKey).isSome)) ∧
    ∀ range, versionstampKeyRange data version maxKey = some range →
      (∀ stamp : Bytes, stamp.length = 10 → versionstampBytes version 0 ≤ stamp →
        ∃ key, key = copyAt (data.take (data.length - 4)) (trailingOffset data).toInt.toNat stamp ∧
          range.beginKey ≤ key ∧ (key < range.endKey ∨ maxKey ≤ key)) ∧
      range.transformed.length = data.length ∧
      ∀ i : Nat, i < (trailingOffset data).toInt ∨ (trailingOffset data).toInt + 10 ≤ i →
        range.transformed[i]? = data[i]? := by
  refine ⟨offsetExact_iff, offsetExact_iff.trans (iff_congr Iff.rfl versionstampKeyRange_isSome_iff.symm),
    fun range found => ?_⟩
  have fits : StampFits data := versionstampKeyRange_isSome_iff.mp (Option.isSome_of_eq_some found)
  obtain ⟨long, nonneg, inside⟩ := fits
  have stampLength : (versionstampBytes version 0).length = 10 := by simp [versionstampBytes]
  rw [versionstampKeyRange, if_neg (by omega)] at found
  simp only at found
  rw [if_neg (by omega)] at found
  obtain rfl := Option.some.inj found
  refine ⟨fun stamp length least => ⟨_, rfl, copyAt_mono (stampLength.trans length.symm) least, ?_⟩, ?_, ?_⟩
  · have greatest : copyAt (data.take (data.length - 4)) (trailingOffset data).toInt.toNat stamp ≤
        copyAt (data.take (data.length - 4)) (trailingOffset data).toInt.toNat (List.replicate 10 0xff) :=
      copyAt_mono (by simp [length]) (length ▸ le_replicate_max stamp)
    rw [← lt_keyAfter_iff, ← copyAt_end long (by rw [List.length_replicate]; omega)] at greatest
    dsimp only
    split
    · exact lt_or_ge _ _
    · exact .inl greatest
  · simp only [placeVersionstamp, copyAt, List.length_append, List.length_take, List.length_drop, stampLength]
    omega
  · intro i outside
    exact copyAt_getElem? (by omega) (by omega)

/-- The offset `2 ^ 31 - 1`: its sum with the length of a stamp is negative. -/
theorem wrapped_offset_accepted :
    validateVersionstampOffset [0xff, 0xff, 0xff, 0x7f] = .ok () ∧ ¬ StampFits [0xff, 0xff, 0xff, 0x7f] ∧
      (versionstampKeyRange [0xff, 0xff, 0xff, 0x7f] 0 allKeysEnd).isNone := by
  refine ⟨by decide, fun fits => absurd fits.2.2 (by decide), by decide⟩

/-- A stamp between one byte before it and one after it. -/
theorem versionstamp_operands_checked_between :
    OffsetExact ([7] ++ List.replicate 10 0 ++ [9, 1, 0, 0, 0]) ∧
      (versionstampKeyRange ([7] ++ List.replicate 10 0 ++ [9, 1, 0, 0, 0]) 5 allKeysEnd).isSome := by
  have exact_ : OffsetExact ([7] ++ List.replicate 10 0 ++ [9, 1, 0, 0, 0]) :=
    .inr ((if_pos (by decide)).mpr (.inr (by decide)))
  have checked := versionstamp_operands_checked ([7] ++ List.replicate 10 0 ++ [9, 1, 0, 0, 0]) 5 allKeysEnd
  exact ⟨exact_, (checked.2.1.mp exact_).mp (by decide)⟩

end FdbGo.Client
