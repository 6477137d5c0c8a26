import FdbGo.Executor.AggregateCursor
import FdbGo.Foundation.ByteBits

/-! What a continuation keeps of an accumulator. A written state is read back as the kept
part, and the kept part decides how further rows are accumulated and what the group results
in. -/

set_option autoImplicit false

namespace FdbGo.Executor

open Client Foundation RecordLayer

variable {Row : Type}

/-! ## Integers on the wire -/

/-- An int64 survives the unsigned wire. -/
theorem int64OfBits_bits (n : Int64) : int64OfBits (int64Bits n) = n := by
  simp [int64OfBits, int64Bits]

variable {n : Int64} {agg : AggregateSpec Row}

private theorem int32_roundTrip (fits : FitsInt n) : n.toInt32.toInt64 = n := by
  apply Int64.toInt_inj.mp
  rw [Int32.toInt_toInt64, Int64.toInt_toInt32]
  exact Int.bmod_eq_of_le (by have := fits.1; omega) (by have := fits.2; omega)

theorem int32OfBits_bits (fits : FitsInt n) : int32OfBits (int64Bits n) = n := by
  rw [int32OfBits, int64OfBits_bits, int32_roundTrip fits]

variable {type : IntType} {bitmap : Bytes} {val : Int64} {row : Row}

private theorem intOfBits_bits (fits : type = .int → FitsInt n) : intOfBits type (int64Bits n) = n := by
  cases type with
  | int => exact int32OfBits_bits (fits rfl)
  | long => exact int64OfBits_bits n

private theorem typedState_roundTrip {lane : IntType} (fits : lane = .int → FitsInt n) :
    ∃ state, typedState lane (some n) = .ok state ∧ laneValue lane state = .ok n := by
  cases lane with
  | int => exact ⟨.int32 (int64Bits n), if_pos (fits rfl), congrArg Except.ok (int32OfBits_bits (fits rfl))⟩
  | long => exact ⟨.int64 (int64Bits n), rfl, congrArg Except.ok (int64OfBits_bits n)⟩

private theorem decodeArray_encode {elements : List Int64} (fits : type = .int → ∀ n ∈ elements, FitsInt n) :
    decodeArray type (encodeArray elements) = some elements := by
  rw [decodeArray, encodeArray, decodeFields_encode, Option.map_some, List.filterMap_map]
  refine congrArg some ?_
  induction elements with
  | nil => rfl
  | cons n elements ih =>
    have first := intOfBits_bits (fun isInt => fits isInt n List.mem_cons_self)
    have others := ih fun isInt m later => fits isInt m (List.mem_cons_of_mem _ later)
    simp only [List.filterMap_cons, Function.comp_apply, first]
    exact congrArg (n :: ·) others

/-! ## Bitmaps -/

/-- A bitmap of the default size, or one whose last byte has a bit. -/
structure BitmapShape (bitmap : Bytes) : Prop where
  atLeast : 1250 ≤ bitmap.length
  atMost : bitmap.length ≤ 31250
  tight : bitmap.length = 1250 ∨ ∃ last, bitmap.getLast? = some last ∧ last ≠ 0

theorem trimBitmap_append (bitmap : Bytes) : ∃ zeros, bitmap = trimBitmap bitmap ++ List.replicate zeros 0 := by
  refine ⟨(bitmap.rtakeWhile (· == 0)).length, ?_⟩
  have zeros : bitmap.rtakeWhile (· == 0) = List.replicate (bitmap.rtakeWhile (· == 0)).length 0 :=
    List.eq_replicate_iff.mpr ⟨rfl, fun b member => by simpa using List.mem_rtakeWhile_imp member⟩
  rw [← zeros]
  exact List.rdropWhile_append_rtakeWhile.symm

private theorem restoreBitmap_trim (shape : BitmapShape bitmap) : restoreBitmap (trimBitmap bitmap) = bitmap := by
  obtain ⟨zeros, split⟩ := trimBitmap_append bitmap
  have size := congrArg List.length split
  rw [List.length_append, List.length_replicate] at size
  have missing : 1250 - (trimBitmap bitmap).length = zeros := by
    cases shape.tight with
    | inl default => omega
    | inr ending =>
      obtain ⟨last, isLast, nonzero⟩ := ending
      cases zeros with
      | zero => have := shape.atLeast; omega
      | succ more =>
        rw [split, List.replicate_succ', ← List.append_assoc, List.getLast?_append] at isLast
        exact absurd (Option.some.inj isLast).symm nonzero
  rw [restoreBitmap, missing, ← split]

private theorem trimBitmap_length_le (bitmap : Bytes) : (trimBitmap bitmap).length ≤ bitmap.length := by
  obtain ⟨zeros, split⟩ := trimBitmap_append bitmap
  have size := congrArg List.length split
  rw [List.length_append] at size
  omega

private theorem or_bitByte_ne_zero (b : UInt8) (position : Nat) : b ||| bitByte position ≠ 0 := by
  intro zero
  have bits := congrArg (fun byte : UInt8 => byte.toNat.testBit (position % 8)) zero
  have set := (testBit_bitByte position (position % 8) (Nat.mod_lt _ (by decide))).1
  simp only [UInt8.zero_or, decide_true] at set
  simp [UInt8.toNat_or, Nat.testBit_or, set] at bits

private theorem setBit_length (bitmap : Bytes) (position : Nat) :
    (setBit bitmap position).length = max bitmap.length (max 1250 (position / 8 + 1)) := by
  simp only [setBit, List.length_modify, List.length_append, List.length_replicate]
  split <;> omega

/-- A bit that is set keeps the shape: the last byte is that of the bit, or the one before. -/
theorem setBit_shape {position : Nat} (shape : bitmap = [] ∨ BitmapShape bitmap) (small : position < 250000) :
    BitmapShape (setBit bitmap position) := by
  have length := setBit_length bitmap position
  have bounded : bitmap.length ≤ 31250 := by
    cases shape with
    | inl empty => simp [empty]
    | inr shape => exact shape.atMost
  refine ⟨by omega, by omega, ?_⟩
  by_cases default : (setBit bitmap position).length = 1250
  · exact .inl default
  · refine .inr ?_
    rw [List.getLast?_eq_getElem?, length]
    by_cases covers : bitmap.length ≤ position / 8 + 1
    · -- The byte of the bit is the last one.
      have last : max bitmap.length (max 1250 (position / 8 + 1)) - 1 = position / 8 := by omega
      rw [last]
      obtain ⟨b, found⟩ : ∃ b, (setBit bitmap position)[position / 8]? = some b :=
        ⟨_, List.getElem?_eq_getElem (by omega)⟩
      refine ⟨b, found, ?_⟩
      rw [setBit, List.getElem?_modify_eq] at found
      obtain ⟨before, -, isByte⟩ := Option.map_eq_some_iff.mp found
      rw [← isByte]
      exact or_bitByte_ne_zero before position
    · have last : max bitmap.length (max 1250 (position / 8 + 1)) - 1 = bitmap.length - 1 := by omega
      have other : position / 8 ≠ bitmap.length - 1 := by omega
      have kept : (setBit bitmap position)[bitmap.length - 1]? = bitmap.getLast? := by
        rw [setBit, List.getElem?_modify_ne _ _ other, List.getElem?_append_left (by omega), List.getLast?_eq_getElem?]
      rw [last, kept]
      cases shape with
      | inl empty => simp [empty] at covers
      | inr shape => exact shape.tight.resolve_left (by omega)

/-! ## Counts -/

/-- A count that is not negative, and stays so for this many more rows. -/
def Room (room : Nat) (count : Int64) : Prop := 0 ≤ count.toInt ∧ count.toInt + room < 2 ^ 63

/-- Whether there was a value at all. -/
def seen (count : Int64) : Int64 := if count = 0 then 0 else 1

variable {room : Nat} {count : Int64}

theorem seen_eq_zero_iff : seen count = 0 ↔ count = 0 := by
  unfold seen
  split <;> simp_all

theorem seen_of_ne (some_ : count ≠ 0) : seen count = 1 := if_neg some_

namespace Room

theorem zero (few : room < 2 ^ 63) : Room room 0 := ⟨by decide, by simpa using few⟩

/-- Short of the limit a row counts. -/
theorem succ (roomy : Room (room + 1) count) : Room room (count + 1) ∧ count + 1 ≠ 0 := by
  obtain ⟨low, high⟩ := roomy
  have one : (1 : Int64).toInt = 1 := by decide
  have counted : (count + 1).toInt = count.toInt + 1 := by
    rw [Int64.toInt_add, one]
    exact Int.bmod_eq_of_le (by omega) (by omega)
  refine ⟨⟨by omega, by omega⟩, fun zero => ?_⟩
  rw [zero, Int64.toInt_zero] at counted
  omega

variable (roomy : Room room count)

include roomy

theorem not_neg : ¬ count < 0 := fun negative => absurd (Int64.lt_iff_toInt_lt.mp negative) (Int.not_lt.mpr roomy.1)

theorem pos_iff : 0 < count ↔ count ≠ 0 := by
  rw [Int64.lt_iff_toInt_lt, Int64.toInt_zero, Ne, ← Int64.toInt_inj, Int64.toInt_zero]
  have := roomy.1
  omega

theorem of_le {less : Int64} (low : 0 ≤ less.toInt) (le : less.toInt ≤ count.toInt) : Room room less :=
  ⟨low, Int.lt_of_le_of_lt (Int.add_le_add_right le _) roomy.2⟩

theorem one (some_ : count ≠ 0) : Room room 1 :=
  roomy.of_le (by decide) (Int64.lt_iff_toInt_lt.mp (roomy.pos_iff.mpr some_))

theorem seen : Room room (seen count) := by
  unfold Executor.seen
  split
  case isTrue => exact roomy.of_le (by decide) roomy.1
  case isFalse some_ => exact roomy.one some_

end Room

/-! ## The kept part of an accumulator -/

def Accumulated (agg : AggregateSpec Row) (acc : Accumulator) : Prop :=
  match agg.function with
  | .countStar | .count => True
  | .sum => (acc.count = 0 → acc.sumI = 0) ∧ (aggregateLane agg = .int → FitsInt acc.sumI)
  | .min => (acc.count = 0 ↔ acc.min = none) ∧ (aggregateLane agg = .int → ∀ n, acc.min = some n → FitsInt n)
  | .max => (acc.count = 0 ↔ acc.max = none) ∧ (aggregateLane agg = .int → ∀ n, acc.max = some n → FitsInt n)
  | .bitmapConstructAgg => (acc.count = 0 ∧ acc.bitmap = []) ∨ (acc.count ≠ 0 ∧ BitmapShape acc.bitmap)
  | .arrayAgg =>
    (∀ limit, agg.limit = some limit → acc.array.length ≤ limit) ∧
      (agg.operandType = .int → ∀ n ∈ acc.array, FitsInt n)

/-- An accumulator that can count this many more rows. -/
structure Accumulating (room : Nat) (agg : AggregateSpec Row) (acc : Accumulator) : Prop where
  roomy : Room room acc.count
  accumulated : Accumulated agg acc

/-- What a continuation keeps: of most counts, only whether there was a value. -/
def kept (agg : AggregateSpec Row) (acc : Accumulator) : Accumulator :=
  match agg.function with
  | .countStar => {}
  | .count => { count := acc.count }
  | .sum => { count := seen acc.count, sumI := acc.sumI }
  | .min => { count := seen acc.count, min := acc.min }
  | .max => { count := seen acc.count, max := acc.max }
  | .bitmapConstructAgg => { count := seen acc.count, bitmap := acc.bitmap }
  | .arrayAgg => { array := acc.array }

/-- What a continuation keeps of an accumulator, a second one keeps too. -/
theorem kept_kept (agg : AggregateSpec Row) (acc : Accumulator) : kept agg (kept agg acc) = kept agg acc := by
  cases isFunction : agg.function <;> simp [kept, isFunction, seen]

variable {acc other : Accumulator}

theorem accumulating_kept (accumulating : Accumulating room agg acc) : Accumulating room agg (kept agg acc) := by
  obtain ⟨roomy, accumulated⟩ := accumulating
  constructor
  · have zero : Room room 0 := roomy.of_le (by decide) roomy.1
    cases isFunction : agg.function <;> simp only [kept, isFunction]
    case countStar | arrayAgg => exact zero
    case count => exact roomy
    all_goals exact roomy.seen
  · cases isFunction : agg.function <;> simp only [Accumulated, kept, isFunction] at accumulated ⊢
    case sum => exact ⟨fun none => accumulated.1 (seen_eq_zero_iff.mp none), accumulated.2⟩
    case min | max => exact ⟨seen_eq_zero_iff.trans accumulated.1, accumulated.2⟩
    case arrayAgg => exact accumulated
    case bitmapConstructAgg =>
      exact accumulated.imp (And.imp_left seen_eq_zero_iff.mpr) (And.imp_left (mt seen_eq_zero_iff.mp))

theorem accumulating_new (few : room < 2 ^ 63) (agg : AggregateSpec Row) : Accumulating room agg {} := by
  refine ⟨.zero few, ?_⟩
  cases isFunction : agg.function <;> simp [Accumulated, isFunction, FitsInt]

theorem finalize_kept (roomy : Room room acc.count) (otherRoomy : Room room other.count)
    (same : kept agg acc = kept agg other) (rows : Int64) : finalize agg rows acc = finalize agg rows other := by
  have zero (counts : seen acc.count = seen other.count) : acc.count = 0 ↔ other.count = 0 := by
    rw [← seen_eq_zero_iff, counts, seen_eq_zero_iff]
  cases isFunction : agg.function <;> simp only [kept, isFunction, Accumulator.mk.injEq] at same <;>
    simp only [finalize, isFunction]
  case count => rw [same.1]
  case sum => rw [same.2.1]; exact if_congr (zero same.1) rfl rfl
  case min => rw [same.2.2.1]
  case max => rw [same.2.2.2.1]
  case arrayAgg => rw [same.2.2.2.2.1]
  case bitmapConstructAgg =>
    rw [same.2.2.2.2.2]
    exact if_congr (roomy.pos_iff.trans ((not_congr (zero same.1)).trans otherRoomy.pos_iff.symm)) rfl rfl

/-! ## Accumulating a row -/

private theorem aggMinMax_fits {acc : Option Int64} {isMin : Bool} (before : ∀ n, acc = some n → FitsInt n)
    (fits : FitsInt val) : ∀ n, aggMinMax acc val isMin = some n → FitsInt n := by
  intro n found
  cases acc with
  | none => exact Option.some.inj found ▸ fits
  | some a =>
    rw [aggMinMax] at found
    split at found
    · exact Option.some.inj found ▸ fits
    · exact before n found

private theorem aggMinMax_ne_none (acc : Option Int64) (val : Int64) (isMin : Bool) : aggMinMax acc val isMin ≠ none := by
  cases acc with
  | none => exact nofun
  | some a =>
    rw [aggMinMax]
    split <;> exact nofun

private theorem addToSum_fits {sumI s : Int64} (added : addToSum (some .int) sumI val = .ok s) : FitsInt s := by
  rw [addToSum, if_pos rfl] at added
  split at added
  case isTrue => cases added
  case isFalse inside =>
    cases added
    have upper : ¬ (2147483647 : Int64).toInt < (sumI + val).toInt := fun less => inside (.inl (Int64.lt_iff_toInt_lt.mpr less))
    have lower : ¬ (sumI + val).toInt < (-2147483648 : Int64).toInt := fun less => inside (.inr (Int64.lt_iff_toInt_lt.mpr less))
    have top : (2147483647 : Int64).toInt = 2147483647 := by decide
    have bottom : (-2147483648 : Int64).toInt = -2147483648 := by decide
    exact ⟨by omega, by omega⟩

private theorem lane_int (isInt : aggregateLane agg = .int) : agg.operandIntType = some .int := by
  rw [aggregateLane] at isInt
  cases type : agg.operandIntType with
  | none => rw [type] at isInt; cases isInt
  | some width => rw [type] at isInt; exact congrArg some isInt

variable {next : Accumulator}

private theorem accumulateArrayAgg_accumulated (bounded : ∀ limit, agg.limit = some limit → acc.array.length ≤ limit)
    (fits : agg.operandType = .int → ∀ n ∈ acc.array, FitsInt n)
    (done : accumulateArrayAgg agg acc (agg.operand row) = .ok next) :
    next.count = acc.count ∧ (∀ limit, agg.limit = some limit → next.array.length ≤ limit) ∧
      (agg.operandType = .int → ∀ n ∈ next.array, FitsInt n) := by
  rw [accumulateArrayAgg.eq_def] at done
  split at done
  case isTrue => cases done; exact ⟨rfl, bounded, fits⟩
  case isFalse open_ =>
    cases operand : agg.operand row with
    | none =>
      simp only [operand] at done
      split at done
      · cases done; exact ⟨rfl, bounded, fits⟩
      · cases done
    | some val =>
      simp only [operand] at done
      cases done
      refine ⟨rfl, fun limit isLimit => ?_, fun isInt n member => ?_⟩
      · simp only [isLimit, Option.map_some, Option.getD_some, decide_eq_true_eq] at open_
        rw [List.length_append, List.length_singleton]
        omega
      · cases List.mem_append.mp member with
        | inl before => exact fits isInt n before
        | inr last =>
          rw [List.mem_singleton.mp last]
          exact agg.typed (.inl isInt) row val operand

/-- A row is counted once or not at all, and keeps what holds of the accumulator. -/
private theorem accumulate_accumulated (counts : acc.count + 1 ≠ 0) (accumulated : Accumulated agg acc)
    (done : accumulate agg acc row = .ok next) :
    (next.count = acc.count ∨ next.count = acc.count + 1) ∧ Accumulated agg next := by
  cases operand : agg.operand row with
  | none =>
    cases isFunction : agg.function
    case arrayAgg =>
      simp only [Accumulated, accumulate, isFunction] at accumulated done ⊢
      exact (accumulateArrayAgg_accumulated accumulated.1 accumulated.2 done).imp_left .inl
    all_goals
      simp only [accumulate, isFunction, operand, reduceCtorEq, if_false, if_true] at done
      cases done
      exact ⟨.inl rfl, accumulated⟩
  | some val =>
    cases isFunction : agg.function <;>
      simp only [Accumulated, accumulate, isFunction, operand, reduceCtorEq, if_false, if_true] at accumulated done ⊢
    case countStar => cases done; exact ⟨.inl rfl, trivial⟩
    case count => cases done; exact ⟨.inr rfl, trivial⟩
    case sum =>
      cases added : addToSum agg.operandIntType acc.sumI val with
      | error error => rw [added] at done; cases done
      | ok s =>
        rw [added] at done
        cases done
        refine ⟨.inr rfl, fun none => absurd none counts, fun isInt => ?_⟩
        rw [lane_int isInt] at added
        exact addToSum_fits added
    case min | max =>
      cases done
      exact ⟨.inr rfl, ⟨fun none => absurd none counts, fun none => absurd none (aggMinMax_ne_none _ _ _)⟩,
        fun isInt => aggMinMax_fits (accumulated.2 isInt) (agg.typed (.inr (lane_int isInt)) row val operand)⟩
    case arrayAgg => exact (accumulateArrayAgg_accumulated accumulated.1 accumulated.2 (operand ▸ done)).imp_left .inl
    case bitmapConstructAgg =>
      split at done
      case isTrue => cases done
      case isFalse inside =>
        cases done
        exact ⟨.inr rfl, .inr ⟨counts, setBit_shape (accumulated.imp And.right And.right) (by omega)⟩⟩

theorem Accumulating.accumulate (accumulating : Accumulating (room + 1) agg acc)
    (done : accumulate agg acc row = .ok next) : Accumulating room agg next := by
  obtain ⟨counted, counts⟩ := accumulating.roomy.succ
  obtain ⟨isCount, accumulated⟩ := accumulate_accumulated counts accumulating.accumulated done
  refine ⟨?_, accumulated⟩
  cases isCount with
  | inl same => exact same ▸ ⟨accumulating.roomy.1, by have := accumulating.roomy.2; omega⟩
  | inr next => exact next ▸ counted

private theorem accumulateArrayAgg_kept (isArray : agg.function = .arrayAgg) (same : kept agg acc = kept agg other)
    (val : Option Int64) :
    (accumulateArrayAgg agg acc val).map (kept agg) = (accumulateArrayAgg agg other val).map (kept agg) := by
  have arrays : acc.array = other.array := by
    simp only [kept, isArray, Accumulator.mk.injEq] at same
    exact same.2.2.2.2.1
  simp only [accumulateArrayAgg, arrays]
  split
  · exact congrArg Except.ok same
  · cases val with
    | none =>
      dsimp only
      split
      · exact congrArg Except.ok same
      · rfl
    | some n => simp [Except.map, kept, isArray]

/-- Accumulators with the same kept part stay so, or fail with the same error. -/
theorem accumulate_kept (roomy : Room (room + 1) acc.count) (otherRoomy : Room (room + 1) other.count)
    (same : kept agg acc = kept agg other) (row : Row) :
    (accumulate agg acc row).map (kept agg) = (accumulate agg other row).map (kept agg) := by
  have one := seen_of_ne roomy.succ.2
  have otherOne := seen_of_ne otherRoomy.succ.2
  cases operand : agg.operand row with
  | none =>
    cases isFunction : agg.function
    case arrayAgg =>
      simp only [accumulate, isFunction, reduceCtorEq, if_false, if_true]
      exact accumulateArrayAgg_kept isFunction same _
    all_goals
      simp only [accumulate, isFunction, operand, reduceCtorEq, if_false, if_true]
      exact congrArg Except.ok same
  | some val =>
    cases isFunction : agg.function <;>
      simp only [accumulate, isFunction, operand, reduceCtorEq, if_false, if_true]
    case countStar => exact congrArg Except.ok same
    case arrayAgg => exact accumulateArrayAgg_kept isFunction same _
    all_goals simp only [kept, isFunction, Accumulator.mk.injEq] at same
    case count => simp [Except.map, kept, isFunction, same.1]
    case sum =>
      rw [same.2.1]
      cases addToSum agg.operandIntType other.sumI val with
      | error error => rfl
      | ok s => simp [bind, Except.bind, Except.map, kept, isFunction, one, otherOne]
    case min => simp [Except.map, kept, isFunction, same.2.2.1, one, otherOne]
    case max => simp [Except.map, kept, isFunction, same.2.2.2.1, one, otherOne]
    case bitmapConstructAgg =>
      rw [same.2.2.2.2.2]
      split
      · rfl
      · simp [Except.map, kept, isFunction, one, otherOne]

/-! ## Writing and reading the states -/

/-- The number of rows after an aggregate is read: COUNT(*) restores it. -/
def rowsRead (agg : AggregateSpec Row) (rows before : Int64) : Int64 := if agg.function = .countStar then rows else before

/-- A written state is read back as the kept part. -/
theorem decodeAccumulator_encode {rows : Int64} (accumulating : Accumulating room agg acc) (roomy : Room room rows)
    (some_ : 0 < rows) (before : Int64) :
    ∃ states, encodeAccumulator agg rows acc = .ok states ∧ states.length ≤ 1 ∧
      decodeAccumulator agg before states = .ok (rowsRead agg rows before, kept agg acc) := by
  obtain ⟨counts, accumulated⟩ := accumulating
  cases isFunction : agg.function <;> simp only [Accumulated, isFunction] at accumulated
  case countStar =>
    refine ⟨[.int64 (int64Bits rows)], ?_, Nat.le_refl _, ?_⟩
    · simp [encodeAccumulator, isFunction, some_]
    · simp only [decodeAccumulator, isFunction, int64OfBits_bits, if_neg roomy.not_neg, rowsRead, kept, if_true]
  case count =>
    refine ⟨[.int64 (int64Bits acc.count)], ?_, Nat.le_refl _, ?_⟩
    · simp [encodeAccumulator, isFunction, some_]
    · simp only [decodeAccumulator, isFunction, int64OfBits_bits, if_neg counts.not_neg, rowsRead, kept,
        reduceCtorEq, if_false]
  case arrayAgg =>
    refine ⟨[.bytes (encodeArray acc.array)], ?_, Nat.le_refl _, ?_⟩
    · simp [encodeAccumulator, isFunction, some_]
    · have within : (agg.limit.map fun limit => decide (limit < acc.array.length)).getD false = false := by
        cases isLimit : agg.limit with
        | none => rfl
        | some limit => simpa using accumulated.1 limit isLimit
      simp [decodeAccumulator, isFunction, decodeArray_encode accumulated.2, within, rowsRead, kept]
  case sum =>
    by_cases none : acc.count = 0
    · refine ⟨[], by simp [encodeAccumulator, isFunction, none], Nat.zero_le _, ?_⟩
      simp [decodeAccumulator, rowsRead, isFunction, kept, seen, none, accumulated.1 none]
    · obtain ⟨state, written, read⟩ := typedState_roundTrip accumulated.2
      have one := seen_of_ne none
      refine ⟨[state], ?_, Nat.le_refl _, ?_⟩
      · simp [encodeAccumulator, isFunction, none, written, bind, Except.bind]
      · simp [decodeAccumulator, isFunction, read, rowsRead, kept, one, bind, Except.bind]
  case min | max =>
    by_cases none : acc.count = 0
    · refine ⟨[], by simp [encodeAccumulator, isFunction, none], Nat.zero_le _, ?_⟩
      simp [decodeAccumulator, rowsRead, isFunction, kept, seen, none, accumulated.1.mp none]
    · obtain ⟨n, extremum⟩ := Option.ne_none_iff_exists'.mp (mt accumulated.1.mpr none)
      have one := seen_of_ne none
      obtain ⟨state, written, read⟩ := typedState_roundTrip fun isInt => accumulated.2 isInt n extremum
      refine ⟨[state], ?_, Nat.le_refl _, ?_⟩
      · simp [encodeAccumulator, isFunction, none, extremum, written, bind, Except.bind]
      · simp [decodeAccumulator, isFunction, read, rowsRead, kept, one, extremum, bind, Except.bind]
  case bitmapConstructAgg =>
    cases accumulated with
    | inl none =>
      refine ⟨[], by simp [encodeAccumulator, isFunction, none.1], Nat.zero_le _, ?_⟩
      simp [decodeAccumulator, rowsRead, isFunction, kept, seen, none.1, none.2]
    | inr found =>
      obtain ⟨positive, shape⟩ := found
      have one := seen_of_ne positive
      have short : ¬ 31250 < (trimBitmap acc.bitmap).length := by
        have := trimBitmap_length_le acc.bitmap
        have := shape.atMost
        omega
      refine ⟨[.bytes (trimBitmap acc.bitmap)], ?_, Nat.le_refl _, ?_⟩
      · simp [encodeAccumulator, isFunction, positive]
      · simp only [decodeAccumulator, isFunction, if_neg short, restoreBitmap_trim shape, rowsRead, kept, one,
          reduceCtorEq, if_false]

end FdbGo.Executor
