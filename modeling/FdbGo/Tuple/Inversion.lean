import FdbGo.Tuple.TupleOrdering
import FdbGo.Tuple.Order

/-! Inversion as a re-packing of bits: what `Invert` writes, that `Uninvert`
reads it back, and that it reverses the order of byte strings. -/

set_option autoImplicit false

namespace FdbGo.Tuple.TupleOrdering

open Client (Bytes cons_lt_cons)
open Foundation

/-! ## The shifter -/

/-- The bits of a byte string, `width` from each byte. -/
def bitsOf (width : Nat) (bytes : Bytes) : List Bool :=
  bytes.flatMap fun byte => toBits width byte.toNat

def Shifter.content (width : Nat) (s : Shifter) : List Bool :=
  bitsOf width s.out ++ toBits s.nbits s.bits.toNat

variable {width room : Nat} {s : Shifter}

private theorem sshiftRight_mod {w : Word} {k : Nat} (fits : k + width ≤ 64) :
    (w.sshiftRight k).toNat % 2 ^ width = w.toNat / 2 ^ k % 2 ^ width := by
  apply Nat.eq_of_testBit_eq
  intro i
  rw [Nat.testBit_mod_two_pow, Nat.testBit_mod_two_pow, Nat.testBit_div_two_pow]
  by_cases inside : i < width
  · have low : k + i < 64 := by omega
    have bit : (w.sshiftRight k).toNat.testBit i = w.toNat.testBit (k + i) := by
      have shifted := BitVec.getLsbD_sshiftRight w k i
      rw [if_pos low] at shifted
      simpa [BitVec.getLsbD, show ¬ 64 ≤ i by omega] using shifted
    rw [bit, Nat.add_comm k i]
  · simp [inside]

private theorem toNat_top (narrow : width ≤ 8) (waiting : width ≤ s.nbits) (fits : s.nbits ≤ 64) :
    (s.top width).toNat = s.bits.toNat / 2 ^ (s.nbits - width) % 2 ^ width := by
  have small : 2 ^ width ≤ 2 ^ 8 := Nat.pow_le_pow_right (by decide) narrow
  have mask : (BitVec.ofNat 64 (2 ^ width - 1)).toNat = 2 ^ width - 1 := by
    rw [BitVec.toNat_ofNat]
    exact Nat.mod_eq_of_lt (by omega)
  have low := sshiftRight_mod (w := s.bits) (show (s.nbits - width) + width ≤ 64 by omega)
  have bound : s.bits.toNat / 2 ^ (s.nbits - width) % 2 ^ width < 2 ^ width :=
    Nat.mod_lt _ (Nat.pow_pos (by decide))
  rw [Shifter.top, UInt8.toNat_ofBitVec, BitVec.truncate, BitVec.toNat_setWidth, BitVec.toNat_and, mask,
    Nat.and_two_pow_sub_one_eq_mod, low]
  exact Nat.mod_eq_of_lt (by omega)

private theorem bitsOf_append (width : Nat) (bytes others : Bytes) :
    bitsOf width (bytes ++ others) = bitsOf width bytes ++ bitsOf width others :=
  List.flatMap_append

theorem bitsOf_cons (width : Nat) (byte : UInt8) (bytes : Bytes) :
    bitsOf width (byte :: bytes) = toBits width byte.toNat ++ bitsOf width bytes :=
  List.flatMap_cons

@[simp] theorem length_bitsOf (width : Nat) (bytes : Bytes) : (bitsOf width bytes).length = width * bytes.length := by
  induction bytes with
  | nil => rfl
  | cons byte bytes ih =>
    rw [bitsOf_cons, List.length_append, length_toBits, ih, List.length_cons, Nat.mul_succ,
      Nat.add_comm]

/-- What the inner loop leaves: the same bits, fewer than `width` of them
waiting, every byte of at most `width` bits. -/
structure Drained (width : Nat) (s after : Shifter) : Prop where
  content : after.content width = s.content width
  nbits : after.nbits = s.nbits % width
  length : after.out.length = s.out.length + s.nbits / width
  narrow : (∀ byte ∈ s.out, byte.toNat < 2 ^ width) → ∀ byte ∈ after.out, byte.toNat < 2 ^ width

theorem drain_spec {rounds : Nat} (positive : 0 < width) (narrow : width ≤ 8) (fits : s.nbits ≤ 64)
    (enough : s.nbits ≤ rounds) (roomy : s.out.length + s.nbits / width ≤ room) :
    ∃ after, s.drain width room rounds = some after ∧ Drained width s after := by
  induction rounds generalizing s with
  | zero =>
    have none : s.nbits = 0 := Nat.le_zero.mp enough
    exact ⟨s, rfl, rfl, by rw [none, Nat.zero_mod], by rw [none, Nat.zero_div, Nat.add_zero], id⟩
  | succ rounds ih =>
    by_cases waiting : width ≤ s.nbits
    · have quotient : s.nbits / width = (s.nbits - width) / width + 1 :=
        Nat.div_eq_sub_div positive waiting
      rw [quotient, ← Nat.add_assoc, Nat.add_right_comm] at roomy
      have written : s.out.length < room :=
        lt_of_lt_of_le (Nat.lt_succ_self _) (le_trans (Nat.le_add_right _ _) roomy)
      obtain ⟨after, drained, spec⟩ := ih (s := ⟨s.bits, s.nbits - width, s.out ++ [s.top width]⟩)
        (by simp only; omega) (by simp only; omega)
        (by simpa only [List.length_append, List.length_singleton] using roomy)
      refine ⟨after, ?_, ?_, ?_, ?_, ?_⟩
      · rw [Shifter.drain, if_pos waiting, if_pos written]
        exact drained
      · have split : toBits s.nbits s.bits.toNat =
            toBits width (s.top width).toNat ++ toBits (s.nbits - width) s.bits.toNat := by
          have parts := toBits_add width (s.nbits - width) s.bits.toNat
          rw [Nat.add_sub_cancel' waiting] at parts
          rw [parts, toNat_top narrow waiting fits]
          exact congrArg (· ++ _) (toBits_congr (Nat.mod_mod _ _).symm)
        rw [spec.content, Shifter.content, Shifter.content, split, bitsOf_append, List.append_assoc]
        simp [bitsOf]
      · rw [spec.nbits]
        exact (Nat.mod_eq_sub_mod waiting).symm
      · rw [spec.length, List.length_append, List.length_singleton, quotient, ← Nat.add_assoc,
          Nat.add_right_comm]
      · intro bounded
        refine spec.narrow (List.forall_mem_append.mpr ⟨bounded, List.forall_mem_singleton.mpr ?_⟩)
        rw [toNat_top narrow waiting fits]
        exact Nat.mod_lt _ (Nat.pow_pos (by decide))
    · have few := not_le.mp waiting
      refine ⟨s, ?_, rfl, (Nat.mod_eq_of_lt few).symm, by rw [Nat.div_eq_of_lt few, Nat.add_zero], id⟩
      rw [Shifter.drain, if_neg waiting]

variable {bits others : List Bool} {word : Word}

theorem toBits_shiftLeft (bits : Word) {nbits : Nat} (fits : nbits + width ≤ 64) (small : word.toNat < 2 ^ width) :
    toBits (nbits + width) (bits <<< width ||| word).toNat =
      toBits nbits bits.toNat ++ toBits width word.toNat := by
  have power : 2 ^ 64 = 2 ^ width * 2 ^ (64 - width) := by
    rw [← pow_add, Nat.add_sub_cancel' (by omega)]
  have shifted : (bits <<< width ||| word).toNat =
      2 ^ width * (bits.toNat % 2 ^ (64 - width)) + word.toNat := by
    rw [BitVec.toNat_or, BitVec.toNat_shiftLeft, Nat.shiftLeft_eq, power, Nat.mul_comm bits.toNat,
      Nat.mul_mod_mul_left, Nat.two_pow_add_eq_or_of_lt small]
  have divided : (2 ^ width * (bits.toNat % 2 ^ (64 - width)) + word.toNat) / 2 ^ width =
      bits.toNat % 2 ^ (64 - width) := by
    rw [Nat.mul_add_div (Nat.pow_pos (by decide)), Nat.div_eq_of_lt small, Nat.add_zero]
  rw [shifted, toBits_add, divided]
  congr 1
  · apply toBits_congr
    exact Nat.mod_mod_of_dvd _ (Nat.pow_dvd_pow 2 (by omega))
  · apply toBits_congr
    rw [Nat.mul_add_mod]

/-- The shifter holds the bits, all but fewer than `width` of them written. -/
structure Packs (width : Nat) (s : Shifter) (bits : List Bool) : Prop where
  content : s.content width = bits
  waiting : s.nbits < width
  narrow : ∀ byte ∈ s.out, byte.toNat < 2 ^ width

theorem Packs.counts (packs : Packs width s bits) : width * s.out.length + s.nbits = bits.length := by
  rw [← packs.content, Shifter.content, List.length_append, length_bitsOf, length_toBits]

theorem packs_start (positive : 0 < width) : Packs width {} [] :=
  ⟨rfl, positive, fun _ never => absurd never List.not_mem_nil⟩

theorem Packs.feed {inWidth : Nat} (packs : Packs width s bits) (narrow : width ≤ 8) (fits : inWidth ≤ 8)
    (small : word.toNat < 2 ^ inWidth) (roomy : (bits.length + inWidth) / width ≤ room) :
    ∃ after, s.feed inWidth width room word = some after ∧ Packs width after (bits ++ toBits inWidth word.toNat) := by
  have waiting := packs.waiting
  have positive : 0 < width := Nat.zero_lt_of_lt waiting
  rw [← packs.counts, Nat.add_assoc, Nat.mul_add_div positive] at roomy
  have wide : s.nbits + inWidth ≤ 64 := by omega
  obtain ⟨after, drained, spec⟩ := drain_spec
    (s := ⟨s.bits <<< inWidth ||| word, s.nbits + inWidth, s.out⟩) positive narrow wide le_rfl roomy
  refine ⟨after, drained, ?_, ?_, spec.narrow packs.narrow⟩
  · rw [spec.content, ← packs.content, Shifter.content, Shifter.content, toBits_shiftLeft s.bits wide small,
      List.append_assoc]
  · rw [spec.nbits]
    exact Nat.mod_lt _ positive

/-! ## What `Invert` writes -/

/-- The bits that `Invert` packs: those of the input, complemented. -/
def flipped (input : Bytes) : List Bool := (bitsOf 8 input).map (!·)

private theorem toBits_flipped_byte (byte : UInt8) :
    toBits 8 (BitVec.ofNat 64 byte.toNat ^^^ 0xFF).toNat = (toBits 8 byte.toNat).map (!·) := by
  have value : (BitVec.ofNat 64 byte.toNat ^^^ 0xFF).toNat = byte.toNat ^^^ (2 ^ 8 - 1) := by
    have small := byte.toNat_lt
    rw [BitVec.toNat_xor, BitVec.toNat_ofNat, Nat.mod_eq_of_lt (by omega)]
    rfl
  rw [value, toBits_xor]

private theorem flipped_byte_lt (byte : UInt8) : (BitVec.ofNat 64 byte.toNat ^^^ 0xFF).toNat < 2 ^ 8 := by
  revert byte
  exact forall_byte (by decide +kernel)

private theorem invert_loop (room : Nat) (input : Bytes) (packs : Packs 7 s bits)
    (roomy : (bits.length + 8 * input.length) / 7 ≤ room) :
    ∃ after, input.foldlM
        (fun s byte => s.feed 8 7 room (BitVec.ofNat 64 byte.toNat ^^^ 0xFF)) s = some after ∧
      Packs 7 after (bits ++ flipped input) := by
  induction input generalizing s bits with
  | nil => exact ⟨s, rfl, by simpa [flipped, bitsOf] using packs⟩
  | cons byte input ih =>
    rw [List.length_cons] at roomy
    obtain ⟨middle, fed, packsMiddle⟩ :=
      packs.feed (by decide) le_rfl (flipped_byte_lt byte) (show _ ≤ room by omega)
    rw [toBits_flipped_byte] at packsMiddle
    obtain ⟨after, looped, packsAfter⟩ := ih packsMiddle (by
      rw [List.length_append, List.length_map, length_toBits]
      omega)
    refine ⟨after, ?_, ?_⟩
    · rw [List.foldlM_cons, fed]
      exact looped
    · simpa [flipped, bitsOf_cons] using packsAfter

/-- The packed form of a string of bits: seven to a byte, then a terminator that
tells how many ones were added to fill the last of them. -/
def packBits (bits : List Bool) : Bytes :=
  if 7 ≤ bits.length then UInt8.ofNat (ofBits (bits.take 7)) :: packBits (bits.drop 7)
  else if bits = [] then [0x80]
  else
    let npad := 7 - bits.length
    [UInt8.ofNat (ofBits (bits ++ List.replicate npad true)), UInt8.ofNat (0x80 ||| npad <<< 4)]
termination_by bits.length
decreasing_by
  rw [List.length_drop]
  omega

private theorem packBits_cons {byte : UInt8} (narrow : byte.toNat < 2 ^ 7) (bits : List Bool) :
    packBits (toBits 7 byte.toNat ++ bits) = byte :: packBits bits := by
  have value : ofBits (toBits 7 byte.toNat) = byte.toNat := by
    rw [ofBits_toBits, Nat.mod_eq_of_lt narrow]
  rw [packBits, if_pos (by simp), List.take_left' (by simp), List.drop_left' (by simp), value,
    UInt8.ofNat_toNat]

private theorem packBits_bitsOf {bytes : Bytes} (narrow : ∀ byte ∈ bytes, byte.toNat < 2 ^ 7)
    (bits : List Bool) : packBits (bitsOf 7 bytes ++ bits) = bytes ++ packBits bits := by
  induction bytes with
  | nil => rfl
  | cons byte bytes ih =>
    rw [bitsOf_cons, List.append_assoc, packBits_cons (narrow byte (by simp)),
      ih (List.forall_mem_cons.mp narrow).2, List.cons_append]

/-- The last data byte: the waiting bits, filled with ones. -/
theorem padded_byte {bits : Word} {nbits : Nat} (waiting : nbits < 7) :
    UInt8.ofBitVec (((bits <<< (7 - nbits) ||| BitVec.ofNat 64 (2 ^ (7 - nbits) - 1)) &&&
      0x7F).truncate 8) =
    UInt8.ofNat (ofBits (toBits nbits bits.toNat ++ List.replicate (7 - nbits) true)) := by
  have small : 2 ^ (7 - nbits) ≤ 2 ^ 7 := Nat.pow_le_pow_right (by decide) (by omega)
  have positive : 0 < 2 ^ (7 - nbits) := Nat.pow_pos (by decide)
  have ones : (BitVec.ofNat 64 (2 ^ (7 - nbits) - 1)).toNat = 2 ^ (7 - nbits) - 1 := by
    rw [BitVec.toNat_ofNat]
    exact Nat.mod_eq_of_lt (by omega)
  have joined := toBits_shiftLeft bits (show nbits + (7 - nbits) ≤ 64 by omega)
    (show (BitVec.ofNat 64 (2 ^ (7 - nbits) - 1)).toNat < 2 ^ (7 - nbits) by rw [ones]; omega)
  rw [ones, toBits_ones, Nat.add_sub_cancel' waiting.le] at joined
  rw [← joined, ofBits_toBits]
  apply UInt8.toNat_inj.mp
  rw [UInt8.toNat_ofBitVec, BitVec.truncate, BitVec.toNat_setWidth, BitVec.toNat_and,
    UInt8.toNat_ofNat', show (0x7F : Word).toNat = 2 ^ 7 - 1 from rfl, Nat.and_two_pow_sub_one_eq_mod]

/-- An inversion never fails: it packs the flipped bits. -/
theorem invert_eq (input : Bytes) : invert input = some (packBits (flipped input)) := by
  have size : (flipped input).length = 8 * input.length := by simp [flipped]
  obtain ⟨s, looped, packs⟩ := invert_loop ((input.length * 8 + 6) / 7 + 1) input (packs_start (by decide)) (by
    rw [List.length_nil]
    omega)
  rw [List.nil_append] at packs
  have counts := packs.counts
  have waiting := packs.waiting
  rw [size] at counts
  have packed : packBits (flipped input) = s.out ++ packBits (toBits s.nbits s.bits.toNat) := by
    rw [← packs.content, Shifter.content, packBits_bitsOf packs.narrow]
  rw [invert, looped, packed]
  simp only [bind, Option.bind]
  by_cases none : s.nbits = 0
  · have tail : packBits (toBits s.nbits s.bits.toNat) = [0x80] := by
      rw [none, packBits]
      rfl
    rw [if_pos none, tail, if_pos]
    rw [List.length_singleton]
    omega
  · have tail : packBits (toBits s.nbits s.bits.toNat) =
        [UInt8.ofNat (ofBits (toBits s.nbits s.bits.toNat ++ List.replicate (7 - s.nbits) true)),
          UInt8.ofNat (0x80 ||| (7 - s.nbits) <<< 4)] := by
      have nonempty : toBits s.nbits s.bits.toNat ≠ [] := by
        intro empty
        have length := congrArg List.length empty
        rw [length_toBits] at length
        exact none length
      rw [packBits, length_toBits, if_neg (by omega), if_neg nonempty]
    rw [if_neg none, tail, padded_byte waiting, if_pos]
    rw [List.length_cons, List.length_singleton]
    omega

/-! ## Order -/

theorem toNat_dataByte (length : bits.length = 7) : (UInt8.ofNat (ofBits bits)).toNat = ofBits bits := by
  have small := ofBits_lt bits
  rw [length] at small
  exact UInt8.toNat_ofNat_of_lt' (by rw [UInt8.size]; omega)

theorem dataByte_lt (length : bits.length = 7) : UInt8.ofNat (ofBits bits) < 0x80 := by
  have small := ofBits_lt bits
  rw [length] at small
  rw [UInt8.lt_iff_toNat_lt, toNat_dataByte length]
  exact small

theorem cmp_dataByte (length : bits.length = 7) (otherLength : others.length = 7) :
    cmp (UInt8.ofNat (ofBits bits)) (UInt8.ofNat (ofBits others)) = cmpLongFirst bits others := by
  rw [cmp_toNat, toNat_dataByte length, toNat_dataByte otherLength,
    cmpLongFirst_eq (length.trans otherLength.symm)]

theorem length_padded (short : bits.length ≤ 7) : (bits ++ List.replicate (7 - bits.length) true).length = 7 := by
  rw [List.length_append, List.length_replicate, Nat.add_sub_cancel' short]

private theorem packBits_head (nonempty : bits ≠ []) : ∃ byte rest, packBits bits = byte :: rest ∧ byte < 0x80 := by
  have positive := List.length_pos_iff.mpr nonempty
  rw [packBits]
  by_cases long : 7 ≤ bits.length
  · rw [if_pos long]
    exact ⟨_, _, rfl, dataByte_lt (by rw [List.length_take]; omega)⟩
  · rw [if_neg long, if_neg nonempty]
    exact ⟨_, _, rfl, dataByte_lt (length_padded (not_le.mp long).le)⟩

private theorem terminator_gt {terminator : UInt8} (high : 0x80 ≤ terminator) (rest : Bytes) (nonempty : bits ≠ []) :
    cmp (terminator :: rest) (packBits bits) = .gt := by
  obtain ⟨byte, more, packed, low⟩ := packBits_head nonempty
  rw [packed]
  exact (cons_lt_cons.mpr (Or.inl (lt_of_lt_of_le low high))).cmp_eq_gt

private theorem padTerminator_high (npad : Nat) (small : npad ≤ 7) : (0x80 : UInt8) ≤ UInt8.ofNat (0x80 ||| npad <<< 4) := by
  revert npad
  decide +kernel

private theorem cmp_packBits_short (short : bits.length < 7) (gap : bits.length + 7 ≤ others.length) :
    cmp (packBits bits) (packBits others) = cmpLongFirst bits others := by
  have nonempty : others ≠ [] := fun empty => by
    rw [empty, List.length_nil] at gap
    omega
  by_cases empty : bits = []
  · have packed : packBits bits = [0x80] := by
      rw [empty, packBits]
      rfl
    rw [packed, terminator_gt (by decide) _ nonempty, empty]
    cases others with
    | nil => exact absurd rfl nonempty
    | cons => rfl
  · have positive := List.length_pos_iff.mpr empty
    have padded := length_padded short.le
    have taken : (others.take 7).length = 7 := by
      rw [List.length_take]
      omega
    have more : others.drop 7 ≠ [] := fun none => by
      have length := congrArg List.length none
      rw [List.length_drop, List.length_nil] at length
      omega
    have split : others.take 7 = others.take bits.length ++ (others.take 7).drop bits.length := by
      conv => lhs; rw [← List.take_append_drop bits.length (others.take 7)]
      rw [List.take_take, Nat.min_eq_left (by omega)]
    have rest : others = others.take bits.length ++ others.drop bits.length :=
      (List.take_append_drop _ _).symm
    have same : bits.length = (others.take bits.length).length := by
      rw [List.length_take]
      omega
    have ones := cmpLongFirst_ones
      (show ((others.take 7).drop bits.length).length = 7 - bits.length by
        rw [List.length_drop, taken])
    have goesOn : cmpLongFirst [] (others.drop bits.length) = .gt := by
      cases tail : others.drop bits.length with
      | nil =>
        have length := congrArg List.length tail
        rw [List.length_drop, List.length_nil] at length
        omega
      | cons => rfl
    have whole : cmpLongFirst bits others = (cmpLongFirst bits (others.take bits.length)).then .gt := by
      have appended : cmpLongFirst (bits ++ []) (others.take bits.length ++ others.drop bits.length) = _ :=
        cmpLongFirst_append same
      rw [List.append_nil, ← rest, goesOn] at appended
      exact appended
    rw [packBits, if_neg (by omega), if_neg empty, packBits.eq_1 others, if_pos (by omega),
      FdbGo.Client.cmp_cons, cmp_dataByte padded taken, split, cmpLongFirst_append same,
      terminator_gt (padTerminator_high _ (Nat.sub_le 7 _)) _ more, whole, Ordering.then_assoc]
    congr 1
    cases filled : cmpLongFirst (List.replicate (7 - bits.length) true)
        ((others.take 7).drop bits.length) with
    | lt => exact absurd filled ones
    | eq => rfl
    | gt => rfl

private theorem cmp_packBits_equal (short : bits.length < 7) (lengths : bits.length = others.length) :
    cmp (packBits bits) (packBits others) = cmpLongFirst bits others := by
  by_cases empty : bits = []
  · have otherEmpty : others = [] := List.length_eq_zero_iff.mp (by rw [← lengths, empty]; rfl)
    rw [empty, otherEmpty, cmp_self_eq_eq]
    rfl
  · have otherNonempty : others ≠ [] := fun otherEmpty => empty
      (List.length_eq_zero_iff.mp (by rw [lengths, otherEmpty]; rfl))
    have padded := length_padded short.le
    have otherPadded := length_padded (lengths ▸ short.le)
    rw [← lengths] at otherPadded
    have ones : cmpLongFirst (List.replicate (7 - bits.length) true)
        (List.replicate (7 - bits.length) true) = .eq := by
      rw [cmpLongFirst_eq rfl, cmp_self_eq_eq]
    rw [packBits, if_neg (by omega), if_neg empty, packBits.eq_1 others, if_neg (by omega),
      if_neg otherNonempty, ← lengths, FdbGo.Client.cmp_cons, cmp_dataByte padded otherPadded,
      cmpLongFirst_append lengths, ones, cmp_self_eq_eq]
    cases cmpLongFirst bits others <;> rfl

/-- Packed strings of bits compare as the strings, an extension first, where
their lengths differ by at least a data byte. -/
theorem cmp_packBits
    (gap : bits.length = others.length ∨ bits.length + 7 ≤ others.length ∨ others.length + 7 ≤ bits.length) :
    cmp (packBits bits) (packBits others) = cmpLongFirst bits others := by
  induction size : bits.length using Nat.strong_induction_on generalizing bits others with
  | _ size_ ih =>
    by_cases short : bits.length < 7
    · by_cases otherShort : others.length < 7
      · exact cmp_packBits_equal short (by omega)
      · exact cmp_packBits_short short (by omega)
    · by_cases otherShort : others.length < 7
      · rw [← cmp_swap, cmp_packBits_short otherShort (by omega), cmpLongFirst_swap]
      · have taken : (bits.take 7).length = 7 := by rw [List.length_take]; omega
        have otherTaken : (others.take 7).length = 7 := by rw [List.length_take]; omega
        have apart : (bits.drop 7).length = (others.drop 7).length ∨
            (bits.drop 7).length + 7 ≤ (others.drop 7).length ∨
            (others.drop 7).length + 7 ≤ (bits.drop 7).length := by
          rw [List.length_drop, List.length_drop]
          omega
        have rest := ih (bits.drop 7).length (by rw [List.length_drop]; omega) apart rfl
        have whole : cmpLongFirst (bits.take 7 ++ bits.drop 7) (others.take 7 ++ others.drop 7) = _ :=
          cmpLongFirst_append (taken.trans otherTaken.symm)
        rw [List.take_append_drop, List.take_append_drop] at whole
        rw [packBits, if_pos (by omega), packBits.eq_1 others, if_pos (by omega),
          FdbGo.Client.cmp_cons, cmp_dataByte taken otherTaken, rest, whole]

private theorem cmpLongFirst_flipped (x y : Bytes) : cmpLongFirst (flipped x) (flipped y) = (cmp x y).swap := by
  have cons (byte : UInt8) (bytes : Bytes) :
      flipped (byte :: bytes) = (toBits 8 byte.toNat).map (!·) ++ flipped bytes := by
    rw [flipped, bitsOf_cons, List.map_append, flipped]
  have order (byte other : UInt8) :
      cmpLongFirst (toBits 8 byte.toNat) (toBits 8 other.toNat) = cmp byte other := by
    rw [cmpLongFirst_eq (by simp), ofBits_toBits, ofBits_toBits, Nat.mod_eq_of_lt byte.toNat_lt,
      Nat.mod_eq_of_lt other.toNat_lt, cmp_toNat]
  induction x generalizing y with
  | nil =>
    cases y with
    | nil => rw [cmp_self_eq_eq]; rfl
    | cons other y => rw [(FdbGo.Client.nil_lt_cons other y).cmp_eq_lt]; rfl
  | cons byte x ih =>
    cases y with
    | nil => rw [(FdbGo.Client.nil_lt_cons byte x).cmp_eq_gt]; rfl
    | cons other y =>
      rw [cons, cons, cmpLongFirst_append (by simp), cmpLongFirst_not (by simp), order, ih,
        FdbGo.Client.cmp_cons, Ordering.swap_then]

theorem cmp_inverted (x y : Bytes) : cmp (packBits (flipped x)) (packBits (flipped y)) = (cmp x y).swap := by
  have size (bytes : Bytes) : (flipped bytes).length = 8 * bytes.length := by simp [flipped]
  rw [cmp_packBits (by rw [size, size]; omega), cmpLongFirst_flipped]

/-! ## What `Uninvert` reads -/

theorem next_spec (byte : UInt8) :
    128 ≤ byte.toNat ∧ (BitVec.ofNat 64 byte.toNat ^^^ (0x7F : Word)) &&& 0x80 ≠ 0 ∨
      byte.toNat < 128 ∧ (BitVec.ofNat 64 byte.toNat ^^^ (0x7F : Word)) &&& 0x80 = 0 ∧
        (BitVec.ofNat 64 byte.toNat ^^^ (0x7F : Word)).toNat = byte.toNat ^^^ (2 ^ 7 - 1) ∧
        (BitVec.ofNat 64 byte.toNat ^^^ (0x7F : Word)).toNat < 2 ^ 7 := by
  revert byte
  exact forall_byte (by decide +kernel)

/-- The loop fails only at a byte with its high bit set, and never writes past
the end. -/
theorem uninvertLoop_spec (bytes : Bytes) (offset : Nat) (unpacks : Packs 8 s bits)
    (roomy : (bits.length + 7 * bytes.length) / 8 ≤ room) :
    (∃ cause, uninvertLoop room bytes offset s = .error cause ∧ ∃ byte ∈ bytes, 128 ≤ byte.toNat) ∨
      ∃ after, uninvertLoop room bytes offset s = .ok after ∧
        Packs 8 after (bits ++ (bitsOf 7 bytes).map (!·)) := by
  induction bytes generalizing offset s bits with
  | nil => exact Or.inr ⟨s, rfl, by simpa [bitsOf] using unpacks⟩
  | cons byte bytes ih =>
    rw [List.length_cons] at roomy
    rcases next_spec byte with ⟨high, set⟩ | ⟨_, low, value, small⟩
    · exact Or.inl ⟨_, by rw [uninvertLoop, if_pos set], byte, List.mem_cons_self, high⟩
    · obtain ⟨middle, fed, unpacksMiddle⟩ := unpacks.feed le_rfl (by decide) small (show _ ≤ room by omega)
      have step : uninvertLoop room (byte :: bytes) offset s =
          uninvertLoop room bytes (offset + 1) middle := by
        rw [uninvertLoop, if_neg (not_not.mpr low), fed]
      have rest := ih (offset + 1) unpacksMiddle (by
        rw [List.length_append, length_toBits]
        omega)
      rw [value, toBits_xor] at rest
      rw [step]
      rcases rest with ⟨cause, failed, other, member, high⟩ | ⟨after, looped, unpacksAfter⟩
      · exact Or.inl ⟨cause, failed, other, List.mem_cons_of_mem _ member, high⟩
      · exact Or.inr ⟨after, looped, by simpa [bitsOf_cons] using unpacksAfter⟩

theorem uninvert_ne_panic (inverted : Bytes) : uninvert inverted ≠ .panic := by
  have pads : ((inverted.getLastD 0 &&& 0x70) >>> 4).toNat ≤ 7 := by
    generalize inverted.getLastD 0 = byte
    revert byte
    exact forall_byte (by decide +kernel)
  unfold uninvert
  by_cases format : inverted.length = 0 ∨ inverted.getLastD 0 &&& 0x80 = 0
  · rw [if_pos format]
    exact nofun
  rw [if_neg format]
  generalize ((inverted.getLastD 0 &&& 0x70) >>> 4).toNat = npad at pads
  simp only
  by_cases uneven : (((inverted.length - 1 : Nat) : Int) * 7 - npad).tmod 8 ≠ 0
  · rw [if_pos uneven]
    exact nofun
  · have even := not_not.mp uneven
    have exact : 8 * (((inverted.length - 1 : Nat) : Int) * 7 - npad).tdiv 8 =
        ((inverted.length - 1 : Nat) : Int) * 7 - npad := by
      have parts := Int.mul_tdiv_add_tmod (((inverted.length - 1 : Nat) : Int) * 7 - npad) 8
      omega
    have nonneg : ¬ (((inverted.length - 1 : Nat) : Int) * 7 - npad).tdiv 8 < 0 := by omega
    rw [if_neg uneven, if_neg nonneg]
    have loop := uninvertLoop_spec inverted.dropLast 0 (packs_start (by decide))
      (show _ ≤ ((((inverted.length - 1 : Nat) : Int) * 7 - npad).tdiv 8).toNat by
        rw [List.length_nil, List.length_dropLast]
        omega)
    rcases loop with ⟨cause, failed, _⟩ | ⟨after, looped, _⟩
    · rw [failed]
      exact nofun
    · rw [looped]
      simp only
      split <;> exact nofun

private theorem toBits_dataByte (length : bits.length = 7) : toBits 7 (UInt8.ofNat (ofBits bits)).toNat = bits := by
  rw [toNat_dataByte length, ← length, toBits_ofBits]

private theorem packBits_form (bits : List Bool) :
    ∃ data npad, packBits bits = data ++ [UInt8.ofNat (0x80 ||| npad <<< 4)] ∧ npad < 7 ∧
      (∀ byte ∈ data, byte.toNat < 128) ∧ bitsOf 7 data = bits ++ List.replicate npad true := by
  induction size : bits.length using Nat.strong_induction_on generalizing bits with
  | _ size_ ih =>
    rw [packBits]
    by_cases long : 7 ≤ bits.length
    · have taken : (bits.take 7).length = 7 := by rw [List.length_take]; omega
      obtain ⟨data, npad, packed, small, narrow, content⟩ :=
        ih (bits.drop 7).length (by rw [List.length_drop]; omega) (bits.drop 7) rfl
      refine ⟨UInt8.ofNat (ofBits (bits.take 7)) :: data, npad, ?_, small, ?_, ?_⟩
      · rw [if_pos long, packed, List.cons_append]
      · exact List.forall_mem_cons.mpr ⟨UInt8.lt_iff_toNat_lt.mp (dataByte_lt taken), narrow⟩
      · rw [bitsOf_cons, toBits_dataByte taken, content, ← List.append_assoc,
          List.take_append_drop]
    · rw [if_neg long]
      by_cases empty : bits = []
      · rw [if_pos empty, empty]
        exact ⟨[], 0, rfl, by decide, by simp, rfl⟩
      · have positive := List.length_pos_iff.mpr empty
        have padded := length_padded (not_le.mp long).le
        rw [if_neg empty]
        refine ⟨[UInt8.ofNat (ofBits (bits ++ List.replicate (7 - bits.length) true))],
          7 - bits.length, rfl, by omega, ?_, ?_⟩
        · intro byte member
          rw [List.mem_singleton.mp member]
          exact UInt8.lt_iff_toNat_lt.mp (dataByte_lt padded)
        · rw [bitsOf_cons, toBits_dataByte padded]
          exact List.append_nil _

private theorem bitsOf_injective {bytes others : Bytes} (lengths : bytes.length = others.length)
    (same : bitsOf 8 bytes = bitsOf 8 others) : bytes = others := by
  induction bytes generalizing others with
  | nil => exact (List.length_eq_zero_iff.mp lengths.symm).symm
  | cons byte bytes ih =>
    cases others with
    | nil => exact absurd lengths (by simp)
    | cons other others =>
      rw [bitsOf_cons, bitsOf_cons] at same
      obtain ⟨first, rest⟩ := List.append_inj same (by simp)
      have value := congrArg ofBits first
      rw [ofBits_toBits, ofBits_toBits, Nat.mod_eq_of_lt byte.toNat_lt,
        Nat.mod_eq_of_lt other.toNat_lt] at value
      rw [UInt8.toNat_inj.mp value, ih (by simpa using lengths) rest]

theorem terminator_spec {npad : Nat} (small : npad < 7) :
    UInt8.ofNat (0x80 ||| npad <<< 4) &&& 0x80 ≠ 0 ∧
      ((UInt8.ofNat (0x80 ||| npad <<< 4) &&& 0x70) >>> 4).toNat = npad := by
  revert npad
  decide +kernel

/-- The inverse of an inversion gives the bytes back. -/
theorem uninvert_invert (x : Bytes) : uninvert (packBits (flipped x)) = .ok x := by
  obtain ⟨data, npad, packed, small, narrow, content⟩ := packBits_form (flipped x)
  obtain ⟨high, pads⟩ := terminator_spec small
  have size : 7 * data.length = 8 * x.length + npad := by
    have length := congrArg List.length content
    simpa [flipped] using length
  have last : (data ++ [UInt8.ofNat (0x80 ||| npad <<< 4)]).getLastD 0 =
      UInt8.ofNat (0x80 ||| npad <<< 4) := by simp
  have bitLength : ((data.length : Int) * 7 - npad) = (x.length : Int) * 8 := by omega
  rw [packed, uninvert, last, pads, if_neg (by simpa using high), List.dropLast_concat]
  simp only [List.length_append, List.length_singleton, Nat.add_sub_cancel, bitLength,
    Int.mul_tmod_left, ne_eq, not_true_eq_false, if_false, Int.mul_tdiv_cancel _ (by decide : (8 : Int) ≠ 0),
    Int.toNat_natCast]
  rw [if_neg (by omega)]
  rcases uninvertLoop_spec data 0 (packs_start (by decide)) (show _ ≤ x.length by rw [List.length_nil]; omega) with
    ⟨_, _, byte, member, high⟩ | ⟨after, looped, unpacks⟩
  · exact absurd (narrow byte member) (not_lt.mpr high)
  · have bits : after.content 8 = bitsOf 8 x ++ List.replicate npad false := by
      rw [unpacks.content, List.nil_append, content, flipped, List.map_append, List.map_map]
      simp [Function.comp_def]
    have counts := unpacks.counts
    rw [← unpacks.content, bits, List.length_append, length_bitsOf, List.length_replicate] at counts
    have waiting := unpacks.waiting
    have count : after.out.length = x.length := by omega
    have same : after.out = x := by
      apply bitsOf_injective count
      rw [Shifter.content] at bits
      exact (List.append_inj bits (by rw [length_bitsOf, length_bitsOf, count])).1
    rw [looped]
    simp [same]

end FdbGo.Tuple.TupleOrdering
