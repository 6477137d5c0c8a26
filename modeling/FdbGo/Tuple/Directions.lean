import FdbGo.Tuple.Inversion
import Mathlib.Tactic.IntervalCases

/-! The four directions: packing in a direction round-trips, and the packed
bytes compare as the tuples do in that direction. -/

set_option autoImplicit false

namespace FdbGo.Tuple.TupleOrdering

open Client (Bytes cons_lt_cons)
open Foundation

/-! ## Where an element ends -/

theorem drop_cons {data more : Bytes} {pos : Nat} {code : UInt8} (suffix : data.drop pos = code :: more) :
    pos < data.length ∧ data.getD pos 0 = code ∧ data.drop (pos + 1) = more ∧
      data.length = pos + (more.length + 1) := by
  have length := congrArg List.length suffix
  rw [List.length_drop, List.length_cons] at length
  have inside : pos < data.length := by omega
  rw [List.drop_eq_getElem_cons inside] at suffix
  obtain ⟨head, tail⟩ := List.cons.inj suffix
  refine ⟨inside, ?_, tail, by omega⟩
  rw [List.getD_eq_getElem?_getD, List.getElem?_eq_getElem inside, Option.getD_some, head]

theorem drop_append {data front rest : Bytes} {pos : Nat} (suffix : data.drop pos = front ++ rest) :
    data.drop (pos + front.length) = rest := by
  rw [← List.drop_drop, suffix, List.drop_left]

variable {rest : Bytes}

private theorem terminatorEnd_escape (tail : Tail rest) (b : Bytes) (i : Nat) :
    terminatorEnd (escape b ++ 0 :: rest) i = some (i + (escape b).length + 1) := by
  induction b generalizing i with
  | nil =>
    cases rest with
    | nil => rfl
    | cons byte rest =>
      have other : byte ≠ 0xFF := fun same => tail (by rw [same]; rfl)
      simp [escape, terminatorEnd, other]
  | cons byte b ih =>
    unfold escape
    by_cases zero : byte = 0
    · rw [if_pos zero]
      simp only [List.cons_append, terminatorEnd, if_true, ih, List.length_cons]
      congr 1
      omega
    · rw [if_neg zero]
      rw [List.cons_append, terminatorEnd.eq_def]
      simp only [zero, if_false, ih, List.length_cons]
      congr 1
      omega

variable {value other : Value} {vs : List Value} {size : Nat} {data : Bytes} {pos : Nat}

theorem fixedEnd_eq (room : pos + size ≤ data.length) (what : String) :
    fixedEnd data pos size what = .ok (pos + size) := by
  rw [fixedEnd, if_neg (not_lt.mpr room)]

section EndPos

variable (nestedEnd : Except EndPosError Nat) {data rest : Bytes} {pos : Nat} {code : UInt8} {i : Int}

private theorem endPosOf_payload (string : code = 0x01 ∨ code = 0x02) {b : Bytes} (tail : Tail rest)
    (suffix : data.drop pos = code :: (escape b ++ 0 :: rest)) :
    endPosOf nestedEnd data pos = .ok (pos + ((escape b).length + 2)) := by
  obtain ⟨inside, head, payload, _⟩ := drop_cons suffix
  have notNull : code ≠ 0x00 := by rcases string with rfl | rfl <;> decide
  simp only [endPosOf, head, ge_iff_le, not_le.mpr inside, notNull, string, if_true, if_false, payload,
    terminatorEnd_escape tail]
  congr 1
  omega

private theorem endPosOf_short (short : byteLength i.natAbs ≤ 8) (suffix : data.drop pos = integerWire i ++ rest) :
    endPosOf nestedEnd data pos = .ok (pos + (integerWire i).length) := by
  have wire : ∃ code, integerWire i = code :: bigEndian (byteLength i.natAbs) (integerOffset i) ∧
      (code = UInt8.ofNat (0x14 + byteLength i.natAbs) ∨
        byteLength i.natAbs ≠ 0 ∧ code = UInt8.ofNat (0x14 - byteLength i.natAbs)) := by
    by_cases nonneg : 0 ≤ i
    · exact ⟨_, by simp [integerWire, integerHeader, nonneg, short], .inl rfl⟩
    · refine ⟨_, by simp [integerWire, integerHeader, nonneg, short], .inr ⟨fun none => ?_, rfl⟩⟩
      have zero := byteLength_eq_zero_iff.mp none
      omega
  obtain ⟨code, wire, isCode⟩ := wire
  rw [wire] at suffix
  obtain ⟨inside, head, _, size⟩ := drop_cons suffix
  rw [List.append_eq, List.length_append, length_bigEndian] at size
  rw [wire, List.length_cons, length_bigEndian]
  generalize byteLength i.natAbs = n at short isCode size
  have room : pos + (n + 1) ≤ data.length := by omega
  simp only [endPosOf, head, ge_iff_le, not_le.mpr inside, if_false]
  -- one of the seventeen codes of a width of at most eight bytes
  rcases isCode with rfl | ⟨positive, rfl⟩ <;> interval_cases n <;>
    first | rfl | exact absurd rfl positive | exact fixedEnd_eq room _

private theorem endPosOf_long (long : 8 < byteLength i.natAbs) (small : byteLength i.natAbs ≤ 255)
    (suffix : data.drop pos = integerWire i ++ rest) :
    endPosOf nestedEnd data pos = .ok (pos + (integerWire i).length) := by
  have length : (integerWire i).length = 2 + byteLength i.natAbs := by
    simp only [integerWire, integerHeader, not_le.mpr long, if_false]
    split <;> simp <;> omega
  have ends (code count : UInt8) (n : UInt8 → Nat) (counted : n count = byteLength i.natAbs)
      (wire : integerWire i ++ rest = code :: count ::
        (bigEndian (byteLength i.natAbs) (integerOffset i) ++ rest)) (what : String) :
      data.getD pos 0 = code ∧ pos < data.length ∧
        bigIntEnd data pos what n = .ok (pos + (2 + byteLength i.natAbs)) := by
    obtain ⟨inside, head, next, _⟩ := drop_cons (suffix.trans wire)
    obtain ⟨insideNext, second, _, size⟩ := drop_cons next
    rw [List.length_append, length_bigEndian] at size
    refine ⟨head, inside, ?_⟩
    rw [bigIntEnd, if_neg (not_le.mpr insideNext), second, counted]
    exact fixedEnd_eq (by omega) what
  rw [length]
  by_cases nonneg : 0 ≤ i
  · have counted : (UInt8.ofNat (byteLength i.natAbs)).toNat = byteLength i.natAbs :=
      UInt8.toNat_ofNat_of_lt' (by rw [UInt8.size]; omega)
    obtain ⟨head, inside, ended⟩ := ends 0x1D (UInt8.ofNat (byteLength i.natAbs))
      (fun length => length.toNat) counted
      (by simp [integerWire, integerHeader, nonneg, not_le.mpr long, posIntEnd]) "positive bigint"
    simp only [endPosOf, head, ge_iff_le, not_le.mpr inside, if_false]
    exact ended
  · have counted : 255 - (UInt8.ofNat (255 - byteLength i.natAbs)).toNat = byteLength i.natAbs := by
      rw [UInt8.toNat_ofNat_of_lt' (by rw [UInt8.size]; omega)]
      omega
    obtain ⟨head, inside, ended⟩ := ends 0x0B (UInt8.ofNat (255 - byteLength i.natAbs))
      (fun length => 255 - length.toNat) counted
      (by simp [integerWire, integerHeader, nonneg, not_le.mpr long, negIntStart]) "negative bigint"
    simp only [endPosOf, head, ge_iff_le, not_le.mpr inside, if_false]
    exact ended

private theorem endPosOf_fixed {payload : Bytes}
    (known : code = 0x20 ∧ size = 4 ∨ code = 0x21 ∧ size = 8 ∨ code = 0x30 ∧ size = 16 ∨ code = 0x33 ∧ size = 12)
    (length : payload.length = size) (suffix : data.drop pos = code :: payload ++ rest) :
    endPosOf nestedEnd data pos = .ok (pos + (code :: payload).length) := by
  obtain ⟨inside, head, _, whole⟩ := drop_cons suffix
  rw [List.append_eq, List.length_append] at whole
  rw [List.length_cons, length]
  simp only [endPosOf, head, ge_iff_le, not_le.mpr inside, if_false]
  rcases known with ⟨rfl, rfl⟩ | ⟨rfl, rfl⟩ | ⟨rfl, rfl⟩ | ⟨rfl, rfl⟩ <;> exact fixedEnd_eq (by omega) _

theorem endPosOf_flat (nested : Bool) (packable : value.packable = true) (notNull : value ≠ .null)
    (flat : ∀ vs, value ≠ .nested vs) (tail : Tail rest) (suffix : data.drop pos = value.wire nested ++ rest) :
    endPosOf nestedEnd data pos = .ok (pos + (value.wire nested).length) := by
  cases value with
  | null => exact absurd rfl notNull
  | nested vs => exact absurd rfl (flat vs)
  | bytes b =>
    have payload : data.drop pos = 0x01 :: (escape b ++ 0 :: rest) := by
      rw [suffix]
      simp [Value.wire, bytesCode]
    simpa [Value.wire] using endPosOf_payload nestedEnd (Or.inl rfl) tail payload
  | string b =>
    have payload : data.drop pos = 0x02 :: (escape b ++ 0 :: rest) := by
      rw [suffix]
      simp [Value.wire, stringCode]
    simpa [Value.wire] using endPosOf_payload nestedEnd (Or.inr rfl) tail payload
  | integer i =>
    have small : byteLength i.natAbs ≤ 255 := of_decide_eq_true packable
    by_cases short : byteLength i.natAbs ≤ 8
    · exact endPosOf_short nestedEnd short suffix
    · exact endPosOf_long nestedEnd (not_le.mp short) small suffix
  | float32 bits => exact endPosOf_fixed nestedEnd (.inl ⟨rfl, rfl⟩) (by simp [length_adjustFloatBytes]) suffix
  | float64 bits => exact endPosOf_fixed nestedEnd (.inr (.inl ⟨rfl, rfl⟩)) (by simp [length_adjustFloatBytes]) suffix
  | bool b =>
    obtain ⟨inside, head, _, _⟩ := drop_cons suffix
    simp only [endPosOf, head, ge_iff_le, not_le.mpr inside, if_false]
    cases b <;> rfl
  | uuid u => exact endPosOf_fixed nestedEnd (.inr (.inr (.inl ⟨rfl, rfl⟩))) u.length_toList suffix
  | versionstamp v =>
    exact endPosOf_fixed nestedEnd (.inr (.inr (.inr ⟨rfl, rfl⟩))) (by simp [Versionstamp.wireBytes]) suffix

end EndPos

/-! ## Nested tuples -/

section Nested

variable {data : Bytes} {pos : Nat}

/-- The loop moves on by `size` bytes, whatever rounds are left. -/
def Moves (data : Bytes) (pos i size depth : Nat) : Prop :=
  ∃ rounds, rounds ≤ size ∧ ∀ more,
    nestedEndLoop data pos (more + rounds) i depth = nestedEndLoop data pos more (i + size) depth

variable {depth i : Nat}

theorem nested_parts {nested : Bool} (suffix : data.drop i = Value.wire nested (.nested vs) ++ rest) :
    data.drop i = 0x05 :: (wires true vs ++ 0x00 :: rest) ∧ data.drop (i + 1) = wires true vs ++ 0x00 :: rest ∧
      data.drop (i + 1 + (wires true vs).length) = 0x00 :: rest := by
  have opened : data.drop i = 0x05 :: (wires true vs ++ 0x00 :: rest) := by
    rw [suffix]
    simp [Value.wire, nestedCode]
  obtain ⟨_, _, members, _⟩ := drop_cons opened
  exact ⟨opened, members, drop_append members⟩

theorem length_nested (nested : Bool) : (Value.wire nested (.nested vs)).length = (wires true vs).length + 2 := by
  simp [Value.wire]

theorem Moves.trans {otherSize : Nat} (first : Moves data pos i size depth)
    (second : Moves data pos (i + size) otherSize depth) : Moves data pos i (size + otherSize) depth := by
  obtain ⟨rounds, within, moves⟩ := first
  obtain ⟨otherRounds, otherWithin, otherMoves⟩ := second
  refine ⟨otherRounds + rounds, by omega, fun more => ?_⟩
  rw [← Nat.add_assoc, moves, otherMoves, Nat.add_assoc]

private theorem flat_head (nested : Bool) (notNull : value ≠ .null) (flat : ∀ vs, value ≠ .nested vs) :
    ∃ code rest, value.wire nested = code :: rest ∧ code ≠ 0x05 ∧ code ≠ 0x00 := by
  cases value with
  | null => exact absurd rfl notNull
  | nested vs => exact absurd rfl (flat vs)
  | integer i =>
    obtain ⟨code, rest, header, low, _⟩ := integerHeader_head i
    refine ⟨code, rest ++ bigEndian (byteLength i.natAbs) (integerOffset i), ?_, ?_, ?_⟩
    · rw [Value.wire, integerWire, header, List.cons_append]
    · exact fun same => absurd (same ▸ low) (by decide)
    · exact fun same => absurd (same ▸ low) (by decide)
  | bool b => cases b <;> exact ⟨_, _, rfl, by decide, by decide⟩
  | _ => exact ⟨_, _, rfl, by decide, by decide⟩

private theorem nestedEndLoop_flat (packable : value.packable = true) (notNull : value ≠ .null)
    (flat : ∀ vs, value ≠ .nested vs) (tail : Tail rest) (deep : 0 < depth)
    (suffix : data.drop i = value.wire true ++ rest) : Moves data pos i (value.wire true).length depth := by
  obtain ⟨code, more, wire, notNested, notZero⟩ := flat_head true notNull flat
  have ends := endPosOf_flat (.error (.unknownCode 0x05 i)) true packable notNull flat tail suffix
  rw [wire] at suffix
  obtain ⟨inside, head, _, _⟩ := drop_cons suffix
  refine ⟨1, by rw [wire]; simp, fun rounds => ?_⟩
  rw [nestedEndLoop, if_pos ⟨inside, deep⟩, head, if_neg notNested, if_neg notZero, ends]

private theorem nestedEndLoop_open {more : Bytes} (deep : 0 < depth) (suffix : data.drop i = 0x05 :: more) (rounds : Nat) :
    nestedEndLoop data pos (rounds + 1) i depth = nestedEndLoop data pos rounds (i + 1) (depth + 1) := by
  obtain ⟨inside, head, _, _⟩ := drop_cons suffix
  rw [nestedEndLoop, if_pos ⟨inside, deep⟩, head, if_pos rfl]

theorem nestedEndLoop_close (tail : Tail rest) (deep : 0 < depth) (suffix : data.drop i = 0x00 :: rest) (rounds : Nat) :
    nestedEndLoop data pos (rounds + 1) i depth = nestedEndLoop data pos rounds (i + 1) (depth - 1) := by
  obtain ⟨inside, head, next, whole⟩ := drop_cons suffix
  have bare : ¬ (i + 1 < data.length ∧ data.getD (i + 1) 0 = 0xFF) := by
    cases rest with
    | nil =>
      rw [List.length_nil] at whole
      exact fun both => absurd both.1 (by omega)
    | cons byte rest =>
      obtain ⟨_, second, _, _⟩ := drop_cons next
      intro both
      rw [second] at both
      exact tail (by rw [both.2]; rfl)
  rw [nestedEndLoop, if_pos ⟨inside, deep⟩, head, if_neg (by decide), if_pos rfl, if_neg bare]

mutual

theorem nestedEndLoop_wire (value : Value) (packable : value.packable = true) {rest : Bytes} (tail : Tail rest)
    {i depth : Nat} (deep : 0 < depth) (suffix : data.drop i = value.wire true ++ rest) :
    Moves data pos i (value.wire true).length depth := by
  cases value with
  | null =>
    have pair : data.drop i = 0x00 :: 0xFF :: rest := suffix
    obtain ⟨inside, head, next, _⟩ := drop_cons pair
    obtain ⟨insideNext, second, _, _⟩ := drop_cons next
    refine ⟨1, by decide, fun rounds => ?_⟩
    rw [nestedEndLoop, if_pos ⟨inside, deep⟩, head, if_neg (by decide), if_pos rfl,
      if_pos ⟨insideNext, second⟩]
    rfl
  | nested vs =>
    obtain ⟨opened, members, closed⟩ := nested_parts suffix
    obtain ⟨rounds, within, moves⟩ := nestedEndLoop_wires vs packable (tail_cons (by decide))
      (Nat.succ_pos depth) members
    rw [length_nested]
    refine ⟨1 + rounds + 1, by omega, fun more => ?_⟩
    rw [← Nat.add_assoc, nestedEndLoop_open deep opened, ← Nat.add_assoc, moves,
      nestedEndLoop_close tail (Nat.succ_pos depth) closed]
    congr 1
    omega
  | _ => exact nestedEndLoop_flat packable nofun nofun tail deep suffix

theorem nestedEndLoop_wires (vs : List Value) (packable : packables vs = true) {rest : Bytes} (tail : Tail rest)
    {i depth : Nat} (deep : 0 < depth) (suffix : data.drop i = wires true vs ++ rest) :
    Moves data pos i (wires true vs).length depth := by
  cases vs with
  | nil => exact ⟨0, le_rfl, fun _ => rfl⟩
  | cons value vs =>
    simp only [packables, Bool.and_eq_true] at packable
    rw [wires, List.append_assoc] at suffix
    have first := nestedEndLoop_wire value packable.1 (tail_wires true tail vs) deep suffix
    rw [wires, List.length_append]
    exact first.trans (nestedEndLoop_wires vs packable.2 tail deep (drop_append suffix))

end

end Nested

private theorem elementEndPos_wire (packable : value.packable = true) (notNull : value ≠ .null) (tail : Tail rest)
    (suffix : data.drop pos = value.wire false ++ rest) :
    elementEndPos data pos = .ok (pos + (value.wire false).length) := by
  unfold elementEndPos
  by_cases nested : ∃ vs, value = .nested vs
  · obtain ⟨vs, rfl⟩ := nested
    obtain ⟨opened, members, closed⟩ := nested_parts suffix
    obtain ⟨inside, head, _, whole⟩ := drop_cons opened
    obtain ⟨rounds, within, moves⟩ : Moves data pos (pos + 1) (wires true vs).length 1 :=
      nestedEndLoop_wires vs packable (tail_cons (by decide)) Nat.one_pos members
    rw [List.length_append, List.length_cons] at whole
    have ends : nestedEndLoop data pos (data.length + 1) (pos + 1) 1 =
        .ok (pos + 1 + (wires true vs).length + 1) := by
      obtain ⟨spare, spared⟩ := Nat.exists_eq_add_of_le (show rounds + 2 ≤ data.length + 1 by omega)
      have enough : data.length + 1 = (spare + 1 + 1) + rounds := by omega
      rw [enough, moves, nestedEndLoop_close tail Nat.one_pos closed, nestedEndLoop]
      simp
    simp only [endPosOf, head, ge_iff_le, not_le.mpr inside, if_false]
    rw [length_nested]
    refine ends.trans (congrArg Except.ok ?_)
    omega
  · exact endPosOf_flat _ false packable notNull (fun vs same => nested ⟨vs, same⟩) tail suffix

/-! ## Packing with NULLs last -/

def lastWire : Value → Bytes
  | .null => [nullLastByte]
  | value => value.wire false

def lastWires : List Value → Bytes
  | [] => []
  | value :: vs => lastWire value ++ lastWires vs

/-- Only a null is written differently where it comes last. -/
theorem lastWire_eq (notNull : value ≠ .null) : lastWire value = value.wire false := by
  cases value with
  | null => exact absurd rfl notNull
  | _ => rfl

private theorem packNullsLast_cons {element : Element} (notNull : element ≠ .null) (t : List Element) :
    packNullsLast (element :: t) = (do
      let packed ← Tuple.pack [element]
      .ok (packed ++ (← packNullsLast t))) := by
  cases element with
  | null => exact absurd rfl notNull
  | _ => rfl

variable {t : List Element}

private theorem packNullsLast_eq (packable : packables (values t) = true) : packNullsLast t = .ok (lastWires (values t)) := by
  induction t with
  | nil => rfl
  | cons element t ih =>
    simp only [values, packables, Bool.and_eq_true] at packable
    by_cases null : element = .null
    · rw [null, packNullsLast, ih packable.2]
      rfl
    · have valueNotNull : element.value ≠ .null := by
        cases element with
        | null => exact absurd rfl null
        | _ => nofun
      have one : packables (values [element]) = true := by
        simp [values, packables, packable.1]
      rw [packNullsLast_cons null, pack_eq one, ih packable.2]
      simp [bind, Except.bind, values, wires, lastWires, lastWire_eq valueNotNull]

/-- No element starts with the byte 0xFF. -/
theorem lastWire_head (value : Value) : ∃ code rest, lastWire value = code :: rest ∧ code < 0xFF := by
  by_cases null : value = .null
  · exact ⟨_, _, by rw [null]; rfl, by decide⟩
  · obtain ⟨code, more, wire, low⟩ := wire_head false value
    exact ⟨code, more, (lastWire_eq null).trans wire, low⟩

theorem lastWires_tail (vs : List Value) : Tail (lastWires vs) := by
  cases vs with
  | nil => simp [lastWires, Tail]
  | cons value vs =>
    obtain ⟨code, more, wire, low⟩ := lastWire_head value
    rw [lastWires, wire]
    exact tail_cons low

private theorem unpack_element (packable : value.packable = true) : Tuple.unpack (value.wire false) = .ok [value.element] := by
  have one : packables [value] = true := by simp [packables, packable]
  simpa [wires, elements] using unpack_wires one

theorem wire_below_nullLast (nested : Bool) (value : Value) :
    ∃ code rest, value.wire nested = code :: rest ∧ code < nullLastByte := by
  obtain ⟨code, rest, wire, _, high⟩ := wire_code nested value
  have table : ∀ kind ≤ 10, (kindCodes kind).2 < nullLastByte := by decide +kernel
  exact ⟨code, rest, wire, lt_of_le_of_lt high (table _ value.kind_le)⟩

private theorem unpackNullsLastLoop_eq (vs : List Value) (packable : packables vs = true) {rounds : Nat}
    (enough : vs.length < rounds) (suffix : data.drop pos = lastWires vs) :
    unpackNullsLastLoop data rounds pos = .ok (elements vs) := by
  induction vs generalizing rounds pos with
  | nil =>
    cases rounds with
    | zero => exact absurd enough (Nat.not_lt_zero _)
    | succ rounds =>
      have past : ¬ pos < data.length := not_lt.mpr (List.drop_eq_nil_iff.mp suffix)
      rw [unpackNullsLastLoop, if_neg past]
      rfl
  | cons value vs ih =>
    cases rounds with
    | zero => exact absurd enough (Nat.not_lt_zero _)
    | succ rounds =>
      have fewer : vs.length < rounds := Nat.lt_of_succ_lt_succ enough
      simp only [packables, Bool.and_eq_true] at packable
      by_cases null : value = .null
      · subst null
        obtain ⟨inside, head, next, _⟩ := @drop_cons _ _ _ nullLastByte suffix
        rw [unpackNullsLastLoop, if_pos inside, if_pos head, ih packable.2 fewer next]
        rfl
      · rw [lastWires, lastWire_eq null] at suffix
        have ends := elementEndPos_wire packable.1 null (lastWires_tail vs) suffix
        have element : (data.take (pos + (value.wire false).length)).drop pos = value.wire false := by
          rw [List.drop_take, Nat.add_sub_cancel_left, suffix, List.take_left']
          rfl
        obtain ⟨code, more, wire, low⟩ := wire_below_nullLast false value
        have start := suffix
        rw [wire] at start
        obtain ⟨inside, head, _, _⟩ := drop_cons start
        have notLast : data.getD pos 0 ≠ nullLastByte := by
          rw [head]
          exact ne_of_lt low
        rw [unpackNullsLastLoop, if_pos inside, if_neg notLast, ends]
        simp only [element, unpack_element packable.1, ih packable.2 fewer (drop_append suffix), bind, Except.bind]
        rfl

private theorem length_le_lastWires (vs : List Value) : vs.length ≤ (lastWires vs).length := by
  induction vs with
  | nil => exact le_rfl
  | cons value vs ih =>
    obtain ⟨code, more, wire, _⟩ := lastWire_head value
    rw [lastWires, wire, List.length_append, List.length_cons, List.length_cons]
    omega

private theorem unpackNullsLast_eq (packable : packables vs = true) : unpackNullsLast (lastWires vs) = .ok (elements vs) :=
  unpackNullsLastLoop_eq vs packable (Nat.lt_succ_of_le (length_le_lastWires vs)) rfl

/-! ## The order of a direction -/

def compareTop (nullsLast : Bool) (value other : Value) : Ordering :=
  if nullsLast then
    match value, other with
    | .null, .null => .eq
    | .null, _ => .gt
    | _, .null => .lt
    | value, other => value.compare other
  else value.compare other

/-- The lexicographic order of tuples, NULLs of the top level first or last. -/
def compareTuples (nullsLast : Bool) : List Value → List Value → Ordering
  | [], [] => .eq
  | [], _ :: _ => .lt
  | _ :: _, [] => .gt
  | value :: vs, other :: others =>
    (compareTop nullsLast value other).then (compareTuples nullsLast vs others)

/-- The order of tuples in a direction: reversed as a whole when inverted. -/
def Direction.compare (dir : Direction) (vs others : List Value) : Ordering :=
  if dir.inverted then (compareTuples dir.counterflowNulls vs others).swap
  else compareTuples dir.counterflowNulls vs others

private theorem compareTuples_false (vs others : List Value) : compareTuples false vs others = compareValues vs others := by
  induction vs generalizing others with
  | nil => cases others <;> rfl
  | cons value vs ih =>
    cases others with
    | nil => rfl
    | cons other others => rw [compareTuples, compareValues, ih]; rfl

private theorem compareTop_true (notNull : value ≠ .null) (otherNotNull : other ≠ .null) :
    compareTop true value other = value.compare other := by
  unfold compareTop
  rw [if_pos rfl]
  split
  · exact absurd rfl notNull
  · exact absurd rfl notNull
  · exact absurd rfl otherNotNull
  · rfl

private theorem compareTop_null (otherNotNull : other ≠ .null) :
    compareTop true .null other = .gt ∧ compareTop true other .null = .lt := by
  cases other with
  | null => exact absurd rfl otherNotNull
  | _ => exact ⟨rfl, rfl⟩

private theorem lastWire_null_gt (notNull : other ≠ .null) (rest otherRest : Bytes) :
    lastWire other ++ otherRest < lastWire .null ++ rest := by
  obtain ⟨code, more, wire, low⟩ := wire_below_nullLast false other
  rw [lastWire_eq notNull, wire]
  exact cons_lt_cons.mpr (Or.inl low)

private theorem cmp_lastWires (vs others : List Value) (packable : packables vs = true)
    (otherPackable : packables others = true) :
    cmp (lastWires vs) (lastWires others) = compareTuples true vs others := by
  have nonempty (value : Value) (rest : Bytes) : [] < lastWire value ++ rest := by
    obtain ⟨code, more, wire, _⟩ := lastWire_head value
    rw [wire]
    exact FdbGo.Client.nil_lt_cons _ _
  induction vs generalizing others with
  | nil =>
    cases others with
    | nil => exact cmp_self_eq_eq _
    | cons other others => exact (nonempty other (lastWires others)).cmp_eq_lt
  | cons value vs ih =>
    cases others with
    | nil => exact (nonempty value (lastWires vs)).cmp_eq_gt
    | cons other others =>
      simp only [packables, Bool.and_eq_true] at packable otherPackable
      rw [lastWires, lastWires, compareTuples]
      by_cases null : value = .null <;> by_cases otherNull : other = .null
      · rw [null, otherNull, cmp_append_left, ih others packable.2 otherPackable.2]
        rfl
      · rw [null, (compareTop_null otherNull).1]
        exact (lastWire_null_gt otherNull _ _).cmp_eq_gt
      · rw [otherNull, (compareTop_null null).2]
        exact (lastWire_null_gt null _ _).cmp_eq_lt
      · rw [lastWire_eq null, lastWire_eq otherNull, compareTop_true null otherNull,
          cmp_wire false value other packable.1 otherPackable.1 (lastWires_tail vs)
            (lastWires_tail others), ih others packable.2 otherPackable.2]

/-! ## The directions -/

def flowWires (dir : Direction) (vs : List Value) : Bytes :=
  if dir.counterflowNulls then lastWires vs else wires false vs

def directionWires (dir : Direction) (vs : List Value) : Bytes :=
  if dir.inverted then packBits (flipped (flowWires dir vs)) else flowWires dir vs

private theorem pack_eq_flow (packable : packables (values t) = true) (dir : Direction) :
    pack t dir = .ok (directionWires dir (values t)) := by
  have flow : (if dir.counterflowNulls then packNullsLast t else Tuple.pack t) =
      .ok (flowWires dir (values t)) := by
    rw [packNullsLast_eq packable, Tuple.pack_eq packable, flowWires]
    split <;> rfl
  rw [pack, flow, directionWires]
  cases dir.inverted with
  | true => simp only [if_true, invert_eq]
  | false => rfl

private theorem unpack_flow (packable : packables vs = true) (dir : Direction) :
    unpack (directionWires dir vs) dir = .ok (elements vs) := by
  have data : (if dir.inverted then uninvert (directionWires dir vs) else .ok (directionWires dir vs)) =
      .ok (flowWires dir vs) := by
    rw [directionWires]
    cases dir.inverted with
    | true => simp only [if_true, uninvert_invert]
    | false => rfl
  rw [unpack, data, flowWires]
  cases dir.counterflowNulls with
  | true => simp only [if_true, unpackNullsLast_eq packable]
  | false => simp only [Bool.false_eq_true, if_false, unpack_wires packable]

private theorem cmp_flowWires (dir : Direction) {others : List Value} (packable : packables vs = true)
    (otherPackable : packables others = true) :
    cmp (flowWires dir vs) (flowWires dir others) = compareTuples dir.counterflowNulls vs others := by
  unfold flowWires
  cases dir.counterflowNulls with
  | true => exact cmp_lastWires vs others packable otherPackable
  | false => exact (cmp_packed vs others packable otherPackable).trans (compareTuples_false _ _).symm

/-- In each direction packing round-trips and orders the packed bytes as that
direction orders tuples; inversion is undone, reverses the order of all byte
strings, and undoing it never panics. -/
theorem directions_order_tuples :
    (∀ (t : List Element) (dir : Direction), packables (values t) = true →
      ∃ packed back, pack t dir = .ok packed ∧ unpack packed dir = .ok back ∧
        values back = values t) ∧
    (∀ (a b : List Element) (dir : Direction), packables (values a) = true →
      packables (values b) = true → ∃ packed otherPacked, pack a dir = .ok packed ∧
        pack b dir = .ok otherPacked ∧
        cmp packed otherPacked = dir.compare (values a) (values b)) ∧
    (∀ x, ∃ inverted, invert x = some inverted ∧ uninvert inverted = .ok x) ∧
    (∀ x y inverted otherInverted, invert x = some inverted → invert y = some otherInverted →
      x < y → otherInverted < inverted) ∧
    ∀ bytes, uninvert bytes ≠ .panic := by
  refine ⟨fun t dir packable => ?_, fun a b dir packable otherPackable => ?_, fun x => ?_, ?_,
    uninvert_ne_panic⟩
  · exact ⟨_, elements (values t), pack_eq_flow packable dir, unpack_flow packable dir,
      values_elements _⟩
  · refine ⟨_, _, pack_eq_flow packable dir, pack_eq_flow otherPackable dir, ?_⟩
    unfold Direction.compare directionWires
    cases dir.inverted with
    | true =>
      simp only [if_true]
      rw [cmp_inverted, cmp_flowWires dir packable otherPackable]
    | false => exact cmp_flowWires dir packable otherPackable
  · exact ⟨_, invert_eq x, uninvert_invert x⟩
  · intro x y inverted otherInverted first second less
    rw [invert_eq, Option.some.injEq] at first second
    rw [← first, ← second, ← cmp_eq_lt_iff, cmp_inverted, less.cmp_eq_gt]
    rfl

/-- A tuple and its extension by NULL, descending with NULLs first. -/
theorem directions_order_tuples_descending :
    ∃ packed otherPacked, pack [.string [0x61]] descNullsFirst = .ok packed ∧
      pack [.string [0x61], .null] descNullsFirst = .ok otherPacked ∧
      cmp packed otherPacked =
        descNullsFirst.compare (values [.string [0x61]]) (values [.string [0x61], .null]) :=
  directions_order_tuples.2.1 _ _ descNullsFirst (by decide +kernel) (by decide +kernel)

end FdbGo.Tuple.TupleOrdering
