import FdbGo.Tuple.FastProperties

/-! Skipping the first element agrees with decoding it, and the three scanners
agree with the reference decoder on every byte string. -/

set_option autoImplicit false

namespace FdbGo.Tuple.Fast

open Client (Bytes)
open Foundation

/-- The first element of `b`, as the reference decoder reads it at the top level. -/
def firstElement (b : Bytes) : Except DecodeError Round :=
  decodeRound (fun rest => decodeLoop b.length true rest 0) false b 0

/-- A skipper's answer and the round it skips. -/
inductive Skips : Option Int → Except DecodeError Round → Prop where
  | exhausted : Skips none (.error .outOfRounds)
  | error {cause : DecodeError} : Skips (some (-1)) (.error cause)
  | element {el : Element} {off : Nat} : Skips (some off) (.ok (.element el off))

theorem Skips.ite {condition : Prop} [Decidable condition] {first second : Option Int}
    {otherFirst otherSecond : Except DecodeError Round}
    (yes : condition → Skips first otherFirst) (no : ¬ condition → Skips second otherSecond) :
    Skips (if condition then first else second)
      (if condition then otherFirst else otherSecond) :=
  ite_related yes no

/-- A skipper's answer and the nested tuple it skips, with its type code. -/
inductive SkipsTuple : Option Int → Except DecodeError (List Element × Nat) → Prop where
  | exhausted : SkipsTuple none (.error .outOfRounds)
  | error {cause : DecodeError} : SkipsTuple (some (-1)) (.error cause)
  | ok {els : List Element} {off : Nat} : SkipsTuple (some (off + 1)) (.ok (els, off))

def reported : Except FastError Frame → Int
  | .ok (.element off) => off
  | .ok (.finish off) => off
  | .error _ => -1

private theorem skipBytes_eq (b : Bytes) : skipBytes b = reported (validateBytes b) := by
  unfold skipBytes validateBytes
  by_cases short : b.length < 2
  · rw [if_pos short, if_pos short]
    rfl
  · rw [if_neg short, if_neg short]
    cases findTerminator (b.drop 1) with
    | none => rfl
    | some idx => simp only [reported]; omega

private theorem skipInt_eq (b : Bytes) : skipInt b = reported (validateInt b) := by
  simp only [skipInt, validateInt, apply_ite reported]
  rfl

variable {b : Bytes}

/-- The eight-byte negative integer is skipped as an integer and may be decoded
as a big one. -/
theorem skipInt_edge (edge : negIntStart + 1 = b.headD 0) : skipInt b = reported (validateBigInt b) := by
  have frame : bigIntFrame b = (8, 1) := by
    rw [bigIntFrame, ← edge]
    rfl
  have width : (if negIntStart + 1 < intZeroCode then 0x14 - (negIntStart + 1).toNat
      else (negIntStart + 1).toNat - 0x14) = 8 := rfl
  simp only [skipInt, validateBigInt, ← edge, frame, width, apply_ite reported]
  by_cases truncated : b.length < 2
  · rw [if_pos (by omega), if_pos truncated]
    rfl
  · rw [if_neg truncated]
    rfl

private theorem skipBigInt_eq (code : b.headD 0 = negIntStart ∨ b.headD 0 = posIntEnd) :
    skipBigInt b = reported (validateBigInt b) := by
  simp only [skipBigInt, validateBigInt, bigIntFrame, code, if_true, apply_ite reported]
  rfl

/-- The skipper's integer cases, split as the decoder splits them. -/
theorem skipInteger_eq (other : Option Int) :
    (if negIntStart < b.headD 0 ∧ b.headD 0 < posIntEnd then some (skipInt b)
      else if b.headD 0 = negIntStart ∨ b.headD 0 = posIntEnd then some (skipBigInt b) else other) =
    if negIntStart + 1 < b.headD 0 ∧ b.headD 0 < posIntEnd then some (reported (validateInt b))
      else if negIntStart + 1 = b.headD 0 ∧ 1 < b.length ∧ b.getD 1 0 &&& 0x80 ≠ 0 then
        some (reported (validateInt b))
      else if negIntStart ≤ b.headD 0 ∧ b.headD 0 ≤ posIntEnd then some (reported (validateBigInt b))
      else other := by
  have edge := skipInt_edge (b := b)
  have big := skipBigInt_eq (b := b)
  have low : negIntStart = 0x0b := rfl
  have high : posIntEnd = 0x1d := rfl
  rw [← skipInt_eq]
  generalize b.headD 0 = code at edge big ⊢
  split_ifs <;> grind

theorem skipElement_skips (skipNested : Bytes → Option Int)
    (decodeNested : Bytes → Except DecodeError (List Element × Nat)) (nested : Bool) (nonempty : b ≠ []) (i : Nat)
    (inner : SkipsTuple (skipNested b) (decodeNested (b.drop 1))) (plain : nested = false ∨ b.headD 0 ≠ nilCode) :
    Skips (skipElement skipNested b) (decodeRound decodeNested nested b i) := by
  have bytes := (decodeBytes_agrees b).map sizeFrame
  have int := (fastDecodeInt_agrees b).map sizeFrame
  have bigInt := (fastDecodeBigInt_agrees b).map sizeFrame
  rw [← validateBytes_eq] at bytes
  rw [← validateInt_eq nonempty] at int
  rw [← validateBigInt_eq] at bigInt
  simp only [skipElement, skipInteger_eq]
  simp only [decodeRound, skipBytes_eq, or_comm (a := _ = falseCode), ite_or, Nat.add_comm 1]
  generalize validateBytes b = validated, Tuple.decodeBytes b = decoded at bytes ⊢
  generalize validateInt b = validatedInt, decodeInt b = decodedInt at int ⊢
  generalize validateBigInt b = validatedBig, decodeBigInt b = decodedBig at bigInt ⊢
  generalize skipNested b = size, decodeNested (b.drop 1) = decodedNested at inner ⊢
  refine .ite (fun isNil => ?nil) fun _ => .ite (fun _ => ?bytes) fun _ => .ite (fun _ => ?string) fun _ =>
    .ite (fun _ => ?int) fun _ => .ite (fun _ => ?signed) fun _ => .ite (fun _ => ?big) fun _ =>
    .ite (fun _ => .ite (fun _ => .error) fun _ => .element) fun _ =>
    .ite (fun _ => .ite (fun _ => .error) fun _ => .element) fun _ =>
    .ite (fun _ => .element) fun _ => .ite (fun _ => .element) fun _ =>
    .ite (fun _ => .ite (fun _ => .error) fun _ => .element) fun _ =>
    .ite (fun _ => .ite (fun _ => .error) fun _ => .element) fun _ => .ite (fun _ => ?tuple) fun _ => .error
  case nil =>
    rw [plain.resolve_right fun other => other isNil]
    exact .element
  case bytes | string =>
    cases bytes with
    | error => exact .error
    | ok same => rw [same]; exact .element
  case int | signed =>
    cases int with
    | error => exact .error
    | ok same => rw [same]; exact .element
  case big =>
    cases bigInt with
    | error => exact .error
    | ok same => rw [same]; exact .element
  case tuple =>
    cases inner with
    | exhausted => exact .exhausted
    | error => exact .error
    | ok => exact .element

private theorem skipMembers_skips {rounds : Nat} {i : Nat} (inside : i + 1 ≤ b.length) (enough : b.length - (i + 1) < rounds) :
    SkipsTuple (skipMembers rounds b (i + 1)) (decodeLoop rounds true (b.drop (i + 1)) i) := by
  induction rounds generalizing b i with
  | zero => exact absurd enough (Nat.not_lt_zero _)
  | succ rounds ih =>
    have length : (b.drop (i + 1)).length = b.length - (i + 1) := List.length_drop
    simp only [skipMembers, decodeLoop]
    by_cases ends : b.drop (i + 1) = []
    · have last : (b.length : Int) = i + 1 := by
        rw [ends, List.length_nil] at length
        omega
      rw [if_pos ends, if_pos ends, last]
      exact .ok
    have positive := List.length_pos_iff.mpr ends
    rw [if_neg ends, if_neg ends]
    by_cases zero : (b.drop (i + 1)).headD 0 = 0x00
    · have code : (b.drop (i + 1)).headD 0 = nilCode := zero
      rw [if_pos zero]
      simp only [decodeRound, code, if_true, Bool.not_true, Bool.false_eq_true, if_false]
      by_cases escaped : 1 < (b.drop (i + 1)).length ∧ (b.drop (i + 1)).getD 1 0 = 0xff
      · have others := ih (b := b) (i := i + 2) (by omega) (by omega)
        rw [if_pos escaped, if_pos escaped]
        simp only [List.drop_drop, show i + 1 + 2 = i + 2 + 1 by omega]
        generalize skipMembers rounds b (i + 2 + 1) = size,
          decodeLoop rounds true (b.drop (i + 2 + 1)) (i + 2) = rest at others ⊢
        cases others with
        | exhausted => exact .exhausted
        | error => exact .error
        | ok => exact .ok
      · rw [if_neg escaped, if_neg escaped]
        exact .ok
    · rw [if_neg zero]
      have inner : SkipsTuple (skipMembers rounds (b.drop (i + 1)) 1)
          (decodeLoop rounds true ((b.drop (i + 1)).drop 1) 0) :=
        ih (i := 0) (by omega) (by omega)
      have first := skipElement_skips (fun b => skipMembers rounds b 1)
        (fun rest => decodeLoop rounds true rest 0) true ends i inner (Or.inr zero)
      have progress := round_progress true ends (show (b.drop (i + 1)).length ≤ rounds by omega) i
      generalize skipElement (fun b => skipMembers rounds b 1) (b.drop (i + 1)) = size,
        decodeRound (fun rest => decodeLoop rounds true rest 0) true (b.drop (i + 1)) i = round
        at first progress ⊢
      cases first with
      | exhausted => exact .exhausted
      | error => exact .error
      | @element el off =>
        cases progress with
        | ok takes within =>
          simp only [size] at takes within
          have others := ih (b := b) (i := i + off) (by omega) (by omega)
          have moves : ¬ ((off : Int) ≤ 0) := by omega
          have next : i + 1 + off = i + off + 1 := by omega
          simp only [bind, Option.bind, moves, if_false, Int.toNat_natCast, List.drop_drop,
            next]
          generalize skipMembers rounds b (i + off + 1) = size,
            decodeLoop rounds true (b.drop (i + off + 1)) (i + off) = rest at others ⊢
          cases others with
          | exhausted => exact .exhausted
          | error => exact .error
          | ok => exact .ok

theorem skip_first (nonempty : b ≠ []) :
    (∃ cause, skip b = -1 ∧ firstElement b = .error cause) ∨
      ∃ el off, 0 < off ∧ skip b = (off : Nat) ∧ firstElement b = .ok (.element el off) := by
  have positive := List.length_pos_iff.mpr nonempty
  have inner : SkipsTuple (skipMembers b.length b 1) (decodeLoop b.length true (b.drop 1) 0) :=
    skipMembers_skips (i := 0) (by omega) (by omega)
  have first := skipElement_skips (fun b' => skipMembers b.length b' 1)
    (fun rest => decodeLoop b.length true rest 0) false nonempty 0 inner (Or.inl rfl)
  have progress := round_progress false nonempty le_rfl 0
  rw [skip, if_neg nonempty, firstElement]
  generalize skipElement _ b = size, decodeRound _ false b 0 = round at first progress ⊢
  cases first with
  | exhausted =>
    -- the rounds suffice, so the skipper never stops for want of them
    cases progress with
    | error other => exact absurd rfl other
  | error => exact Or.inl ⟨_, rfl, rfl⟩
  | element =>
    cases progress with
    | ok takes => exact Or.inr ⟨_, _, takes, rfl, rfl⟩

theorem unpack_agrees (b : Bytes) :
    (∃ t, unpack b = .ok t ∧ Tuple.unpack b = .ok t ∧ validate b = none) ∨
      ∃ cause otherCause invalid, unpack b = .error cause ∧ cause ≠ .outOfRounds ∧
        Tuple.unpack b = .error otherCause ∧ otherCause ≠ .outOfRounds ∧
        validate b = some invalid ∧ invalid ≠ .outOfRounds := by
  have enough := Nat.lt_succ_self b.length
  have fast := fastDecodeLoop_agrees (b.length + 1) false b 0
  have settles := decodeLoop_progress false enough 0
  unfold unpack Tuple.unpack validate fastDecodeTuple decodeTuple validateTuple
  rw [validateLoop_eq]
  generalize fastDecodeLoop (b.length + 1) false b 0 = fastOutcome at fast ⊢
  generalize decodeLoop (b.length + 1) false b 0 = outcome at fast settles ⊢
  cases fast with
  | error causes =>
    -- the rounds suffice for the reference decoder, so for the scanners too
    cases settles with
    | error other => exact Or.inr ⟨_, _, _, rfl, mt causes other, rfl, other, rfl, mt causes other⟩
  | ok same => exact Or.inl ⟨_, rfl, by rw [same], rfl⟩

/-- The fast decoder, the validator and the skipper agree with the reference
decoder on every byte string, well formed or not. -/
theorem scanners_agree_with_reference (b : Bytes) :
    ((∃ t, unpack b = .ok t ∧ Tuple.unpack b = .ok t) ∨
      ∃ cause otherCause, unpack b = .error cause ∧ cause ≠ .outOfRounds ∧
        Tuple.unpack b = .error otherCause ∧ otherCause ≠ .outOfRounds) ∧
    ((∃ invalid, validate b = some invalid ∧ invalid ≠ .outOfRounds) ↔
      ∃ cause, Tuple.unpack b = .error cause) ∧
    (b ≠ [] → ∀ n : Nat, 0 < n →
      (skip b = n ↔ ∃ el, firstElement b = .ok (.element el n))) := by
  refine ⟨?_, ?_, fun nonempty n positive => ?_⟩
  · rcases unpack_agrees b with ⟨t, fast, reference, _⟩ | ⟨_, _, _, fast, other, reference, refOther, _⟩
    · exact Or.inl ⟨t, fast, reference⟩
    · exact Or.inr ⟨_, _, fast, other, reference, refOther⟩
  · rcases unpack_agrees b with ⟨t, _, reference, valid⟩ | ⟨_, _, _, _, _, reference, _, invalid, other⟩
    · rw [valid, reference]
      exact ⟨nofun, nofun⟩
    · exact ⟨fun _ => ⟨_, reference⟩, fun _ => ⟨_, invalid, other⟩⟩
  · rcases skip_first nonempty with ⟨cause, size, first⟩ | ⟨el, off, _, size, first⟩
    · rw [size, first]
      exact ⟨fun same => absurd same (by omega), fun ⟨_, same⟩ => nomatch same⟩
    · rw [size, first]
      constructor
      · intro same
        exact ⟨el, by rw [Int.ofNat_inj.mp same]⟩
      · rintro ⟨_, same⟩
        cases same
        rfl

/-- A nested tuple with a null and a bytes member, then a truncated integer. -/
theorem scanners_agree_with_reference_truncated :
    skip [0x05, 0x00, 0xff, 0x01, 0x61, 0x00, 0x00, 0x16, 0x07] = (7 : Nat) ↔
      ∃ el, firstElement [0x05, 0x00, 0xff, 0x01, 0x61, 0x00, 0x00, 0x16, 0x07] =
        .ok (.element el 7) :=
  (scanners_agree_with_reference [0x05, 0x00, 0xff, 0x01, 0x61, 0x00, 0x00, 0x16, 0x07]).2.2
    (by decide) 7 (by decide)

end FdbGo.Tuple.Fast
