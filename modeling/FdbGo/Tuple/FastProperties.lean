import FdbGo.Foundation.Outcome
import FdbGo.Tuple.Fast
import FdbGo.Tuple.Wire

/-! The fast decoder, its validator and its skipper agree with the reference
decoder on every byte string. -/

set_option autoImplicit false

namespace FdbGo.Tuple.Fast

open Client (Bytes)
open Foundation

/-! ## The reference decoder makes progress -/

def size : Round → Nat
  | .element _ off => off
  | .finish off => off

variable {rounds : Nat} {b : Bytes}

private theorem findTerminatorLoop_lt {length terminator : Nat} (found : findTerminatorLoop rounds b length = some terminator) :
    terminator < length + b.length := by
  induction rounds generalizing b length with
  | zero => cases found
  | succ rounds ih =>
    unfold findTerminatorLoop at found
    cases zero : b.idxOf? 0x00 with
    | none => rw [zero] at found; cases found
    | some idx =>
      have inside : idx < b.length := by
        obtain ⟨before, after, rfl, rfl, _⟩ := idxOf?_split zero
        rw [List.length_append, List.length_cons]
        omega
      rw [zero] at found
      by_cases ends : idx + 1 = b.length ∨ b.getD (idx + 1) 0 ≠ 0xFF
      · simp only [ends, if_true, Option.some.injEq] at found
        omega
      · simp only [ends, if_false] at found
        have rest := ih found
        rw [List.length_drop] at rest
        omega

private theorem decodeBytes_progress (b : Bytes) :
    Progress DecodeError.outOfRounds Prod.snd b.length (Tuple.decodeBytes b) := by
  unfold Tuple.decodeBytes
  cases found : findTerminator (b.drop 1) with
  | none => exact .error nofun
  | some idx =>
    have inside := findTerminatorLoop_lt found
    rw [List.length_drop] at inside
    exact .ok (Nat.succ_pos _) (by simp only; omega)

private theorem decodeInt_progress (nonempty : b ≠ []) : Progress DecodeError.outOfRounds Prod.snd b.length (decodeInt b) := by
  refine .ite (fun _ => .ok Nat.one_pos (List.length_pos_iff.mpr nonempty)) fun _ =>
    .ite (fun _ => .error nofun) fun room => ?_
  have within := not_lt.mp room
  exact .ite (fun _ => .ok (Nat.succ_pos _) within) fun _ =>
    .ite (fun _ => .ok (Nat.succ_pos _) within) fun _ => .ok (Nat.succ_pos _) within

private theorem bigIntFrame_progress (b : Bytes) :
    (∃ cause, Tuple.bigIntFrame b = .error cause ∧ cause ≠ .outOfRounds) ∨
      ∃ length offset, Tuple.bigIntFrame b = .ok (length, offset) ∧ 0 < offset := by
  unfold Tuple.bigIntFrame
  by_cases code : b.headD 0 = negIntStart ∨ b.headD 0 = posIntEnd
  · by_cases short : b.length < 2
    · simp only [code, short, if_true]
      exact Or.inl ⟨_, rfl, nofun⟩
    · simp only [code, short, if_true, if_false]
      exact Or.inr ⟨_, _, rfl, Nat.two_pos⟩
  · exact Or.inr ⟨8, 1, by simp only [code, if_false], Nat.one_pos⟩

private theorem decodeBigInt_progress (b : Bytes) : Progress DecodeError.outOfRounds Prod.snd b.length (decodeBigInt b) := by
  unfold decodeBigInt
  rcases bigIntFrame_progress b with ⟨cause, frame, other⟩ | ⟨length, offset, frame, positive⟩
  · simp only [frame, bind, Except.bind]
    exact .error other
  · simp only [frame, bind, Except.bind]
    refine .ite (fun _ => .error nofun) fun room => ?_
    have within := not_lt.mp room
    exact .ite (fun _ => .ok (Nat.add_pos_right _ positive) within)
      fun _ => .ok (Nat.add_pos_right _ positive) within

theorem decodeRound_progress (decodeNested : Bytes → Except DecodeError (List Element × Nat))
    (nested : Bool) (nonempty : b ≠ []) (i : Nat)
    (inner : Progress .outOfRounds (fun result => result.2 + 1) b.length (decodeNested (b.drop 1))) :
    Progress .outOfRounds size b.length (decodeRound decodeNested nested b i) := by
  have positive := List.length_pos_iff.mpr nonempty
  have one (el : Element) : Progress DecodeError.outOfRounds size b.length (.ok (.element el 1)) :=
    .ok Nat.one_pos positive
  have bytes := decodeBytes_progress b
  have int := decodeInt_progress nonempty
  have bigInt := decodeBigInt_progress b
  unfold decodeRound
  generalize Tuple.decodeBytes b = refBytes at bytes ⊢
  generalize decodeInt b = refInt at int ⊢
  generalize decodeBigInt b = refBigInt at bigInt ⊢
  refine .ite (fun _ => .ite (fun _ => one _) fun _ => .ite (fun two => .ok Nat.two_pos two.1)
      fun _ => .ok Nat.one_pos positive)
    fun _ => .ite (fun _ => ?bytes) fun _ => .ite (fun _ => ?string) fun _ => .ite (fun _ => ?int)
    fun _ => .ite (fun _ => ?edge) fun _ => .ite (fun _ => ?bigInt)
    fun _ => .ite (fun _ => .ite (fun _ => .error nofun)
      fun room => .ok (Nat.succ_pos _) (not_lt.mp room))
    fun _ => .ite (fun _ => .ite (fun _ => .error nofun)
      fun room => .ok (Nat.succ_pos _) (not_lt.mp room))
    fun _ => .ite (fun _ => one _) fun _ => .ite (fun _ => one _)
    fun _ => .ite (fun _ => .ite (fun _ => .error nofun)
      fun room => .ok (Nat.succ_pos _) (not_lt.mp room))
    fun _ => .ite (fun _ => .ite (fun _ => .error nofun)
      fun room => .ok (Nat.succ_pos _) (not_lt.mp room))
    fun _ => .ite (fun _ => ?inner) fun _ => .error nofun
  case bytes | string =>
    cases bytes with
    | error => exact .error nofun
    | ok positive within => exact .ok positive within
  case int | edge =>
    cases int with
    | error => exact .error nofun
    | ok positive within => exact .ok positive within
  case bigInt =>
    cases bigInt with
    | error => exact .error nofun
    | ok positive within => exact .ok positive within
  case inner =>
    generalize decodeNested (b.drop 1) = result at inner ⊢
    cases inner with
    | error other => exact .error other
    | ok positive within => exact .ok positive within

variable (nested : Bool)

/-- Enough rounds: the loop ends for a reason of its own, within the bytes left. -/
theorem decodeLoop_progress (enough : b.length < rounds) (i : Nat) :
    Progress .outOfRounds (fun result => result.2 + 1) (i + b.length + 1)
      (decodeLoop rounds nested b i) := by
  induction rounds generalizing nested b i with
  | zero => exact absurd enough (Nat.not_lt_zero _)
  | succ rounds ih =>
    unfold decodeLoop
    refine .ite (fun _ => .ok (Nat.succ_pos _) (by simp only; omega)) fun nonempty => ?_
    have positive := List.length_pos_iff.mpr nonempty
    have inner := ih true (b := b.drop 1) (by rw [List.length_drop]; omega) 0
    have room : 0 + (b.drop 1).length + 1 = b.length := by rw [List.length_drop]; omega
    rw [room] at inner
    have round := decodeRound_progress (fun rest => decodeLoop rounds true rest 0) nested nonempty
      i inner
    generalize decodeRound _ nested b i = outcome at round ⊢
    cases round with
    | error other => exact .error other
    | @ok result takes within =>
      cases result with
      | finish off =>
        simp only [size] at takes within
        exact .ok (Nat.succ_pos _) (by simp only; omega)
      | element el off =>
        simp only [size] at takes within
        have others := ih nested (b := b.drop off) (by rw [List.length_drop]; omega) (i + off)
        simp only
        generalize decodeLoop rounds nested (b.drop off) (i + off) = outcome at others ⊢
        cases others with
        | error other => exact .error other
        | ok positive bounded =>
          refine .ok positive ?_
          rw [List.length_drop] at bounded
          simp only at bounded ⊢
          omega

/-- Every round of the decoder consumes input, so the rounds suffice. -/
theorem round_progress (nonempty : b ≠ []) (enough : b.length ≤ rounds) (i : Nat) :
    Progress .outOfRounds size b.length
      (decodeRound (fun rest => decodeLoop rounds true rest 0) nested b i) := by
  have positive := List.length_pos_iff.mpr nonempty
  have room : 0 + (b.drop 1).length + 1 = b.length := by rw [List.length_drop]; omega
  have inner := decodeLoop_progress true (show (b.drop 1).length < rounds by omega) 0
  rw [room] at inner
  exact decodeRound_progress (fun rest => decodeLoop rounds true rest 0) nested nonempty i inner

/-! ## The decoder -/

/-- The scanner runs out of rounds only where the reference decoder does. -/
def Exhausts (cause : FastError) (otherCause : DecodeError) : Prop :=
  cause = .outOfRounds → otherCause = .outOfRounds

/-- The failure of one element, which takes no rounds. -/
def OwnCause (cause : FastError) (_ : DecodeError) : Prop := cause ≠ .outOfRounds

private theorem sizeLimits_getD (n : Nat) : sizeLimits.getD n 0 = (Tuple.sizeLimits.getD n 0).toInt64 := by
  have same : sizeLimits = Tuple.sizeLimits.map UInt64.toInt64 := by decide +kernel
  rw [same, List.getD_eq_getElem?_getD, List.getD_eq_getElem?_getD, List.getElem?_map]
  cases Tuple.sizeLimits[n]? with
  | none => rfl
  | some limit => rfl

/-- The fast decoder of integers agrees with the general one. -/
theorem fastDecodeInt_agrees (b : Bytes) : Agree OwnCause Eq (fastDecodeInt b) (decodeInt b) := by
  simp only [fastDecodeInt, decodeInt, sizeLimits_getD, Nat.add_comm 1]
  refine .ite (fun _ => .ok rfl) fun _ => .ite (fun _ => .error nofun) fun _ => ?_
  exact .ite (fun _ => .ok rfl) fun _ => .ite (fun _ => .ok rfl) fun _ => .ok rfl

private theorem findTerminator_short (short : b.length < 2) : findTerminator (b.drop 1) = none := by
  have empty : b.drop 1 = [] := List.drop_eq_nil_of_le (by omega)
  rw [empty]
  rfl

theorem decodeBytes_agrees (b : Bytes) : Agree OwnCause Eq (decodeBytes b) (Tuple.decodeBytes b) := by
  unfold decodeBytes Tuple.decodeBytes
  by_cases short : b.length < 2
  · rw [if_pos short, findTerminator_short short]
    exact .error nofun
  · rw [if_neg short]
    cases findTerminator (b.drop 1) with
    | none => exact .error nofun
    | some idx => exact .ok rfl

private theorem bigIntFrame_agrees (long : ¬ b.length < 2) : Tuple.bigIntFrame b = .ok (bigIntFrame b) := by
  unfold Tuple.bigIntFrame bigIntFrame
  simp only [long, if_false]
  split <;> rfl

private theorem decodeBigInt_short (short : b.length < 2) : ∃ cause, decodeBigInt b = .error cause := by
  unfold decodeBigInt Tuple.bigIntFrame
  by_cases code : b.headD 0 = negIntStart ∨ b.headD 0 = posIntEnd
  · simp only [code, if_true, short]
    exact ⟨_, rfl⟩
  · have truncated : 8 + 1 > b.length := by omega
    simp only [code, if_false, bind, Except.bind, truncated, if_true]
    exact ⟨_, rfl⟩

theorem fastDecodeBigInt_agrees (b : Bytes) : Agree OwnCause Eq (fastDecodeBigInt b) (decodeBigInt b) := by
  unfold fastDecodeBigInt
  by_cases short : b.length < 2
  · obtain ⟨cause, refused⟩ := decodeBigInt_short short
    rw [if_pos short, refused]
    exact .error nofun
  · rw [if_neg short]
    simp only [decodeBigInt, bigIntFrame_agrees short, bind, Except.bind,
      Nat.add_comm (bigIntFrame b).2]
    exact .ite (fun _ => .error nofun) fun _ => .ite (fun _ => .ok rfl) fun _ => .ok rfl

variable {decodeNested : Bytes → Except DecodeError (List Element × Nat)}
    {fastNested : Bytes → Except FastError (List Element × Nat)}

private theorem fastDecodeRound_agrees (agree : ∀ rest, Agree Exhausts Eq (fastNested rest) (decodeNested rest))
    (nested : Bool) (b : Bytes) (i : Nat) :
    Agree Exhausts Eq (fastDecodeRound fastNested nested b i) (decodeRound decodeNested nested b i) := by
  have bytes := decodeBytes_agrees b
  have int := fastDecodeInt_agrees b
  have bigInt := fastDecodeBigInt_agrees b
  have inner := agree (b.drop 1)
  unfold fastDecodeRound decodeRound
  generalize decodeBytes b = fastBytes, Tuple.decodeBytes b = refBytes at bytes ⊢
  generalize fastDecodeInt b = fastInt, decodeInt b = refInt at int ⊢
  generalize fastDecodeBigInt b = fastBigInt, decodeBigInt b = refBigInt at bigInt ⊢
  generalize fastNested (b.drop 1) = fastInner, decodeNested (b.drop 1) = refInner at inner ⊢
  refine .ite (fun _ => .ite (fun _ => .ok rfl) fun _ => .ite (fun _ => .ok rfl) fun _ => .ok rfl)
    fun _ => .ite (fun _ => ?bytes) fun _ => .ite (fun _ => ?string) fun _ => .ite (fun _ => ?int)
    fun _ => .ite (fun _ => ?edge) fun _ => .ite (fun _ => ?bigInt)
    fun _ => .ite (fun _ => .ite (fun _ => .error nofun) fun _ => .ok rfl)
    fun _ => .ite (fun _ => .ite (fun _ => .error nofun) fun _ => .ok rfl)
    fun _ => .ite (fun _ => .ok rfl) fun _ => .ite (fun _ => .ok rfl)
    fun _ => .ite (fun _ => .ite (fun _ => .error nofun) fun _ => .ok rfl)
    fun _ => .ite (fun _ => .ite (fun _ => .error nofun) fun _ => .ok rfl)
    fun _ => .ite (fun _ => ?inner) fun _ => .error nofun
  case bytes | string =>
    cases bytes with
    | error own => exact .error fun same => absurd same own
    | ok same => exact .ok (by rw [same])
  case int | edge =>
    cases int with
    | error own => exact .error fun same => absurd same own
    | ok same => exact .ok (by rw [same])
  case bigInt =>
    cases bigInt with
    | error own => exact .error fun same => absurd same own
    | ok same => exact .ok (by rw [same])
  case inner =>
    cases inner with
    | error causes => exact .error causes
    | ok same => exact .ok (by rw [same])

theorem fastDecodeLoop_agrees (rounds : Nat) (nested : Bool) (b : Bytes) (i : Nat) :
    Agree Exhausts Eq (fastDecodeLoop rounds nested b i) (decodeLoop rounds nested b i) := by
  induction rounds generalizing nested b i with
  | zero => exact .error fun _ => rfl
  | succ rounds ih =>
    have round := fastDecodeRound_agrees (fun rest => ih true rest 0) nested b i
    unfold fastDecodeLoop decodeLoop
    refine .ite (fun _ => .ok rfl) fun _ => ?_
    generalize fastDecodeRound _ nested b i = fastRound, decodeRound _ nested b i = refRound
      at round ⊢
    cases round with
    | error causes => exact .error causes
    | @ok fastRound _ same =>
      subst same
      cases fastRound with
      | finish off => exact .ok rfl
      | element el off =>
        have others := ih nested (b.drop off) (i + off)
        simp only
        generalize fastDecodeLoop rounds nested (b.drop off) (i + off) = fastRest,
          decodeLoop rounds nested (b.drop off) (i + off) = refRest at others ⊢
        cases others with
        | error causes => exact .error causes
        | ok same => exact .ok (by rw [same])

/-! ## The validator -/

def frame : Round → Frame
  | .element _ off => .element off
  | .finish off => .finish off

/-! The validator fails where the fast decoder does, with its error, and takes as much. -/

def sizeFrame {Result : Type} (result : Result × Nat) : Frame := .element result.2

theorem validateBytes_eq (b : Bytes) : validateBytes b = (decodeBytes b).map sizeFrame := by
  unfold validateBytes decodeBytes
  by_cases short : b.length < 2
  · rw [if_pos short, if_pos short]
    rfl
  · rw [if_neg short, if_neg short]
    cases findTerminator (b.drop 1) with
    | none => rfl
    | some idx => rfl

theorem validateInt_eq (nonempty : b ≠ []) : validateInt b = (fastDecodeInt b).map sizeFrame := by
  have positive := List.length_pos_iff.mpr nonempty
  simp only [validateInt, fastDecodeInt]
  by_cases zero : b.headD 0 = intZeroCode
  · have width : (if intZeroCode < intZeroCode then 0x14 - intZeroCode.toNat
        else intZeroCode.toNat - 0x14) = 0 := rfl
    rw [zero, if_pos rfl, width, if_neg (by omega)]
    rfl
  · rw [if_neg zero]
    simp only [apply_ite (Except.map sizeFrame)]
    simp only [Except.map, sizeFrame, ite_self]

theorem validateBigInt_eq (b : Bytes) : validateBigInt b = (fastDecodeBigInt b).map sizeFrame := by
  simp only [validateBigInt, fastDecodeBigInt, apply_ite (Except.map sizeFrame), Nat.add_comm (bigIntFrame b).2]
  simp only [Except.map, sizeFrame, ite_self]

private theorem validateRound_eq {validateNested : Bytes → Except FastError Nat}
    (same : ∀ rest, validateNested rest = (fastNested rest).map Prod.snd) (nested : Bool) (nonempty : b ≠ [])
    (i : Nat) : validateRound validateNested nested b i = (fastDecodeRound fastNested nested b i).map frame := by
  simp only [validateRound, fastDecodeRound, validateBytes_eq, validateInt_eq nonempty, validateBigInt_eq, same,
    apply_ite (Except.map frame), ite_or]
  cases decodeBytes b <;> cases fastDecodeInt b <;> cases fastDecodeBigInt b <;> cases fastNested (b.drop 1) <;> rfl

theorem validateLoop_eq (rounds : Nat) (nested : Bool) (b : Bytes) (i : Nat) :
    validateLoop rounds nested b i = (fastDecodeLoop rounds nested b i).map Prod.snd := by
  induction rounds generalizing nested b i with
  | zero => rfl
  | succ rounds ih =>
    unfold validateLoop fastDecodeLoop
    by_cases empty : b = []
    · rw [if_pos empty, if_pos empty]
      rfl
    · rw [if_neg empty, if_neg empty, validateRound_eq (fun rest => ih true rest 0) nested empty i]
      cases fastDecodeRound _ nested b i with
      | error cause => rfl
      | ok round =>
        cases round with
        | finish off => rfl
        | element el off =>
          simp only [Except.map, frame, ih]
          cases fastDecodeLoop rounds nested (b.drop off) (i + off) <;> rfl

end FdbGo.Tuple.Fast
