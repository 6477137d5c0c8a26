import FdbGo.Tuple.FastAgreement

/-! The split of a packed key into its last element, an integer, and the bytes before it.
Decoding looks at no byte past the element it returns, so what comes before the last element
decodes alone to the other elements. -/

set_option autoImplicit false

namespace FdbGo.Tuple.Fast

open Client (Bytes)
open Foundation

inductive SplitError where
  /-- "empty key suffix: no tuple element to parse" -/
  | emptySuffix
  /-- "invalid tuple element at offset %d" -/
  | invalidElement (position : Nat)
  | integer (cause : FastError)
  /-- "suffix is not an integer (typecode 0x%02x)" -/
  | notInteger (code : UInt8)
  /-- The model's own: the loop was given too few rounds. -/
  | outOfRounds
  deriving DecidableEq, Repr

/-- The loop of `SplitKeySuffix`: where the last element starts. -/
def lastStartLoop : Nat → Bytes → Nat → Nat → Except SplitError Nat
  | 0, _, _, _ => .error .outOfRounds
  | rounds + 1, b, pos, lastStart =>
    if pos < b.length then
      let size := skip (b.drop pos)
      if size ≤ 0 then .error (.invalidElement pos) else lastStartLoop rounds b (pos + size.toNat) pos
    else .ok lastStart

def splitKeySuffix (tupleBytes : Bytes) : Except SplitError (Int64 × Nat) :=
  if tupleBytes = [] then .error .emptySuffix
  else
    match lastStartLoop (tupleBytes.length + 1) tupleBytes 0 0 with
    | .error cause => .error cause
    | .ok lastStart =>
      let tc := tupleBytes.getD lastStart 0
      if tc = intZeroCode ∨ negIntStart < tc ∧ tc < posIntEnd then
        match fastDecodeInt (tupleBytes.drop lastStart) with
        | .error cause => .error (.integer cause)
        | .ok (.int64 v, _) => .ok (v, lastStart)
        | .ok (.uint64 v, _) => .ok (v.toInt64, lastStart)
        | .ok _ => .error (.notInteger tc)
      else .error (.notInteger tc)

/-! ## Decoding from a cut string -/

variable {b : Bytes} {k : Nat} {terminator consumed others start j : Nat} {c : Prop}

theorem take_drop_take {size : Nat} (fits : start + size ≤ k) :
    ((b.take k).drop start).take size = (b.drop start).take size := by
  rw [List.drop_take, List.take_take, Nat.min_eq_left (by omega)]

variable {whole : Except DecodeError Round} {rounds length width i : Nat} {nested : Bool}

theorem getD_take (inside : i < k) : (b.take k).getD i 0 = b.getD i 0 := by
  rw [List.getD_eq_getElem?_getD, List.getD_eq_getElem?_getD, List.getElem?_take_of_lt inside]

private theorem copyArray_take (fits : width ≤ k) : copyArray width (b.take k) = copyArray width b :=
  congrArg Vector.ofFn (funext fun i => getD_take (i.isLt.trans_le fits))

theorem headD_take (positive : 0 < k) : (b.take k).headD 0 = b.headD 0 := by
  rw [List.headD_eq_head?_getD, List.headD_eq_head?_getD, List.head?_take, if_neg positive.ne']

private theorem le_findTerminatorLoop (found : findTerminatorLoop rounds b length = some terminator) : length ≤ terminator := by
  induction rounds generalizing b length with
  | zero => cases found
  | succ rounds ih =>
    unfold findTerminatorLoop at found
    split at found
    · cases found
    · split at found
      · cases found
        omega
      · exact Nat.le_trans (by omega) (ih found)

private theorem findTerminatorLoop_take (found : findTerminatorLoop rounds b length = some terminator)
    (inside : terminator < length + k) (enough : (b.take k).length < others) :
    findTerminatorLoop others (b.take k) length = some terminator := by
  induction rounds generalizing b length k others with
  | zero => cases found
  | succ rounds ih =>
    obtain ⟨others, rfl⟩ : ∃ less, others = less + 1 := ⟨others - 1, by omega⟩
    rw [List.length_take] at enough
    rw [findTerminatorLoop] at found ⊢
    cases zero : b.idxOf? 0x00 with
    | none => rw [zero] at found; cases found
    | some idx =>
      obtain ⟨here, isZero, first⟩ := List.idxOf?_eq_some_iff.mp zero
      have zeroCut (reached : idx < k) : (b.take k).idxOf? 0x00 = some idx :=
        List.idxOf?_eq_some_iff.mpr ⟨by rw [List.length_take]; omega, by rw [List.getElem_take]; exact isZero,
          fun j less => by rw [List.getElem_take]; exact first j less⟩
      rw [zero] at found
      dsimp only at found
      split at found
      case isTrue ends =>
        have reached : idx < k := by cases found; omega
        rw [zeroCut reached]
        refine (if_pos ?_).trans found
        rw [List.length_take]
        rcases Nat.lt_or_ge (idx + 1) k with more | last
        · rw [getD_take more]
          exact ends.imp_left fun isLength => by omega
        · exact .inl (by omega)
      case isFalse goesOn =>
        have later := le_findTerminatorLoop found
        rw [not_or, not_not] at goesOn
        have cut : ¬ (idx + 1 = (b.take k).length ∨ (b.take k).getD (idx + 1) 0 ≠ 0xFF) := by
          rw [getD_take (by omega), List.length_take, goesOn.2]
          exact not_or.mpr ⟨by omega, not_not.mpr rfl⟩
        rw [zeroCut (by omega)]
        refine (if_neg cut).trans ?_
        rw [List.drop_take]
        exact ih found (by omega) (by rw [List.length_take, List.length_drop]; omega)

private theorem decodeBytes_take {value : Bytes} {size : Nat} (decoded : Tuple.decodeBytes b = .ok (value, size))
    (fits : size ≤ k) : Tuple.decodeBytes (b.take k) = .ok (value, size) := by
  rw [Tuple.decodeBytes] at decoded ⊢
  cases found : findTerminator (b.drop 1) with
  | none => rw [found] at decoded; cases decoded
  | some idx =>
    rw [found] at decoded
    obtain ⟨rfl, rfl⟩ := Prod.mk.inj (Except.ok.inj decoded)
    have cut : findTerminator ((b.take k).drop 1) = some idx := by
      rw [List.drop_take]
      exact findTerminatorLoop_take found (by omega) (Nat.lt_succ_self _)
    rw [cut]
    dsimp only
    rw [take_drop_take (by omega)]

variable {otherWhole otherCut cut : Except DecodeError Round} {el : Element}

theorem decodeInt_size {size : Nat} (decoded : decodeInt b = .ok (el, size)) (nonzero : b.headD 0 ≠ intZeroCode) :
    size = (if b.headD 0 < intZeroCode then 0x14 - (b.headD 0).toNat else (b.headD 0).toNat - 0x14) + 1 := by
  rw [decodeInt, if_neg nonzero] at decoded
  dsimp only at decoded
  generalize (if b.headD 0 < intZeroCode then _ else _ : Nat) = n at decoded ⊢
  split_ifs at decoded <;> exact (Prod.mk.inj (Except.ok.inj decoded)).2.symm

private theorem decodeInt_take {size : Nat} (decoded : decodeInt b = .ok (el, size)) (fits : size ≤ k) (positive : 0 < k) :
    decodeInt (b.take k) = .ok (el, size) := by
  by_cases zero : b.headD 0 = intZeroCode
  · rw [decodeInt, if_pos zero] at decoded
    rw [decodeInt, headD_take positive, if_pos zero, decoded]
  · have isSize := decodeInt_size decoded zero
    rw [decodeInt, if_neg zero] at decoded
    rw [decodeInt, headD_take positive, if_neg zero]
    dsimp only at decoded ⊢
    generalize (if b.headD 0 < intZeroCode then _ else _ : Nat) = n at decoded isSize ⊢
    split at decoded
    case isTrue short => cases decoded
    case isFalse long =>
      rw [if_neg (by rw [List.length_take]; omega), take_drop_take (by omega)]
      exact decoded

private theorem bigIntFrame_take {offset : Nat} (framed : Tuple.bigIntFrame b = .ok (length, offset)) (fits : offset ≤ k)
    (positive : 0 < k) : Tuple.bigIntFrame (b.take k) = .ok (length, offset) := by
  rw [Tuple.bigIntFrame] at framed ⊢
  rw [headD_take positive]
  dsimp only at framed ⊢
  split at framed
  case isTrue big =>
    rw [if_pos big]
    split at framed
    case isTrue short => cases framed
    case isFalse long =>
      have isOffset := (Prod.mk.inj (Except.ok.inj framed)).2
      rw [if_neg (by rw [List.length_take]; omega), getD_take (by omega)]
      exact framed
  case isFalse small => rw [if_neg small]; exact framed

private theorem decodeBigInt_take {size : Nat} (decoded : decodeBigInt b = .ok (el, size)) (fits : size ≤ k)
    (positive : 0 < k) : decodeBigInt (b.take k) = .ok (el, size) := by
  unfold decodeBigInt at decoded ⊢
  obtain ⟨⟨length, offset⟩, framed, decoded⟩ := bind_eq_ok decoded
  dsimp only at decoded
  split at decoded
  case isTrue short => cases decoded
  case isFalse long =>
    have isSize : size = length + offset := by
      split_ifs at decoded <;> exact (Prod.mk.inj (Except.ok.inj decoded)).2.symm
    rw [headD_take positive, bigIntFrame_take framed (by omega) positive]
    simp only [bind, Except.bind]
    rw [if_neg (by rw [List.length_take]; omega), take_drop_take (by omega)]
    exact decoded

/-- A round that the whole string decodes to within `k` bytes is that of the cut one. -/
def Carries (k : Nat) (whole cut : Except DecodeError Round) : Prop :=
  ∀ round, whole = .ok round → size round ≤ k → cut = .ok round

theorem Carries.refl : Carries k whole whole := fun _ decoded _ => decoded

theorem Carries.ite [Decidable c] (yes : c → Carries k whole cut) (no : ¬ c → Carries k otherWhole otherCut) :
    Carries k (if c then whole else otherWhole) (if c then cut else otherCut) :=
  ite_related yes no

theorem Carries.fixed {cause other : DecodeError} {again : Element} (same : width ≤ k → el = again) :
    Carries k (if width > b.length then .error cause else .ok (.element el width))
      (if width > (b.take k).length then .error other else .ok (.element again width)) := by
  intro round decoded fits
  split at decoded
  · cases decoded
  · obtain rfl := Except.ok.inj decoded
    rw [if_neg (by rw [List.length_take]; simp only [size] at fits; omega), same fits]

/-- A condition on the second byte, under which more than one byte is decoded. -/
theorem Carries.ite_second {cutC : Prop} [Decidable c] [Decidable cutC] (same : 1 < k → (c ↔ cutC))
    (wide : cutC → 1 < k) (long : c → ∀ round, whole = .ok round → 1 < size round) (yes : Carries k whole cut)
    (no : Carries k otherWhole otherCut) :
    Carries k (if c then whole else otherWhole) (if cutC then cut else otherCut) := by
  intro round decoded fits
  by_cases holds : c
  · rw [if_pos holds] at decoded
    rw [if_pos ((same ((long holds round decoded).trans_le fits)).mp holds)]
    exact yes round decoded fits
  · rw [if_neg holds] at decoded
    rw [if_neg fun cutHolds => holds ((same (wide cutHolds)).mpr cutHolds)]
    exact no round decoded fits

private theorem second_take (wide : 1 < k) : (b.take k).getD 1 0 = b.getD 1 0 ∧ (1 < b.length ↔ 1 < (b.take k).length) := by
  rw [getD_take wide, List.length_take]
  exact ⟨rfl, by omega⟩

theorem decodeRound_take {decodeNested others : Bytes → Except DecodeError (List Element × Nat)} (positive : 0 < k)
    (inner : ∀ {els off}, decodeNested (b.drop 1) = .ok (els, off) → off + 1 ≤ k →
      others ((b.take k).drop 1) = .ok (els, off)) :
    Carries k (decodeRound decodeNested nested b i) (decodeRound others nested (b.take k) j) := by
  have wide (two : 1 < (b.take k).length) : 1 < k := by
    rw [List.length_take] at two
    omega
  rw [decodeRound, decodeRound, headD_take positive]
  refine .ite (fun _ => .ite (fun _ => .refl) fun _ => .ite_second (fun two => ?second) (fun escaped => wide escaped.1) ?escaped .refl .refl)
    fun _ => .ite (fun _ => ?bytes) fun _ => .ite (fun _ => ?string) fun _ => .ite (fun _ => ?int)
    fun _ => .ite_second (fun two => ?third) (fun edge => wide edge.2.1) ?edge ?negative <| .ite (fun _ => ?bigInt)
    fun _ => .ite (fun _ => .fixed fun width => ?float) fun _ => .ite (fun _ => .fixed fun width => ?double)
    fun _ => .ite (fun _ => .refl) fun _ => .ite (fun _ => .refl) fun _ => .ite (fun _ => .fixed fun width => ?uuid)
    fun _ => .ite (fun _ => .fixed fun width => ?stamp) fun _ => .ite (fun _ => ?tuple) fun _ round decoded => ?unknown
  case second | third => rw [(second_take two).1, (second_take two).2]
  case escaped =>
    intro _ round decoded
    cases decoded
    exact Nat.one_lt_two
  case edge =>
    intro edge round decoded
    split at decoded
    · cases decoded
    case h_2 off found =>
      cases decoded
      have isSize := decodeInt_size found (by rw [← edge.1]; decide)
      rw [← edge.1] at isSize
      exact (show 1 < off by rw [isSize]; decide)
  case float => rw [decodeFloat, decodeFloat, take_drop_take width]
  case double => rw [decodeDouble, decodeDouble, take_drop_take width]
  case uuid => rw [decodeUUID, decodeUUID, List.drop_take, copyArray_take (by omega)]
  case stamp =>
    have width : 13 ≤ k := width
    rw [decodeVersionstamp, decodeVersionstamp, take_drop_take (by omega), List.drop_take, copyArray_take (by omega)]
  case unknown => cases decoded
  case bytes | string | int | negative | bigInt | tuple =>
    intro round decoded fits
    split at decoded
    · cases decoded
    case h_2 found =>
      cases decoded
      first
        | rw [decodeBytes_take found fits]
        | rw [decodeInt_take found fits positive]
        | rw [decodeBigInt_take found fits positive]
        | rw [inner found fits]

variable {els : List Element}

private theorem le_decodeLoop (decoded : decodeLoop rounds nested b i = .ok (els, consumed)) : i ≤ consumed := by
  induction rounds generalizing b i els with
  | zero => cases decoded
  | succ rounds ih =>
    rw [decodeLoop] at decoded
    split at decoded
    · cases decoded
      exact Nat.le_refl _
    · split at decoded
      · cases decoded
      · cases decoded
        omega
      · split at decoded
        · cases decoded
        · rename_i rest
          cases decoded
          exact Nat.le_trans (by omega) (ih rest)

private theorem decodeLoop_take {used : Nat} (enough : b.length < rounds)
    (decoded : decodeLoop rounds nested b i = .ok (els, consumed)) (isUsed : consumed = i + used) (fits : used ≤ k)
    (more : (b.take k).length < others) : decodeLoop others nested (b.take k) j = .ok (els, j + used) := by
  induction rounds generalizing nested b i j k used consumed els others with
  | zero => cases decoded
  | succ rounds ih =>
    obtain ⟨others, rfl⟩ : ∃ less, others = less + 1 := ⟨others - 1, by omega⟩
    rw [List.length_take] at more
    rw [decodeLoop] at decoded ⊢
    by_cases empty : b = []
    · subst empty
      rw [if_pos rfl] at decoded
      obtain ⟨rfl, same⟩ := Prod.mk.inj (Except.ok.inj decoded)
      obtain rfl : used = 0 := by omega
      rw [List.take_nil, if_pos rfl, Nat.add_zero]
    · have progress : Progress .outOfRounds size b.length
          (decodeRound (fun rest => decodeLoop rounds true rest 0) nested b i) := round_progress nested empty (by omega) i
      have long := List.length_pos_iff.mpr empty
      rw [if_neg empty] at decoded
      cases round : decodeRound (fun rest => decodeLoop rounds true rest 0) nested b i with
      | error cause => rw [round] at decoded; cases decoded
      | ok result =>
        rw [round] at decoded progress
        have cut (positive : 0 < size result) (within : size result ≤ k) :
            b.take k ≠ [] ∧ decodeRound (fun rest => decodeLoop others true rest 0) nested (b.take k) j = .ok result := by
          refine ⟨fun none => ?_, decodeRound_take (by omega) (fun inner fits => ?_) result round within⟩
          · have none := congrArg List.length none
            rw [List.length_take, List.length_nil] at none
            omega
          · rw [List.drop_take, ih (by rw [List.length_drop]; omega) inner (Nat.zero_add _).symm (by omega)
              (by rw [List.length_take, List.length_drop]; omega), Nat.zero_add]
        cases progress with
        | ok positive within =>
          cases result with
          | finish off =>
            obtain ⟨rfl, same⟩ := Prod.mk.inj (Except.ok.inj decoded)
            obtain rfl : off = used := by omega
            obtain ⟨nonempty, cutRound⟩ := cut positive fits
            rw [if_neg nonempty, cutRound]
          | element el off =>
            dsimp only at decoded
            cases rest : decodeLoop rounds nested (b.drop off) (i + off) with
            | error cause => rw [rest] at decoded; cases decoded
            | ok found =>
              rw [rest] at decoded
              obtain ⟨rfl, rfl⟩ := Prod.mk.inj (Except.ok.inj decoded)
              have later := le_decodeLoop rest
              simp only [size] at positive within
              obtain ⟨nonempty, cutRound⟩ := cut positive (by simp only [size]; omega)
              rw [if_neg nonempty, cutRound]
              dsimp only
              rw [List.drop_take, ih (by rw [List.length_drop]; omega) rest (show found.2 = i + off + (used - off) by omega) (by omega)
                (by rw [List.length_take, List.length_drop]; omega)]
              simp only [Except.ok.injEq, Prod.mk.injEq, true_and]
              omega

/-! ## Elements one after the other -/

def Decodes (b : Bytes) (els : List Element) : Prop :=
  ∀ rounds i, b.length < rounds → ∃ consumed, decodeLoop rounds false b i = .ok (els, consumed)

private theorem decodes_nil : Decodes [] [] := by
  intro rounds i enough
  cases rounds with
  | zero => cases enough
  | succ rounds => exact ⟨i, rfl⟩

theorem Decodes.unpack (decodes : Decodes b els) : Tuple.unpack b = .ok els := by
  obtain ⟨consumed, decoded⟩ := decodes (b.length + 1) 0 (Nat.lt_succ_self _)
  rw [Tuple.unpack, decodeTuple, decoded]

variable {el : Element} {off : Nat}

private theorem firstElement_take (nonempty : b ≠ []) (first : firstElement b = .ok (.element el off)) (fits : off ≤ k)
    (positive : 0 < k) (enough : (b.take k).length ≤ rounds) :
    decodeRound (fun rest => decodeLoop rounds true rest 0) false (b.take k) i = .ok (.element el off) := by
  have long := List.length_pos_iff.mpr nonempty
  rw [List.length_take] at enough
  refine decodeRound_take positive (fun inner fits => ?_) _ first fits
  rw [List.drop_take, decodeLoop_take (by rw [List.length_drop]; omega) inner (Nat.zero_add _).symm (by omega)
    (by rw [List.length_take, List.length_drop]; omega), Nat.zero_add]

theorem Decodes.cons {els : List Element} (first : firstElement b = .ok (.element el off)) (nonempty : b ≠ [])
    (fits : off ≤ k) (positive : 0 < off) (rest : Decodes ((b.drop off).take (k - off)) els) :
    Decodes (b.take k) (el :: els) := by
  intro rounds i enough
  have long := List.length_pos_iff.mpr nonempty
  obtain ⟨rounds, rfl⟩ : ∃ less, rounds = less + 1 := ⟨rounds - 1, by omega⟩
  have cutNonempty : b.take k ≠ [] := by
    rw [← List.length_pos_iff, List.length_take]
    omega
  rw [List.length_take] at enough
  obtain ⟨consumed, decoded⟩ := rest rounds (i + off) (by rw [List.length_take, List.length_drop]; omega)
  refine ⟨consumed, ?_⟩
  rw [decodeLoop, if_neg cutNonempty,
    firstElement_take nonempty first fits (by omega) (by rw [List.length_take]; omega)]
  dsimp only
  rw [List.drop_take, decoded]

theorem Decodes.cons_all (first : firstElement b = .ok (.element el off)) (nonempty : b ≠ [])
    (within : off ≤ b.length) (positive : 0 < off) (rest : Decodes (b.drop off) els) : Decodes b (el :: els) := by
  have all := Decodes.cons first nonempty within positive (by rwa [List.take_of_length_le (by rw [List.length_drop])])
  rwa [List.take_length] at all

/-- Where the last element starts, it decodes to that element; the bytes before it decode to
the others. -/
theorem lastStartLoop_ok {pos last : Nat} (inside : pos < b.length)
    (ran : lastStartLoop rounds b pos last = .ok start) :
    ∃ els el off, pos ≤ start ∧ start < b.length ∧ firstElement (b.drop start) = .ok (.element el off) ∧
      Decodes (b.drop pos) (els ++ [el]) ∧ Decodes ((b.drop pos).take (start - pos)) els := by
  induction rounds generalizing pos last with
  | zero => cases ran
  | succ rounds ih =>
    have length : (b.drop pos).length = b.length - pos := List.length_drop
    have nonempty : b.drop pos ≠ [] := List.length_pos_iff.mp (by omega)
    rw [lastStartLoop, if_pos inside] at ran
    rcases skip_first nonempty with ⟨cause, skipped, failed⟩ | ⟨el, off, positive, skipped, first⟩
    · rw [skipped] at ran
      cases ran
    · have within := round_progress false nonempty le_rfl 0
      rw [← firstElement, first] at within
      cases within with
      | ok _ within =>
        simp only [size] at within
        simp only [skipped, if_neg (show ¬ (off : Int) ≤ 0 by omega), Int.toNat_natCast] at ran
        rcases Nat.lt_or_ge (pos + off) b.length with more | done
        · obtain ⟨els, last, lastOff, after, before, isLast, whole, front⟩ := ih more ran
          rw [← List.drop_drop] at whole front
          refine ⟨el :: els, last, lastOff, by omega, before, isLast, ?_, ?_⟩
          · exact Decodes.cons_all first nonempty within positive whole
          · refine Decodes.cons first nonempty (by omega) positive ?_
            rw [show start - pos - off = start - (pos + off) by omega]
            exact front
        · have last : pos = start := by
            cases rounds with
            | zero => cases ran
            | succ rounds =>
              rw [lastStartLoop, if_neg (by omega)] at ran
              exact Except.ok.inj ran
          subst last
          refine ⟨[], el, off, le_rfl, inside, first, ?_, ?_⟩
          · have rest : (b.drop pos).drop off = [] := List.drop_eq_nil_of_le (by omega)
            exact Decodes.cons_all first nonempty within positive (rest ▸ decodes_nil)
          · rw [Nat.sub_self, List.take_zero]
            exact decodes_nil

/-! ## The value of the suffix -/

private theorem toInt64_ofNat (n : Nat) : (UInt64.ofNat n).toInt64 = Int64.ofInt n := by
  apply Int64.toBitVec_inj.mp
  rw [Int64.toBitVec_ofInt, BitVec.ofInt_natCast]
  rfl

def converted : Element → Option Int64
  | .int64 v => some v
  | .uint64 v => some v.toInt64
  | _ => none

private theorem suffix_value {fast : Element} {s : Int64}
    (code : b.headD 0 = intZeroCode ∨ negIntStart < b.headD 0 ∧ b.headD 0 < posIntEnd)
    (decoded : fastDecodeInt b = .ok (fast, width)) (isSuffix : converted fast = some s)
    (first : firstElement b = .ok (.element el off)) : ∃ n : Int, el.value = .integer n ∧ s = Int64.ofInt n := by
  have reference : decodeInt b = .ok (fast, width) := by
    have agrees := fastDecodeInt_agrees b
    rw [decoded] at agrees
    generalize decodeInt b = outcome at agrees ⊢
    cases agrees with
    | ok same => rw [same]
  have alike (isFast : el = fast) : ∃ n : Int, el.value = .integer n ∧ s = Int64.ofInt n := by
    subst isFast
    cases el with
    | int64 v => exact ⟨_, rfl, by rw [Int64.ofInt_toInt]; exact (Option.some.inj isSuffix).symm⟩
    | uint64 v => exact ⟨_, rfl, by rw [← toInt64_ofNat, UInt64.ofNat_toNat]; exact (Option.some.inj isSuffix).symm⟩
    | _ => cases isSuffix
  have others : b.headD 0 ≠ nilCode ∧ b.headD 0 ≠ bytesCode ∧ b.headD 0 ≠ stringCode := by
    refine ⟨fun same => ?_, fun same => ?_, fun same => ?_⟩ <;> rw [same] at code <;> revert code <;> decide
  rw [firstElement, decodeRound, if_neg others.1, if_neg others.2.1, if_neg others.2.2] at first
  by_cases narrow : negIntStart + 1 < b.headD 0 ∧ b.headD 0 < posIntEnd
  · rw [if_pos narrow, reference] at first
    cases first
    exact alike rfl
  rw [if_neg narrow] at first
  by_cases edge : negIntStart + 1 = b.headD 0 ∧ 1 < b.length ∧ b.getD 1 0 &&& 0x80 ≠ 0
  · rw [if_pos edge, reference] at first
    cases first
    exact alike rfl
  · have isEdge : b.headD 0 = negIntStart + 1 := by
      simp only [UInt8.lt_iff_toNat_lt, show (negIntStart + 1).toNat = 12 from rfl, show negIntStart.toNat = 11 from rfl,
        ← UInt8.toNat_inj, show intZeroCode.toNat = 20 from rfl, show posIntEnd.toNat = 29 from rfl] at code narrow ⊢
      omega
    have framed : Tuple.bigIntFrame b = .ok (8, 1) := by
      rw [Tuple.bigIntFrame, isEdge]
      rfl
    have frame : decodeBigInt b = (if 9 > b.length then .error (.bigIntegerBytes 8) else
        let val : Int := bigEndianValue ((b.drop 1).take 8) - (2 ^ 64 - 1)
        if val = -2 ^ 63 then .ok (.int64 (Int64.ofInt val), 9) else .ok (.bigInt val, 9)) := by
      rw [decodeBigInt, framed, isEdge]
      rfl
    have int : decodeInt b = (if 9 > b.length then .error (.integerBytes 8) else
        .ok (.int64 ((UInt64.ofNat (bigEndianValue ((b.drop 1).take 8))).toInt64 - -1), 9)) := by
      rw [decodeInt, isEdge]
      rfl
    rw [if_neg edge, isEdge, if_pos (by decide), frame] at first
    rw [int] at reference
    split at reference
    · cases reference
    · rename_i long
      cases reference
      cases isSuffix
      rw [if_neg long] at first
      refine ⟨bigEndianValue ((b.drop 1).take 8) - (2 ^ 64 - 1), ?_, ?_⟩
      · dsimp only at first
        split_ifs at first with least <;> cases first
        · rw [least]
          rfl
        · rfl
      · rw [toInt64_ofNat, Int64.ofInt_sub]
        rfl

/-- A key that is split has an integer as its last element, of which the suffix is the low 64
bits, so its value exactly if that fits; the bytes before it are the other elements. -/
theorem split_key_suffix_sound (b : Bytes) (s : Int64) (p : Nat) (split : splitKeySuffix b = .ok (s, p)) :
    ∃ els el n, Tuple.unpack b = .ok (els ++ [el]) ∧ el.value = .integer n ∧ s = Int64.ofInt n ∧
      (s.toInt = n ↔ -2 ^ 63 ≤ n ∧ n < 2 ^ 63) ∧ Tuple.unpack (b.take p) = .ok els := by
  rw [splitKeySuffix] at split
  split_ifs at split with empty
  cases ran : lastStartLoop (b.length + 1) b 0 0 with
  | error cause => rw [ran] at split; cases split
  | ok start =>
    obtain ⟨els, el, off, -, inside, first, whole, front⟩ :=
      lastStartLoop_ok (List.length_pos_iff.mpr empty) ran
    have head : (b.drop start).headD 0 = b.getD start 0 := by
      rw [List.headD_eq_head?_getD, List.head?_drop, List.getD_eq_getElem?_getD]
    rw [ran] at split
    dsimp only at split
    split_ifs at split with code
    rw [← head] at code
    cases decoded : fastDecodeInt (b.drop start) with
    | error cause => rw [decoded] at split; cases split
    | ok found =>
      obtain ⟨fast, width⟩ := found
      have isSuffix : converted fast = some s ∧ start = p := by
        rw [decoded] at split
        cases fast <;> simp_all [converted]
      obtain ⟨n, isInteger, reduced⟩ := suffix_value code decoded isSuffix.1 first
      refine ⟨els, el, n, whole.unpack, isInteger, reduced, ⟨fun exact_ => ?_, fun fits => ?_⟩, ?_⟩
      · rw [← exact_]
        exact ⟨s.le_toInt, s.toInt_lt⟩
      · rw [reduced, Int64.toInt_ofInt_of_le fits.1 fits.2]
      · rw [← isSuffix.2]
        exact front.unpack

/-- The greatest integer of eight bytes is read as -1. -/
theorem wide_suffix_wraps :
    splitKeySuffix (0x1c :: List.replicate 8 0xff) = .ok (-1, 0) ∧
      (∃ el, Tuple.unpack (0x1c :: List.replicate 8 0xff) = .ok [el] ∧ el.value = .integer (2 ^ 64 - 1)) ∧
      Int64.toInt (-1) ≠ 2 ^ 64 - 1 := by
  refine ⟨by decide +kernel, ⟨.uint64 0xffffffffffffffff, by rfl, by rfl⟩, by decide⟩

/-- A string and a negative suffix. -/
theorem split_key_suffix_sound_negative :
    ∃ els el n, Tuple.unpack [0x02, 0x61, 0x00, 0x13, 0xfd] = .ok (els ++ [el]) ∧ el.value = .integer n ∧
      Tuple.unpack [0x02, 0x61, 0x00] = .ok els := by
  obtain ⟨els, el, n, whole, value, -, -, front⟩ := split_key_suffix_sound [0x02, 0x61, 0x00, 0x13, 0xfd] (-2) 3
    (by decide +kernel)
  exact ⟨els, el, n, whole, value, front⟩

end FdbGo.Tuple.Fast
