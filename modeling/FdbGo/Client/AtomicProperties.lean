import FdbGo.Client.Atomic

/-! A pending chain of atomic mutations means the same after a fold: applying the
combined operand is applying the two operands one after the other. -/

set_option autoImplicit false

namespace FdbGo.Client

open Foundation

/-- The value a key has after an atomic mutation; `none` is an absent key. -/
def atomicMeaning (op : MutationType) (param : Bytes) (base : Option Bytes) : Option Bytes :=
  match applyAtomic op base param with
  | (_, true) => none
  | (value, false) => some (existing value)

def chainMeaning (base : Option Bytes) (atomics : List RywMutation) : Option Bytes :=
  atomics.foldl (fun value m => atomicMeaning m.typ m.param value) base

@[simp] theorem existing_copied (b : Bytes) : existing (copied b) = b := by
  cases b <;> rfl

@[simp] theorem existing_some (b : Bytes) : existing (some b) = b := rfl

@[simp] theorem length_copyInto (n : Nat) (e : Bytes) : (copyInto n e).length = n := by
  simp only [copyInto, List.length_append, List.length_take, List.length_replicate]
  omega

theorem copyInto_self {n : Nat} {e : Bytes} (length : e.length = n) : copyInto n e = e := by
  simp [copyInto, ← length]

/-! ## Addition -/

theorem addCarry_spec {carry : UInt16} {a b : Bytes} (small : carry.toNat ≤ 1) (lengths : a.length = b.length) :
    (addCarry carry a b).length = b.length ∧
      decode (addCarry carry a b) = (carry.toNat + decode a + decode b) % 256 ^ b.length := by
  induction a generalizing b carry with
  | nil =>
    cases b with
    | nil => simp [addCarry, Nat.mod_one]
    | cons => exact absurd lengths (by simp)
  | cons x a ih =>
    cases b with
    | nil => exact absurd lengths (by simp)
    | cons y b =>
      have xSmall := x.toNat_lt
      have ySmall := y.toNat_lt
      have sum : (carry + x.toUInt16 + y.toUInt16).toNat = carry.toNat + x.toNat + y.toNat := by
        simp only [UInt16.toNat_add, UInt8.toNat_toUInt16]
        omega
      have shifted : ((carry + x.toUInt16 + y.toUInt16) >>> 8).toNat =
          (carry.toNat + x.toNat + y.toNat) / 256 := by
        rw [UInt16.toNat_shiftRight, sum]
        exact Nat.shiftRight_eq_div_pow _ 8
      have carrySmall : ((carry + x.toUInt16 + y.toUInt16) >>> 8).toNat ≤ 1 := by omega
      obtain ⟨length, value⟩ := ih carrySmall (Nat.succ.inj lengths)
      refine ⟨by simp [addCarry, length], ?_⟩
      have total : carry.toNat + decode (x :: a) + decode (y :: b) =
          carry.toNat + x.toNat + y.toNat + 256 * (decode a + decode b) := by
        simp only [decode_cons]
        ring
      rw [total, List.length_cons, pow_succ', Nat.mod_mul]
      simp only [addCarry, decode_cons, value, shifted, UInt16.toNat_toUInt8, sum]
      congr 1
      · omega
      · congr 2
        omega

variable (base : Option Bytes) (param : Bytes)

theorem doAdd_spec :
    (existing (doAdd base param)).length = param.length ∧
      decode (existing (doAdd base param)) =
        (decode (copyInto param.length (existing base)) + decode param) % 256 ^ param.length := by
  unfold doAdd
  dsimp only
  split
  case isTrue empty =>
    have empty : param = [] := by simpa using empty
    simp [empty, copyInto, Nat.mod_one]
  case isFalse =>
    split
    case isTrue eight =>
      have eight : param.length = 8 := by simpa using eight
      simp only [existing_some, length_encode, decode_encode, eight, UInt64.toNat_add,
        UInt64.toNat_ofNat', true_and]
      omega
    case isFalse =>
      have noCarry : (0 : UInt16).toNat ≤ 1 := Nat.zero_le 1
      simpa using addCarry_spec noCarry (length_copyInto param.length (existing base))

/-! ## Comparison -/

private theorem firstDifference_append (pairs others : List (UInt8 × UInt8)) :
    firstDifference (pairs ++ others) = (firstDifference pairs).then (firstDifference others) := by
  induction pairs with
  | nil => rfl
  | cons pair rest ih =>
    simp only [List.cons_append, firstDifference, ih]
    split
    · rfl
    · split <;> rfl

private theorem firstDifference_reverse {p e : Bytes} (lengths : p.length = e.length) :
    firstDifference (p.zip e).reverse = compare (decode p) (decode e) := by
  induction p generalizing e with
  | nil =>
    cases e with
    | nil => rfl
    | cons => exact absurd lengths (by simp)
  | cons x p ih =>
    cases e with
    | nil => exact absurd lengths (by simp)
    | cons y e =>
      have xSmall := x.toNat_lt
      have ySmall := y.toNat_lt
      rw [List.zip_cons_cons, List.reverse_cons, firstDifference_append, ih (Nat.succ.inj lengths),
        decode_cons, decode_cons]
      rcases lt_trichotomy (decode p) (decode e) with less | same | more
      · rw [compare_lt_iff_lt.mpr less, compare_lt_iff_lt.mpr (by omega)]
        rfl
      · rw [same, compare_eq_iff_eq.mpr rfl]
        simp only [Ordering.then, firstDifference, gt_iff_lt, UInt8.lt_iff_toNat_lt]
        rcases lt_trichotomy x.toNat y.toNat with less | equal | more
        · rw [if_neg less.not_gt, if_pos less, compare_lt_iff_lt.mpr (by omega)]
        · rw [if_neg equal.not_gt, if_neg equal.not_lt, compare_eq_iff_eq.mpr (by omega)]
        · rw [if_pos more, compare_gt_iff_gt.mpr (by omega)]
      · rw [compare_gt_iff_gt.mpr more, compare_gt_iff_gt.mpr (by omega)]
        rfl

private theorem decode_eq_zero {bytes : Bytes} (zeros : ∀ byte ∈ bytes, byte = 0) : decode bytes = 0 := by
  rw [List.eq_replicate_of_mem zeros]
  exact decode_zeros bytes.length

private theorem decode_pos {bytes : Bytes} {byte : UInt8} (member : byte ∈ bytes) (nonzero : byte ≠ 0) : 0 < decode bytes := by
  induction bytes with
  | nil => exact absurd member List.not_mem_nil
  | cons head rest ih =>
    rw [decode_cons]
    cases member with
    | head =>
      have positive : 0 < byte.toNat := Nat.pos_of_ne_zero fun zero => nonzero (UInt8.toNat_inj.mp zero)
      omega
    | tail _ inRest =>
      have positive := ih inRest
      omega

/-- The comparison from the top orders the operand and the value as numbers of the
operand's length. -/
theorem compareFromTop_eq (param e : Bytes) :
    compareFromTop param e = compare (decode param) (decode (copyInto param.length e)) := by
  have split : decode param =
      decode (param.take e.length) + 256 ^ (param.take e.length).length * decode (param.drop e.length) := by
    rw [← decode_append, List.take_append_drop]
  have value : decode (copyInto param.length e) = decode (e.take param.length) := by
    rw [copyInto, decode_append, decode_zeros, Nat.mul_zero, Nat.add_zero]
  unfold compareFromTop
  split
  case isTrue nonzero =>
    obtain ⟨byte, member, nonzero⟩ := List.any_eq_true.mp nonzero
    have positive := decode_pos member (by simpa using nonzero)
    have nonempty : e.length < param.length := by
      by_contra short
      rw [List.drop_eq_nil_of_le (not_lt.mp short)] at member
      exact absurd member List.not_mem_nil
    have whole : e.take param.length = e := List.take_of_length_le nonempty.le
    have bound := decode_lt e
    have above : 256 ^ e.length * 1 ≤ 256 ^ e.length * decode (param.drop e.length) :=
      Nat.mul_le_mul_left _ positive
    rw [List.length_take_of_le nonempty.le] at split
    rw [compare_gt_iff_gt.mpr]
    rw [value, whole]
    omega
  case isFalse zeros =>
    have zero : decode (param.drop e.length) = 0 := by
      refine decode_eq_zero fun byte member => ?_
      simp only [Bool.not_eq_true, List.any_eq_false, bne_iff_ne, ne_eq, not_not] at zeros
      exact zeros byte member
    have lengths : (param.take e.length).length = (e.take param.length).length := by
      simp [Nat.min_comm]
    have zipped : param.zip e = (param.take e.length).zip (e.take param.length) := by
      rw [List.zip_eq_zip_take_min, List.take_eq_take_min (l := param) (i := e.length),
        List.take_eq_take_min (l := e) (i := param.length), Nat.min_comm e.length]
    rw [zipped, firstDifference_reverse lengths, value, split, zero, Nat.mul_zero, Nat.add_zero]

theorem doMax_spec :
    (existing (doMax base param)).length = param.length ∧
      decode (existing (doMax base param)) =
        max (decode (copyInto param.length (existing base))) (decode param) := by
  unfold doMax
  dsimp only
  split
  case isTrue empty =>
    have zeros : decode (copyInto param.length (existing base)) = 0 := by
      rw [List.isEmpty_iff.mp empty]
      simp [copyInto, decode_zeros]
    rw [existing_copied, zeros]
    exact ⟨rfl, (Nat.zero_max _).symm⟩
  case isFalse =>
    split
    case isTrue empty =>
      rw [List.isEmpty_iff.mp empty]
      simp [copyInto]
    case isFalse =>
      rw [compareFromTop_eq]
      split
      case h_1 greater =>
        have greater := compare_gt_iff_gt.mp greater
        exact ⟨by rw [existing_copied], by rw [existing_copied, max_eq_right greater.le]⟩
      case h_2 less =>
        have less := compare_lt_iff_lt.mp less
        exact ⟨by simp, by rw [existing_some, max_eq_left less.le]⟩
      case h_3 equal =>
        have equal := compare_eq_iff_eq.mp equal
        exact ⟨by rw [existing_copied], by rw [existing_copied, equal, max_self]⟩

theorem doMin_spec :
    (existing (doMin base param)).length = param.length ∧
      decode (existing (doMin base param)) =
        min (decode (copyInto param.length (existing base))) (decode param) := by
  unfold doMin
  dsimp only
  split
  case isTrue empty =>
    rw [List.isEmpty_iff.mp empty]
    simp [copyInto]
  case isFalse =>
    rw [compareFromTop_eq]
    split
    case h_1 greater =>
      have greater := compare_gt_iff_gt.mp greater
      exact ⟨by simp, by rw [existing_some, min_eq_left greater.le]⟩
    case h_2 less =>
      have less := compare_lt_iff_lt.mp less
      exact ⟨by rw [existing_copied], by rw [existing_copied, min_eq_right less.le]⟩
    case h_3 equal =>
      have equal := compare_eq_iff_eq.mp equal
      exact ⟨by rw [existing_copied], by rw [existing_copied, equal, min_self]⟩

/-! ## Folding operands -/

variable {first second : Bytes} {newMut : RywMutation}

/-- An operation that works on numbers of the operand's length is associative on
operands of one length when it is so on the numbers. -/
theorem fold_of_decode (value : Nat → Nat → Nat → Nat) {op : Option Bytes → Bytes → Option Bytes}
    (spec : ∀ base param, (existing (op base param)).length = param.length ∧
      decode (existing (op base param)) =
        value param.length (decode (copyInto param.length (existing base))) (decode param))
    (assoc : ∀ n x y z, value n (value n x y) z = value n x (value n y z))
    (base : Option Bytes) (lengths : first.length = second.length) :
    existing (op (some (existing (op base first))) second) =
      existing (op base (existing (op (some first) second))) := by
  obtain ⟨firstLength, firstValue⟩ := spec base first
  obtain ⟨bothLength, bothValue⟩ := spec (some first) second
  obtain ⟨leftLength, leftValue⟩ := spec (some (existing (op base first))) second
  obtain ⟨rightLength, rightValue⟩ := spec base (existing (op (some first) second))
  refine decode_injective (by rw [leftLength, rightLength, bothLength]) ?_
  rw [existing_some, copyInto_self (firstLength.trans lengths)] at leftValue
  rw [existing_some, copyInto_self lengths] at bothValue
  rw [leftValue, firstValue, rightValue, bothValue, bothLength, lengths, assoc]

private theorem doAdd_fold (lengths : first.length = second.length) :
    existing (doAdd (some (existing (doAdd base first))) second) =
      existing (doAdd base (existing (doAdd (some first) second))) :=
  fold_of_decode (fun n x y => (x + y) % 256 ^ n) doAdd_spec
    (fun n x y z => by simp only [Nat.mod_add_mod, Nat.add_mod_mod, Nat.add_assoc]) base lengths

private theorem doMax_fold (lengths : first.length = second.length) :
    existing (doMax (some (existing (doMax base first))) second) =
      existing (doMax base (existing (doMax (some first) second))) :=
  fold_of_decode (fun _ => max) doMax_spec (fun _ => max_assoc) base lengths

private theorem doMin_fold (lengths : first.length = second.length) :
    existing (doMin (some (existing (doMin base first))) second) =
      existing (doMin base (existing (doMin (some first) second))) :=
  fold_of_decode (fun _ => min) doMin_spec (fun _ => min_assoc) base lengths

private theorem copyInto_succ (n : Nat) (e : Bytes) : copyInto (n + 1) e = e.headD 0 :: copyInto n e.tail := by
  cases e with
  | nil => simp [copyInto, List.replicate_succ]
  | cons x e => simp [copyInto]

theorem zipWith_copyInto_cons (op : UInt8 → UInt8 → UInt8) (e : Bytes) (y : UInt8) (param : Bytes) :
    List.zipWith op (copyInto (y :: param).length e) (y :: param) =
      op (e.headD 0) y :: List.zipWith op (copyInto param.length e.tail) param := by
  rw [List.length_cons, copyInto_succ, List.zipWith_cons_cons]

theorem existing_doAnd :
    existing (doAnd base param) =
      List.zipWith (· &&& ·) (copyInto param.length (existing base)) param := by
  have bytes : ∀ e : Bytes, List.zipWith (· &&& ·) e param ++ List.replicate (param.length - e.length) 0 =
      List.zipWith (· &&& ·) (copyInto param.length e) param := by
    induction param with
    | nil => simp [copyInto]
    | cons y param ih =>
      intro e
      rw [zipWith_copyInto_cons, ← ih]
      cases e with
      | nil => simp [List.replicate_succ]
      | cons x e => simp
  unfold doAnd
  dsimp only
  split
  case isTrue empty => rw [List.isEmpty_iff.mp empty]; simp
  case isFalse => exact bytes (existing base)

variable {op : UInt8 → UInt8 → UInt8} {stack : List RywMutation}

theorem existing_bytewise (zero : ∀ y, op 0 y = y) (base : Option Bytes) (param : Bytes) :
    existing (bytewise op base param) =
      List.zipWith op (copyInto param.length (existing base)) param := by
  have bytes : ∀ e : Bytes, List.zipWith op e param ++ param.drop e.length =
      List.zipWith op (copyInto param.length e) param := by
    induction param with
    | nil => simp
    | cons y param ih =>
      intro e
      rw [zipWith_copyInto_cons, ← ih]
      cases e with
      | nil => simp [zero]
      | cons x e => simp
  unfold bytewise
  dsimp only
  split
  case isTrue empty =>
    rw [existing_copied, ← bytes, List.isEmpty_iff.mp empty]
    simp
  case isFalse =>
    split
    case isTrue empty =>
      rw [List.isEmpty_iff.mp empty]
      simp
    case isFalse => exact bytes (existing base)

private theorem zipWith_assoc (assoc : ∀ x y z, op (op x y) z = op x (op y z)) :
    ∀ xs ys zs : Bytes,
      List.zipWith op (List.zipWith op xs ys) zs = List.zipWith op xs (List.zipWith op ys zs) := by
  intro xs ys zs
  induction xs generalizing ys zs with
  | nil => simp
  | cons x xs ih =>
    cases ys with
    | nil => simp
    | cons y ys =>
      cases zs with
      | nil => simp
      | cons z zs => simp [assoc, ih]

private theorem bytewise_fold (zero : ∀ y, op 0 y = y) (assoc : ∀ x y z, op (op x y) z = op x (op y z)) (base : Option Bytes)
    (lengths : first.length = second.length) :
    existing (bytewise op (some (existing (bytewise op base first))) second) =
      existing (bytewise op base (existing (bytewise op (some first) second))) := by
  simp only [existing_bytewise zero, existing_some]
  rw [copyInto_self (e := first) lengths, copyInto_self (e := List.zipWith _ _ _) (by simp [lengths]),
    zipWith_assoc assoc]
  simp [lengths]

/-- No lengths are needed here: a byte the first operand lacks is zero either way. -/
theorem doAnd_fold (first second : Bytes) :
    existing (doAnd (some (existing (doAnd base first))) second) =
      existing (doAnd base (existing (doAnd (some first) second))) := by
  simp only [existing_doAnd, existing_some]
  generalize existing base = e
  induction second generalizing e first with
  | nil => simp
  | cons z second ih =>
    rw [zipWith_copyInto_cons, zipWith_copyInto_cons, zipWith_copyInto_cons, ← ih]
    cases first with
    | nil => simp
    | cons y first =>
      rw [zipWith_copyInto_cons]
      simp [UInt8.and_assoc]

/-! ## Chains -/

/-- An atomic mutation whose effect the client can compute and fold: no versionstamp
and no `appendIfFits`. -/
def MutationType.Resolvable (op : MutationType) : Prop :=
  isAtomicOp op = true ∧ isUnresolvedVersionstamp op = false ∧ op ≠ .appendIfFits

instance (op : MutationType) : Decidable op.Resolvable := inferInstanceAs (Decidable (_ ∧ _ ∧ _))

private theorem doByteMax_fold (first second : Bytes) :
    existing (doByteMax (some (existing (doByteMax base first))) second) =
      existing (doByteMax base (existing (doByteMax (some first) second))) := by
  cases base with
  | none => simp [doByteMax]
  | some base =>
    simp only [doByteMax, apply_ite existing, existing_copied]
    grind

private theorem doByteMin_fold (first second : Bytes) :
    existing (doByteMin (some (existing (doByteMin base first))) second) =
      existing (doByteMin base (existing (doByteMin (some first) second))) := by
  cases base with
  | none => simp [doByteMin]
  | some base =>
    simp only [doByteMin, apply_ite existing, existing_copied]
    grind

private theorem atomicMeaning_fold {op : MutationType} (resolvable : op.Resolvable) (chained : op ≠ .compareAndClear)
    (lengths : isNonAssociativeOp op = true → first.length = second.length) (base : Option Bytes) :
    atomicMeaning op (existing (applyAtomic op (some first) second).1) base =
      atomicMeaning op second (atomicMeaning op first base) := by
  cases op with
  | setValue | clearRange => exact absurd resolvable.1 (by decide)
  | setVersionstampedKey | setVersionstampedValue => exact absurd resolvable.2.1 (by decide)
  | appendIfFits => exact absurd rfl resolvable.2.2
  | compareAndClear => exact absurd rfl chained
  | addValue => exact congrArg some (doAdd_fold base (lengths rfl)).symm
  | and => exact congrArg some (doAnd_fold base first second).symm
  | or => exact congrArg some (bytewise_fold (by simp) UInt8.or_assoc base (lengths rfl)).symm
  | xor => exact congrArg some (bytewise_fold (by simp) UInt8.xor_assoc base (lengths rfl)).symm
  | max => exact congrArg some (doMax_fold base (lengths rfl)).symm
  | min => exact congrArg some (doMin_fold base (lengths rfl)).symm
  | byteMin => exact congrArg some (doByteMin_fold base first second).symm
  | byteMax => exact congrArg some (doByteMax_fold base first second).symm
  | minV2 =>
    cases base with
    | none => simp [atomicMeaning, applyAtomic, doMinV2]
    | some base => exact congrArg some (doMin_fold (some base) (lengths rfl)).symm
  | andV2 =>
    cases base with
    | none => simp [atomicMeaning, applyAtomic, doAndV2]
    | some base => exact congrArg some (doAnd_fold (some base) first second).symm

theorem chainMeaning_append (atomics others : List RywMutation) :
    chainMeaning base (atomics ++ others) = chainMeaning (chainMeaning base atomics) others :=
  List.foldl_append ..

theorem foldsOnto_top {top : RywMutation} (last : stack.getLast? = some top) (folds : foldsOnto stack newMut = true) :
    top.typ = newMut.typ ∧ newMut.typ ≠ .compareAndClear ∧
      (isNonAssociativeOp newMut.typ = true → top.param.length = newMut.param.length) := by
  unfold foldsOnto at folds
  rw [last] at folds
  dsimp only at folds
  split at folds
  case isTrue => exact absurd folds Bool.false_ne_true
  case isFalse unfolded =>
    split at folds
    case isTrue => exact absurd folds Bool.false_ne_true
    case isFalse sameType =>
      have same : top.typ = newMut.typ := by
        by_contra different
        simp [different] at sameType
      refine ⟨same, ?_, ?_⟩
      · intro compared
        simp [compared] at unfolded
      · intro nonAssociative
        rw [same, nonAssociative] at folds
        simpa using folds

/-- A fold means what its mutation means after the chain, when the combined operand
does over the value that the two operands meet. -/
theorem chainMeaning_coalesce_of
    (combines : ∀ rest top, stack = rest ++ [top] → top.typ = newMut.typ → newMut.typ ≠ .compareAndClear →
      (isNonAssociativeOp newMut.typ = true → top.param.length = newMut.param.length) →
      atomicMeaning newMut.typ (existing (applyAtomic newMut.typ (some top.param) newMut.param).1)
          (chainMeaning base rest) =
        atomicMeaning newMut.typ newMut.param
          (atomicMeaning newMut.typ top.param (chainMeaning base rest))) :
    chainMeaning base (coalesceOverAtomics stack newMut) =
      atomicMeaning newMut.typ newMut.param (chainMeaning base stack) := by
  unfold coalesceOverAtomics
  cases folds : foldsOnto stack newMut with
  | false => exact chainMeaning_append base stack [newMut]
  | true =>
    rw [if_pos rfl]
    cases last : stack.getLast? with
    | none =>
      rw [List.getLast?_eq_none_iff.mp last]
      rfl
    | some top =>
      have whole : stack.dropLast ++ [top] = stack := List.dropLast_append_getLast? top last
      obtain ⟨same, chained, lengths⟩ := foldsOnto_top last folds
      calc chainMeaning base (stack.dropLast ++
            [{ typ := top.typ, param := existing (applyAtomic top.typ (some top.param) newMut.param).1 }])
        _ = atomicMeaning newMut.typ (existing (applyAtomic newMut.typ (some top.param) newMut.param).1)
              (chainMeaning base stack.dropLast) := by rw [chainMeaning_append, same]; rfl
        _ = atomicMeaning newMut.typ newMut.param
              (atomicMeaning top.typ top.param (chainMeaning base stack.dropLast)) := by
            rw [combines _ top whole.symm same chained lengths, same]
        _ = atomicMeaning newMut.typ newMut.param (chainMeaning base stack) := by
            conv_rhs => rw [← whole, chainMeaning_append]
            rfl

/-- Coalescing a mutation into a chain acts on the value as the mutation does. -/
theorem chainMeaning_coalesce (stack : List RywMutation) (resolvable : newMut.typ.Resolvable) :
    chainMeaning base (coalesceOverAtomics stack newMut) =
      atomicMeaning newMut.typ newMut.param (chainMeaning base stack) :=
  chainMeaning_coalesce_of base fun _ _ _ _ chained lengths =>
    atomicMeaning_fold resolvable chained lengths _

theorem coalesceOverAtomics_types {m : RywMutation} (member : m ∈ coalesceOverAtomics stack newMut) :
    m.typ = newMut.typ ∨ ∃ old ∈ stack, m.typ = old.typ := by
  unfold coalesceOverAtomics at member
  split at member
  case isFalse =>
    cases List.mem_append.mp member with
    | inl inStack => exact .inr ⟨m, inStack, rfl⟩
    | inr isNew => exact .inl (congrArg RywMutation.typ (List.mem_singleton.mp isNew))
  case isTrue =>
    split at member
    case h_1 => exact .inl (congrArg RywMutation.typ (List.mem_singleton.mp member))
    case h_2 top last =>
      cases List.mem_append.mp member with
      | inl inRest => exact .inr ⟨m, List.mem_of_mem_dropLast inRest, rfl⟩
      | inr isTop =>
        rw [List.mem_singleton.mp isTop]
        exact .inr ⟨top, List.mem_of_getLast? last, rfl⟩

end FdbGo.Client
