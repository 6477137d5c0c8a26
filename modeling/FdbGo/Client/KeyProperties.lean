import FdbGo.Client.Key

set_option autoImplicit false

namespace FdbGo.Client

theorem not_lt_nil (bytes : Bytes) : ¬ bytes < [] := List.not_lt_nil bytes

@[simp] theorem nil_le (bytes : Bytes) : [] ≤ bytes := not_lt.mp (not_lt_nil bytes)

@[simp] theorem nil_lt_cons (byte : UInt8) (bytes : Bytes) : [] < byte :: bytes := List.Lex.nil

variable {bytes others : Bytes} {byte head : UInt8} {key other : Key}

theorem cons_lt_cons : byte :: bytes < head :: others ↔ byte < head ∨ byte = head ∧ bytes < others :=
  List.cons_lt_cons_iff

theorem cons_le_cons : byte :: bytes ≤ head :: others ↔ byte < head ∨ byte = head ∧ bytes ≤ others := by
  rw [← not_lt, cons_lt_cons, ← not_lt]
  rcases lt_trichotomy byte head with less | same | more
  · simp [less, less.ne', less.not_gt]
  · simp [same]
  · simp [more, more.ne', more.not_gt]

theorem zero_le_of_ne_nil {bytes : Bytes} (nonempty : bytes ≠ []) : [0x00] ≤ bytes := by
  obtain ⟨byte, rest, rfl⟩ := List.exists_cons_of_ne_nil nonempty
  refine cons_le_cons.mpr ?_
  cases (UInt8.zero_le (a := byte)).lt_or_eq with
  | inl positive => exact .inl positive
  | inr zero => exact .inr ⟨zero, nil_le rest⟩

theorem cmp_cons : cmp (byte :: bytes) (head :: others) = (cmp byte head).then (cmp bytes others) := by
  unfold cmp cmpUsing
  simp only [cons_lt_cons]
  rcases lt_trichotomy byte head with less | rfl | more
  · simp [less]
  · simp
  · simp [more, more.not_gt, more.ne']

/-- No key lies between a key and the key after it. -/
theorem lt_keyAfter_iff : other < keyAfter key ↔ other ≤ key := by
  unfold keyAfter
  induction other generalizing key with
  | nil =>
    cases key with
    | nil => simp
    | cons byte key => simp
  | cons byte other ih =>
    cases key with
    | nil => simp [cons_lt_cons, ← not_lt]
    | cons head key => rw [List.cons_append, cons_lt_cons, cons_le_cons, ih]

theorem keyAfter_le_iff : keyAfter key ≤ other ↔ key < other := by
  rw [← not_lt, lt_keyAfter_iff, not_le]

theorem lt_keyAfter (key : Key) : key < keyAfter key := lt_keyAfter_iff.mpr le_rfl

/-- The range from a key to the key after it holds that key alone. -/
theorem within_keyAfter_iff : key ≤ other ∧ other < keyAfter key ↔ other = key := by
  rw [lt_keyAfter_iff]
  exact ⟨fun both => le_antisymm both.2 both.1, fun same => ⟨same.ge, same.le⟩⟩

theorem equalsKeyAfter_iff {compareKey : Key} : equalsKeyAfter key compareKey = true ↔ compareKey = keyAfter key := by
  unfold equalsKeyAfter keyAfter
  simp only [Bool.and_eq_true, beq_iff_eq]
  constructor
  · rintro ⟨⟨sameLength, zero⟩, sameBytes⟩
    have inside : key.length < compareKey.length := by omega
    have last : compareKey.drop key.length = [0] := by
      rw [List.drop_eq_getElem_cons inside, List.drop_eq_nil_of_le (by omega)]
      rw [List.getD_eq_getElem?_getD, List.getElem?_eq_getElem inside, Option.getD_some] at zero
      rw [zero]
    rw [← List.take_append_drop key.length compareKey, sameBytes, last]
  · rintro rfl
    simp

theorem cmp_append {first second third fourth : Bytes} (same : first.length = second.length) :
    cmp (first ++ third) (second ++ fourth) = (cmp first second).then (cmp third fourth) := by
  induction first generalizing second with
  | nil =>
    cases second with
    | nil =>
      rw [List.nil_append, List.nil_append, cmp_self_eq_eq]
      rfl
    | cons => simp at same
  | cons byte first ih =>
    cases second with
    | nil => simp at same
    | cons head second =>
      rw [List.cons_append, List.cons_append, cmp_cons, cmp_cons, ih (by simpa using same), Ordering.then_assoc]

private theorem cmp_replicate (count other : Nat) :
    cmp (List.replicate count (0 : UInt8)) (List.replicate other 0) = cmp count other := by
  induction count generalizing other with
  | zero =>
    cases other with
    | zero => rfl
    | succ other =>
      rw [(Nat.succ_pos other).cmp_eq_lt]
      exact (nil_lt_cons _ _).cmp_eq_lt
  | succ count ih =>
    cases other with
    | zero =>
      rw [(Nat.succ_pos count).cmp_eq_gt]
      exact (nil_lt_cons _ _).cmp_eq_gt
    | succ other =>
      have rest := ih other
      rw [List.replicate_succ, List.replicate_succ, cmp_cons, rest, cmp_self_eq_eq]
      unfold cmp cmpUsing
      simp only [Nat.succ_lt_succ_iff]
      rfl

private theorem replicate_zero_lt (nonzero : bytes.any (· != 0) = true) (count : Nat) (rest : Bytes) :
    List.replicate count 0 < bytes ++ rest := by
  induction bytes generalizing count with
  | nil => simp at nonzero
  | cons byte bytes ih =>
    cases count with
    | zero => simp
    | succ count =>
      rw [List.replicate_succ, List.cons_append, cons_lt_cons]
      by_cases zero : byte = 0
      · subst zero
        exact .inr ⟨rfl, ih (by simpa using nonzero) count⟩
      · exact .inl (UInt8.pos_iff_ne_zero.mpr zero)

private theorem eq_replicate_zero (zero : ¬ bytes.any (· != 0) = true) : bytes = List.replicate bytes.length 0 := by
  rw [List.eq_replicate_iff]
  refine ⟨rfl, ?_⟩
  intro byte member
  by_contra nonzero
  exact zero (List.any_eq_true.mpr ⟨byte, member, by simpa using nonzero⟩)

namespace Boundary

def zeros (b : Boundary) : Nat := if b.after then 1 + b.extra else 0

theorem materialize_eq (b : Boundary) : b.materialize = b.key ++ List.replicate b.zeros 0 := by
  unfold materialize zeros
  split <;> simp

theorem size_eq (b : Boundary) : b.size = b.key.length + b.zeros := by
  unfold size zeros
  split <;> omega

@[simp] theorem materialize_plain (key : Key) : materialize { key := key } = key := by
  simp only [materialize, Bool.false_eq_true, ↓reduceIte]

@[simp] theorem materialize_after (key : Key) : materialize { key := key, after := true } = Client.keyAfter key := rfl

theorem materialize_keyAfter (b : Boundary) : b.keyAfter.materialize = Client.keyAfter b.materialize := by
  unfold keyAfter materialize Client.keyAfter
  rcases b with ⟨key, after, extra⟩
  cases after with
  | false => simp
  | true =>
    simp only [Bool.not_true, Bool.false_eq_true, ↓reduceIte, List.append_assoc]
    rw [← Nat.add_assoc, List.replicate_succ']

private theorem cmp_tails {first second : Bytes} {count other : Nat} (short : first = [] ∨ second = []) :
    cmp (first ++ List.replicate count 0) (second ++ List.replicate other 0) =
      if first.any (· != 0) then .gt
      else if second.any (· != 0) then .lt
      else cmp (first.length + count) (second.length + other) := by
  by_cases nonzero : first.any (· != 0) = true
  · rw [if_pos nonzero]
    have absent : second = [] := by
      rcases short with rfl | absent
      · simp at nonzero
      · exact absent
    subst absent
    exact (cmp_eq_gt_iff _ _).mpr (replicate_zero_lt nonzero other _)
  rw [if_neg nonzero]
  by_cases nonzeroToo : second.any (· != 0) = true
  · rw [if_pos nonzeroToo]
    have absent : first = [] := by
      rcases short with absent | rfl
      · exact absent
      · simp at nonzeroToo
    subst absent
    exact (cmp_eq_lt_iff _ _).mpr (replicate_zero_lt nonzeroToo count _)
  · rw [if_neg nonzeroToo, eq_replicate_zero nonzero, eq_replicate_zero nonzeroToo, List.replicate_append_replicate,
      List.replicate_append_replicate, cmp_replicate, List.length_replicate, List.length_replicate]

theorem compare_eq (b other : Boundary) : b.compare other = cmp b.materialize other.materialize := by
  unfold compare
  by_cases plain : (!b.after && !other.after) = true
  · rw [if_pos plain]
    simp only [Bool.and_eq_true, Bool.not_eq_true'] at plain
    rw [materialize, materialize, if_neg (by simp [plain]), if_neg (by simp [plain])]
  · rw [if_neg plain, materialize_eq, materialize_eq]
    extract_lets n
    have short : b.key.drop n = [] ∨ other.key.drop n = [] := by
      simp only [List.drop_eq_nil_iff]
      omega
    have split : cmp (b.key ++ List.replicate b.zeros 0) (other.key ++ List.replicate other.zeros 0) =
        (cmp (b.key.take n) (other.key.take n)).then
          (cmp (b.key.drop n ++ List.replicate b.zeros 0)
            (other.key.drop n ++ List.replicate other.zeros 0)) := by
      rw [← cmp_append (by simp only [List.length_take]; omega), ← List.append_assoc,
        List.take_append_drop, ← List.append_assoc, List.take_append_drop]
    have size : b.size = n + ((b.key.drop n).length + b.zeros) := by
      rw [size_eq, List.length_drop]
      omega
    have otherSize : other.size = n + ((other.key.drop n).length + other.zeros) := by
      rw [size_eq, List.length_drop]
      omega
    have sizes : cmp b.size other.size =
        cmp ((b.key.drop n).length + b.zeros) ((other.key.drop n).length + other.zeros) := by
      rw [size, otherSize]
      unfold cmp cmpUsing
      simp only [Nat.add_lt_add_iff_left]
    rw [split, cmp_tails short, ← sizes]
    cases cmp (b.key.take n) (other.key.take n) <;> rfl

theorem compare_beq_lt (b other : Boundary) :
    (b.compare other == .lt) = decide (b.materialize < other.materialize) := by
  rw [Bool.eq_iff_iff, beq_iff_eq, compare_eq, cmp_eq_lt_iff, decide_eq_true_eq]

theorem compare_beq_gt (b other : Boundary) :
    (b.compare other == .gt) = decide (other.materialize < b.materialize) := by
  rw [Bool.eq_iff_iff, beq_iff_eq, compare_eq, cmp_eq_gt_iff, decide_eq_true_eq]

theorem compare_bne_lt (b other : Boundary) :
    (b.compare other != .lt) = decide (other.materialize ≤ b.materialize) := by
  rw [bne, compare_beq_lt, ← decide_not, Bool.eq_iff_iff, decide_eq_true_eq, decide_eq_true_eq, not_lt]

theorem compare_bne_gt (b other : Boundary) :
    (b.compare other != .gt) = decide (b.materialize ≤ other.materialize) := by
  rw [bne, compare_beq_gt, ← decide_not, Bool.eq_iff_iff, decide_eq_true_eq, decide_eq_true_eq, not_lt]

private theorem size_eq_length (b : Boundary) : b.size = b.materialize.length := by
  rw [size_eq, materialize_eq, List.length_append, List.length_replicate]

/-- Boundaries are equal exactly if they stand for one key. -/
theorem equal_iff {b other : Boundary} : b.equal other = true ↔ b.materialize = other.materialize := by
  unfold equal
  split
  case isTrue =>
    rw [Bool.and_eq_true, beq_iff_eq, beq_iff_eq, compare_eq, cmp_eq_eq_iff, size_eq_length, size_eq_length]
    exact ⟨fun both => both.2, fun same => ⟨congrArg _ same, same⟩⟩
  case isFalse sameShape =>
    simp only [Bool.or_eq_true, bne_iff_ne, not_or, not_not] at sameShape
    simp only [materialize_eq, zeros, sameShape, beq_iff_eq]
    exact (List.append_left_inj _).symm

end Boundary

end FdbGo.Client
