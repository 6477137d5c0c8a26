import FdbGo.Query.NormalForm

/-! Distribution keeps the meaning of a predicate, produces literals only, and as many
clauses as were predicted. -/

set_option autoImplicit false

namespace FdbGo.Query

open Foundation

variable {Leaf : Type} {mode : NormalFormMode}

/-! ## Sizes -/

section Sizes

private theorem saturatingAddSize_min (a b : Nat) :
    saturatingAddSize (min normalFormSizeSaturated a) (min normalFormSizeSaturated b) =
      min normalFormSizeSaturated (a + b) := by
  rw [saturatingAddSize]
  split <;> omega

private theorem saturatingMulSize_min (a b : Nat) :
    saturatingMulSize (min normalFormSizeSaturated a) (min normalFormSizeSaturated b) =
      min normalFormSizeSaturated (a * b) := by
  have positive : 0 < normalFormSizeSaturated := by decide
  rw [saturatingMulSize]
  by_cases none : a = 0 ∨ b = 0
  · have zero : a * b = 0 := Nat.mul_eq_zero.mpr none
    rw [if_pos (by omega), zero, Nat.min_zero]
  · rw [if_neg (by omega)]
    have below : min normalFormSizeSaturated a * min normalFormSizeSaturated b ≤ a * b :=
      Nat.mul_le_mul (Nat.min_le_right _ _) (Nat.min_le_right _ _)
    split
    case isTrue large =>
      have more := (Nat.div_lt_iff_lt_mul (by omega)).mp large
      omega
    case isFalse fits =>
      have upTo := (Nat.le_div_iff_mul_le (show 0 < min normalFormSizeSaturated b by omega)).mp (not_lt.mp fits)
      by_cases large : a ≤ normalFormSizeSaturated ∧ b ≤ normalFormSizeSaturated
      · rw [Nat.min_eq_right large.1, Nat.min_eq_right large.2] at upTo ⊢
        exact (Nat.min_eq_right upTo).symm
      · -- a factor past the bound leaves only one for the other
        have whole : normalFormSizeSaturated ≤ min normalFormSizeSaturated a * min normalFormSizeSaturated b := by
          by_cases left : a ≤ normalFormSizeSaturated
          · rw [Nat.min_eq_left (show normalFormSizeSaturated ≤ b by omega)]
            exact Nat.le_mul_of_pos_left _ (by omega)
          · rw [Nat.min_eq_left (show normalFormSizeSaturated ≤ a by omega)]
            exact Nat.le_mul_of_pos_right _ (by omega)
        omega

mutual
/-- The predicted size is that of the normal form, up to saturation. -/
theorem size_toNormalized : ∀ (p : Predicate Leaf) (negate : Bool),
    normalFormSizeWithAtomicity mode true p negate = min normalFormSizeSaturated (toNormalized mode p negate).length
  | .leaf _, negate | .constant _, negate => by
      cases negate <;> rfl
  | .not child atomic, negate => by
      rw [normalFormSizeWithAtomicity, toNormalized]
      cases atomic with
      | true => cases negate <;> rfl
      | false => exact size_toNormalized child (!negate)
  | .and sps atomic, negate | .or sps atomic, negate => by
      have sums := size_majorToNormalized sps negate 0
      have products := size_minorToNormalized sps negate [[]]
      simp only [Nat.min_zero, Nat.zero_add] at sums
      rw [normalFormSizeWithAtomicity, toNormalized]
      cases atomic with
      | true => cases negate <;> rfl
      | false => cases mode <;> cases negate <;> first | exact products | exact sums

theorem size_majorToNormalized : ∀ (sps : List (Predicate Leaf)) (negate : Bool) (size : Nat),
    sumSizes mode true sps negate (min normalFormSizeSaturated size) =
      min normalFormSizeSaturated (size + (majorToNormalized mode sps negate).length)
  | [], negate, size => rfl
  | sp :: sps, negate, size => by
      rw [sumSizes, size_toNormalized sp negate, saturatingAddSize_min, size_majorToNormalized sps negate,
        majorToNormalized, List.length_append, Nat.add_assoc]

theorem size_minorToNormalized : ∀ (sps : List (Predicate Leaf)) (negate : Bool) (product : List (List (Predicate Leaf))),
    multiplySizes mode true sps negate (min normalFormSizeSaturated product.length) =
      min normalFormSizeSaturated (minorToNormalized mode sps negate product).length
  | [], negate, product => rfl
  | sp :: sps, negate, product => by
      rw [multiplySizes, size_toNormalized sp negate, saturatingMulSize_min, ← length_cross,
        size_minorToNormalized sps negate, minorToNormalized]
end

end Sizes

/-! ## Literals -/

private theorem mem_literal {p : Predicate Leaf} (isVariable : normalFormVariable p = true) {negate : Bool}
    {clause : List (Predicate Leaf)} (member : clause ∈ literal p negate) :
    ∀ atom ∈ clause, normalFormVariableOrNot atom = true := by
  intro atom isAtom
  cases negate with
  | false =>
    rw [List.mem_singleton.mp member] at isAtom
    rw [List.mem_singleton.mp isAtom]
    simp [normalFormVariableOrNot, isVariable]
  | true =>
    rw [List.mem_singleton.mp member] at isAtom
    rw [List.mem_singleton.mp isAtom, normalFormVariableOrNot]
    exact Bool.or_eq_true_iff.mpr (.inr isVariable)

mutual
/-- A normal form has literals only. -/
theorem literals_toNormalized : ∀ (p : Predicate Leaf) (negate : Bool), ∀ clause ∈ toNormalized mode p negate,
    ∀ atom ∈ clause, normalFormVariableOrNot atom = true
  | .leaf _, _, _, member => mem_literal rfl member
  | .constant _, _, _, member => mem_literal rfl member
  | .not child atomic, negate, clause, member => by
      rw [toNormalized] at member
      cases atomic with
      | true => exact mem_literal rfl member
      | false => exact literals_toNormalized child (!negate) clause member
  | .and sps atomic, negate, clause, member | .or sps atomic, negate, clause, member => by
      rw [toNormalized] at member
      cases atomic with
      | true => exact mem_literal rfl member
      | false =>
        have minors := literals_minorToNormalized sps negate [[]] (by simp) clause
        have majors := literals_majorToNormalized sps negate clause
        cases mode <;> cases negate <;> first | exact minors member | exact majors member

theorem literals_majorToNormalized : ∀ (sps : List (Predicate Leaf)) (negate : Bool),
    ∀ clause ∈ majorToNormalized mode sps negate, ∀ atom ∈ clause, normalFormVariableOrNot atom = true
  | [], _ => List.forall_mem_nil _
  | sp :: sps, negate => by
      rw [majorToNormalized]
      exact List.forall_mem_append.mpr ⟨literals_toNormalized sp negate, literals_majorToNormalized sps negate⟩

theorem literals_minorToNormalized : ∀ (sps : List (Predicate Leaf)) (negate : Bool)
    (product : List (List (Predicate Leaf))),
    (∀ clause ∈ product, ∀ atom ∈ clause, normalFormVariableOrNot atom = true) →
    ∀ clause ∈ minorToNormalized mode sps negate product, ∀ atom ∈ clause, normalFormVariableOrNot atom = true
  | [], _, _, literals => literals
  | sp :: sps, negate, product, literals => by
      rw [minorToNormalized]
      refine literals_minorToNormalized sps negate _ fun clause member => ?_
      obtain ⟨right, isRight, left, isLeft, rfl⟩ := mem_cross.mp member
      exact List.forall_mem_append.mpr ⟨literals left isLeft, literals_toNormalized sp negate right isRight⟩
end

/-! ## Meaning -/

section Meaning

variable {L : Type} [DistribLattice L] [BoundedOrder L] {v : Predicate Leaf → L} {neg : L → L}

/-- A valuation that takes the major connective to joins and the minor one to meets. -/
structure Reading (mode : NormalFormMode) (v : Predicate Leaf → L) (neg : L → L) : Prop where
  major : ∀ p, mode.isMajor p = true → v p = joinAll v (connectiveChildren p)
  minor : ∀ p, mode.isMinor p = true → v p = meetAll v (connectiveChildren p)
  noMajor : v (mode.majorWithChildren []) = ⊥
  noMinor : v (mode.minorWithChildren []) = ⊤
  not : ∀ child atomic, v (.not child atomic) = neg (v child)
  neg_neg : ∀ x, neg (neg x) = x
  neg_inf : ∀ x y, neg (x ⊓ y) = neg x ⊔ neg y
  neg_sup : ∀ x y, neg (x ⊔ y) = neg x ⊓ neg y
  neg_top : neg ⊤ = ⊥
  neg_bot : neg ⊥ = ⊤

def signed (neg : L → L) (negate : Bool) (x : L) : L := if negate then neg x else x

section

variable (reading : Reading mode v neg)

include reading

theorem Reading.signed_not (negate : Bool) (child : Predicate Leaf) (atomic : Bool) :
    signed neg (!negate) (v child) = signed neg negate (v (.not child atomic)) := by
  rw [reading.not]
  cases negate with
  | false => rfl
  | true => exact (reading.neg_neg _).symm

theorem Reading.neg_joinAll (items : List (Predicate Leaf)) :
    neg (joinAll v items) = meetAll (signed neg true ∘ v) items := by
  induction items with
  | nil => simpa using reading.neg_bot
  | cons item items ih => rw [joinAll_cons, reading.neg_sup, ih, meetAll_cons]; rfl

theorem Reading.neg_meetAll (items : List (Predicate Leaf)) :
    neg (meetAll v items) = joinAll (signed neg true ∘ v) items := by
  induction items with
  | nil => simpa using reading.neg_top
  | cons item items ih => rw [meetAll_cons, reading.neg_inf, ih, joinAll_cons]; rfl

variable (p : Predicate Leaf)

theorem Reading.literal_value (negate : Bool) : clausesValue v (literal p negate) = signed neg negate (v p) := by
  cases negate with
  | false => simp [literal, clausesValue, signed]
  | true => simp [literal, clausesValue, signed, reading.not]

omit reading in
theorem clausesValue_unit (v : Predicate Leaf → L) : clausesValue v [[]] = ⊤ := by
  simp [clausesValue]

theorem Reading.minor_value (isMinor : mode.isMinor p = true) :
    clausesValue v [[]] ⊓ meetAll (signed neg false ∘ v) (connectiveChildren p) = v p := by
  rw [clausesValue_unit, top_inf_eq, reading.minor p isMinor]
  rfl

theorem Reading.minor_negated (isMinor : mode.isMinor p = true) :
    joinAll (signed neg true ∘ v) (connectiveChildren p) = neg (v p) := by
  rw [reading.minor p isMinor, reading.neg_meetAll]

theorem Reading.major_negated (isMajor : mode.isMajor p = true) :
    clausesValue v [[]] ⊓ meetAll (signed neg true ∘ v) (connectiveChildren p) = neg (v p) := by
  rw [clausesValue_unit, top_inf_eq, reading.major p isMajor, reading.neg_joinAll]

end

mutual
/-- The normal form has the value of the predicate, or of its negation. -/
theorem toNormalized_value (reading : Reading mode v neg) : ∀ (p : Predicate Leaf) (negate : Bool),
    clausesValue v (toNormalized mode p negate) = signed neg negate (v p)
  | .leaf _, negate | .constant _, negate => by
      rw [toNormalized, reading.literal_value]
  | .not child atomic, negate => by
      rw [toNormalized]
      cases atomic with
      | true => exact reading.literal_value _ negate
      | false => exact (toNormalized_value reading child (!negate)).trans (reading.signed_not negate child false)
  | .and sps atomic, negate => by
      rw [toNormalized]
      cases atomic with
      | true => exact reading.literal_value _ negate
      | false =>
        have minors := fun negate => minorToNormalized_value reading sps negate [[]]
        have majors := majorToNormalized_value reading sps
        cases mode <;> cases negate
        · exact (minors false).trans (reading.minor_value (.and sps false) rfl)
        · exact (majors true).trans (reading.minor_negated (.and sps false) rfl)
        · exact (majors false).trans (reading.major (.and sps false) rfl).symm
        · exact (minors true).trans (reading.major_negated (.and sps false) rfl)
  | .or sps atomic, negate => by
      rw [toNormalized]
      cases atomic with
      | true => exact reading.literal_value _ negate
      | false =>
        have minors := fun negate => minorToNormalized_value reading sps negate [[]]
        have majors := majorToNormalized_value reading sps
        cases mode <;> cases negate
        · exact (majors false).trans (reading.major (.or sps false) rfl).symm
        · exact (minors true).trans (reading.major_negated (.or sps false) rfl)
        · exact (minors false).trans (reading.minor_value (.or sps false) rfl)
        · exact (majors true).trans (reading.minor_negated (.or sps false) rfl)

theorem majorToNormalized_value (reading : Reading mode v neg) : ∀ (sps : List (Predicate Leaf)) (negate : Bool),
    clausesValue v (majorToNormalized mode sps negate) = joinAll (signed neg negate ∘ v) sps
  | [], negate => by
      rw [majorToNormalized, clausesValue, joinAll_nil, joinAll_nil]
  | sp :: sps, negate => by
      rw [majorToNormalized, clausesValue_append, toNormalized_value reading sp negate,
        majorToNormalized_value reading sps negate, joinAll_cons]
      rfl

theorem minorToNormalized_value (reading : Reading mode v neg) : ∀ (sps : List (Predicate Leaf)) (negate : Bool)
    (product : List (List (Predicate Leaf))), clausesValue v (minorToNormalized mode sps negate product) =
      clausesValue v product ⊓ meetAll (signed neg negate ∘ v) sps
  | [], negate, product => by
      rw [minorToNormalized, meetAll_nil, inf_top_eq]
  | sp :: sps, negate, product => by
      rw [minorToNormalized, minorToNormalized_value reading sps negate, clausesValue_cross,
        toNormalized_value reading sp negate, meetAll_cons, inf_assoc]
      rfl
end

end Meaning

end FdbGo.Query
