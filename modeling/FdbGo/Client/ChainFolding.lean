import FdbGo.Client.AtomicProperties

/-! What a read sees of a folded chain. Reading resolves the chain over the value of
the database, so a fold is seen through the value and the flags of `resolveAtomics`. -/

set_option autoImplicit false

namespace FdbGo.Client

/-! ## What resolving a chain gives -/

def stamped (atomics : List RywMutation) : Bool :=
  atomics.any fun m => isUnresolvedVersionstamp m.typ

variable {atomics : List RywMutation}

theorem resolveFrom_stamped (stamp : stamped atomics = true)
    (base : Option Bytes) (cleared : Bool) : resolveFrom base cleared atomics = (none, false, true) := by
  induction atomics generalizing base cleared with
  | nil => exact absurd stamp Bool.false_ne_true
  | cons m rest ih =>
    unfold resolveFrom
    cases here : isUnresolvedVersionstamp m.typ with
    | true => exact if_pos rfl
    | false =>
      rw [if_neg Bool.false_ne_true]
      have later : stamped rest = true := by simpa [stamped, here] using stamp
      split
      case h_1 => exact ih later none true
      case h_2 => exact ih later _ false

theorem resolveFrom_cons {m : RywMutation} (resolvable : isUnresolvedVersionstamp m.typ = false)
    (base : Option Bytes) (cleared : Bool) (rest : List RywMutation) :
    resolveFrom base cleared (m :: rest) =
      resolveFrom (atomicMeaning m.typ m.param base) (atomicMeaning m.typ m.param base).isNone rest := by
  rw [resolveFrom, resolvable, if_neg Bool.false_ne_true, atomicMeaning]
  cases applyAtomic m.typ base m.param with
  | mk value removed => cases removed <;> rfl

private theorem resolveFrom_resolvable (resolvable : stamped atomics = false) (base : Option Bytes) :
    resolveFrom base base.isNone atomics =
      (chainMeaning base atomics, (chainMeaning base atomics).isNone, false) := by
  induction atomics generalizing base with
  | nil => rfl
  | cons m rest ih =>
    obtain ⟨here, later⟩ : isUnresolvedVersionstamp m.typ = false ∧ stamped rest = false := by
      simpa [stamped] using resolvable
    rw [resolveFrom_cons here]
    exact ih later _

/-- Without a versionstamp a chain folds to the value that its mutations leave. -/
theorem resolveAtomics_resolvable (nonempty : atomics ≠ [])
    (resolvable : stamped atomics = false) (base : Option Bytes) :
    resolveAtomics base atomics =
      (chainMeaning base atomics, (chainMeaning base atomics).isNone, false) := by
  cases atomics with
  | nil => exact absurd rfl nonempty
  | cons m rest =>
    obtain ⟨here, later⟩ : isUnresolvedVersionstamp m.typ = false ∧ stamped rest = false := by
      simpa [stamped] using resolvable
    rw [resolveAtomics, resolveFrom_cons here]
    exact resolveFrom_resolvable later _

/-- The flags need the fold only under a last `compareAndClear`. -/
theorem atomicsOutcome_eq_flags (base : Option Bytes) (atomics : List RywMutation) :
    atomicsOutcome base atomics = (resolveAtomics base atomics).2 := by
  rw [atomicsOutcome, ← stamped]
  cases stamp : stamped atomics with
  | true => rw [if_pos rfl, resolveAtomics, resolveFrom_stamped stamp]
  | false =>
    rw [if_neg Bool.false_ne_true]
    induction atomics using List.reverseRecOn with
    | nil => rfl
    | append_singleton rest last =>
      rw [List.getLast?_concat, resolveAtomics_resolvable (by simp) stamp, chainMeaning, List.foldl_concat]
      cases rest.foldl _ base <;> cases typ : last.typ <;> simp [typ, atomicMeaning, applyAtomic]

/-! ## Folds and flags -/

theorem coalesceOverAtomics_ne_nil (stack : List RywMutation) (newMut : RywMutation) :
    coalesceOverAtomics stack newMut ≠ [] := by
  unfold coalesceOverAtomics
  split
  case isTrue => split <;> simp
  case isFalse => simp

theorem stamped_coalesce (stack : List RywMutation) (newMut : RywMutation) :
    stamped (coalesceOverAtomics stack newMut) = stamped (stack ++ [newMut]) := by
  unfold coalesceOverAtomics
  cases folds : foldsOnto stack newMut with
  | false => rw [if_neg Bool.false_ne_true]
  | true =>
    rw [if_pos rfl]
    cases last : stack.getLast? with
    | none => simp [List.getLast?_eq_none_iff.mp last]
    | some top =>
      have whole : stack.dropLast ++ [top] = stack := List.dropLast_append_getLast? top last
      obtain ⟨same, -, -⟩ := foldsOnto_top last folds
      conv_rhs => rw [← whole]
      simp [stamped, same]

/-! ## Appending within the size limit -/

/-- An append that would exceed the limit leaves the value as it is; an empty part always
fits. -/
def appendFitting (value param : Bytes) : Bytes :=
  if value ≠ [] ∧ param ≠ [] ∧ valueSizeLimit < value.length + param.length then value else value ++ param

private theorem existing_doAppendIfFits (base : Option Bytes) (param : Bytes) :
    existing (doAppendIfFits base param) = appendFitting (existing base) param := by
  unfold doAppendIfFits appendFitting
  simp only [List.isEmpty_iff, gt_iff_lt, apply_ite existing, existing_copied, existing_some]
  split_ifs <;> simp_all

variable {value first second : Bytes}

@[simp] theorem appendFitting_nil_left : appendFitting [] second = second := by simp [appendFitting]

@[simp] theorem appendFitting_nil_right : appendFitting value [] = value := by simp [appendFitting]

private theorem appendFitting_fits (fits : value.length + second.length ≤ valueSizeLimit) :
    appendFitting value second = value ++ second :=
  if_neg fun exceeds => exceeds.2.2.not_ge fits

private theorem appendFitting_exceeds (valuePos : 0 < value.length) (secondPos : 0 < second.length)
    (exceeds : valueSizeLimit < value.length + second.length) : appendFitting value second = value :=
  if_pos ⟨List.ne_nil_of_length_pos valuePos, List.ne_nil_of_length_pos secondPos, exceeds⟩

private theorem length_le_appendFitting : value.length ≤ (appendFitting value second).length := by
  unfold appendFitting
  split <;> simp

private theorem append_ne_self (added : 0 < second.length) : value ≠ value ++ second := by
  intro same
  have lengths := congrArg List.length same
  rw [List.length_append] at lengths
  omega

/-- The lengths of a value and two operands for which the two appends and the append of
both operands at once disagree: the three parts exceed the limit together, and the one or
the other leaves out a part that fits. -/
def AppendsApart (value first second : Nat) : Prop :=
  0 < value ∧ 0 < first ∧ 0 < second ∧ valueSizeLimit < value + first + second ∧
    (valueSizeLimit < value + first → value + second ≤ valueSizeLimit) ∧
    (value + first ≤ valueSizeLimit → first + second ≤ valueSizeLimit)

private theorem appendFitting_fold_iff :
    appendFitting value (appendFitting first second) = appendFitting (appendFitting value first) second ↔
      ¬ AppendsApart value.length first.length second.length := by
  -- An empty part changes nothing; what is left compares lengths.
  rcases value.length.eq_zero_or_pos with noValue | valuePos
  · simp [List.length_eq_zero_iff.mp noValue, AppendsApart]
  rcases first.length.eq_zero_or_pos with noFirst | firstPos
  · simp [List.length_eq_zero_iff.mp noFirst, AppendsApart]
  rcases second.length.eq_zero_or_pos with noSecond | secondPos
  · simp [List.length_eq_zero_iff.mp noSecond, AppendsApart]
  have joinedLength : (value ++ first).length = value.length + first.length := List.length_append
  have bothLength : (first ++ second).length = first.length + second.length := List.length_append
  by_cases firstFits : value.length + first.length ≤ valueSizeLimit
  · rw [appendFitting_fits firstFits]
    by_cases bothFit : first.length + second.length ≤ valueSizeLimit
    · rw [appendFitting_fits bothFit]
      by_cases allFit : value.length + first.length + second.length ≤ valueSizeLimit
      · rw [appendFitting_fits (by omega), appendFitting_fits (by omega), List.append_assoc]
        exact iff_of_true rfl fun apart => apart.2.2.2.1.not_ge allFit
      · rw [appendFitting_exceeds valuePos (by omega) (by omega),
          appendFitting_exceeds (by omega) secondPos (by omega)]
        refine iff_of_false (append_ne_self firstPos) (not_not.mpr ⟨valuePos, firstPos, secondPos, ?_, ?_, ?_⟩) <;>
          omega
    · rw [appendFitting_exceeds firstPos secondPos (not_le.mp bothFit), appendFitting_fits firstFits,
        appendFitting_exceeds (by omega) secondPos (by omega)]
      exact iff_of_true rfl fun apart => bothFit (apart.2.2.2.2.2 firstFits)
  · have longer : first.length ≤ (appendFitting first second).length := length_le_appendFitting
    have dropped : appendFitting value first = value := appendFitting_exceeds valuePos firstPos (by omega)
    rw [dropped, appendFitting_exceeds valuePos (by omega) (by omega)]
    by_cases secondFits : value.length + second.length ≤ valueSizeLimit
    · rw [appendFitting_fits secondFits]
      refine iff_of_false (append_ne_self secondPos) (not_not.mpr ⟨valuePos, firstPos, secondPos, ?_, ?_, ?_⟩) <;>
        omega
    · rw [appendFitting_exceeds valuePos secondPos (by omega)]
      exact iff_of_true rfl fun apart => secondFits (apart.2.2.2.2.1 (by omega))

theorem doAppendIfFits_fold_iff (base : Option Bytes) (first second : Bytes) :
    existing (doAppendIfFits base (existing (doAppendIfFits (some first) second))) =
        existing (doAppendIfFits (some (existing (doAppendIfFits base first))) second) ↔
      ¬ AppendsApart (existing base).length first.length second.length := by
  rw [← appendFitting_fold_iff, existing_doAppendIfFits, existing_doAppendIfFits, existing_doAppendIfFits,
    existing_doAppendIfFits, existing_some, existing_some]

/-! ## Reading a folded chain -/

theorem coalesce_append_iff (base : Option Bytes) {rest : List RywMutation} (plain : stamped rest = false)
    (first second : Bytes) :
    resolveAtomics base (coalesceOverAtomics (rest ++ [⟨.appendIfFits, first⟩]) ⟨.appendIfFits, second⟩) =
        resolveAtomics base (rest ++ [⟨.appendIfFits, first⟩] ++ [⟨.appendIfFits, second⟩]) ↔
      ¬ AppendsApart (existing (chainMeaning base rest)).length first.length second.length := by
  have stamp : stamped (rest ++ [⟨.appendIfFits, first⟩] ++ [⟨.appendIfFits, second⟩]) = false := by
    simpa [stamped, isUnresolvedVersionstamp] using plain
  have folds : foldsOnto (rest ++ [⟨.appendIfFits, first⟩]) ⟨.appendIfFits, second⟩ = true := by
    simp [foldsOnto, isUnresolvedVersionstamp, isNonAssociativeOp]
  rw [resolveAtomics_resolvable (by simp) stamp,
    resolveAtomics_resolvable (coalesceOverAtomics_ne_nil _ _) (by rw [stamped_coalesce, stamp]), Prod.mk.injEq]
  rw [coalesceOverAtomics, if_pos folds, List.getLast?_concat, List.dropLast_concat, chainMeaning_append,
    chainMeaning_append, chainMeaning_append, ← doAppendIfFits_fold_iff]
  exact ⟨fun same => Option.some.inj same.1, fun same => ⟨congrArg some same, rfl⟩⟩

/-- A fold is read as the mutation it folds, unless it joins two appends that disagree
with the append of both at once over the value that the chain before them means, and
only then. -/
theorem coalesce_read_transparent (base : Option Bytes) (chain : List RywMutation) (m : RywMutation)
    (operation : isAtomicOp m.typ = true) (resolvable : isUnresolvedVersionstamp m.typ = false) :
    resolveAtomics base (coalesceOverAtomics chain m) = resolveAtomics base (chain ++ [m]) ↔
      ∀ rest top, chain = rest ++ [top] → stamped rest = false → m.typ = .appendIfFits → top.typ = .appendIfFits →
        ¬ AppendsApart (existing (chainMeaning base rest)).length top.param.length m.param.length := by
  constructor
  · intro same rest top split plain appends topAppends
    obtain ⟨typ, first⟩ := top
    obtain ⟨typ', second⟩ := m
    cases appends
    cases topAppends
    rw [split] at same
    exact (coalesce_append_iff base plain first second).mp same
  intro within
  cases stamp : stamped (chain ++ [m]) with
  | true =>
    rw [resolveAtomics, resolveAtomics, resolveFrom_stamped stamp,
      resolveFrom_stamped (stamped_coalesce chain m ▸ stamp)]
  | false =>
    have unfolded : chain ++ [m] ≠ [] := by simp
    rw [resolveAtomics_resolvable unfolded stamp,
      resolveAtomics_resolvable (coalesceOverAtomics_ne_nil chain m) (stamped_coalesce chain m ▸ stamp)]
    have same : chainMeaning base (coalesceOverAtomics chain m) = chainMeaning base (chain ++ [m]) := by
      rw [chainMeaning_append]
      by_cases appends : m.typ = .appendIfFits
      · refine chainMeaning_coalesce_of base fun rest top split sameType _ _ => ?_
        have plain : stamped rest = false := by
          rw [split] at stamp
          simp only [stamped, List.any_append, Bool.or_eq_false_iff] at stamp
          exact stamp.1.1
        rw [appends]
        exact congrArg some ((doAppendIfFits_fold_iff _ _ _).mpr
          (within rest top split plain appends (sameType.trans appends)))
      · exact chainMeaning_coalesce base chain ⟨operation, resolvable, appends⟩
    rw [same]

theorem coalesce_read_transparent_append :
    resolveAtomics (some [1]) (coalesceOverAtomics [⟨.appendIfFits, [2]⟩] ⟨.appendIfFits, [3]⟩) =
      resolveAtomics (some [1]) [⟨.appendIfFits, [2]⟩, ⟨.appendIfFits, [3]⟩] := by
  refine (coalesce_read_transparent (some [1]) [⟨.appendIfFits, [2]⟩] ⟨.appendIfFits, [3]⟩ rfl rfl).mpr ?_
  intro rest top split _ _ _ apart
  obtain ⟨rfl, rfl⟩ : rest = [] ∧ top = ⟨.appendIfFits, [2]⟩ := by
    cases rest with
    | nil => exact ⟨rfl, by simpa using split.symm⟩
    | cons m more => simp at split
  exact absurd apart.2.2.2.1 (by decide)

/-- Over a value of 60,000 bytes an append of 40,000 fits and one more byte does not;
folded into the append, it makes the read lose all of it. -/
theorem fold_loses_append :
    resolveAtomics (some (List.replicate 60000 0))
        (coalesceOverAtomics [⟨.appendIfFits, List.replicate 40000 1⟩] ⟨.appendIfFits, [2]⟩) ≠
      resolveAtomics (some (List.replicate 60000 0))
        ([⟨.appendIfFits, List.replicate 40000 1⟩] ++ [⟨.appendIfFits, [2]⟩]) := by
  intro same
  refine (@coalesce_append_iff (some (List.replicate 60000 0)) [] rfl (List.replicate 40000 1) [2]).mp same ?_
  simp only [chainMeaning, List.foldl_nil, existing_some, List.length_replicate, List.length_singleton]
  refine ⟨?_, ?_, ?_, ?_, ?_, ?_⟩ <;> decide

end FdbGo.Client
