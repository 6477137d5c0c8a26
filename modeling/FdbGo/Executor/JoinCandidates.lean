import FdbGo.Executor.NestedLoopJoin

/-! The candidates of an outer row: whether they are all inner rows or a bucket of the hash
index, the same rows pass the predicates, in the same order. -/

set_option autoImplicit false

namespace FdbGo.Executor

open Client RecordLayer

variable {Outer Inner Row : Type}

private theorem hashKey_of_equals (toFloat64 : Int → UInt64) {key other : JoinKey} (equal : key.equals other = true) :
    normalizeNLJHashKey toFloat64 key = normalizeNLJHashKey toFloat64 other := by
  cases key <;> cases other <;> simp_all [JoinKey.equals]

private theorem hashKey_of_passes {plan : NljPlan Outer Inner Row} {outerVal : Outer → JoinKey} {innerVal : Inner → JoinKey}
    (extracted : extractEquijoinOperands plan.preds = some (outerVal, innerVal)) {outerRow : Outer} {innerRow : Inner}
    (passes : passesJoinPredicates plan.preds outerRow innerRow = true) :
    plan.hashKey (innerVal innerRow) = plan.hashKey (outerVal outerRow) := by
  have member : (outerVal, innerVal) ∈ plan.preds.filterMap JoinPredicate.legs := by
    unfold extractEquijoinOperands at extracted
    split at extracted
    case h_1 operands isOperands =>
      obtain rfl := Option.some.inj extracted
      rw [isOperands]
      exact List.mem_singleton_self _
    case h_2 => cases extracted
  obtain ⟨pred, isPred, legs⟩ := List.mem_filterMap.mp member
  have holds := List.all_eq_true.mp passes pred isPred
  unfold JoinPredicate.legs at legs
  split at legs
  case h_1 =>
    cases legs
    exact (hashKey_of_equals _ holds).symm
  case h_2 =>
    cases legs
    exact hashKey_of_equals _ holds
  case h_3 => cases legs

/-! ## Buckets -/

private theorem foldl_bucket {Key Entry : Type} [DecidableEq Key] (keyOf : Entry → Key) (position : Entry → Nat)
    (entries : List Entry) (buckets : Key → List Nat) (key : Key) :
    entries.foldl (fun idx entry => Function.update idx (keyOf entry) (idx (keyOf entry) ++ [position entry])) buckets key =
      buckets key ++ (entries.filter fun entry => decide (keyOf entry = key)).map position := by
  induction entries generalizing buckets with
  | nil => simp
  | cons entry entries ih =>
    rw [List.foldl_cons, ih]
    by_cases same : keyOf entry = key
    · subst same
      simp
    · rw [List.filter_cons_of_neg (by simpa using same), Function.update_of_ne (Ne.symm same)]

private theorem filterMap_positions {T : Type} (rows : List T) (p : T → Bool) :
    ((rows.zipIdx.filter fun entry => p entry.1).map Prod.snd).filterMap (rows[·]?) = rows.filter p := by
  have found : ∀ entry ∈ rows.zipIdx.filter fun entry => p entry.1, rows[entry.2]? = some entry.1 := by
    intro entry member
    exact List.mk_mem_zipIdx_iff_getElem?.mp (List.mem_of_mem_filter member)
  have firsts : ((rows.zipIdx.filter fun entry => p entry.1).map Prod.snd).filterMap (rows[·]?) =
      (rows.zipIdx.filter fun entry => p entry.1).map Prod.fst := by
    rw [List.filterMap_map, ← List.filterMap_eq_map]
    exact List.filterMap_congr found
  have filtered : (rows.zipIdx.map Prod.fst).filter p = _ := List.filter_map
  rw [List.zipIdx_map_fst] at filtered
  rw [firsts, filtered]
  rfl

private theorem getElem?_filterMap {S T : Type} {f : S → Option T} {l : List S} (found : ∀ s ∈ l, (f s).isSome = true) (j : Nat) :
    (l.filterMap f)[j]? = l[j]?.bind f := by
  induction l generalizing j with
  | nil => rfl
  | cons s l ih =>
    obtain ⟨t, isT⟩ := Option.isSome_iff_exists.mp (found s List.mem_cons_self)
    rw [List.filterMap_cons_some isT]
    cases j with
    | zero => exact isT.symm
    | succ j => exact ih (List.forall_mem_cons.mp found).2 j

namespace NljPlan

def candidates (plan : NljPlan Outer Inner Row) (outerRow : Outer) : List Nat :=
  match plan.tryBuildHashIndex with
  | none => List.range plan.innerRows.length
  | some (hashIndex, outerVal) => hashIndex (plan.hashKey (outerVal outerRow))

def candidateRows (plan : NljPlan Outer Inner Row) (outerRow : Outer) : List Inner :=
  (plan.candidates outerRow).filterMap (plan.innerRows[·]?)

variable (plan : NljPlan Outer Inner Row) (outerRow : Outer)

theorem buildHashIndex_eq (innerVal : Inner → JoinKey) (key : HashKey) :
    plan.buildHashIndex innerVal key =
      (plan.innerRows.zipIdx.filter fun entry => decide (plan.hashKey (innerVal entry.1) = key)).map Prod.snd :=
  foldl_bucket (fun entry : Inner × Nat => plan.hashKey (innerVal entry.1)) Prod.snd _ _ key

theorem tryBuildHashIndex_cases :
    plan.tryBuildHashIndex = none ∨
      ∃ outerVal innerVal, extractEquijoinOperands plan.preds = some (outerVal, innerVal) ∧
        plan.tryBuildHashIndex = some (plan.buildHashIndex innerVal, outerVal) := by
  unfold tryBuildHashIndex
  split
  case isTrue => exact .inl rfl
  case isFalse =>
    cases extracted : extractEquijoinOperands plan.preds with
    | none => exact .inl rfl
    | some operands =>
      obtain ⟨outerVal, innerVal⟩ := operands
      exact .inr ⟨outerVal, innerVal, rfl, rfl⟩

theorem candidates_inside {i : Nat} (member : i ∈ plan.candidates outerRow) : i < plan.innerRows.length := by
  unfold candidates at member
  cases plan.tryBuildHashIndex_cases with
  | inl none =>
    rw [none] at member
    exact List.mem_range.mp member
  | inr built =>
    obtain ⟨outerVal, innerVal, -, isIndex⟩ := built
    rw [isIndex] at member
    dsimp only at member
    rw [buildHashIndex_eq] at member
    obtain ⟨entry, isEntry, rfl⟩ := List.mem_map.mp member
    exact (List.getElem?_eq_some_iff.mp (List.mk_mem_zipIdx_iff_getElem?.mp (List.mem_of_mem_filter isEntry))).1

/-- A candidate row is the inner row at the candidate position. -/
theorem candidateRows_get (j : Nat) :
    (plan.candidateRows outerRow)[j]? = (plan.candidates outerRow)[j]?.bind (plan.innerRows[·]?) :=
  getElem?_filterMap (fun i member => by simp [plan.candidates_inside outerRow member]) j

theorem candidateRows_length : (plan.candidateRows outerRow).length = (plan.candidates outerRow).length := by
  have ends : ∀ j, (plan.candidateRows outerRow).length ≤ j ↔ (plan.candidates outerRow).length ≤ j := by
    intro j
    rw [← List.getElem?_eq_none_iff, candidateRows_get, ← List.getElem?_eq_none_iff]
    cases candidate : (plan.candidates outerRow)[j]? with
    | none => simp
    | some i => simp [plan.candidates_inside outerRow (List.mem_of_getElem? candidate)]
  exact Nat.le_antisymm ((ends _).mpr (Nat.le_refl _)) ((ends _).mp (Nat.le_refl _))

theorem candidateRows_length_le : (plan.candidateRows outerRow).length ≤ plan.innerRows.length := by
  rw [candidateRows_length, candidates]
  cases plan.tryBuildHashIndex_cases with
  | inl none => rw [none, List.length_range]
  | inr built =>
    obtain ⟨outerVal, innerVal, -, isIndex⟩ := built
    rw [isIndex]
    dsimp only
    rw [buildHashIndex_eq, List.length_map]
    exact (List.length_filter_le _ _).trans (Nat.le_of_eq List.length_zipIdx)

theorem candidateRows_passes :
    (plan.candidateRows outerRow).filter (passesJoinPredicates plan.preds outerRow) =
      plan.innerRows.filter (passesJoinPredicates plan.preds outerRow) := by
  unfold candidateRows candidates
  cases plan.tryBuildHashIndex_cases with
  | inl none =>
    rw [none]
    have all := filterMap_positions plan.innerRows fun _ => true
    rw [List.filter_true, List.filter_true, List.zipIdx_map_snd, ← List.range_eq_range'] at all
    rw [all]
  | inr built =>
    obtain ⟨outerVal, innerVal, extracted, isIndex⟩ := built
    rw [isIndex]
    dsimp only
    rw [buildHashIndex_eq,
      filterMap_positions plan.innerRows fun row => decide (plan.hashKey (innerVal row) = plan.hashKey (outerVal outerRow)),
      List.filter_filter]
    refine List.filter_congr fun row _ => ?_
    cases passes : passesJoinPredicates plan.preds outerRow row with
    | false => rfl
    | true => simpa using hashKey_of_passes extracted passes

end NljPlan

end FdbGo.Executor
