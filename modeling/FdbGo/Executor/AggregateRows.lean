import FdbGo.Executor.AggregateGroups

/-! The aggregation as one pass over its input. If the input is sorted by the grouping keys,
the pass has one row for each key, made of all rows of that key. -/

set_option autoImplicit false

namespace FdbGo.Executor

open RecordLayer

variable {Row : Type}

namespace AggregationPlan

/-- The rows of the aggregation from a group in progress on, and the error that ends it. -/
def run (plan : AggregationPlan Row) : Option AggregateGroup → List Row → List GroupRow × Option AggregateError
  | none, [] => ([], none)
  | some group, [] => ([plan.finalizeGroup group], none)
  | none, row :: rows =>
    match plan.firstRow row with
    | .error error => ([], some error)
    | .ok group => plan.run (some group) rows
  | some group, row :: rows =>
    if plan.keyOf row = group.keyVals then
      match plan.accumulateRow group row with
      | .error error => ([], some error)
      | .ok group => plan.run (some group) rows
    else
      match plan.firstRow row with
      | .error error => ([], some error)
      | .ok next => (plan.finalizeGroup group :: (plan.run (some next) rows).1, (plan.run (some next) rows).2)

def groupOf (plan : AggregationPlan Row) (key : List KeyValue) (rows : List Row) : Except AggregateError AggregateGroup :=
  rows.foldlM plan.accumulateRow (plan.newGroupState (packedKey key) key)

def rowsOf (plan : AggregationPlan Row) (key : List KeyValue) (rows : List Row) : List Row :=
  rows.filter fun row => plan.keyOf row = key

def RowOf (plan : AggregationPlan Row) (rows : List Row) (key : List KeyValue) (out : GroupRow) : Prop :=
  ∃ group, plan.groupOf key (plan.rowsOf key rows) = .ok group ∧ out = plan.finalizeGroup group

end AggregationPlan

open AggregationPlan

variable {plan : AggregationPlan Row}

variable {group : AggregateGroup} {key : List KeyValue} {rows : List Row}

theorem accumulateRow_keyVals {next : AggregateGroup} {row : Row}
    (done : plan.accumulateRow group row = .ok next) : next.keyVals = group.keyVals := by
  rw [accumulateRow] at done
  obtain ⟨accs, -, done⟩ := Foundation.bind_eq_ok done
  cases done
  rfl

theorem rowsOf_cons_self {row : Row} (isKey : plan.keyOf row = key) :
    plan.rowsOf key (row :: rows) = row :: plan.rowsOf key rows := List.filter_cons_of_pos (decide_eq_true isKey)

/-- Groups with the same future give the same rows. -/
theorem run_sameFuture {other : AggregateGroup}
    (same : SameFuture plan (plan.rowsOf group.keyVals rows).length group other) :
    plan.run (some group) rows = plan.run (some other) rows := by
  induction rows generalizing group other with
  | nil => rw [run, run, same.finalizeGroup]
  | cons row rows ih =>
    rw [run, run, same.keyVals, same.finalizeGroup]
    by_cases belongs : plan.keyOf row = other.keyVals
    · rw [if_pos belongs, if_pos belongs]
      rw [rowsOf_cons_self (belongs.trans same.keyVals.symm), List.length_cons] at same
      cases same.accumulateRow row with
      | inl failed =>
        obtain ⟨error, first, second⟩ := failed
        rw [first, second]
      | inr done =>
        obtain ⟨next, otherNext, first, second, sameNext⟩ := done
        rw [← accumulateRow_keyVals first] at sameNext
        rw [first, second]
        exact ih sameNext
    · rw [if_neg belongs, if_neg belongs]

/-! ## Sorted input -/

private theorem groupOf_append (done : plan.groupOf key rows = .ok group) (row : Row) :
    plan.groupOf key (rows ++ [row]) = plan.accumulateRow group row := by
  rw [groupOf] at done ⊢
  rw [List.foldlM_append, done]
  simp only [List.foldlM_cons, List.foldlM_nil, bind, Except.bind, pure, Except.pure]
  cases plan.accumulateRow group row <;> rfl

variable {order : List KeyValue → List KeyValue → Prop} {error : AggregateError}

theorem groupOf_fails (failed : plan.groupOf key rows = .error error) (more : List Row) :
    plan.groupOf key (rows ++ more) = .error error := by
  rw [groupOf] at failed ⊢
  rw [List.foldlM_append, failed]
  rfl

theorem groupOf_one (row : Row) : plan.groupOf (plan.keyOf row) [row] = plan.firstRow row := by
  rw [groupOf, firstRow]
  simp only [List.foldlM_cons, List.foldlM_nil, bind, Except.bind, pure, Except.pure]
  cases plan.accumulateRow (plan.newGroupState (packedKey (plan.keyOf row)) (plan.keyOf row)) row <;> rfl

theorem rowsOf_self (same : ∀ row ∈ rows, plan.keyOf row = key) :
    plan.rowsOf key rows = rows := List.filter_eq_self.mpr fun row member => decide_eq_true (same row member)

theorem rowsOf_other (other : ∀ row ∈ rows, plan.keyOf row ≠ key) : plan.rowsOf key rows = [] :=
  List.filter_eq_nil_iff.mpr fun row member isKey => other row member (of_decide_eq_true isKey)

theorem rowsOf_append (key : List KeyValue) (rows more : List Row) :
    plan.rowsOf key (rows ++ more) = plan.rowsOf key rows ++ plan.rowsOf key more := List.filter_append ..

def AggregationPlan.keysOf (plan : AggregationPlan Row) (rows : List Row) : List (List KeyValue) :=
  (rows.map plan.keyOf).dedup

theorem mem_keysOf : key ∈ plan.keysOf rows ↔ ∃ row ∈ rows, plan.keyOf row = key := by
  rw [keysOf, List.mem_dedup, List.mem_map]

private theorem keysOf_append {done : List Row} (nonempty : done ≠ []) (same : ∀ row ∈ done, plan.keyOf row = key)
    (others : ∀ row ∈ rows, plan.keyOf row ≠ key) : plan.keysOf (done ++ rows) = key :: plan.keysOf rows := by
  induction done with
  | nil => exact absurd rfl nonempty
  | cons row done ih =>
    have isKey := same row List.mem_cons_self
    rw [keysOf, List.cons_append, List.map_cons, isKey]
    cases done with
    | nil =>
      refine List.dedup_cons_of_notMem fun member => ?_
      obtain ⟨other, isRow, isKey⟩ := List.mem_map.mp member
      exact others other isRow isKey
    | cons next done =>
      rw [List.dedup_cons_of_mem]
      · exact ih (List.cons_ne_nil _ _) (List.forall_mem_cons.mp same).2
      · exact List.mem_map.mpr ⟨next, List.mem_cons_self, same next (by simp)⟩

/-- What a pass has for its groups: one row for each key in order, up to the error of a
group. -/
structure Grouped (plan : AggregationPlan Row) (rows : List Row) (found : List GroupRow × Option AggregateError) :
    Prop where
  each : ∀ {i : Nat} {out : GroupRow}, found.1[i]? = some out → ∃ key, (plan.keysOf rows)[i]? = some key ∧ plan.RowOf rows key out
  complete : found.2 = none → found.1.length = (plan.keysOf rows).length
  failed : ∀ {error}, found.2 = some error →
    ∃ key ∈ plan.keysOf rows, plan.groupOf key (plan.rowsOf key rows) = .error error

theorem grouped_error (member : key ∈ plan.keysOf rows)
    (failed : plan.groupOf key (plan.rowsOf key rows) = .error error) : Grouped plan rows ([], some error) where
  each := nofun
  complete := nofun
  failed same := ⟨key, member, Option.some.inj same ▸ failed⟩

theorem Grouped.cons {done : List Row} {found : List GroupRow × Option AggregateError}
    (grouped : Grouped plan rows found) (nonempty : done ≠ []) (same : ∀ row ∈ done, plan.keyOf row = key)
    (others : ∀ row ∈ rows, plan.keyOf row ≠ key) (made : plan.groupOf key done = .ok group) :
    Grouped plan (done ++ rows) (plan.finalizeGroup group :: found.1, found.2) := by
  have keys := keysOf_append nonempty same others
  have rest : ∀ {other}, other ∈ plan.keysOf rows → plan.rowsOf other (done ++ rows) = plan.rowsOf other rows := by
    intro other member
    obtain ⟨row, isRow, isKey⟩ := mem_keysOf.mp member
    have differs : ∀ early ∈ done, plan.keyOf early ≠ other := fun early isEarly same' =>
      others row isRow (isKey.trans (same'.symm.trans (same early isEarly)))
    rw [rowsOf_append, rowsOf_other differs, List.nil_append]
  refine ⟨fun {i out} here => ?_, fun none => ?_, fun {error} isError => ?_⟩
  · rw [keys]
    cases i with
    | zero =>
      refine ⟨key, rfl, group, ?_, (Option.some.inj here).symm⟩
      rw [rowsOf_append, rowsOf_self same, rowsOf_other others, List.append_nil, made]
    | succ i =>
      obtain ⟨other, isOther, found, isMade, isOut⟩ := grouped.each here
      exact ⟨other, isOther, found, by rw [rest (List.mem_of_getElem? isOther)]; exact isMade, isOut⟩
  · rw [keys, List.length_cons, List.length_cons, grouped.complete none]
  · obtain ⟨other, member, isFailed⟩ := grouped.failed isError
    exact ⟨other, keys ▸ List.mem_cons_of_mem _ member, by rw [rest member]; exact isFailed⟩

/-- The pass from a group in progress on; `done` are the rows of the group so far. -/
theorem run_grouped_from (antisymm : ∀ key other, order key other → order other key → key = other) :
    ∀ {key : List KeyValue} {done : List Row} {group : AggregateGroup}, done ≠ [] →
      (∀ row ∈ done, plan.keyOf row = key) → plan.groupOf key done = .ok group → group.keyVals = key →
      (key :: rows.map plan.keyOf).Pairwise order → Grouped plan (done ++ rows) (plan.run (some group) rows) := by
  induction rows with
  | nil =>
    intro key done group nonempty same made isKey sorted
    have none : Grouped plan [] ([], none) := ⟨nofun, fun _ => rfl, nofun⟩
    exact none.cons nonempty same nofun made
  | cons row rows ih =>
    intro key done group nonempty same made isKey sorted
    rw [List.map_cons] at sorted
    obtain ⟨first, later⟩ := List.pairwise_cons.mp sorted
    rw [run, isKey]
    by_cases belongs : plan.keyOf row = key
    · rw [if_pos belongs]
      have sameMore : ∀ early ∈ done ++ [row], plan.keyOf early = key :=
        List.forall_mem_append.mpr ⟨same, List.forall_mem_singleton.mpr belongs⟩
      have split : done ++ row :: rows = (done ++ [row]) ++ rows := by simp
      have extended := groupOf_append made row
      cases accumulated : plan.accumulateRow group row with
      | error error =>
        refine grouped_error (mem_keysOf.mpr ⟨row, by simp, belongs⟩) ?_
        rw [split, rowsOf_append, rowsOf_self sameMore]
        exact groupOf_fails (extended.trans accumulated) _
      | ok next =>
        rw [split]
        exact ih (by simp) sameMore (extended.trans accumulated)
          ((accumulateRow_keyVals accumulated).trans isKey) (belongs ▸ later)
    · rw [if_neg belongs]
      -- A key that came back would be on both sides of the key of this row.
      have others : ∀ other ∈ row :: rows, plan.keyOf other ≠ key := by
        refine List.forall_mem_cons.mpr ⟨belongs, fun other isLater isSame => ?_⟩
        have back := (List.pairwise_cons.mp later).1 _ (List.mem_map_of_mem isLater)
        rw [isSame] at back
        exact belongs (antisymm _ _ back (first _ List.mem_cons_self))
      cases begun : plan.firstRow row with
      | error error =>
        refine grouped_error (mem_keysOf.mpr ⟨row, by simp, rfl⟩) ?_
        have differs : ∀ early ∈ done, plan.keyOf early ≠ plan.keyOf row := fun early member isSame =>
          belongs (isSame.symm.trans (same early member))
        have split : row :: rows = [row] ++ rows := rfl
        rw [rowsOf_append, rowsOf_other differs, List.nil_append, split, rowsOf_append, rowsOf_self (by simp)]
        exact groupOf_fails ((groupOf_one row).trans begun) _
      | ok next =>
        have rest := ih (List.cons_ne_nil row []) (by simp) ((groupOf_one row).trans begun)
          (accumulateRow_keyVals begun) later
        exact rest.cons nonempty same others made

/-- Over sorted input the pass has one row for each key, made of the rows of that key. -/
theorem run_grouped (antisymm : ∀ key other, order key other → order other key → key = other)
    (sorted : (rows.map plan.keyOf).Pairwise order) : Grouped plan rows (plan.run none rows) := by
  cases rows with
  | nil => exact ⟨nofun, fun _ => rfl, nofun⟩
  | cons row rows =>
    rw [run]
    cases begun : plan.firstRow row with
    | error error =>
      refine grouped_error (mem_keysOf.mpr ⟨row, List.mem_cons_self, rfl⟩) ?_
      have split : row :: rows = [row] ++ rows := rfl
      rw [split, rowsOf_append, rowsOf_self (by simp)]
      exact groupOf_fails ((groupOf_one row).trans begun) _
    | ok group =>
      exact run_grouped_from antisymm (List.cons_ne_nil row []) (by simp) ((groupOf_one row).trans begun)
        (accumulateRow_keyVals begun) sorted

end FdbGo.Executor
