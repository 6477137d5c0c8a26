import FdbGo.RecordLayer.AtomicMutationProperties

/-! The entries of a record in a counting or summing index, from the tuples of `Evaluate`. -/

set_option autoImplicit false

namespace FdbGo.RecordLayer

open Client Foundation FdbGo.Tuple

namespace GroupingKeyExpression

variable {root : GroupingKeyExpression} {message : Message}

/-- `EvaluateFlat` loses no tuple of the record: a whole key that nests gives one, and a field
that fans out is repeated. -/
def FlatSafe (root : GroupingKeyExpression) (message : Message) : Prop :=
  match root.wholeKey with
  | .nesting _ _ _ _ => ∀ tuples, root.evaluate message = .ok tuples → tuples.length = 1
  | .field name .fanOut _ => ∀ content, message.field? name = some content → content.list?.isSome
  | _ => True

/-- The whole keys of the grouping expressions that are built. -/
def Built (root : GroupingKeyExpression) : Prop := root.wholeKey.Built ∨ root.wholeKey = .empty

theorem evaluate_of_flat (built : root.Built) (safe : root.FlatSafe message) {values : List Element}
    (flat : root.evaluateFlat message = .ok values) : root.evaluate message = .ok [values] := by
  obtain ⟨wholeKey, groupedCount, inside⟩ := root
  rw [evaluateFlat] at flat
  rw [evaluate]
  cases wholeKey with
  | empty =>
    dsimp only at flat ⊢
    rw [KeyExpression.evaluateFlat] at flat
    rw [KeyExpression.evaluate]
    cases flat
    rfl
  | composite expressions => exact KeyExpression.evaluate_of_flat_composite flat
  | nesting parentField fanType child parentNullStandin =>
    dsimp only at flat ⊢
    cases tried : (KeyExpression.nesting parentField fanType child parentNullStandin).evaluate (some message) with
    | error cause =>
      rw [tried] at flat
      cases flat
    | ok tuples =>
      obtain ⟨first, isFirst⟩ := List.length_eq_one_iff.mp (safe tuples tried)
      rw [tried, isFirst] at flat
      cases flat
      rw [isFirst]
  | field name fanType nullStandin =>
    dsimp only at flat ⊢
    rw [KeyExpression.evaluateFlat] at flat
    rw [KeyExpression.evaluate]
    have fans : fanType = .none ∨ ∀ content, message.field? name = some content → content.list?.isSome := by
      cases fanType with
      | none => exact .inl rfl
      | fanOut => exact .inr safe
      | concatenate =>
        cases built with
        | inr isEmpty => cases isEmpty
        | inl expression =>
          cases expression with
          | field _ _ _ fans => exact absurd rfl fans
    cases scalar : evaluateScalar name nullStandin (some message) with
    | error cause =>
      rw [scalar] at flat
      cases flat
    | ok element =>
      rw [scalar] at flat
      cases flat
      exact KeyExpression.evaluateField_of_scalar fans scalar

theorem rows_evaluate (root : GroupingKeyExpression) (message : Message) :
    GivesRows root.wholeKey.columnSize (root.evaluate message) :=
  KeyExpression.rows_evaluate root.wholeKey (some message)

def keyTuples (root : GroupingKeyExpression) (message : Message) : List (List Element) := (root.evaluate message).toOption.getD []

theorem row_keyTuples {root : GroupingKeyExpression} {message : Message} {t : List Element} (member : t ∈ root.keyTuples message) :
    Row root.wholeKey.columnSize t :=
  (rows_evaluate root message).getD t member

theorem packable_evaluateFlat (root : GroupingKeyExpression) (message : Message) :
    Succeeds (fun values => packables (Tuple.values values) = true) (root.evaluateFlat message) := by
  have all := rows_evaluate root message
  have flat := KeyExpression.row_evaluateFlat root.wholeKey (some message)
  obtain ⟨wholeKey, groupedCount, inside⟩ := root
  rw [evaluateFlat]
  cases wholeKey with
  | field | empty | composite => exact fun values found => (flat values found).packable
  | nesting parentField fanType child parentNullStandin =>
    refine all.bind fun tuples rows => ?_
    cases tuples with
    | nil => exact .ok rfl
    | cons first tuples => exact .ok (rows first List.mem_cons_self).packable

end GroupingKeyExpression

/-! ## Entries -/

section Entries

variable {index : AtomicIndex} {message : Message} (conversion : FloatConversion)

theorem groupKeyOf_eq_take {count : Nat} {values : List Element} (long : count ≤ values.length) :
    groupKeyOf count values = values.take count := by
  rw [groupKeyOf, Nat.sub_eq_zero_of_le long, List.replicate_zero, List.append_nil]

/-- The leading columns of a packable key are packable. -/
theorem packable_take {elements : List Element} (packable : packables (values elements) = true) (n : Nat) :
    packables (values (elements.take n)) = true :=
  packables_iff.mpr fun element member => packables_iff.mp packable element (List.mem_of_mem_take member)

theorem packable_groupKeyOf {elements : List Element} (packable : packables (values elements) = true) (n : Nat) :
    packables (values (groupKeyOf n elements)) = true := by
  refine packables_iff.mpr (List.forall_mem_append.mpr ⟨packables_iff.mp (packable_take packable n), ?_⟩)
  intro element null
  rw [(List.mem_replicate.mp null).2]
  rfl

/-- The tuples that are counted: `COUNT_NOT_NULL` leaves out those with a null that is not
unique. -/
def countsTuple (index : AtomicIndex) (values : List Element) : Bool :=
  match index.type with
  | .countNotNull => !(hasNull index values ||
      decide (0 < index.root.wholeKey.columnSize - groupingCount index ∧ values.length ≤ groupingCount index))
  | _ => true

def entriesOfTuples (index : AtomicIndex) (tuples : List (List Element)) : Except AtomicIndexError (List AtomicMutationEntry) :=
  match index.type with
  | .sum => (tuples.mapM (sumEntry index conversion)).map (List.filterMap id)
  | _ => .ok (countEntries ((tuples.filter (countsTuple index)).map (groupKeyOf (groupingCount index))))

theorem filter_countsTuple (counts : index.type ≠ .countNotNull) (tuples : List (List Element)) :
    tuples.filter (countsTuple index) = tuples := by
  refine List.filter_eq_self.mpr fun values _ => ?_
  rw [countsTuple]
  cases isType : index.type with
  | countNotNull => exact absurd isType counts
  | count | countUpdates | sum => rfl

/-- With every tuple that `Evaluate` gives, the shortcut gives the same entries. -/
theorem evaluateEntries_eq (flat : index.type ≠ .countNotNull → index.root.Built ∧ index.root.FlatSafe message) :
    evaluateEntries index message conversion =
      (evaluated (index.root.evaluate message)).bind fun tuples => entriesOfTuples conversion index tuples := by
  have one : index.type ≠ .countNotNull → ∀ values, index.root.evaluateFlat message = .ok values →
      index.root.evaluate message = .ok [values] :=
    fun counts values found => GroupingKeyExpression.evaluate_of_flat (flat counts).1 (flat counts).2 found
  have all : ∀ values, index.root.evaluateFlat message = .ok values → index.type ≠ .countNotNull →
      evaluated (index.root.evaluate message) = .ok [values] := by
    intro values found counts
    rw [one counts values found]
    rfl
  rw [evaluateEntries]
  simp only [entriesOfTuples]
  cases isType : index.type with
  | count | countUpdates =>
    have counts : index.type ≠ .countNotNull := by simp [isType]
    dsimp only
    rw [evaluateGroupingKeys]
    simp only [filter_countsTuple counts]
    cases tried : index.root.evaluateFlat message with
    | ok values =>
      rw [all values tried counts]
      rfl
    | error cause => cases index.root.evaluate message <;> rfl
  | countNotNull =>
    have shape : countsTuple index = fun values => !(hasNull index values ||
        decide (0 < index.root.wholeKey.columnSize - groupingCount index ∧ values.length ≤ groupingCount index)) := by
      funext values
      rw [countsTuple, isType]
    dsimp only
    rw [evaluateGroupingKeysNotNull, shape]
    cases index.root.evaluate message <;> rfl
  | sum =>
    dsimp only
    rw [sumEntries]
    cases tried : index.root.evaluateFlat message with
    | ok values =>
      rw [one (by simp [isType]) values tried]
      show (sumEntry index conversion values >>= fun entry => Except.ok entry.toList) =
        ([values].mapM (sumEntry index conversion)).map (List.filterMap id)
      rw [List.mapM_cons, List.mapM_nil]
      cases sumEntry index conversion values with
      | error cause => rfl
      | ok entry => cases entry <;> rfl
    | error cause =>
      cases index.root.evaluate message with
      | error cause => rfl
      | ok tuples =>
        show (tuples.mapM (sumEntry index conversion) >>= fun entries => Except.ok (entries.filterMap id)) =
          (tuples.mapM (sumEntry index conversion)).map (List.filterMap id)
        cases tuples.mapM (sumEntry index conversion) <;> rfl

private theorem packables_countEntries {keys : List (List Element)} (packable : ∀ key ∈ keys, packables (values key) = true) :
    AtomicIndex.Packables (countEntries keys) := by
  intro entry member
  obtain ⟨key, isKey, rfl⟩ := List.mem_map.mp member
  exact packable key isKey

private theorem packables_sumEntry {tuple : List Element} (packable : packables (values tuple) = true) :
    Succeeds (fun entry : Option AtomicMutationEntry => ∀ e ∈ entry, packables (values e.groupKey) = true)
      (sumEntry index conversion tuple) := by
  rw [sumEntry]
  split
  case h_1 | h_2 => exact .ok nofun
  case h_3 =>
    refine Succeeds.bind (P := fun _ => True) (fun _ _ => trivial) fun sumValue _ => .ok fun e same => ?_
    cases same
    exact packable_groupKeyOf packable _

theorem packables_entriesOfTuples {tuples : List (List Element)} (packable : ∀ t ∈ tuples, packables (values t) = true) :
    Succeeds AtomicIndex.Packables (entriesOfTuples conversion index tuples) := by
  have keys : ∀ others : List (List Element), (∀ t ∈ others, t ∈ tuples) →
      AtomicIndex.Packables (countEntries (others.map (groupKeyOf (groupingCount index)))) := by
    intro others within
    refine packables_countEntries fun key member => ?_
    obtain ⟨t, isTuple, rfl⟩ := List.mem_map.mp member
    exact packable_groupKeyOf (packable t (within t isTuple)) _
  rw [entriesOfTuples]
  cases index.type with
  | count | countUpdates | countNotNull => exact .ok (keys _ fun _ member => (List.mem_filter.mp member).1)
  | sum =>
    refine (Succeeds.mapM fun t member => packables_sumEntry conversion (packable t member)).map fun entries each => ?_
    intro entry member
    obtain ⟨found, isFound, same⟩ := List.mem_filterMap.mp member
    exact each found isFound entry same

end Entries

end FdbGo.RecordLayer
