import FdbGo.RecordLayer.AtomicEntries

/-! The shortcuts of an insert into a counting or summing index: where one applies, it adds
what the entries of `Evaluate` would. -/

set_option autoImplicit false

namespace FdbGo.RecordLayer

open Client Foundation FdbGo.Tuple KeyExpression AtomicMutationEntry

/-! ## Shortcuts of an insert -/

namespace AtomicIndex

/-- How the shortcuts of an insert end: they leave the insert to the standard path, they add
the record's entries, or they fail where the entries do. -/
inductive FastOutcome (index : AtomicIndex) (conversion : FloatConversion) (message : Message) (t : Transaction) :
    Except (Failure AtomicIndexError) Bool × Transaction → Prop where
  | declined : FastOutcome index conversion message t (.ok false, t)
  | applied {entries : List AtomicMutationEntry} {t' : Transaction}
      (evaluated : evaluateEntries index message conversion = .ok entries)
      (shifts : Shifts index.indexSubspace t.view t'.view (index.weightAt entries)) :
      FastOutcome index conversion message t (.ok true, t')
  | failed {cause : AtomicIndexError} {failure : Failure AtomicIndexError} {t' : Transaction}
      (evaluated : evaluateEntries index message conversion = .error cause) :
      FastOutcome index conversion message t (.error failure, t')

/-- The counts and sums that a build accepts. -/
structure Accepted (index : AtomicIndex) : Prop where
  built : index.root.Built
  grouped : (index.type = .count ∧ index.root.groupedCount = 0) ∨ (index.type = .sum ∧ index.root.groupedCount = 1)

section Inserts

variable {index : AtomicIndex} {message : Message} {conversion : FloatConversion} {t : Transaction}

theorem weightAt_singleton (entry : AtomicMutationEntry) (p : Bytes) :
    index.weightAt [entry] p = changeAt entry.packed (index.weight entry).toInt p := by
  rw [weightAt_cons]
  exact Int.add_zero _

private theorem evaluateEntries_count (isCount : index.type = .count) {values : List Element}
    (long : groupingCount index ≤ values.length) (flat : index.root.evaluateFlat message = .ok values) :
    evaluateEntries index message conversion = .ok [⟨values.take (groupingCount index), encodeRecordCount 1⟩] := by
  rw [evaluateEntries, isCount]
  dsimp only
  rw [evaluateGroupingKeys, flat]
  dsimp only
  rw [groupKeyOf_eq_take long]
  rfl

theorem evaluateEntries_sum (isSum : index.type = .sum) {values : List Element}
    (flat : index.root.evaluateFlat message = .ok values) :
    evaluateEntries index message conversion = (sumEntry index conversion values).map Option.toList := by
  rw [evaluateEntries, isSum]
  dsimp only
  rw [sumEntries, flat]
  dsimp only
  cases sumEntry index conversion values <;> rfl

theorem applyInsert_count (isCount : index.type = .count) {values : List Element}
    (packable : packables (Tuple.values values) = true) (long : groupingCount index ≤ values.length)
    (flat : index.root.evaluateFlat message = .ok values) (sumSource : Option Element) :
    FastOutcome index conversion message t
      ((index.applyInsertMutation conversion (values.take (groupingCount index)) sumSource).run t) := by
  have counts : index.type ≠ .countUpdates := by simp [isCount]
  obtain ⟨t', ran, shifts⟩ := applyMutation_run counts ⟨values.take (groupingCount index), []⟩
    (packed ⟨values.take (groupingCount index), []⟩) false t
  rw [applyInsertMutation, Tx.run_bind_ok (fdbKey_run (packable_take packable _) [] t), isCount]
  dsimp only
  rw [Tx.run_bind_ok ran]
  refine .applied (evaluateEntries_count isCount long flat) (shifts.congr fun p => ?_)
  rw [weightAt_singleton, weight, weight, isCount]
  rfl

private theorem applyInsert_sum (isSum : index.type = .sum) {values : List Element}
    (packable : packables (Tuple.values values) = true) (long : groupingCount index ≤ values.length)
    (flat : index.root.evaluateFlat message = .ok values) :
    FastOutcome index conversion message t ((index.applyInsertMutation conversion (values.take (groupingCount index))
      (values[groupingCount index]?)).run t) := by
  have counts : index.type ≠ .countUpdates := by simp [isSum]
  have entries : evaluateEntries index message conversion = _ := evaluateEntries_sum isSum flat
  rw [applyInsertMutation, Tx.run_bind_ok (fdbKey_run (packable_take packable _) [] t), isSum]
  dsimp only
  cases found : values[groupingCount index]? with
  | none =>
    rw [sumEntry, found] at entries
    exact .applied entries (.refl fun _ => rfl)
  | some source =>
    by_cases isNull : source = .null
    · subst isNull
      rw [sumEntry, found] at entries
      exact .applied entries (.refl fun _ => rfl)
    · have entry : sumEntry index conversion values = (toInt64 conversion source).map fun sumValue =>
          some ⟨values.take (groupingCount index), encodeRecordCount sumValue⟩ := by
        rw [sumEntry, found, groupKeyOf_eq_take long]
        split
        case h_1 never => cases never
        case h_2 never => exact absurd (Option.some.inj never) isNull
        case h_3 same =>
          cases same
          cases toInt64 conversion source <;> rfl
      rw [entry] at entries
      split
      case h_1 never => cases never
      case h_2 never => exact absurd (Option.some.inj never) isNull
      case h_3 same =>
        cases same
        cases converted : toInt64 conversion source with
        | error cause =>
          rw [converted] at entries
          exact .failed entries
        | ok sumValue =>
          rw [converted] at entries
          replace entries : evaluateEntries index message conversion =
            .ok [⟨values.take (groupingCount index), encodeRecordCount sumValue⟩] := entries
          obtain ⟨t', ran, shifts⟩ := applyMutation_run counts
            ⟨values.take (groupingCount index), encodeRecordCount sumValue⟩
            (packed ⟨values.take (groupingCount index), []⟩) false t
          rw [orFail, Tx.run_bind_ok (Tx.run_pure sumValue), Tx.run_bind_ok ran]
          refine .applied entries (shifts.congr fun p => ?_)
          rw [weightAt_singleton, packed, packed]
          rfl

/-! ### Composite whole keys -/

variable {expressions : List KeyExpression} {groupKey : List Element} {expression : KeyExpression}

private theorem evaluateFast_cons {values fast : List Element} (flat : expression.evaluateFlat (some message) = .ok values)
    (rest : evaluateFast expressions (some message) = .ok (some fast)) :
    evaluateFast (expression :: expressions) (some message) = .ok (some (values ++ fast)) := by
  rw [evaluateFast, flat]
  dsimp only
  rw [rest]
  rfl

private theorem flat_of_packDirect {element : Element} (packed : packDirectOf message expression = some element) :
    expression.evaluateFlat (some message) = .ok [element] ∧ expression.columnSize = 1 := by
  cases expression with
  | field name fanType nullStandin =>
    rw [evaluateFlat, evaluateScalar_of_packDirect packed, columnSize]
    exact ⟨rfl, rfl⟩
  | empty | composite | nesting => cases packed

theorem packDirectOf_of_int64 {value : Int64} (integer : int64Of message expression = some value) :
    packDirectOf message expression = some (.int64 value) := by
  cases expression with
  | field name fanType nullStandin => exact packDirect_of_int64 integer
  | empty | composite | nesting => cases integer

/-- Children that are packed directly have the values of `EvaluateFlat`, and a column each. -/
theorem fast_of_packDirect {elements : List Element}
    (packed : expressions.mapM (packDirectOf message) = some elements) :
    evaluateFast expressions (some message) = .ok (some elements) ∧
      columnSize.columnSizes expressions = expressions.length ∧ elements.length = expressions.length := by
  induction expressions generalizing elements with
  | nil =>
    cases packed
    rw [evaluateFast, columnSize.columnSizes]
    exact ⟨rfl, rfl, rfl⟩
  | cons expression expressions ih =>
    rw [List.mapM_cons] at packed
    obtain ⟨element, isElement, packed⟩ := Option.bind_eq_some_iff.mp packed
    obtain ⟨rest, isRest, packed⟩ := Option.bind_eq_some_iff.mp packed
    cases packed
    obtain ⟨fast, columns, length⟩ := ih isRest
    obtain ⟨flat, column⟩ := flat_of_packDirect isElement
    refine ⟨evaluateFast_cons flat fast, ?_, ?_⟩
    · rw [columnSize.columnSizes, column, columns, List.length_cons]
      exact Nat.add_comm _ _
    · rw [List.length_cons, length, List.length_cons]

private theorem columnSizes_append (first second : List KeyExpression) :
    columnSize.columnSizes (first ++ second) =
      columnSize.columnSizes first + columnSize.columnSizes second := by
  induction first with
  | nil =>
    rw [List.nil_append]
    exact (Nat.zero_add _).symm
  | cons expression first ih =>
    rw [List.cons_append, columnSize.columnSizes, ih, columnSize.columnSizes, Nat.add_assoc]

private theorem length_le_columnSizes (each : ∀ expression ∈ expressions, 0 < expression.columnSize) :
    expressions.length ≤ columnSize.columnSizes expressions := by
  induction expressions with
  | nil => exact Nat.zero_le _
  | cons expression expressions ih =>
    have first := each expression List.mem_cons_self
    have rest := ih (List.forall_mem_cons.mp each).2
    rw [List.length_cons, columnSize.columnSizes]
    omega

/-- After the children that are packed come those of the grouped columns, of which there is
at most one. -/
theorem grouped_children (accepted : index.Accepted) (whole : index.root.wholeKey = .composite expressions)
    (packed : (expressions.take (groupingCount index)).mapM (packDirectOf message) = some groupKey)
    (enough : groupingCount index ≤ expressions.length) :
    (expressions.drop (groupingCount index)).length = index.root.groupedCount := by
  obtain ⟨_, columns, _⟩ := fast_of_packDirect packed
  have inside := index.root.inside
  have count : groupingCount index = index.root.wholeKey.columnSize - index.root.groupedCount := rfl
  have size : index.root.wholeKey.columnSize = columnSize.columnSizes expressions := by
    rw [whole, columnSize]
  have parts := columnSizes_append (expressions.take (groupingCount index)) (expressions.drop (groupingCount index))
  rw [List.take_append_drop, columns, List.length_take, Nat.min_eq_left enough] at parts
  have each : ∀ child ∈ expressions, 0 < child.columnSize := by
    cases accepted.built with
    | inr isEmpty =>
      rw [whole] at isEmpty
      cases isEmpty
    | inl built =>
      rw [whole] at built
      exact built.children_pos
  have few : (expressions.drop (groupingCount index)).length ≤ _ :=
    length_le_columnSizes fun child member => each child (List.mem_of_mem_drop member)
  have some_ : 0 < columnSize.columnSizes (expressions.drop (groupingCount index)) →
      0 < (expressions.drop (groupingCount index)).length := by
    intro positive
    refine List.length_pos_iff.mpr fun none_ => ?_
    rw [none_] at positive
    cases positive
  cases accepted.grouped with
  | inl isCount => omega
  | inr isSum => omega

def insertChildren (index : AtomicIndex) (conversion : FloatConversion) (message : Message) (expressions : List KeyExpression)
    (groupKey : List Element) : Tx AtomicIndexError Bool :=
  if index.type = .sum ∧ groupingCount index < expressions.length then
    match (expressions[groupingCount index]?).bind (int64Of message) with
    | none => pure false
    | some value => index.addInline groupKey value
  else index.applyInsertMutation conversion groupKey none

theorem addInline_run (packable : packables (values groupKey) = true) (value : Int64) (t : Transaction) :
    ∃ t', (index.addInline groupKey value).run t = (.ok true, t') ∧
      Shifts index.indexSubspace t.view t'.view
        (changeAt (packed ⟨groupKey, encodeRecordCount value⟩) value.toInt) := by
  obtain ⟨t', ran, cleared⟩ := index.clearIfZero_run (packed ⟨groupKey, encodeRecordCount value⟩)
    (t.mutate { typ := .addValue,
                key := index.indexSubspace ++ packed ⟨groupKey, encodeRecordCount value⟩,
                value := encodeRecordCount value })
  refine ⟨t', ?_, ((shifts_add _ _ t value).trans cleared).congr fun p => Int.add_zero _⟩
  rw [addInline, Tx.run_bind_ok (fdbKey_run packable (encodeRecordCount value) t), Tx.run_bind_ok (Tx.run_add _ _),
    Tx.run_bind_ok ran]
  rfl

private theorem flat_of_fast (whole : index.root.wholeKey = .composite expressions) {values : List Element}
    (fast : evaluateFast expressions (some message) = .ok (some values)) :
    index.root.evaluateFlat message = .ok values := by
  rw [GroupingKeyExpression.evaluateFlat, whole]
  exact (evaluate_of_fast fast).1

section

variable (accepted : index.Accepted)

include accepted

theorem insertChildren_run (whole : index.root.wholeKey = .composite expressions)
    (packed : (expressions.take (groupingCount index)).mapM (packDirectOf message) = some groupKey)
    (enough : groupingCount index ≤ expressions.length) :
    FastOutcome index conversion message t ((index.insertChildren conversion message expressions groupKey).run t) := by
  obtain ⟨fast, _, length⟩ := fast_of_packDirect packed
  have children := grouped_children accepted whole packed enough
  rw [List.length_take, Nat.min_eq_left enough] at length
  rw [insertChildren]
  cases accepted.grouped with
  | inl isCount =>
    rw [isCount.2, List.length_drop] at children
    rw [List.take_of_length_le (by omega)] at fast
    have flat := flat_of_fast whole fast
    have packable := GroupingKeyExpression.packable_evaluateFlat index.root message groupKey flat
    rw [if_neg fun both => by simp [isCount.1] at both]
    have run : FastOutcome index conversion message t _ := applyInsert_count isCount.1 packable length.ge flat none
    rw [List.take_of_length_le length.le] at run
    exact run
  | inr isSum =>
    rw [isSum.2] at children
    obtain ⟨child, isChild⟩ := List.length_eq_one_iff.mp children
    have found : expressions[groupingCount index]? = some child := by
      rw [← List.head?_drop, isChild]
      rfl
    rw [if_pos ⟨isSum.1, by rw [List.length_drop] at children; omega⟩, found, Option.bind_some]
    cases integer : int64Of message child with
    | none => exact .declined
    | some value =>
      have all : expressions.mapM (packDirectOf message) = some (groupKey ++ [.int64 value]) := by
        rw [← List.take_append_drop (groupingCount index) expressions, isChild, List.mapM_append, packed, List.mapM_cons,
          packDirectOf_of_int64 integer]
        rfl
      have flat := flat_of_fast whole (fast_of_packDirect all).1
      have packable := packable_take (GroupingKeyExpression.packable_evaluateFlat index.root message _ flat)
        (groupingCount index)
      rw [List.take_left' length] at packable
      obtain ⟨t', ran, shifts⟩ := addInline_run packable value t
      have entries : evaluateEntries index message conversion = .ok [⟨groupKey, encodeRecordCount value⟩] := by
        rw [evaluateEntries_sum isSum.1 flat, sumEntry, List.getElem?_append_right length.le, length, Nat.sub_self,
          groupKeyOf_eq_take (by rw [List.length_append]; omega), List.take_left' length]
        rfl
      dsimp only
      rw [ran]
      refine .applied entries (shifts.congr fun p => ?_)
      rw [weightAt_singleton, weight, isSum.1]
      dsimp only
      rw [decodeRecordCount_encode]

theorem insertFirst_run {first : KeyExpression} {rest : List KeyExpression} {group : Int64}
    (whole : index.root.wholeKey = .composite (first :: rest)) (single : groupingCount index = 1)
    (integer : int64Of message first = some group) : FastOutcome index conversion message t
      ((index.insertChildren conversion message (first :: rest) [.int64 group]).run t) := by
  refine insertChildren_run accepted whole ?_ ?_
  · rw [single, List.take_succ_cons, List.take_zero, List.mapM_cons, packDirectOf_of_int64 integer]
    rfl
  · rw [single, List.length_cons]
    exact Nat.le_add_left 1 _

private theorem whole_of_no_columns (isCount : index.type = .count)
    (zero : groupingCount index = 0) : index.root.wholeKey = .empty := by
  have grouped : index.root.groupedCount = 0 := by
    cases accepted.grouped with
    | inl both => exact both.2
    | inr both =>
      rw [isCount] at both
      cases both.1
  cases accepted.built with
  | inr isEmpty => exact isEmpty
  | inl built =>
    have columns := built.columnSize_pos
    have count : groupingCount index = index.root.wholeKey.columnSize - index.root.groupedCount := rfl
    omega

theorem updateInsertOnlyGrouped_run :
    FastOutcome index conversion message t ((index.updateInsertOnlyGrouped conversion message).run t) := by
  rw [updateInsertOnlyGrouped]
  by_cases zero : groupingCount index = 0
  · rw [if_pos zero]
    cases accepted.grouped with
    | inr isSum =>
      rw [if_neg fun either => by simp [isSum.1] at either]
      exact .declined
    | inl isCount =>
      have flat : index.root.evaluateFlat message = .ok [] := by
        rw [GroupingKeyExpression.evaluateFlat, whole_of_no_columns accepted isCount.1 zero]
        rfl
      have run : FastOutcome index conversion message t _ := applyInsert_count isCount.1 rfl (by rw [zero]; exact Nat.zero_le _) flat none
      rw [List.take_nil] at run
      rw [if_pos (.inl isCount.1)]
      exact run
  · rw [if_neg zero]
    cases whole : index.root.wholeKey with
    | field | empty | nesting => exact .declined
    | composite expressions =>
      dsimp only
      by_cases single : groupingCount index = 1
      · rw [if_pos single]
        cases expressions with
        | nil => exact .declined
        | cons first rest =>
          dsimp only
          cases integer : int64Of message first with
          | none => exact .declined
          | some group =>
            dsimp only
            by_cases more : index.type = .sum ∧ rest ≠ []
            · rw [if_pos more]
              cases rest with
              | nil => exact absurd rfl more.2
              | cons second rest =>
                have run : FastOutcome index conversion message t _ := insertFirst_run accepted whole single integer
                rw [insertChildren, single, if_pos ⟨more.1, Nat.lt_add_of_pos_left (Nat.succ_pos _)⟩] at run
                exact run
            · rw [if_neg more]
              have run : FastOutcome index conversion message t _ := insertFirst_run accepted whole single integer
              rw [insertChildren, single, if_neg fun both => more ⟨both.1, fun none_ => by simp [none_] at both⟩] at run
              exact run
      · rw [if_neg single]
        by_cases short : expressions.length < groupingCount index
        · rw [if_pos short]
          exact .declined
        · rw [if_neg short]
          cases packed : (expressions.take (groupingCount index)).mapM (packDirectOf message) with
          | none => exact .declined
          | some groupKey => exact insertChildren_run accepted whole packed (Nat.not_lt.mp short)

/-- The path for inserts alone does what the general one does, wherever it is taken. -/
theorem updateInsertOnly_run (safe : index.root.FlatSafe message) :
    FastOutcome index conversion message t ((index.updateInsertOnly conversion message).run t) := by
  have grouped : FastOutcome index conversion message t _ := updateInsertOnlyGrouped_run accepted
  rw [updateInsertOnly, Tx.run_bind]
  obtain ⟨outcome, isOutcome⟩ : ∃ outcome, outcome = (index.updateInsertOnlyGrouped conversion message).run t := ⟨_, rfl⟩
  rw [← isOutcome] at grouped ⊢
  cases grouped with
  | failed evaluated => exact .failed evaluated
  | applied evaluated shifts => exact .applied evaluated shifts
  | declined =>
    dsimp only
    rw [if_neg Bool.false_ne_true]
    cases flat : index.root.evaluateFlat message with
    | error cause => exact .declined
    | ok values =>
      have row := GroupingKeyExpression.rows_evaluate index.root message _
        (GroupingKeyExpression.evaluate_of_flat accepted.built safe flat) values List.mem_cons_self
      have long : groupingCount index ≤ values.length := row.length ▸ Nat.sub_le _ _
      cases accepted.grouped with
      | inl isCount => exact applyInsert_count isCount.1 row.packable long flat _
      | inr isSum => exact applyInsert_sum isSum.1 row.packable long flat

end

/-! ### Counts of values that are not null -/

theorem applyInsert_declined (notNull : index.type = .countNotNull) (packable : packables (values groupKey) = true)
    (sumSource : Option Element) :
    (index.applyInsertMutation conversion groupKey sumSource).run t = (.ok false, t) := by
  rw [applyInsertMutation, Tx.run_bind_ok (fdbKey_run packable [] t), notNull]
  rfl

private theorem packable_of_packDirect {elements : List Element}
    (packed : expressions.mapM (packDirectOf message) = some elements) : packables (values elements) = true :=
  (row_evaluateFast expressions (some message) _ (fast_of_packDirect packed).1 elements rfl).packable

private theorem updateInsertOnlyGrouped_declined (notNull : index.type = .countNotNull) :
    (index.updateInsertOnlyGrouped conversion message).run t = (.ok false, t) := by
  have noSum : ∀ P : Prop, ¬ (index.type = .sum ∧ P) := fun P both => by simp [notNull] at both
  rw [updateInsertOnlyGrouped]
  split
  case isTrue => exact congrArg (Tx.run · t) (if_neg fun either => by simp [notNull] at either)
  case isFalse =>
    split
    case h_2 => rfl
    case h_1 expressions whole =>
      split
      case isTrue =>
        split
        case h_1 => rfl
        case h_2 first rest =>
          split
          case h_1 => rfl
          case h_2 group integer =>
            rw [if_neg (noSum _)]
            have packable : Row 1 [.int64 group] := row_singleton (packable_int64 group)
            exact applyInsert_declined notNull packable.packable none
      case isFalse =>
        split
        case isTrue => rfl
        case isFalse =>
          split
          case h_1 => rfl
          case h_2 groupKey packed =>
            rw [if_neg (noSum _)]
            exact applyInsert_declined notNull (packable_of_packDirect packed) none

theorem updateInsertOnly_declined (notNull : index.type = .countNotNull) :
    FastOutcome index conversion message t ((index.updateInsertOnly conversion message).run t) := by
  rw [updateInsertOnly, Tx.run_bind_ok (updateInsertOnlyGrouped_declined notNull), if_neg Bool.false_ne_true]
  cases flat : index.root.evaluateFlat message with
  | error cause => exact .declined
  | ok values =>
    have packable := GroupingKeyExpression.packable_evaluateFlat index.root message values flat
    dsimp only
    rw [applyInsert_declined notNull (packable_take packable _)]
    exact .declined

end Inserts

end AtomicIndex

end FdbGo.RecordLayer
