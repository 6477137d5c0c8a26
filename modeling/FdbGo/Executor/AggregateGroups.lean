import FdbGo.Executor.AggregateStates
import FdbGo.Foundation.Outcome
import FdbGo.Tuple.Prefixes

/-! Groups in continuations: the key and the states of a group are read back, and the group
that is restored has the same future as the one that was written. -/

set_option autoImplicit false

namespace FdbGo.Executor

open Client Foundation RecordLayer FdbGo.Tuple

variable {Row : Type}

/-! ## Grouping keys -/

variable {value : KeyValue}

private theorem keyFields_read {type : KeyType} (typed : value.HasType type) (number : Nat) :
    (value = .null ∧ value.keyFields number = []) ∨
      ∃ wire, value.keyFields number = [{ number, value := wire }] ∧ keyOfWire type wire = value := by
  cases value with
  | null => exact .inl ⟨rfl, rfl⟩
  | integer n =>
    refine .inr ⟨.varint (int64Bits n), rfl, ?_⟩
    cases type with
    | int => exact congrArg KeyValue.integer (int32OfBits_bits typed)
    | long => exact congrArg KeyValue.integer (int64OfBits_bits n)
    | string | bool | bytes => exact typed.elim
  | string s =>
    refine .inr ⟨.bytes s, rfl, ?_⟩
    cases type with
    | string => rfl
    | int | long | bool | bytes => exact typed.elim
  | bool b =>
    refine .inr ⟨.varint (if b then 1 else 0), rfl, ?_⟩
    cases type with
    | bool => cases b <;> rfl
    | int | long | string | bytes => exact typed.elim
  | bytes b =>
    refine .inr ⟨.bytes b, rfl, ?_⟩
    cases type with
    | bytes => rfl
    | int | long | string | bool => exact typed.elim

variable {vals : List KeyValue} {aggs : List (AggregateSpec Row)} {accs : List Accumulator} {row : Row} {plan : AggregationPlan Row} {group : AggregateGroup} {rows : Int64} {room : Nat}
    {next : AggregateGroup} {number : Nat}

private theorem messageFromRowValues_number {field : WireField} (member : field ∈ messageFromRowValues number vals) :
    number ≤ field.number := by
  induction vals generalizing number with
  | nil => cases member
  | cons value vals ih =>
    cases List.mem_append.mp member with
    | inl first => cases value <;> simp [KeyValue.keyFields] at first <;> simp [first]
    | inr later => exact Nat.le_of_succ_le (ih later)

private theorem find_none {fields : List WireField} (other : ∀ field ∈ fields, field.number ≠ number) :
    fields.reverse.find? (fun field => field.number == number) = none := by
  apply List.find?_eq_none.mpr
  intro field member
  simpa using other field (List.mem_reverse.mp member)

variable {other : AggregateGroup} {types : List KeyType} {others : Int64}

private theorem rowValuesFromMessage_from (typed : List.Forall₂ KeyValue.HasType vals types) {front : List WireField}
    (before : ∀ field ∈ front, field.number < number) :
    rowValuesFromMessage (front ++ messageFromRowValues number vals) number types = vals := by
  induction typed generalizing front number with
  | nil => rfl
  | @cons value type vals types first others ih =>
    rw [messageFromRowValues, rowValuesFromMessage]
    have small : ∀ field ∈ front ++ value.keyFields number, field.number < number + 1 := by
      refine List.forall_mem_append.mpr ⟨fun field early => Nat.lt_succ_of_lt (before field early), fun field here => ?_⟩
      cases value <;> simp [KeyValue.keyFields] at here <;> simp [here]
    have rest := ih small
    rw [List.append_assoc] at rest
    rw [rest]
    have later := find_none fun field (member : field ∈ messageFromRowValues (number + 1) vals) =>
      Nat.ne_of_gt (messageFromRowValues_number member)
    have early := find_none fun field member => Nat.ne_of_lt (before field member)
    refine congrArg (· :: vals) ?_
    rw [List.reverse_append, List.reverse_append, List.find?_append, List.find?_append, later, early]
    cases keyFields_read first number with
    | inl null =>
      rw [null.2, null.1]
      rfl
    | inr found =>
      obtain ⟨wire, isField, reads⟩ := found
      rw [isField]
      simp [reads]

private theorem rowValuesFromMessage_message (typed : List.Forall₂ KeyValue.HasType vals types) :
    rowValuesFromMessage (messageFromRowValues 1 vals) 1 types = vals := by
  have none : ∀ field ∈ ([] : List WireField), field.number < 1 := nofun
  exact rowValuesFromMessage_from typed none

private theorem packable_key (value : KeyValue) : value.element.value.packable = true := by
  cases value with
  | integer n => exact packable_int64 n
  | null | string | bool | bytes => rfl

theorem packables_keys (vals : List KeyValue) : packables (values (vals.map KeyValue.element)) = true := by
  induction vals with
  | nil => rfl
  | cons value vals ih => rw [List.map_cons, values, packables, packable_key, ih]; rfl

def packedKey (vals : List KeyValue) : Bytes := wires false (values (vals.map KeyValue.element))

theorem packGroupKey_eq (vals : List KeyValue) : packGroupKey vals = .ok (packedKey vals) := by
  rw [packGroupKey, pack_eq (packables_keys vals)]
  rfl

private theorem element_value_injective {other : KeyValue} (same : value.element.value = other.element.value) :
    value = other := by
  cases value <;> cases other <;> simp [KeyValue.element, Element.value] at same ⊢
  case integer.integer => exact Int64.toInt_inj.mp same
  all_goals exact same

/-- Different groups have different packed keys. -/
theorem packedKey_injective {others : List KeyValue} (same : packedKey vals = packedKey others) : vals = others := by
  have equal := wires_injective (packables_keys vals) (packables_keys others) same
  rw [values_eq_map, values_eq_map, List.map_map, List.map_map] at equal
  exact List.map_injective_iff.mpr (fun _ _ => element_value_injective) equal

/-! ## Messages -/

namespace AggregateContinuation

private theorem readState_encode (state : TypedState) : readState (encodeFields [stateField state]) = some (some state) := by
  rw [readState, decodeFields_encode]
  cases state <;> rfl

private theorem foldlM_readStateField (before states : List TypedState) :
    (states.map fun state => { number := 1, value := .bytes (encodeFields [stateField state]) }).foldlM
      readStateField before = some (before ++ states) := by
  induction states generalizing before with
  | nil => simp
  | cons state states ih =>
    rw [List.map_cons, List.foldlM_cons]
    simp only [readStateField, readState_encode, Option.bind_eq_bind, Option.bind_some]
    rw [ih, List.append_assoc]
    rfl

private theorem readStates_encode (states : List TypedState) : readStates (statesBytes states) = some states := by
  rw [readStates, statesBytes, decodeFields_encode, Option.bind_some]
  exact foldlM_readStateField [] states

private theorem foldlM_readPartialField (result : PartialAggregationResult) (lists : List (List TypedState)) :
    (lists.map fun states => { number := 2, value := .bytes (statesBytes states) }).foldlM readPartialField result =
      some { result with accumulatorStates := result.accumulatorStates ++ lists } := by
  induction lists generalizing result with
  | nil => simp
  | cons states lists ih =>
    rw [List.map_cons, List.foldlM_cons]
    simp only [readPartialField, readStates_encode, Option.map_some, Option.bind_eq_bind, Option.bind_some]
    rw [ih, List.append_assoc]
    rfl

private theorem readPartial_encode (result : PartialAggregationResult) : readPartial (partialBytes result) = some result := by
  obtain ⟨groupKey, lists⟩ := result
  rw [readPartial, partialBytes, decodeFields_encode, Option.bind_some, List.foldlM_append]
  cases groupKey with
  | none => exact foldlM_readPartialField {} lists
  | some key => exact foldlM_readPartialField { groupKey := some key } lists

private theorem aggregate_unmarshal_marshal (message : AggregateContinuation) : unmarshal message.marshal = some message := by
  obtain ⟨continuation, result⟩ := message
  rw [unmarshal, marshal, decodeFields_encode, Option.bind_some]
  cases continuation <;> cases result <;>
    simp [ContinuationMessage.bytesField, readField, readPartial_encode]

end AggregateContinuation

/-! ## Groups -/

/-- A group in progress that can count this many more rows. -/
structure GroupFor (plan : AggregationPlan Row) (room : Nat) (group : AggregateGroup) : Prop where
  packed : group.groupKey = packedKey group.keyVals
  typed : List.Forall₂ KeyValue.HasType group.keyVals (plan.groupingKeys.map GroupingKey.type)
  roomy : Room room group.rows
  some_ : group.rows ≠ 0
  accumulating : List.Forall₂ (Accumulating room) plan.aggregates group.accumulators

def AggregationPlan.keyOf (plan : AggregationPlan Row) (row : Row) : List KeyValue :=
  plan.groupingKeys.map fun key => key.evaluate row

private theorem keyOf_typed (plan : AggregationPlan Row) (row : Row) :
    List.Forall₂ KeyValue.HasType (plan.keyOf row) (plan.groupingKeys.map GroupingKey.type) := by
  rw [AggregationPlan.keyOf]
  induction plan.groupingKeys with
  | nil => exact .nil
  | cons key keys ih => exact .cons (key.typed row) ih

/-- A grouping key always packs. -/
theorem computeGroupKey_eq (plan : AggregationPlan Row) (row : Row) :
    plan.computeGroupKey row = .ok (packedKey (plan.keyOf row), plan.keyOf row) := by
  rw [AggregationPlan.computeGroupKey]
  split
  case isTrue none =>
    rw [AggregationPlan.keyOf, List.isEmpty_iff.mp none]
    rfl
  case isFalse =>
    dsimp only
    rw [packGroupKey_eq]
    rfl

private theorem accumulateAll_accumulating {next : List Accumulator}
    (accumulating : List.Forall₂ (Accumulating (room + 1)) aggs accs)
    (done : accumulateAll row aggs accs = .ok next) : List.Forall₂ (Accumulating room) aggs next := by
  induction accumulating generalizing next with
  | nil => cases done; exact .nil
  | @cons agg acc aggs accs first others ih =>
    rw [accumulateAll] at done
    obtain ⟨acc', one, done⟩ := bind_eq_ok done
    obtain ⟨accs', rest, done⟩ := bind_eq_ok done
    cases done
    exact .cons (first.accumulate one) (ih rest)

theorem accumulateRow_group (packed : group.groupKey = packedKey group.keyVals)
    (typed : List.Forall₂ KeyValue.HasType group.keyVals (plan.groupingKeys.map GroupingKey.type))
    (roomy : Room (room + 1) group.rows)
    (accumulating : List.Forall₂ (Accumulating (room + 1)) plan.aggregates group.accumulators)
    (done : plan.accumulateRow group row = .ok next) : GroupFor plan room next := by
  rw [AggregationPlan.accumulateRow] at done
  obtain ⟨accs, all, done⟩ := bind_eq_ok done
  cases done
  exact ⟨packed, typed, roomy.succ.1, roomy.succ.2, accumulateAll_accumulating accumulating all⟩

theorem GroupFor.accumulateRow (isGroup : GroupFor plan (room + 1) group)
    (done : plan.accumulateRow group row = .ok next) : GroupFor plan room next :=
  accumulateRow_group isGroup.packed isGroup.typed isGroup.roomy isGroup.accumulating done

def AggregationPlan.firstRow (plan : AggregationPlan Row) (row : Row) : Except AggregateError AggregateGroup :=
  plan.accumulateRow (plan.newGroupState (packedKey (plan.keyOf row)) (plan.keyOf row)) row

theorem firstRow_group (few : room + 1 < 2 ^ 63) (done : plan.firstRow row = .ok next) : GroupFor plan room next := by
  rw [AggregationPlan.firstRow, AggregationPlan.newGroupState] at done
  refine accumulateRow_group ?_ ?_ ?_ ?_ done
  · rfl
  · exact keyOf_typed plan row
  · exact .zero few
  · induction plan.aggregates with
    | nil => exact .nil
    | cons agg aggs ih => exact .cons (accumulating_new few agg) ih

/-! ## Groups with the same future -/

def AggregationPlan.restored (plan : AggregationPlan Row) (group : AggregateGroup) : AggregateGroup :=
  { group with
    rows := plan.aggregates.foldl (fun before agg => rowsRead agg group.rows before) 1
    accumulators := List.zipWith kept plan.aggregates group.accumulators }

/-- Groups that differ only in what a continuation does not keep. -/
structure SameFuture (plan : AggregationPlan Row) (room : Nat) (group other : AggregateGroup) : Prop where
  isGroup : GroupFor plan room group
  isOther : GroupFor plan room other
  groupKey : group.groupKey = other.groupKey
  keyVals : group.keyVals = other.keyVals
  rows : ∀ agg ∈ plan.aggregates, agg.function = .countStar → group.rows = other.rows
  accumulators : List.zipWith kept plan.aggregates group.accumulators =
    List.zipWith kept plan.aggregates other.accumulators

theorem rowsRead_foldl {before : Int64} :
    (∃ agg ∈ aggs, agg.function = .countStar) ∧ aggs.foldl (fun before agg => rowsRead agg rows before) before = rows ∨
      (∀ agg ∈ aggs, agg.function ≠ .countStar) ∧
        aggs.foldl (fun before agg => rowsRead agg rows before) before = before := by
  induction aggs generalizing before with
  | nil => exact .inr ⟨List.forall_mem_nil _, rfl⟩
  | cons agg aggs ih =>
    rw [List.foldl_cons]
    by_cases counts : agg.function = .countStar
    · refine .inl ⟨⟨agg, List.mem_cons_self, counts⟩, ?_⟩
      rw [rowsRead, if_pos counts]
      cases ih with
      | inl found => exact found.2
      | inr none => exact none.2
    · rw [rowsRead, if_neg counts]
      cases ih with
      | inl found =>
        obtain ⟨⟨other, member, isCount⟩, same⟩ := found
        exact .inl ⟨⟨other, List.mem_cons_of_mem _ member, isCount⟩, same⟩
      | inr none => exact .inr ⟨List.forall_mem_cons.mpr ⟨counts, none.1⟩, none.2⟩

private theorem zipWith_kept_kept (aggs : List (AggregateSpec Row)) (accs : List Accumulator) :
    List.zipWith kept aggs (List.zipWith kept aggs accs) = List.zipWith kept aggs accs := by
  induction aggs generalizing accs with
  | nil => rfl
  | cons agg aggs ih =>
    cases accs with
    | nil => rfl
    | cons acc accs => rw [List.zipWith_cons_cons, List.zipWith_cons_cons, kept_kept, ih]

private theorem accumulating_zipWith (accumulating : List.Forall₂ (Accumulating room) aggs accs) :
    List.Forall₂ (Accumulating room) aggs (List.zipWith kept aggs accs) := by
  induction accumulating with
  | nil => exact .nil
  | cons first others ih => exact .cons (accumulating_kept first) ih

theorem GroupFor.restored (isGroup : GroupFor plan room group) : GroupFor plan room (plan.restored group) := by
  have rows : (plan.restored group).rows = group.rows ∨ (plan.restored group).rows = 1 :=
    rowsRead_foldl.imp And.right And.right
  refine ⟨isGroup.packed, isGroup.typed, ?_, ?_, accumulating_zipWith isGroup.accumulating⟩
  · cases rows with
    | inl same => exact same ▸ isGroup.roomy
    | inr one => exact one ▸ isGroup.roomy.one isGroup.some_
  · cases rows with
    | inl same => exact same ▸ isGroup.some_
    | inr one => exact one ▸ by decide

theorem sameFuture_restored (isGroup : GroupFor plan room group) :
    SameFuture plan room (plan.restored group) group := by
  refine ⟨isGroup.restored, isGroup, rfl, rfl, fun agg member counts => ?_, zipWith_kept_kept _ _⟩
  cases rowsRead_foldl with
  | inl found => exact found.2
  | inr none => exact absurd counts (none.1 agg member)

private theorem accumulateAll_kept (row : Row) {others : List Accumulator}
    (accumulating : List.Forall₂ (Accumulating (room + 1)) aggs accs)
    (otherwise : List.Forall₂ (Accumulating (room + 1)) aggs others)
    (same : List.zipWith kept aggs accs = List.zipWith kept aggs others) :
    (accumulateAll row aggs accs).map (List.zipWith kept aggs) =
      (accumulateAll row aggs others).map (List.zipWith kept aggs) := by
  induction accumulating generalizing others with
  | nil => cases otherwise; rfl
  | @cons agg acc aggs accs here _ ih =>
    cases otherwise with
    | @cons _ other _ others there otherwise =>
      rw [List.zipWith_cons_cons, List.zipWith_cons_cons, List.cons.injEq] at same
      rw [accumulateAll, accumulateAll]
      cases map_eq_map (accumulate_kept here.roomy there.roomy same.1 row) with
      | inl failed =>
        obtain ⟨error, first, second⟩ := failed
        rw [first, second]
        rfl
      | inr done =>
        obtain ⟨next, otherNext, first, second, sameNext⟩ := done
        rw [first, second]
        cases map_eq_map (ih otherwise same.2) with
        | inl failed =>
          obtain ⟨error, rest, otherRest⟩ := failed
          rw [rest, otherRest]
          rfl
        | inr done =>
          obtain ⟨nexts, otherNexts, rest, otherRest, sameNexts⟩ := done
          rw [rest, otherRest]
          exact congrArg Except.ok (congrArg₂ List.cons sameNext sameNexts)

/-- Groups with the same future take a row alike. -/
theorem SameFuture.accumulateRow (same : SameFuture plan (room + 1) group other) (row : Row) :
    (∃ error, plan.accumulateRow group row = .error error ∧ plan.accumulateRow other row = .error error) ∨
      ∃ next otherNext, plan.accumulateRow group row = .ok next ∧ plan.accumulateRow other row = .ok otherNext ∧
        SameFuture plan room next otherNext := by
  cases map_eq_map (accumulateAll_kept row same.isGroup.accumulating same.isOther.accumulating same.accumulators) with
  | inl failed =>
    obtain ⟨error, first, second⟩ := failed
    rw [AggregationPlan.accumulateRow, AggregationPlan.accumulateRow, first, second]
    exact .inl ⟨error, rfl, rfl⟩
  | inr done =>
    obtain ⟨accs, otherAccs, first, second, sameAccs⟩ := done
    have made : plan.accumulateRow group row = .ok { group with rows := group.rows + 1, accumulators := accs } := by
      rw [AggregationPlan.accumulateRow, first]
      rfl
    have otherMade : plan.accumulateRow other row =
        .ok { other with rows := other.rows + 1, accumulators := otherAccs } := by
      rw [AggregationPlan.accumulateRow, second]
      rfl
    exact .inr ⟨_, _, made, otherMade, same.isGroup.accumulateRow made, same.isOther.accumulateRow otherMade,
      same.groupKey, same.keyVals, fun agg member counts => congrArg (· + 1) (same.rows agg member counts), sameAccs⟩

private theorem finalize_rows {agg : AggregateSpec Row} (same : agg.function = .countStar → rows = others) (acc : Accumulator) :
    finalize agg rows acc = finalize agg others acc := by
  cases isFunction : agg.function
  case countStar => rw [same isFunction]
  all_goals simp only [finalize, isFunction]

private theorem zipWith_finalize {otherAccs : List Accumulator}
    (accumulating : List.Forall₂ (Accumulating room) aggs accs)
    (otherwise : List.Forall₂ (Accumulating room) aggs otherAccs)
    (sameRows : ∀ agg ∈ aggs, agg.function = .countStar → rows = others)
    (same : List.zipWith kept aggs accs = List.zipWith kept aggs otherAccs) :
    List.zipWith (fun agg acc => finalize agg rows acc) aggs accs =
      List.zipWith (fun agg acc => finalize agg others acc) aggs otherAccs := by
  induction accumulating generalizing otherAccs with
  | nil => rfl
  | @cons agg acc aggs accs here _ ih =>
    cases otherwise with
    | cons there otherwise =>
      rw [List.zipWith_cons_cons, List.zipWith_cons_cons, List.cons.injEq] at same
      rw [List.zipWith_cons_cons, List.zipWith_cons_cons, finalize_kept here.roomy there.roomy same.1,
        finalize_rows (sameRows agg List.mem_cons_self), ih otherwise (List.forall_mem_cons.mp sameRows).2 same.2]

theorem SameFuture.finalizeGroup (same : SameFuture plan room group other) :
    plan.finalizeGroup group = plan.finalizeGroup other := by
  rw [AggregationPlan.finalizeGroup, AggregationPlan.finalizeGroup, same.keyVals,
    zipWith_finalize same.isGroup.accumulating same.isOther.accumulating same.rows same.accumulators]

/-! ## Writing and reading a group -/

private theorem decodeAccumulators_encode
    (accumulating : List.Forall₂ (Accumulating room) aggs accs) (roomy : Room room rows) (positive : 0 < rows)
    (before : Int64) :
    ∃ lists, encodeAccumulators rows aggs accs = .ok lists ∧ lists.length = aggs.length ∧
      (∀ states ∈ lists, states.length ≤ 1) ∧
      decodeAccumulators before aggs lists =
        .ok (aggs.foldl (fun before agg => rowsRead agg rows before) before, List.zipWith kept aggs accs) := by
  induction accumulating generalizing before with
  | nil => exact ⟨[], rfl, rfl, nofun, rfl⟩
  | @cons agg acc aggs accs first others ih =>
    obtain ⟨states, written, short, read⟩ := decodeAccumulator_encode first roomy positive before
    obtain ⟨lists, writtenRest, length, shorts, readRest⟩ := ih (rowsRead agg rows before)
    refine ⟨states :: lists, ?_, congrArg (· + 1) length, List.forall_mem_cons.mpr ⟨short, shorts⟩, ?_⟩
    · rw [encodeAccumulators, written, writtenRest]
      rfl
    · rw [decodeAccumulators, read]
      simp only [bind, Except.bind]
      rw [readRest]
      rfl

private theorem not_legacy {result : PartialAggregationResult}
    (length : result.accumulatorStates.length = plan.aggregates.length)
    (shorts : ∀ states ∈ result.accumulatorStates, states.length ≤ 1) :
    plan.isLegacyAggregatePartial result = false := by
  rw [AggregationPlan.isLegacyAggregatePartial]
  split
  case h_1 states isOne =>
    have short := shorts states (isOne ▸ List.mem_singleton.mpr rfl)
    have one : plan.aggregates.length = 1 := by rw [← length, isOne]; rfl
    apply beq_eq_false_iff_ne.mpr
    rw [AggregationPlan.legacyAggregateSlots]
    omega
  case h_2 => rfl

private theorem decodeJavaPartial_encode (isGroup : GroupFor plan room group) :
    ∃ result, plan.encodeJavaPartial group = .ok result ∧ plan.isLegacyAggregatePartial result = false ∧
      plan.decodeJavaPartial result = .ok (plan.restored group) := by
  obtain ⟨lists, written, length, shorts, read⟩ :=
    decodeAccumulators_encode isGroup.accumulating isGroup.roomy (isGroup.roomy.pos_iff.mpr isGroup.some_) 1
  refine ⟨_, by rw [AggregationPlan.encodeJavaPartial, written]; rfl, not_legacy length shorts, ?_⟩
  rw [AggregationPlan.decodeJavaPartial]
  by_cases none : plan.groupingKeys.isEmpty = true
  · have noKeys : group.keyVals = [] := by
      have typed := isGroup.typed
      rw [List.isEmpty_iff.mp none] at typed
      exact List.forall₂_nil_right_iff.mp typed
    have noKey : group.groupKey = [] := by rw [isGroup.packed, noKeys]; rfl
    simp [none, read, bind, Except.bind, AggregationPlan.restored, noKeys, noKey]
  · have keys := rowValuesFromMessage_message isGroup.typed
    simp [none, decodeFields_encode, keys, read, bind, Except.bind, packGroupKey_eq, ← isGroup.packed,
      AggregationPlan.restored]

/-- A continuation gives the inner position and the group in progress back. -/
theorem decodeAggregateContinuation_encode {current : Option AggregateGroup}
    (isGroup : ∀ group, current = some group → ∃ room, GroupFor plan room group) (innerCont : RecordCursorContinuation) :
    ∃ data, plan.encodeAggregateContinuation innerCont current = .ok data ∧
      plan.decodeAggregateContinuation data = .ok (innerCont.toBytes, current.map plan.restored) := by
  cases current with
  | none =>
    refine ⟨_, rfl, ?_⟩
    rw [AggregationPlan.decodeAggregateContinuation, AggregateContinuation.aggregate_unmarshal_marshal]
    rfl
  | some group =>
    obtain ⟨room, isGroup⟩ := isGroup group rfl
    obtain ⟨result, written, isNew, read⟩ := decodeJavaPartial_encode isGroup
    refine ⟨_, by rw [AggregationPlan.encodeAggregateContinuation, written]; rfl, ?_⟩
    rw [AggregationPlan.decodeAggregateContinuation, AggregateContinuation.aggregate_unmarshal_marshal]
    simp [isNew, read, bind, Except.bind]

end FdbGo.Executor
