import FdbGo.RecordLayer.RangeSetProperties

/-! Every history of range set calls keeps ranges that denote a set of keys, and each call
acts on that set. -/

set_option autoImplicit false

namespace FdbGo.RecordLayer.RangeSet

open Client Foundation FdbGo.Tuple

variable {ss : Bytes} {t : Transaction} {ranges : List (Stretch Key)} {b e : Key}

def rangeOf (ss : Bytes) (kv : KeyValue) : Option (Stretch Key) :=
  match subspaceUnpack kv.key ss.length with
  | .ok [.bytes keyBytes] => some ⟨keyBytes, kv.value⟩
  | _ => none

def storedRanges (ss : Bytes) (d : Snapshot) : List (Stretch Key) :=
  (d.within (subspaceBegin ss) (subspaceEnd ss)).filterMap (rangeOf ss)

def Covered (ss : Bytes) (d : Snapshot) (k : Key) : Prop :=
  Within Stretch.low Stretch.high (storedRanges ss d) k

private theorem rangeOf_row (ss : Bytes) (range : Stretch Key) : rangeOf ss ((layout ss).row range) = some range := by
  have unpacked := @subspaceUnpack_wires ss [.bytes range.low] rfl
  simp only [rangeOf, Layout.row, layout, rangeKey, unpacked, elements, Value.element]

variable {t' : Transaction} {d : Snapshot} {key : Key}

theorem Stored.storedRanges (stored : Stored ss d ranges) : RangeSet.storedRanges ss d = ranges := by
  have rows : d.within (subspaceBegin ss) (subspaceEnd ss) = ranges.map (layout ss).row := stored.holds.rows
  have each : (rangeOf ss ∘ (layout ss).row) = some := funext (rangeOf_row ss)
  rw [RangeSet.storedRanges, rows, List.filterMap_map, each, List.filterMap_some]

/-! ## The calls with valid bounds -/

/-- The bounds of a call with nil read as the ends of the keyspace. -/
structure ValidBounds (beginKey endKey : Option Key) : Prop where
  begins : rangeSetCheckKey (beginKey.getD rangeSetFirstKey) = none
  ordered : beginKey.getD rangeSetFirstKey ≤ endKey.getD rangeSetFinalKey

variable {beginKey endKey : Option Key}

/-- The bounds that the keys of a call mean. -/
structure Bounds (beginKey endKey : Option Key) (b e : Key) : Prop where
  low : beginKey.getD rangeSetFirstKey = b
  high : endKey.getD rangeSetFinalKey = e
  valid : rangeSetCheckKey b = none
  ordered : b ≤ e

theorem ValidBounds.bounds (valid : ValidBounds beginKey endKey) :
    Bounds beginKey endKey (beginKey.getD rangeSetFirstKey) (endKey.getD rangeSetFinalKey) :=
  ⟨rfl, rfl, valid.begins, valid.ordered⟩

theorem Bounds.checked (bounds : Bounds beginKey endKey b e) (t : Transaction) :
    (Tx.check (rangeSetCheckKey b)).run t = (.ok (), t) := by
  rw [bounds.valid]
  rfl

/-- An empty range inserts nothing. -/
theorem insertRange_empty (bounds : Bounds beginKey endKey b e) (same : b = e) (requireEmpty : Bool) :
    (insertRange ss beginKey endKey requireEmpty).run t = (.ok false, t) := by
  rw [insertRange]
  dsimp only
  rw [bounds.low, bounds.high, Tx.run_bind_ok (bounds.checked t), if_neg same.not_gt, if_pos same]
  rfl

section Reads

variable (stored : Stored ss t.view ranges) (bounds : Bounds beginKey endKey b e)

include stored bounds

theorem insertRange_reads (nonempty : b < e) (requireEmpty : Bool) :
    (insertRange ss beginKey endKey requireEmpty).run t =
      (insertBetween ss b e requireEmpty (rangeKey ss b) (rangeKey ss e) ((lastUpTo ranges b).map (layout ss).row)
        (if requireEmpty then ((inner ranges b e).map (layout ss).row).take 1
        else (inner ranges b e).map (layout ss).row)).run (t.addRead (rangeKey ss b) (rangeKey ss e)) := by
  have after := @after_read ss (t.addRead (rangeKey ss b) (rangeKey ss e)) ranges stored.holds b e requireEmpty
  have before := @before_read ss (t.addRead (rangeKey ss b) (rangeKey ss e)) ranges stored.holds b
  rw [insertRange]
  dsimp only
  rw [bounds.low, bounds.high, Tx.run_bind_ok (bounds.checked t), if_neg nonempty.not_gt, if_neg nonempty.ne,
    Tx.run_bind_ok (pack_bytes ss b t), Tx.run_bind_ok (pack_bytes ss e t),
    Tx.run_bind_ok (Tx.run_addReadConflictRange ((rangeKey_le ss).mpr nonempty.le)), Tx.run_bind_ok before,
    Tx.run_bind_ok after]
  cases lastUpTo ranges b <;> rfl

theorem insertRange_fills (nonempty : b < e) :
    (insertRange ss beginKey endKey false).run t = (.ok (!(gaps ranges b e).isEmpty),
      filled ss (t.addRead (rangeKey ss b) (rangeKey ss e)) (gaps ranges b e)) := by
  rw [insertRange_reads stored bounds nonempty false]
  exact fill_eq _ _ _ _

theorem insertRange_tests (nonempty : b < e) : Tested ss ranges b e (t.addRead (rangeKey ss b) (rangeKey ss e))
    ((insertRange ss beginKey endKey true).run t) := by
  rw [insertRange_reads stored bounds nonempty true]
  exact tested stored.fragments nonempty _

theorem insertRange_spec :
    ∃ changed t' joined, (insertRange ss beginKey endKey false).run t = (.ok changed, t') ∧
      Grows ss t t' ranges joined b e ∧
      (changed = true ↔ ∃ k, b ≤ k ∧ k < e ∧ ¬ Within Stretch.low Stretch.high ranges k) := by
  cases bounds.ordered.eq_or_lt with
  | inl same =>
    refine ⟨false, t, ranges, insertRange_empty bounds same false, ⟨stored, fun k => ?_,
      fun k from_ upTo => absurd (from_.trans_lt upTo) same.not_lt, fun _ _ => rfl⟩, ?_⟩
    · exact ⟨.inl, fun found => found.elim id fun none => absurd (none.1.trans_lt none.2) same.not_lt⟩
    · exact ⟨nofun, fun ⟨k, from_, upTo, _⟩ => absurd (from_.trans_lt upTo) same.not_lt⟩
  | inr nonempty =>
    obtain ⟨joined, grows⟩ := filled_grows (t := t.addRead _ _) stored bounds.valid nonempty
    exact ⟨_, _, joined, insertRange_fills stored bounds nonempty, grows.of_addRead, gaps_isEmpty stored.fragments b e⟩

theorem insertRange_testAndSet :
    (b < e → Uncovered ranges b e →
      ∃ t' joined, (insertRange ss beginKey endKey true).run t = (.ok true, t') ∧ Grows ss t t' ranges joined b e) ∧
    (¬ (b < e ∧ Uncovered ranges b e) →
      ∃ t', (insertRange ss beginKey endKey true).run t = (.ok false, t') ∧ t'.base = t.base ∧
        t'.mutations = t.mutations) := by
  cases bounds.ordered.eq_or_lt with
  | inl same =>
    refine ⟨fun nonempty => absurd nonempty same.not_lt, fun _ => ?_⟩
    exact ⟨t, insertRange_empty bounds same true, rfl, rfl⟩
  | inr nonempty =>
    have ends := insertRange_tests stored bounds nonempty
    generalize (insertRange ss beginKey endKey true).run t = outcome at ends ⊢
    cases ends with
    | taken taken => exact ⟨fun _ free => absurd free taken, fun _ => ⟨_, rfl, rfl, rfl⟩⟩
    | extends_ free member ends =>
      obtain ⟨joined, grows⟩ := extended_grows (t := t.addRead _ _) stored bounds.valid nonempty free member ends
      exact ⟨fun _ _ => ⟨_, joined, rfl, grows.of_addRead⟩, fun some_ => absurd ⟨nonempty, free⟩ some_⟩
    | alone free =>
      obtain ⟨joined, grows⟩ := filled_grows (t := t.addRead _ _) stored bounds.valid nonempty
      rw [gaps_of_free stored.fragments nonempty free] at grows
      exact ⟨fun _ _ => ⟨_, joined, rfl, grows.of_addRead⟩, fun some_ => absurd ⟨nonempty, free⟩ some_⟩

end Reads

private theorem gaps_empty (fragments : Fragments Stretch.low Stretch.high ranges) (b : Key) : gaps ranges b b = [] := by
  refine List.eq_nil_iff_forall_not_mem.mpr fun gap member => ?_
  have within := (within_gaps fragments gap.low).mp
    ⟨gap, member, le_rfl, (gaps_separated fragments).nonempty gap member⟩
  exact absurd (within.1.trans_lt within.2.1) (lt_irrefl b)

/-- The missing ranges are the gaps of the stored ones, and the whole range is read. -/
theorem missingRanges_spec (stored : Stored ss t.view ranges) (bounds : Bounds beginKey endKey b e) (limit : Int) :
    ∃ t', (missingRanges ss beginKey endKey limit).run t = (.ok (limited limit (gaps ranges b e)), t') ∧
      t'.base = t.base ∧ t'.mutations = t.mutations ∧
      ∀ k, t.mutations = [] → b ≤ k → k < e → t'.Reads (rangeKey ss k) := by
  rw [missingRanges]
  dsimp only
  rw [bounds.low, bounds.high, Tx.run_bind_ok (bounds.checked t), if_neg bounds.ordered.not_gt]
  cases bounds.ordered.eq_or_lt with
  | inl same =>
    subst same
    rw [if_pos rfl, gaps_empty stored.fragments, limited, List.take_nil, ite_self]
    exact ⟨t, rfl, rfl, rfl, fun k _ from_ upTo => absurd upTo from_.not_gt⟩
  | inr nonempty =>
    have after : (Tx.snapshotGetRange _ _ 0 false : Tx Error _).run _ = _ :=
      @after_read ss (t.addRead (rangeKey ss b) (rangeKey ss e)) ranges stored.holds b e false
    have before := @before_read ss (t.addRead (rangeKey ss b) (rangeKey ss e)) ranges stored.holds b
    refine ⟨t.addRead (rangeKey ss b) (rangeKey ss e), ?_, rfl, rfl, fun k fresh from_ upTo =>
      Transaction.reads_addRead fresh ⟨(rangeKey_le ss).mpr from_, (rangeKey_lt ss).mpr upTo⟩⟩
    rw [if_neg nonempty.ne, Tx.run_bind_ok (pack_bytes ss b t), Tx.run_bind_ok (pack_bytes ss e t),
      Tx.run_bind_ok (Tx.run_addReadConflictRange ((rangeKey_le ss).mpr nonempty.le)), Tx.run_bind_ok before,
      Tx.run_bind_ok after, ← List.nil_append (gaps ranges b e), gaps,
      ← missingLoop_spec (inner ranges b e) (fun positive => by simpa using positive)]
    cases found : lastUpTo ranges b with
    | none => rw [startFrom_none found]; rfl
    | some last => rw [startFrom_some found]; rfl

private theorem bounds_of_valid (valid : rangeSetCheckKey key = none) : rangeSetFirstKey ≤ key ∧ key < rangeSetFinalKey := by
  unfold rangeSetCheckKey at valid
  split at valid
  case isTrue => cases valid
  case isFalse nonempty =>
    split at valid
    case isTrue => cases valid
    case isFalse below =>
      refine ⟨?_, not_le.mp below⟩
      exact zero_le_of_ne_nil fun empty => nonempty (by rw [empty, List.length_nil])

/-- A set that covers anything covers a valid key. -/
theorem Stored.nothing_iff (stored : Stored ss d ranges) :
    (∀ k, ¬ Within Stretch.low Stretch.high ranges k) ↔
      Uncovered ranges rangeSetFirstKey rangeSetFinalKey := by
  refine ⟨fun none k _ _ => none k, fun none k covered => ?_⟩
  cases stored.anchored with
  | inl empty =>
    rw [empty] at covered
    obtain ⟨_, isRange, _⟩ := covered
    exact absurd isRange List.not_mem_nil
  | inr anchor =>
    obtain ⟨key, valid, isCovered⟩ := anchor
    obtain ⟨low, high⟩ := bounds_of_valid valid
    exact none key low high isCovered

theorem isEmpty_spec (stored : Stored ss t.view ranges) :
    ∃ answer t', (isEmpty ss).run t = (.ok answer, t') ∧ t'.base = t.base ∧ t'.mutations = t.mutations ∧
      (answer = true ↔
        Uncovered ranges rangeSetFirstKey rangeSetFinalKey) ∧
      ∀ k, t.mutations = [] → rangeSetFirstKey ≤ k → k < rangeSetFinalKey → t'.Reads (rangeKey ss k) := by
  obtain ⟨t', ran, base, mutations, reads⟩ := @missingRanges_spec ss t ranges _ _ none none stored ⟨rfl, rfl, rfl, by decide⟩ 1
  have limited_one : limited 1 (gaps ranges rangeSetFirstKey rangeSetFinalKey) =
      (gaps ranges rangeSetFirstKey rangeSetFinalKey).take 1 := rfl
  rw [isEmpty, Tx.run_bind_ok ran, Option.getD_none, Option.getD_none, limited_one]
  have alone := gaps_of_free stored.fragments (show rangeSetFirstKey < rangeSetFinalKey by decide)
  have within := fun k => (@within_gaps ranges rangeSetFirstKey rangeSetFinalKey stored.fragments k).mp
  generalize gaps ranges rangeSetFirstKey rangeSetFinalKey = all at alone within
  cases all with
  | nil => exact ⟨false, t', rfl, base, mutations, ⟨nofun, fun free => nomatch alone free⟩, reads⟩
  | cons gap rest =>
    refine ⟨decide (gap.low = rangeSetFirstKey ∧ gap.high = rangeSetFinalKey), t', rfl, base, mutations, ?_, reads⟩
    rw [decide_eq_true_eq]
    constructor
    · intro same k from_ upTo
      exact (within k ⟨gap, List.mem_cons_self, same.1 ▸ from_, same.2 ▸ upTo⟩).2.2
    · intro free
      rw [(List.cons.inj (alone free)).1]
      exact ⟨rfl, rfl⟩

theorem clear_spec (stored : Stored ss t.view ranges) : Stored ss ((clear ss).run t).2.view [] := by
  have cleared := stored.holds.clearRange (subspaceBegin ss) (subspaceEnd ss)
  have none : (ranges.filter fun range => !decide (subspaceBegin ss ≤ (layout ss).key ((layout ss).index range) ∧
      (layout ss).key ((layout ss).index range) < subspaceEnd ss)) = [] := by
    refine List.filter_eq_nil_iff.mpr fun range _ => ?_
    have inside : subspaceBegin ss ≤ (layout ss).key ((layout ss).index range) ∧
        (layout ss).key ((layout ss).index range) < subspaceEnd ss := subspace_inside ss (.bytes range.low) []
    rw [decide_eq_true inside]
    exact Bool.false_ne_true
  rw [none] at cleared
  refine ⟨?_, .nil, .inl rfl⟩
  rw [clear, Tx.clearRange, Tx.mutate, Transaction.view_mutate]
  exact cleared

/-! ## Histories -/

/-- A call of the range set, or the commit of the transaction, after which a new one reads
the committed database. -/
inductive Call where
  | contains (key : Key)
  | insertRange (beginKey endKey : Option Key) (requireEmpty : Bool)
  | missingRanges (beginKey endKey : Option Key) (limit : Int)
  | isEmpty
  | clear
  | commit
  deriving DecidableEq, Repr

def Call.run (ss : Bytes) (t : Transaction) : Call → Transaction
  | .contains key => ((RangeSet.contains ss key).run t).2
  | .insertRange beginKey endKey requireEmpty => ((RangeSet.insertRange ss beginKey endKey requireEmpty).run t).2
  | .missingRanges beginKey endKey limit => ((RangeSet.missingRanges ss beginKey endKey limit).run t).2
  | .isEmpty => ((RangeSet.isEmpty ss).run t).2
  | .clear => ((RangeSet.clear ss).run t).2
  | .commit => { base := t.view }

section

variable (invalid : ¬ ValidBounds beginKey endKey)

include invalid

theorem bounds_refused {Result : Type} {body : Tx Error Result} :
    ∃ cause, ∀ t, (Tx.check (rangeSetCheckKey (beginKey.getD rangeSetFirstKey)) >>= fun _ =>
      if endKey.getD rangeSetFinalKey < beginKey.getD rangeSetFirstKey then
        Tx.fail (.invertedRange (beginKey.getD rangeSetFirstKey) (endKey.getD rangeSetFinalKey))
      else body).run t = (.error cause, t) := by
  cases checked : rangeSetCheckKey (beginKey.getD rangeSetFirstKey) with
  | some cause => exact ⟨.error cause, fun t => rfl⟩
  | none =>
    have inverted := not_le.mp fun ordered => invalid ⟨checked, ordered⟩
    refine ⟨.error (.invertedRange (beginKey.getD rangeSetFirstKey) (endKey.getD rangeSetFinalKey)), fun t => ?_⟩
    rw [Tx.run_bind_ok (show (Tx.check none : Tx Error Unit).run t = (.ok (), t) from rfl), if_pos inverted]
    rfl

theorem insertRange_refused (requireEmpty : Bool) :
    ∃ cause, ∀ t, (insertRange ss beginKey endKey requireEmpty).run t = (.error cause, t) :=
  bounds_refused invalid

theorem missingRanges_refused (limit : Int) :
    ∃ cause, ∀ t, (missingRanges ss beginKey endKey limit).run t = (.error cause, t) :=
  bounds_refused invalid

end

theorem contains_refused {cause : Error} (invalid : rangeSetCheckKey key = some cause) (t : Transaction) :
    (contains ss key).run t = (.error (.error cause), t) := by
  rw [contains, invalid]
  rfl

private theorem view_eq (base : t'.base = t.base) (mutations : t'.mutations = t.mutations) : t'.view = t.view := by
  rw [Transaction.view, Transaction.view, base, mutations]

/-- What a call does to the keys covered, and which of them it writes. -/
structure Call.Changes (ss : Bytes) (t t' : Transaction) (ranges ranges' : List (Stretch Key)) : Prop where
  stored : Stored ss t'.view ranges'
  written : ∀ k, (Within Stretch.low Stretch.high ranges' k ↔ Within Stretch.low Stretch.high ranges k) ∨
    t'.Writes (rangeKey ss k)
  kept : ∀ k, ¬ t'.Writes k → t'.view.get k = t.view.get k

section

variable (stored : Stored ss t.view ranges)

include stored

theorem Call.Changes.none (same : t'.view = t.view) : Call.Changes ss t t' ranges ranges :=
  ⟨same ▸ stored, fun _ => .inl .rfl, fun _ _ => by rw [same]⟩

omit stored in
theorem Grows.changes {joined : List (Stretch Key)} (grows : Grows ss t t' ranges joined b e) :
    Call.Changes ss t t' ranges joined := by
  refine ⟨grows.stored, fun k => ?_, grows.kept⟩
  rw [grows.joins k]
  by_cases covered : Within Stretch.low Stretch.high ranges k
  · exact .inl (or_iff_left_of_imp fun _ => covered)
  · by_cases inside : b ≤ k ∧ k < e
    · exact .inr (grows.written k inside.1 inside.2 covered)
    · exact .inl (or_iff_left inside)

theorem Call.run_changes (call : Call) : ∃ ranges', Call.Changes ss t (call.run ss t) ranges ranges' := by
  cases call with
  | contains key =>
    cases checked : rangeSetCheckKey key with
    | some cause =>
      rw [run, contains_refused checked]
      exact ⟨ranges, .none stored rfl⟩
    | none =>
      obtain ⟨found, ran, _⟩ := contains_spec stored checked
      rw [run, ran]
      exact ⟨ranges, .none stored rfl⟩
  | insertRange beginKey endKey requireEmpty =>
    by_cases valid : ValidBounds beginKey endKey
    · cases requireEmpty with
      | false =>
        obtain ⟨changed, t', joined, ran, grows, _⟩ := insertRange_spec stored valid.bounds
        rw [run, ran]
        exact ⟨joined, grows.changes⟩
      | true =>
        obtain ⟨free, taken⟩ := insertRange_testAndSet stored valid.bounds
        by_cases empty : beginKey.getD rangeSetFirstKey < endKey.getD rangeSetFinalKey ∧
            Uncovered ranges (beginKey.getD rangeSetFirstKey) (endKey.getD rangeSetFinalKey)
        · obtain ⟨t', joined, ran, grows⟩ := free empty.1 empty.2
          rw [run, ran]
          exact ⟨joined, grows.changes⟩
        · obtain ⟨t', ran, base, mutations⟩ := taken empty
          rw [run, ran]
          exact ⟨ranges, .none stored (view_eq base mutations)⟩
    · obtain ⟨cause, refuses⟩ := @insertRange_refused ss beginKey endKey valid requireEmpty
      rw [run, refuses]
      exact ⟨ranges, .none stored rfl⟩
  | missingRanges beginKey endKey limit =>
    by_cases valid : ValidBounds beginKey endKey
    · obtain ⟨t', ran, base, mutations, _⟩ := missingRanges_spec stored valid.bounds limit
      rw [run, ran]
      exact ⟨ranges, .none stored (view_eq base mutations)⟩
    · obtain ⟨cause, refuses⟩ := @missingRanges_refused ss beginKey endKey valid limit
      rw [run, refuses]
      exact ⟨ranges, .none stored rfl⟩
  | isEmpty =>
    obtain ⟨answer, t', ran, base, mutations, _⟩ := isEmpty_spec stored
    rw [run, ran]
    exact ⟨ranges, .none stored (view_eq base mutations)⟩
  | clear =>
    refine ⟨[], clear_spec stored, fun k => .inr (.inl ⟨_, List.mem_append_right _ List.mem_cons_self, ?_⟩),
      fun k => Transaction.get_kept rfl rfl⟩
    exact decide_eq_true (subspace_inside ss (.bytes k) [])
  | commit => exact ⟨ranges, .none stored rfl⟩

private theorem run_stored (calls : List Call) : ∃ ranges', Stored ss (calls.foldl (Call.run ss) t).view ranges' := by
  induction calls generalizing t ranges with
  | nil => exact ⟨ranges, stored⟩
  | cons call calls ih =>
    obtain ⟨ranges', changes⟩ := call.run_changes stored
    exact ih changes.stored

structure Denotes (ss : Bytes) (t : Transaction) : Prop where
  rows : (layout ss).Holds t.view (storedRanges ss t.view)
  fragments : Fragments Stretch.low Stretch.high (storedRanges ss t.view)
  insert : ∀ beginKey endKey, ValidBounds beginKey endKey →
    ∃ changed t', (insertRange ss beginKey endKey false).run t = (.ok changed, t') ∧
      (∀ k, Covered ss t'.view k ↔ Covered ss t.view k ∨
        beginKey.getD rangeSetFirstKey ≤ k ∧ k < endKey.getD rangeSetFinalKey) ∧
      (changed = true ↔ ∃ k, beginKey.getD rangeSetFirstKey ≤ k ∧ k < endKey.getD rangeSetFinalKey ∧
        ¬ Covered ss t.view k)
  insertEmpty : ∀ beginKey endKey, ValidBounds beginKey endKey →
    beginKey.getD rangeSetFirstKey < endKey.getD rangeSetFinalKey →
    (∀ k, beginKey.getD rangeSetFirstKey ≤ k → k < endKey.getD rangeSetFinalKey → ¬ Covered ss t.view k) →
    ∃ t', (insertRange ss beginKey endKey true).run t = (.ok true, t') ∧
      ∀ k, Covered ss t'.view k ↔ Covered ss t.view k ∨
        beginKey.getD rangeSetFirstKey ≤ k ∧ k < endKey.getD rangeSetFinalKey
  insertTaken : ∀ beginKey endKey, ValidBounds beginKey endKey →
    ¬ (beginKey.getD rangeSetFirstKey < endKey.getD rangeSetFinalKey ∧
      ∀ k, beginKey.getD rangeSetFirstKey ≤ k → k < endKey.getD rangeSetFinalKey → ¬ Covered ss t.view k) →
    ∃ t', (insertRange ss beginKey endKey true).run t = (.ok false, t') ∧ t'.base = t.base ∧
      t'.mutations = t.mutations
  contains : ∀ key, rangeSetCheckKey key = none →
    ∃ found t', (contains ss key).run t = (.ok found, t') ∧ (found = true ↔ Covered ss t.view key)
  isEmpty : ∃ answer t', (isEmpty ss).run t = (.ok answer, t') ∧ (answer = true ↔ ∀ k, ¬ Covered ss t.view k)
  missing : ∀ beginKey endKey limit, ValidBounds beginKey endKey →
    ∃ all t', (missingRanges ss beginKey endKey limit).run t = (.ok (limited limit all), t') ∧
      Ordered Stretch.low all ∧
      ∀ gap, gap ∈ all ↔ MaximalGap (Covered ss t.view) (beginKey.getD rangeSetFirstKey)
        (endKey.getD rangeSetFinalKey) gap

theorem Stored.denotes : Denotes ss t := by
  have covered : Covered ss t.view = Within Stretch.low Stretch.high ranges := by
    funext k
    rw [Covered, stored.storedRanges]
  have joined : ∀ {t' : Transaction} {ranges' : List (Stretch Key)} {b e : Key}, Grows ss t t' ranges ranges' b e →
      ∀ k, Covered ss t'.view k ↔ Covered ss t.view k ∨ b ≤ k ∧ k < e := by
    intro t' ranges' b e grows k
    rw [covered, Covered, grows.stored.storedRanges]
    exact grows.joins k
  constructor
  case rows =>
    rw [stored.storedRanges]
    exact stored.holds
  case fragments =>
    rw [stored.storedRanges]
    exact stored.fragments
  case insert =>
    intro beginKey endKey valid
    obtain ⟨changed, t', ranges', ran, grows, changes⟩ := insertRange_spec stored valid.bounds
    exact ⟨changed, t', ran, joined grows, covered ▸ changes⟩
  case insertEmpty =>
    intro beginKey endKey valid nonempty free
    rw [covered] at free
    obtain ⟨t', ranges', ran, grows⟩ := (insertRange_testAndSet stored valid.bounds).1 nonempty free
    exact ⟨t', ran, joined grows⟩
  case insertTaken =>
    intro beginKey endKey valid taken
    rw [covered] at taken
    exact (insertRange_testAndSet stored valid.bounds).2 taken
  case contains =>
    intro key valid
    obtain ⟨found, ran, answer⟩ := contains_spec stored valid
    exact ⟨found, _, ran, covered ▸ answer⟩
  case isEmpty =>
    obtain ⟨answer, t', ran, _, _, exactly, _⟩ := isEmpty_spec stored
    exact ⟨answer, t', ran, covered ▸ exactly.trans stored.nothing_iff.symm⟩
  case missing =>
    intro beginKey endKey limit valid
    obtain ⟨t', ran, _⟩ := missingRanges_spec stored valid.bounds limit
    refine ⟨_, t', ran, (gaps_separated stored.fragments).fragments.ordered, fun gap => ?_⟩
    rw [covered]
    exact mem_gaps_iff stored.fragments gap

end

/-- From an empty subspace, every history of calls leaves a range set that denotes the set
of the covered keys. -/
theorem range_set_denotes_keys (ss : Bytes) (t : Transaction) (calls : List Call)
    (empty : t.view.within (subspaceBegin ss) (subspaceEnd ss) = []) : Denotes ss (calls.foldl (Call.run ss) t) := by
  have start : Stored ss t.view [] := ⟨⟨List.Pairwise.nil, empty⟩, .nil, .inl rfl⟩
  obtain ⟨ranges, stored⟩ := run_stored start calls
  exact stored.denotes

/-- Two ranges, then one that fills the gaps around them and one that extends the last. -/
def filledHistory : List Call :=
  [.insertRange (some [1]) (some [2]) false, .insertRange (some [3]) (some [4]) true, .commit,
    .insertRange (some [1, 0]) (some [5]) false, .insertRange (some [5]) none true]

theorem range_set_denotes_keys_filled :
    storedRanges [7] (filledHistory.foldl (Call.run [7]) { base := ⟨[], List.Pairwise.nil⟩ }).view =
        [⟨[1], [2]⟩, ⟨[2], [3]⟩, ⟨[3], [4]⟩, ⟨[4], [0xff]⟩] ∧
      Denotes [7] (filledHistory.foldl (Call.run [7]) { base := ⟨[], List.Pairwise.nil⟩ }) :=
  ⟨by decide +kernel, range_set_denotes_keys [7] { base := ⟨[], List.Pairwise.nil⟩ } filledHistory rfl⟩

end FdbGo.RecordLayer.RangeSet
