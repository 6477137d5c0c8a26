import FdbGo.RecordLayer.RangeSetDenotation

/-! The conflict ranges of a range set call suffice: a call that another transaction's
writes do not meet answers as it did without them. -/

set_option autoImplicit false

namespace FdbGo.RecordLayer.RangeSet

open Client Foundation Transaction

inductive Reply where
  | flag (answer : Bool)
  | missing (gaps : List (Stretch Key))
  | done
  deriving DecidableEq, Repr

def Call.reply (ss : Bytes) (t : Transaction) : Call → Except (Failure Error) Reply
  | .contains key => ((RangeSet.contains ss key).run t).1.map .flag
  | .insertRange beginKey endKey requireEmpty =>
    ((RangeSet.insertRange ss beginKey endKey requireEmpty).run t).1.map .flag
  | .missingRanges beginKey endKey limit => ((RangeSet.missingRanges ss beginKey endKey limit).run t).1.map .missing
  | .isEmpty => ((RangeSet.isEmpty ss).run t).1.map .flag
  | .clear => ((RangeSet.clear ss).run t).1.map fun _ => .done
  | .commit => .ok .done

/-- On the later state the call extends a range that was not there before, instead of writing
the row that it wrote on the first state. It covers what that row would cover. -/
def Call.Extends (ss : Bytes) (d later : Snapshot) (call : Call) : Prop :=
  ∃ beginKey endKey low, call = .insertRange beginKey endKey true ∧
    ⟨low, beginKey.getD rangeSetFirstKey⟩ ∈ storedRanges ss later ∧
    ⟨low, beginKey.getD rangeSetFirstKey⟩ ∉ storedRanges ss d ∧
    (call.run ss { base := d }).mutations =
      [setRow ss ⟨beginKey.getD rangeSetFirstKey, endKey.getD rangeSetFinalKey⟩] ∧
    (call.run ss { base := later }).mutations = [setRow ss ⟨low, endKey.getD rangeSetFinalKey⟩] ∧
    ∀ k, Covered ss (call.run ss { base := later }).view k ↔
      Covered ss ((call.run ss { base := d }).mutations.foldl Snapshot.apply later) k

variable {ss : Bytes} {d later : Snapshot} {ranges others : List (Stretch Key)} {b e : Key}

theorem gaps_congr (fragments : Fragments Stretch.low Stretch.high ranges)
    (otherFragments : Fragments Stretch.low Stretch.high others)
    (same : ∀ k, b ≤ k → k < e → (Within Stretch.low Stretch.high others k ↔ Within Stretch.low Stretch.high ranges k)) :
    gaps others b e = gaps ranges b e := by
  refine (gaps_separated otherFragments).fragments.ordered.ext (gaps_separated fragments).fragments.ordered
    fun gap => ?_
  rw [mem_gaps_iff fragments]
  refine (gaps_separated otherFragments).mem_iff_maximalGap (fun k => ?_) gap
  rw [within_gaps otherFragments]
  exact and_congr_right fun from_ => and_congr_right fun upTo => not_congr (same k from_ upTo)

/-- What the call reads is as it was. -/
structure Unread (ss : Bytes) (d later : Snapshot) (ranges others : List (Stretch Key)) (t : Transaction) : Prop where
  stored : Stored ss d ranges
  storedLater : Stored ss later others
  covered : ∀ k, t.Reads (rangeKey ss k) →
    (Within Stretch.low Stretch.high others k ↔ Within Stretch.low Stretch.high ranges k)
  kept : ∀ k, t.Reads k → later.get k = d.get k

/-- The call answers and writes as it did. -/
def Repeats {Result : Type} (call : Tx Error Result) (d later : Snapshot) : Prop :=
  (call.run { base := later }).1 = (call.run { base := d }).1 ∧
    (call.run { base := later }).2.mutations = (call.run { base := d }).2.mutations

theorem Repeats.of_eq {Result : Type} {call : Tx Error Result} {outcome : Except (Failure Error) Result}
    {t t' : Transaction} (ran : call.run { base := d } = (outcome, t)) (ranLater : call.run { base := later } = (outcome, t'))
    (mutations : t'.mutations = t.mutations) : Repeats call d later := by
  rw [Repeats, ran, ranLater]
  exact ⟨rfl, mutations⟩

private theorem contains_repeats {key : Key}
    (unread : Unread ss d later ranges others ((contains ss key).run { base := d }).2) :
    Repeats (contains ss key) d later := by
  cases checked : rangeSetCheckKey key with
  | some cause => exact .of_eq (contains_refused checked _) (contains_refused checked _) rfl
  | none =>
    obtain ⟨found, ran, answer⟩ := @contains_spec ss { base := d } ranges unread.stored key checked
    obtain ⟨foundLater, ranLater, answerLater⟩ :=
      @contains_spec ss { base := later } others unread.storedLater key checked
    have covered := unread.covered key (by
      rw [ran]
      exact reads_addRead rfl (within_keyAfter_iff.mpr rfl))
    have same : foundLater = found := by rw [Bool.eq_iff_iff, answer, answerLater, covered]
    subst same
    exact .of_eq ran ranLater rfl

private theorem isEmpty_repeats (unread : Unread ss d later ranges others ((isEmpty ss).run { base := d }).2) :
    Repeats (isEmpty ss) d later := by
  obtain ⟨answer, t, ran, _, mutations, exactly, reads⟩ := @isEmpty_spec ss { base := d } ranges unread.stored
  obtain ⟨answerLater, t', ranLater, _, mutationsLater, exactlyLater, _⟩ :=
    @isEmpty_spec ss { base := later } others unread.storedLater
  have same : answerLater = answer := by
    rw [Bool.eq_iff_iff, exactly, exactlyLater]
    refine forall_congr' fun k => forall_congr' fun from_ => forall_congr' fun upTo => not_congr ?_
    exact unread.covered k (ran ▸ reads k rfl from_ upTo)
  subst same
  exact .of_eq ran ranLater (mutationsLater.trans mutations.symm)

variable {beginKey endKey : Option Key}

private theorem missingRanges_repeats {limit : Int}
    (unread : Unread ss d later ranges others ((missingRanges ss beginKey endKey limit).run { base := d }).2) :
    Repeats (missingRanges ss beginKey endKey limit) d later := by
  by_cases valid : ValidBounds beginKey endKey
  · obtain ⟨t, ran, _, mutations, reads⟩ :=
      missingRanges_spec (t := { base := d }) unread.stored valid.bounds limit
    obtain ⟨t', ranLater, _, mutationsLater, _⟩ :=
      missingRanges_spec (t := { base := later }) unread.storedLater valid.bounds limit
    have same := gaps_congr unread.stored.fragments unread.storedLater.fragments fun k from_ upTo =>
      unread.covered k (ran ▸ reads k rfl from_ upTo)
    exact .of_eq ran (same ▸ ranLater) (mutationsLater.trans mutations.symm)
  · obtain ⟨cause, refuses⟩ := @missingRanges_refused ss beginKey endKey valid limit
    exact .of_eq (refuses _) (refuses _) rfl

theorem reads_bounds {t : Transaction} (fresh : t.mutations = []) (k : Key) (from_ : b ≤ k) (upTo : k < e) :
    (t.addRead (rangeKey ss b) (rangeKey ss e)).Reads (rangeKey ss k) :=
  reads_addRead fresh ⟨(rangeKey_le ss).mpr from_, (rangeKey_lt ss).mpr upTo⟩

private theorem mem_of_kept (stored : Stored ss d ranges) (storedLater : Stored ss later others) {range : Stretch Key}
    (member : range ∈ ranges) (kept : later.get (rangeKey ss range.low) = d.get (rangeKey ss range.low)) :
    range ∈ others := by
  have held : (layout ss).row range ∈ later.rows :=
    Snapshot.get_eq_some_iff.mp (kept.trans (stored.holds.get member))
  obtain ⟨other, isOther, same⟩ := List.mem_map.mp
    (storedLater.holds.mem_iff.mpr ⟨held, (layout ss).inside range.low⟩)
  have low : other.low = range.low := (layout ss).monotone.injective (congrArg KeyValue.key same)
  have high : other.high = range.high := congrArg KeyValue.value same
  have isRange : other = range := by
    cases other
    cases range
    rw [Stretch.mk.injEq]
    exact ⟨low, high⟩
  exact isRange ▸ isOther

theorem Tested.reads {outcome : Except (Failure Error) Bool × Transaction}
    (tested : Tested ss ranges b e (addRead { base := d } (rangeKey ss b) (rangeKey ss e)) outcome) (k : Key)
    (from_ : b ≤ k) (upTo : k < e) : outcome.2.Reads (rangeKey ss k) := by
  have reads := @reads_bounds ss b e { base := d } rfl k from_ upTo
  cases tested with
  | taken | alone => exact reads
  | extends_ => exact reads.addRead _ _

theorem Tested.repeats {outcome outcomeLater : Except (Failure Error) Bool × Transaction}
    (before : Tested ss ranges b e (addRead { base := d } (rangeKey ss b) (rangeKey ss e)) outcome)
    (after : Tested ss others b e (addRead { base := later } (rangeKey ss b) (rangeKey ss e)) outcomeLater)
    (valid : rangeSetCheckKey b = none) (nonempty : b < e) (unread : Unread ss d later ranges others outcome.2) :
    outcomeLater.1 = outcome.1 ∧ (outcomeLater.2.mutations = outcome.2.mutations ∨
      ∃ low, ⟨low, b⟩ ∈ others ∧ ⟨low, b⟩ ∉ ranges ∧ outcome.2.mutations = [setRow ss ⟨b, e⟩] ∧
        outcomeLater.2.mutations = [setRow ss ⟨low, e⟩] ∧ ∀ k, Covered ss outcomeLater.2.view k ↔
          Covered ss (outcome.2.mutations.foldl Snapshot.apply later) k) := by
  obtain ⟨stored, storedLater, covered, kept⟩ := unread
  have same : Uncovered others b e ↔ Uncovered ranges b e :=
    forall_congr' fun k => forall_congr' fun from_ => forall_congr' fun upTo =>
      not_congr (covered k (before.reads k from_ upTo))
  cases before with
  | taken taken =>
    cases after with
    | taken => exact ⟨rfl, .inl rfl⟩
    | extends_ free | alone free => exact absurd (same.mp free) taken
  | @extends_ free last member ends =>
    -- the range that was extended is read, so it is still there
    have isLater : last ∈ others := mem_of_kept stored storedLater member
      (kept _ (reads_addRead rfl (within_keyAfter_iff.mpr rfl)))
    cases after with
    | taken taken => exact absurd (same.mpr free) taken
    | extends_ _ memberLater endsLater =>
      obtain rfl := storedLater.fragments.ordered_last.eq_of_key_eq memberLater isLater (endsLater.trans ends.symm)
      exact ⟨rfl, .inl rfl⟩
    | alone _ none => exact absurd ends (none last isLater)
  | alone free none =>
    cases after with
    | taken taken => exact absurd (same.mpr free) taken
    | @extends_ freeLater last memberLater ends =>
      obtain ⟨joined, grows⟩ := extended_grows (t := addRead { base := later } _ _) storedLater valid nonempty
        freeLater memberLater ends
      obtain ⟨filledRanges, fills⟩ := filled_grows (t := { base := later }) storedLater valid nonempty
      rw [gaps_of_free storedLater.fragments nonempty freeLater] at fills
      refine ⟨rfl, .inr ⟨last.low, ends ▸ memberLater, fun old => none _ old rfl, rfl, rfl, fun k => ?_⟩⟩
      have row := fills.joins k
      rw [← fills.stored.storedRanges] at row
      rw [Covered, grows.stored.storedRanges, grows.joins k]
      exact row.symm
    | alone => exact ⟨rfl, .inl rfl⟩

private theorem insertRange_repeats {requireEmpty : Bool}
    (unread : Unread ss d later ranges others ((insertRange ss beginKey endKey requireEmpty).run { base := d }).2) :
    ((insertRange ss beginKey endKey requireEmpty).run { base := later }).1 =
        ((insertRange ss beginKey endKey requireEmpty).run { base := d }).1 ∧
      (((insertRange ss beginKey endKey requireEmpty).run { base := later }).2.mutations =
          ((insertRange ss beginKey endKey requireEmpty).run { base := d }).2.mutations ∨
        (Call.insertRange beginKey endKey requireEmpty).Extends ss d later) := by
  by_cases valid : ValidBounds beginKey endKey
  case neg =>
    obtain ⟨cause, refuses⟩ := @insertRange_refused ss beginKey endKey valid requireEmpty
    rw [refuses, refuses]
    exact ⟨rfl, .inl rfl⟩
  cases valid.ordered.eq_or_lt with
  | inl same =>
    rw [insertRange_empty valid.bounds same, insertRange_empty valid.bounds same]
    exact ⟨rfl, .inl rfl⟩
  | inr nonempty =>
    have stored := unread.stored
    have storedLater := unread.storedLater
    cases requireEmpty with
    | false =>
      have ran := insertRange_fills (t := { base := d }) stored valid.bounds nonempty
      have ranLater := insertRange_fills (t := { base := later }) storedLater valid.bounds nonempty
      have same := gaps_congr stored.fragments storedLater.fragments fun k from_ upTo =>
        unread.covered k (ran ▸ reads_bounds (t := { base := d }) rfl k from_ upTo)
      rw [ran, ranLater, same]
      exact ⟨rfl, .inl rfl⟩
    | true =>
      obtain ⟨answers, writes⟩ := (insertRange_tests (t := { base := d }) stored valid.bounds nonempty).repeats
        (insertRange_tests (t := { base := later }) storedLater valid.bounds nonempty) valid.begins nonempty unread
      refine ⟨answers, writes.imp_right fun extends_ => ?_⟩
      obtain ⟨low, added, fresh, writes⟩ := extends_
      exact ⟨beginKey, endKey, low, rfl, storedLater.storedRanges ▸ added, stored.storedRanges ▸ fresh, writes⟩

theorem Call.repeats {call : Call} (unread : Unread ss d later ranges others (call.run ss { base := d })) :
    call.reply ss { base := later } = call.reply ss { base := d } ∧
      ((call.run ss { base := later }).mutations = (call.run ss { base := d }).mutations ∨ call.Extends ss d later) := by
  cases call with
  | contains key =>
    obtain ⟨answers, writes⟩ := contains_repeats unread
    exact ⟨by rw [reply, reply, answers], .inl writes⟩
  | insertRange beginKey endKey requireEmpty =>
    obtain ⟨answers, writes⟩ := insertRange_repeats unread
    exact ⟨by rw [reply, reply, answers], writes⟩
  | missingRanges beginKey endKey limit =>
    obtain ⟨answers, writes⟩ := missingRanges_repeats unread
    exact ⟨by rw [reply, reply, answers], .inl writes⟩
  | isEmpty =>
    obtain ⟨answers, writes⟩ := isEmpty_repeats unread
    exact ⟨by rw [reply, reply, answers], .inl writes⟩
  | clear | commit => exact ⟨rfl, .inl rfl⟩

/-- Two transactions call the range set from one committed state. If nothing that the first
writes meets what the second reads, the second answers the same after the first has
committed, and it writes the same rows or extends a range that the first one added. -/
theorem conflict_ranges_sufficient (stored : Stored ss d ranges) (first second : Call)
    (apart : ∀ k, (first.run ss { base := d }).Writes k → ¬ (second.run ss { base := d }).Reads k) :
    second.reply ss { base := (first.run ss { base := d }).view } = second.reply ss { base := d } ∧
      ((second.run ss { base := (first.run ss { base := d }).view }).mutations =
          (second.run ss { base := d }).mutations ∨
        second.Extends ss d (first.run ss { base := d }).view) := by
  obtain ⟨others, changes⟩ := @Call.run_changes ss { base := d } ranges stored first
  refine Call.repeats ⟨stored, changes.stored, fun k reads => ?_, fun k reads => ?_⟩
  · exact (changes.written k).resolve_right fun writes => apart _ writes reads
  · exact changes.kept k fun writes => apart k writes reads

def emptyState : Snapshot := ∅

def lowerCall : Call := .insertRange (some [1]) (some [2]) true

def upperCall : Call := .insertRange (some [2]) (some [3]) true

theorem adjacent_apart (k : Key) (writes : (lowerCall.run [7] { base := emptyState }).Writes k) :
    ¬ (upperCall.run [7] { base := emptyState }).Reads k := by
  have mutations : (lowerCall.run [7] { base := emptyState }).mutations = [setRow [7] ⟨[1], [2]⟩] := by decide +kernel
  have declared : (lowerCall.run [7] { base := emptyState }).writes = [⟨rangeKey [7] [1], rangeKey [7] [2]⟩] := by
    decide +kernel
  have reads : (upperCall.run [7] { base := emptyState }).reads = [⟨⟨rangeKey [7] [2], rangeKey [7] [3]⟩, []⟩] := by
    decide +kernel
  have below : k < rangeKey [7] [2] := by
    rw [Transaction.Writes, mutations, declared] at writes
    rcases writes with ⟨m, member, touched⟩ | ⟨range, member, inside⟩
    · rw [List.mem_singleton.mp member] at touched
      have same : rangeKey [7] [1] = k := of_decide_eq_true touched
      exact same ▸ (rangeKey_lt [7]).mpr (by decide)
    · rw [List.mem_singleton.mp member] at inside
      exact inside.2
  rw [Transaction.Reads, reads]
  rintro ⟨r, member, covers⟩
  rw [List.mem_singleton.mp member, ReadConflict.covers, Bool.and_eq_true, decide_eq_true_eq] at covers
  exact covers.1.1.not_gt below

theorem conflict_ranges_sufficient_adjacent :
    upperCall.reply [7] { base := (lowerCall.run [7] { base := emptyState }).view } = .ok (.flag true) := by
  have stored : Stored [7] emptyState [] := ⟨⟨List.Pairwise.nil, rfl⟩, .nil, .inl rfl⟩
  exact (conflict_ranges_sufficient stored lowerCall upperCall adjacent_apart).1.trans (by decide +kernel)

/-- The second insertion writes its own row, but extends the first one's if that is there. -/
theorem adjacent_insertion_writes_differ :
    (∀ k, (lowerCall.run [7] { base := emptyState }).Writes k → ¬ (upperCall.run [7] { base := emptyState }).Reads k) ∧
      (upperCall.run [7] { base := emptyState }).mutations = [setRow [7] ⟨[2], [3]⟩] ∧
      (upperCall.run [7] { base := (lowerCall.run [7] { base := emptyState }).view }).mutations =
        [setRow [7] ⟨[1], [3]⟩] :=
  ⟨adjacent_apart, by decide +kernel, by decide +kernel⟩

end FdbGo.RecordLayer.RangeSet
