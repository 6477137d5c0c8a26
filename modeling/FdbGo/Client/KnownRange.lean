import FdbGo.Client.Snapshot

/-! The range that a storage reply to a read over two key selectors makes known. A reply splits
the rows of the database into those before it, its own and those after it; a range is known
when the rows before it end below the range and the rows after it begin past it. -/

set_option autoImplicit false

namespace FdbGo.Client

open Foundation

structure KeySelector where
  key : Key
  orEqual : Bool := false
  offset : Int := 1

structure NativeRangeResult where
  kvs : List KeyValue
  more : Bool := false
  readToBegin : Bool := false
  readThroughEnd : Bool := false
  readThrough : Option Key := none

def knownKeyRange (r : NativeRangeResult) (begin_ end_ : KeySelector) : Option (Key × Key) :=
  let b := if begin_.offset ≤ 1 then begin_.key else allKeysEnd
  let e := if r.more = false ∧ 1 ≤ end_.offset then end_.key else []
  let b := if r.readToBegin then [] else b
  let e := if r.readThroughEnd then allKeysEnd else e
  let b :=
    match r.kvs.head? with
    | some first => if first.key < b then first.key else b
    | none => b
  let e :=
    match r.kvs.getLast?, r.readThrough with
    | some _, some through => if e < through then through else e
    | some last, none => if r.more = false ∧ last.key < e then e else keyAfter last.key
    | none, _ => e
  if e ≤ b then none else some (b, e)

/-- The rows of a reverse reply are descending. -/
def knownKeyRangeBack (r : NativeRangeResult) (begin_ end_ : KeySelector) : Option (Key × Key) :=
  let b := if r.more = false ∧ begin_.offset ≤ 1 then begin_.key else allKeysEnd
  let e := if 1 ≤ end_.offset then end_.key else []
  let b := if r.readToBegin then [] else b
  let e := if r.readThroughEnd then allKeysEnd else e
  let b :=
    match r.kvs.getLast?, r.readThrough with
    | some _, some through => if through < b then through else b
    | some last, none => if r.more = false ∧ b < last.key then b else last.key
    | none, _ => b
  let e :=
    match r.kvs.head? with
    | some first => if e ≤ first.key then keyAfter first.key else e
    | none => e
  if e ≤ b then none else some (b, e)

/-! ## Selectors -/

/-- The number of rows before the one that a selector resolves to. -/
def KeySelector.resolve (sel : KeySelector) (d : Snapshot) : Nat :=
  let base := (d.rows.filter fun kv => decide (kv.key < sel.key ∨ sel.orEqual = true ∧ kv.key = sel.key)).length
  min (base + sel.offset - 1).toNat d.rows.length

variable {d : Snapshot} {k : Key} {before read after : List KeyValue}

private theorem lt_of_length_le (split : d.rows = before ++ after)
    (few : before.length ≤ (d.rows.filter fun kv => decide (kv.key < k)).length) : ∀ kv ∈ before, kv.key < k := by
  have across := (ordered_append.mp (split ▸ d.ordered)).2.2
  intro kv member
  by_contra late
  have noneAfter : (after.filter fun kv => decide (kv.key < k)) = [] := by
    refine List.filter_eq_nil_iff.mpr fun next isNext => ?_
    simpa using (not_lt.mp late).trans (across kv member next isNext).le
  have fewer : (before.filter fun kv => decide (kv.key < k)).length < before.length :=
    List.length_filter_lt_length_iff_exists.mpr ⟨kv, member, by simpa using late⟩
  rw [split, List.filter_append, noneAfter, List.append_nil] at few
  omega

private theorem le_of_le_length (split : d.rows = before ++ after)
    (many : (d.rows.filter fun kv => decide (kv.key < k)).length ≤ before.length) : ∀ kv ∈ after, k ≤ kv.key := by
  have across := (ordered_append.mp (split ▸ d.ordered)).2.2
  intro kv member
  by_contra early
  have allBefore : (before.filter fun kv => decide (kv.key < k)) = before := by
    refine List.filter_eq_self.mpr fun previous isPrevious => ?_
    simpa using (across previous isPrevious kv member).trans (not_le.mp early)
  have some : 0 < (after.filter fun kv => decide (kv.key < k)).length :=
    List.length_pos_of_mem (List.mem_filter.mpr ⟨member, by simpa using early⟩)
  rw [split, List.filter_append, allBefore, List.length_append] at many
  omega

namespace KeySelector

variable {sel : KeySelector}

/-- Keys are distinct, so an or-equal selector passes over one row more. -/
theorem length_filter_orEqual_le {rows : List KeyValue} (ordered : Ordered KeyValue.key rows) :
    (rows.filter fun kv => decide (kv.key < k ∨ sel.orEqual = true ∧ kv.key = k)).length ≤
      (rows.filter fun kv => decide (kv.key < k)).length + 1 := by
  induction ordered with
  | nil => simp
  | @cons row rows later _ ih =>
    rcases lt_trichotomy row.key k with less | rfl | greater
    · simpa [less] using ih
    · have none : ∀ kv ∈ rows, ¬ kv.key < row.key ∧ ¬ kv.key = row.key := fun kv member =>
        ⟨(later kv member).not_gt, (later kv member).ne'⟩
      rw [List.filter_cons, List.filter_eq_nil_iff.mpr fun kv member => by simp [none kv member]]
      split <;> simp
    · simpa [greater.not_gt, greater.ne'] using ih

theorem resolve_le (kept : sel.orEqual = false ∨ sel.offset ≠ 1) (early : sel.offset ≤ 1) :
    sel.resolve d ≤ (d.rows.filter fun kv => decide (kv.key < sel.key)).length := by
  by_cases plain : sel.orEqual = false
  · simp only [resolve, plain, Bool.false_eq_true, false_and, or_false]
    omega
  · have back : sel.offset ≠ 1 := kept.resolve_left plain
    have more := @length_filter_orEqual_le sel.key sel _ d.ordered
    rw [resolve]
    omega

theorem le_resolve (late : 1 ≤ sel.offset) :
    (d.rows.filter fun kv => decide (kv.key < sel.key)).length ≤ sel.resolve d := by
  have all := List.length_filter_le (fun kv : KeyValue => decide (kv.key < sel.key)) d.rows
  have base : (d.rows.filter fun kv => decide (kv.key < sel.key)).length ≤
      (d.rows.filter fun kv => decide (kv.key < sel.key ∨ sel.orEqual = true ∧ kv.key = sel.key)).length := by
    refine (List.monotone_filter_right d.rows fun kv less => ?_).length_le
    simp [of_decide_eq_true less]
  rw [resolve]
  omega

end KeySelector

/-! ## Replies -/

/-- The rows before those of a reply, its own in ascending order, and those after it. -/
structure Splits (d : Snapshot) (r : NativeRangeResult) (before read after : List KeyValue) : Prop where
  rows : d.rows = before ++ (read ++ after)
  keyspace : ∀ kv ∈ d.rows, kv.key < allKeysEnd
  begins : r.readToBegin = true → before = []
  ends : r.readThroughEnd = true → after = []

/-- A correct reply to a forward request: the rows from one selector to the other, cut at some
point if there are more. -/
structure Answers (d : Snapshot) (begin_ end_ : KeySelector) (r : NativeRangeResult)
    (before read after : List KeyValue) : Prop extends Splits d r before read after where
  kvs : r.kvs = read
  starts : before.length = begin_.resolve d
  stops : if r.more then before.length + read.length < end_.resolve d
    else before.length + read.length = max (begin_.resolve d) (end_.resolve d)
  through : ∀ t, r.readThrough = some t → ∀ kv ∈ after, t ≤ kv.key

/-- A correct reply to a reverse request. -/
structure AnswersBack (d : Snapshot) (begin_ end_ : KeySelector) (r : NativeRangeResult)
    (before read after : List KeyValue) : Prop extends Splits d r before read after where
  kvs : r.kvs = read.reverse
  starts : before.length + read.length = end_.resolve d
  stops : if r.more then begin_.resolve d < before.length
    else before.length = min (begin_.resolve d) (end_.resolve d)
  through : ∀ t, r.readThrough = some t → ∀ kv ∈ before, kv.key < t

variable {r : NativeRangeResult} {begin_ end_ : KeySelector} {b e : Key}

namespace Splits

variable (splits : Splits d r before read after)

include splits

private theorem within_eq (below : ∀ kv ∈ before, kv.key < b) (above : ∀ kv ∈ after, e ≤ kv.key) :
    (read.filter fun kv => decide (b ≤ kv.key ∧ kv.key < e)) = d.within b e := by
  have noneBefore : (before.filter fun kv => decide (b ≤ kv.key ∧ kv.key < e)) = [] :=
    List.filter_eq_nil_iff.mpr fun kv member => by simp [(below kv member).not_ge]
  have noneAfter : (after.filter fun kv => decide (b ≤ kv.key ∧ kv.key < e)) = [] :=
    List.filter_eq_nil_iff.mpr fun kv member => by simp [(above kv member).not_gt]
  rw [Snapshot.within, splits.rows, List.filter_append, List.filter_append, noneBefore, noneAfter,
    List.nil_append, List.append_nil]

theorem before_lt {row : KeyValue} (member : row ∈ read) : ∀ kv ∈ before, kv.key < row.key := by
  intro kv isBefore
  exact (ordered_append.mp (splits.rows ▸ d.ordered)).2.2 kv isBefore row (List.mem_append_left _ member)

theorem keyAfter_le {row : KeyValue} (member : row ∈ read) : ∀ kv ∈ after, keyAfter row.key ≤ kv.key := by
  intro kv isAfter
  have tail := (ordered_append.mp (splits.rows ▸ d.ordered)).2.1
  exact keyAfter_le_iff.mpr ((ordered_append.mp tail).2.2 row member kv isAfter)

/-- The begin of the range before the rows are looked at. -/
theorem below {c : Prop} [Decidable c]
    (early : c → before.length ≤ (d.rows.filter fun kv => decide (kv.key < k)).length) :
    ∀ kv ∈ before, kv.key < if r.readToBegin then [] else if c then k else allKeysEnd := by
  intro kv member
  split
  case isTrue reached =>
    rw [splits.begins reached] at member
    exact absurd member List.not_mem_nil
  case isFalse =>
    split
    case isTrue holds => exact lt_of_length_le splits.rows (early holds) kv member
    case isFalse =>
      refine splits.keyspace kv ?_
      rw [splits.rows]
      exact List.mem_append_left _ member

/-- The end of the range before the rows are looked at. -/
theorem above {c : Prop} [Decidable c]
    (late : c → (d.rows.filter fun kv => decide (kv.key < k)).length ≤ before.length + read.length) :
    ∀ kv ∈ after, (if r.readThroughEnd then allKeysEnd else if c then k else []) ≤ kv.key := by
  intro kv member
  split
  case isTrue reached =>
    rw [splits.ends reached] at member
    exact absurd member List.not_mem_nil
  case isFalse =>
    split
    case isTrue holds =>
      have whole : d.rows = (before ++ read) ++ after := by rw [splits.rows, List.append_assoc]
      exact le_of_le_length whole (by rw [List.length_append]; exact late holds) kv member
    case isFalse => exact nil_le kv.key

end Splits

theorem Answers.known (answers : Answers d begin_ end_ r before read after) (kept : begin_.orEqual = false ∨ begin_.offset ≠ 1)
    (known : knownKeyRange r begin_ end_ = some (b, e)) : (∀ kv ∈ before, kv.key < b) ∧ ∀ kv ∈ after, e ≤ kv.key := by
  have below := answers.below fun early => answers.starts.trans_le (KeySelector.resolve_le kept early)
  have above := answers.above (c := r.more = false ∧ 1 ≤ end_.offset) fun late => by
    have stops := answers.stops
    rw [late.1, if_neg Bool.false_ne_true] at stops
    exact (KeySelector.le_resolve late.2).trans (stops ▸ le_max_right _ _)
  unfold knownKeyRange at known
  dsimp only at known
  generalize (if r.readToBegin then _ else _ : Key) = low at known below
  generalize (if r.readThroughEnd then _ else _ : Key) = high at known above
  obtain ⟨rfl, rfl⟩ := Prod.mk.inj (Option.some.inj (Option.ite_none_left_eq_some.mp known).2)
  refine ⟨fun kv member => ?_, fun kv member => ?_⟩
  · split
    case h_1 first isFirst =>
      have isRead : first ∈ read := answers.kvs ▸ List.mem_of_head? isFirst
      split
      · exact answers.before_lt isRead kv member
      · exact below kv member
    case h_2 => exact below kv member
  · split
    case h_1 through _ isThrough =>
      split
      · exact answers.through through isThrough kv member
      · exact above kv member
    case h_2 last isLast _ =>
      have isRead : last ∈ read := answers.kvs ▸ List.mem_of_getLast? isLast
      split
      · exact above kv member
      · exact answers.keyAfter_le isRead kv member
    case h_3 => exact above kv member

theorem AnswersBack.known (answers : AnswersBack d begin_ end_ r before read after) (kept : begin_.orEqual = false ∨ begin_.offset ≠ 1)
    (known : knownKeyRangeBack r begin_ end_ = some (b, e)) :
    (∀ kv ∈ before, kv.key < b) ∧ ∀ kv ∈ after, e ≤ kv.key := by
  have below := answers.below (c := r.more = false ∧ begin_.offset ≤ 1) fun early => by
    have stops := answers.stops
    rw [early.1, if_neg Bool.false_ne_true] at stops
    exact (stops ▸ min_le_left _ _).trans (KeySelector.resolve_le kept early.2)
  have above := answers.above fun late => (KeySelector.le_resolve late).trans_eq answers.starts.symm
  unfold knownKeyRangeBack at known
  dsimp only at known
  generalize (if r.readToBegin then _ else _ : Key) = low at known below
  generalize (if r.readThroughEnd then _ else _ : Key) = high at known above
  obtain ⟨rfl, rfl⟩ := Prod.mk.inj (Option.some.inj (Option.ite_none_left_eq_some.mp known).2)
  refine ⟨fun kv member => ?_, fun kv member => ?_⟩
  · split
    case h_1 through _ isThrough =>
      split
      · exact answers.through through isThrough kv member
      · exact below kv member
    case h_2 last isLast _ =>
      have isRead : last ∈ read := List.mem_reverse.mp (answers.kvs ▸ List.mem_of_getLast? isLast)
      split
      · exact below kv member
      · exact answers.before_lt isRead kv member
    case h_3 => exact below kv member
  · split
    case h_1 first isFirst =>
      have isRead : first ∈ read := List.mem_reverse.mp (answers.kvs ▸ List.mem_of_head? isFirst)
      split
      · exact answers.keyAfter_le isRead kv member
      · exact above kv member
    case h_2 => exact above kv member

/-- The rows of a correct reply that lie in the range it makes known are those of the database
there, in both directions, unless the begin of the request is the first key after its own. -/
theorem known_range_sound (d : Snapshot) (begin_ end_ : KeySelector) (kept : begin_.orEqual = false ∨ begin_.offset ≠ 1)
    (r : NativeRangeResult) (before read after : List KeyValue) (b e : Key) :
    (Answers d begin_ end_ r before read after → knownKeyRange r begin_ end_ = some (b, e) →
      (r.kvs.filter fun kv => decide (b ≤ kv.key ∧ kv.key < e)) = d.within b e) ∧
    (AnswersBack d begin_ end_ r before read after → knownKeyRangeBack r begin_ end_ = some (b, e) →
      (r.kvs.reverse.filter fun kv => decide (b ≤ kv.key ∧ kv.key < e)) = d.within b e) := by
  constructor
  · intro answers known
    obtain ⟨below, above⟩ := answers.known kept known
    rw [answers.kvs]
    exact answers.within_eq below above
  · intro answers known
    obtain ⟨below, above⟩ := answers.known kept known
    rw [answers.kvs, List.reverse_reverse]
    exact answers.within_eq below above

def oneRow : Snapshot := ⟨[⟨[1], []⟩], List.pairwise_singleton _ _⟩

/-- The first key after the only row: the reply is empty, and yet the row's key is known. -/
theorem or_equal_begin_known :
    Answers oneRow { key := [1], orEqual := true } { key := [2] } { kvs := [] } oneRow.rows [] [] ∧
      knownKeyRange { kvs := [] } { key := [1], orEqual := true } { key := [2] } = some ([1], [2]) ∧
      oneRow.within [1] [2] = oneRow.rows :=
  ⟨⟨⟨rfl, by decide, nofun, nofun⟩, rfl, by decide, by decide, nofun⟩, by decide, by decide⟩

/-- The row itself, from the last key not after it. -/
theorem known_range_sound_row :
    knownKeyRange { kvs := oneRow.rows } { key := [1], orEqual := true, offset := 0 } { key := [2] } =
        some ([1], [2]) ∧
      oneRow.within [1] [2] = oneRow.rows := by
  have known : knownKeyRange { kvs := oneRow.rows } { key := [1], orEqual := true, offset := 0 } { key := [2] } =
      some ([1], [2]) := by decide
  have answers : Answers oneRow { key := [1], orEqual := true, offset := 0 } { key := [2] }
      { kvs := oneRow.rows } [] oneRow.rows [] :=
    ⟨⟨rfl, by decide, nofun, nofun⟩, rfl, by decide, by decide, nofun⟩
  exact ⟨known, ((known_range_sound _ _ _ (.inr (by decide)) _ _ _ _ _ _).1 answers known).symm.trans (by decide)⟩

end FdbGo.Client
