import FdbGo.Client.Snapshot
import FdbGo.Foundation.Fragments

/-! The snapshot cache knows exactly the ranges inserted into it, and reads of it answer
from the database at the read version. -/

set_option autoImplicit false

namespace FdbGo.Client

open Foundation Fragments Snapshot SnapshotCache

variable {d : Snapshot} {entries : List CacheEntry}

def Known (entries : List CacheEntry) (k : Key) : Prop :=
  Within CacheEntry.beginKey CacheEntry.endKey entries k

/-- The entries are not empty, in order and do not overlap, and each holds the rows of
the database in its range. -/
structure Caches (d : Snapshot) (entries : List CacheEntry) : Prop where
  fragments : Fragments CacheEntry.beginKey CacheEntry.endKey entries
  rows : ∀ e ∈ entries, e.kvs = d.within e.beginKey e.endKey

theorem Caches.nil : Caches d [] := ⟨.nil, by simp⟩

/-! ## Inserting -/

/-- A position between the entries: those before it end there at the latest, those after
it begin there at the earliest. -/
structure CutAt (entries : List CacheEntry) (position : Key) (lower upper : List CacheEntry) : Prop where
  split : entries = lower ++ upper
  below : ∀ e ∈ lower, e.endKey ≤ position
  above : ∀ e ∈ upper, position ≤ e.beginKey

section

variable (fragments : Fragments CacheEntry.beginKey CacheEntry.endKey entries)

include fragments

theorem trimBegin_spec (b : Key) :
    ∃ newBegin lower upper, trimBegin entries b = (newBegin, lower.length) ∧
      CutAt entries newBegin lower upper ∧ b ≤ newBegin ∧
      ∀ k, b ≤ k → k < newBegin → Known entries k := by
  obtain ⟨lower, upper, rfl, index, below, above⟩ := fragments.ordered_last.split_gt b
  obtain ⟨-, upperFragments, -⟩ := append_iff.mp fragments
  unfold trimBegin
  rw [index]
  simp only [List.getElem?_append_right le_rfl, Nat.sub_self]
  cases upper with
  | nil =>
    refine ⟨b, lower, [], rfl, ⟨rfl, below, by simp⟩, le_rfl, fun k low high => ?_⟩
    exact absurd high low.not_gt
  | cons e upper =>
    obtain ⟨nonempty, later, -⟩ := cons_iff.mp upperFragments
    simp only [List.getElem?_cons_zero]
    split
    case isTrue straddles =>
      have ends := above e List.mem_cons_self
      refine ⟨e.endKey, lower ++ [e], upper, by simp, ⟨by simp, ?_, later⟩, ends.le, fun k low high => ?_⟩
      · exact List.forall_mem_append.mpr ⟨fun other inLower => (below other inLower).trans ends.le, by simp⟩
      · exact ⟨e, by simp, straddles.le.trans low, high⟩
    case isFalse starts =>
      have starts := not_lt.mp starts
      refine ⟨b, lower, e :: upper, rfl, ⟨rfl, below, List.forall_mem_cons.mpr ⟨starts, ?_⟩⟩, le_rfl,
        fun k low high => ?_⟩
      · exact fun other inUpper => (starts.trans nonempty.le).trans (later other inUpper)
      · exact absurd high low.not_gt

theorem trimEnd_spec (e : Key) :
    ∃ newEnd lower upper, trimEnd entries e = (newEnd, lower.length) ∧
      CutAt entries newEnd lower upper ∧ newEnd ≤ e ∧ ∀ k, newEnd ≤ k → k < e → Known entries k := by
  obtain ⟨lower, upper, rfl, index, below, above⟩ := fragments.ordered.split_ge e
  obtain ⟨lowerFragments, -, across⟩ := append_iff.mp fragments
  unfold trimEnd
  rw [index]
  cases reversed : lower.reverse with
  | nil =>
    obtain rfl := List.reverse_eq_nil_iff.mp reversed
    refine ⟨e, [], upper, rfl, ⟨rfl, by simp, above⟩, le_rfl, fun k low high => ?_⟩
    exact absurd high low.not_gt
  | cons x rest =>
    obtain rfl : lower = rest.reverse ++ [x] := by
      rw [← List.reverse_reverse lower, reversed, List.reverse_cons]
    obtain ⟨-, lastFragment, before⟩ := append_iff.mp lowerFragments
    have nonempty := lastFragment.nonempty x (List.mem_singleton.mpr rfl)
    have begins := below x (by simp)
    have last : ((rest.reverse ++ [x]) ++ upper)[(rest.reverse ++ [x]).length - 1]? = some x := by simp
    simp only [last]
    rw [if_pos (by simp)]
    split
    case isTrue straddles =>
      refine ⟨x.beginKey, rest.reverse, x :: upper, by simp, ⟨by simp, ?_, ?_⟩, begins.le,
        fun k low high => ?_⟩
      · intro other member
        exact before other member x (List.mem_singleton.mpr rfl)
      · exact List.forall_mem_cons.mpr ⟨le_rfl, fun other inUpper =>
          nonempty.le.trans (across x (by simp) other inUpper)⟩
      · exact ⟨x, by simp, low, high.trans straddles⟩
    case isFalse ends =>
      have ends := not_lt.mp ends
      refine ⟨e, rest.reverse ++ [x], upper, rfl, ⟨rfl, ?_, above⟩, le_rfl, fun k low high => ?_⟩
      · exact List.forall_mem_append.mpr ⟨fun other inRest => (before other inRest x (List.mem_singleton.mpr rfl)).trans
          (nonempty.le.trans ends), List.forall_mem_singleton.mpr ends⟩
      · exact absurd high low.not_gt

theorem CutAt.between {lo hi : Key} {lower upper lower' upper' : List CacheEntry} (low : CutAt entries lo lower upper)
    (high : CutAt entries hi lower' upper') (nonempty : lo < hi) :
    ∃ inner, entries = lower ++ inner ++ upper' ∧ lower'.length = lower.length + inner.length ∧
      ∀ e ∈ inner, lo ≤ e.beginKey ∧ e.endKey ≤ hi := by
  cases List.append_eq_append_iff.mp (low.split.symm.trans high.split) with
  | inl longer =>
    obtain ⟨inner, rfl, rfl⟩ := longer
    refine ⟨inner, high.split, by simp, fun e member => ?_⟩
    exact ⟨low.above e (List.mem_append_left _ member), high.below e (List.mem_append_right _ member)⟩
  | inr shorter =>
    obtain ⟨inner, rfl, rfl⟩ := shorter
    cases inner with
    | nil => exact ⟨[], by simpa using high.split, by simp, by simp⟩
    | cons e inner =>
      -- An entry between the cuts the wrong way round would be empty.
      have member : e ∈ entries := by
        rw [low.split]
        simp
      have ends := low.below e (by simp)
      have begins := high.above e (by simp)
      exact absurd (fragments.nonempty e member) (ends.trans (nonempty.le.trans begins)).not_gt

end

theorem insertKVs_spec (caches : Caches d entries) (b e : Key) :
    Caches d (insertKVs ⟨entries⟩ b e (d.within b e)).entries ∧
      ∀ k, Known (insertKVs ⟨entries⟩ b e (d.within b e)).entries k ↔
        Known entries k ∨ b ≤ k ∧ k < e := by
  unfold insertKVs
  by_cases empty : e ≤ b
  · rw [if_pos empty]
    refine ⟨caches, fun k => (or_iff_left ?_).symm⟩
    rintro ⟨low, high⟩
    exact absurd (low.trans_lt high) empty.not_gt
  rw [if_neg empty]
  obtain ⟨newBegin, lower, upper, front, low, fromBegin, knownFront⟩ := trimBegin_spec caches.fragments b
  obtain ⟨newEnd, lower', upper', back, high, toEnd, knownBack⟩ := trimEnd_spec caches.fragments e
  simp only [front, back]
  by_cases known : newEnd ≤ newBegin
  · rw [if_pos known]
    refine ⟨caches, fun k => (or_iff_left_of_imp ?_).symm⟩
    rintro ⟨first, last⟩
    cases lt_or_ge k newBegin with
    | inl before => exact knownFront k first before
    | inr after => exact knownBack k (known.trans after) last
  rw [if_neg known, within_slice fromBegin toEnd]
  have nonempty := not_le.mp known
  obtain ⟨inner, split, length, inside⟩ := CutAt.between caches.fragments low high nonempty
  generalize isFresh : CacheEntry.mk newBegin newEnd (d.within newBegin newEnd) = fresh
  -- The three branches of the switch all replace the inner entries.
  have replaced : (if lower'.length = lower.length then
        SnapshotCache.mk (insertAt entries lower.length fresh)
      else if lower'.length = lower.length + 1 then { entries := entries.set lower.length fresh }
      else { entries := insertAt (deleteRange entries lower.length lower'.length) lower.length fresh }).entries =
      lower ++ fresh :: upper' := by
    rw [length, split]
    match inner with
    | [] => simp [insertAt_append]
    | [old] => simp
    | first :: second :: rest =>
      rw [deleteRange_append rfl, insertAt_append rfl, if_neg (by simp), if_neg (by simp)]
  rw [replaced]
  subst split
  obtain ⟨lowerFragments, upperFragments, -⟩ := append_iff.mp caches.fragments
  obtain ⟨lowerFragments, -, -⟩ := append_iff.mp lowerFragments
  have freshRange : fresh.beginKey = newBegin ∧ fresh.endKey = newEnd := by simp [← isFresh]
  refine ⟨⟨lowerFragments.replace upperFragments ?_ ?_ ?_, ?_⟩, fun k => ?_⟩
  · rwa [freshRange.1, freshRange.2]
  · rw [freshRange.1]
    exact low.below
  · rw [freshRange.2]
    exact high.above
  · have rows := caches.rows
    simp only [List.forall_mem_append, List.forall_mem_cons] at rows ⊢
    exact ⟨rows.1.1, by rw [freshRange.1, freshRange.2, ← isFresh], rows.2⟩
  · have innerKnown : Within CacheEntry.beginKey CacheEntry.endKey inner k → newBegin ≤ k ∧ k < newEnd := by
      rintro ⟨other, member, first, last⟩
      exact ⟨(inside other member).1.trans first, last.trans_le (inside other member).2⟩
    have front := knownFront k
    have back := knownBack k
    simp only [Known, within_append, within_cons, freshRange] at front back ⊢
    grind

/-! ## Reading -/

theorem collectRows_spec (past : KeyValue → Bool) (budget : Int) (result rows : List KeyValue)
    (room : 0 < budget → result.length < budget) : let all := result ++ rows.takeWhile fun kv => !past kv
    (0 < budget ∧ budget ≤ all.length ∧
        collectRows past budget result rows = (all.take budget.toNat, true)) ∨
      ((0 < budget → all.length < budget) ∧ collectRows past budget result rows = (all, false)) := by
  induction rows generalizing result with
  | nil =>
    right
    simpa [collectRows] using room
  | cons kv rest ih =>
    cases stops : past kv with
    | true =>
      right
      simpa [collectRows, stops] using room
    | false =>
      have grown : result ++ (kv :: rest).takeWhile (fun kv => !past kv) =
          result ++ [kv] ++ rest.takeWhile fun kv => !past kv := by simp [stops]
      rw [grown]
      by_cases reached : budget > 0 ∧ budget ≤ (result ++ [kv]).length
      · left
        obtain ⟨positive, met⟩ := reached
        have exact : (result ++ [kv]).length = budget.toNat := by
          have before := room positive
          simp only [List.length_append, List.length_cons, List.length_nil] at met ⊢
          omega
        refine ⟨positive, ?_, ?_⟩
        · rw [List.length_append]
          omega
        · rw [List.take_left' exact]
          simp only [collectRows, stops, Bool.false_eq_true, if_false, if_pos (And.intro positive met)]
      · have step : collectRows past budget result (kv :: rest) =
            collectRows past budget (result ++ [kv]) rest := by
          simp only [collectRows, stops, Bool.false_eq_true, if_false, if_neg reached]
        rw [step]
        exact ih (result ++ [kv]) fun positive => by
          by_contra full
          exact reached ⟨positive, by omega⟩

variable {out : List KeyValue} {budget : Int} {b e : Key}

theorem Snapshot.page_of_short (d : Snapshot) {reverse : Bool} (room : 0 < budget → (d.within b e).length < budget) :
    d.page b e budget reverse = d.within b e := by
  unfold page
  by_cases unlimited : budget ≤ 0
  · rw [if_pos unlimited]
  · have short := room (not_le.mp unlimited)
    rw [if_neg unlimited, Nat.sub_eq_zero_of_le (by omega), List.drop_zero, List.take_of_length_le (by omega), ite_self]

private theorem walkKVs_eq_page (caches : Caches d entries) {cur : Key} (start : b ≤ cur) (unfinished : cur < e)
    (room : 0 < budget → (d.within b cur).length < budget) (ends : ∀ x ∈ entries, cur < x.endKey)
    (next : cur = b ∨ ∀ x ∈ entries, cur ≤ x.beginKey)
    (walked : walkKVs b e budget cur (d.within b cur) entries = some out) : out = d.page b e budget false := by
  induction entries generalizing cur with
  | nil => cases walked
  | cons x rest ih =>
    unfold walkKVs at walked
    obtain ⟨gap, walked⟩ := Option.ite_none_left_eq_some.mp walked
    obtain ⟨nonempty, later, restFragments⟩ := cons_iff.mp caches.fragments
    have fromCur : max x.beginKey b = cur := by
      cases next with
      | inl isBegin => rw [isBegin, max_eq_right (isBegin ▸ not_lt.mp gap)]
      | inr after =>
        have begins := le_antisymm (after x List.mem_cons_self) (not_lt.mp gap)
        rw [← begins, max_eq_left start]
    have rows : (x.kvs.drop (x.kvs.findIdx fun kv => decide (b ≤ kv.key))).takeWhile
        (fun kv => !decide (e ≤ kv.key)) = d.within cur (min x.endKey e) := by
      rw [caches.rows x List.mem_cons_self, (d.within_ordered _ _).takeWhile_drop, d.within_filter, fromCur]
    have upper : cur ≤ min x.endKey e := le_min (ends x List.mem_cons_self).le unfinished.le
    have whole := d.within_append_within (start.trans upper) (min_le_right x.endKey e)
    have collected := collectRows_spec (fun kv => decide (e ≤ kv.key)) budget (d.within b cur)
      (x.kvs.drop (x.kvs.findIdx fun kv => decide (b ≤ kv.key))) room
    simp only [rows, d.within_append_within start upper] at collected
    cases collected with
    | inl met =>
      obtain ⟨positive, enough, decided⟩ := met
      simp only [decided, if_pos] at walked
      obtain rfl := Option.some.inj walked
      rw [page, if_neg (not_le.mpr positive), ← whole, List.take_append_of_le_length (by omega)]
      rfl
    | inr short =>
      obtain ⟨room', undecided⟩ := short
      simp only [undecided, Bool.false_eq_true, if_false] at walked
      by_cases covered : e ≤ x.endKey
      · rw [if_pos covered, min_eq_right covered] at walked
        rw [min_eq_right covered] at room'
        obtain rfl := Option.some.inj walked
        exact (d.page_of_short room').symm
      · have below := not_le.mp covered
        rw [if_neg covered, min_eq_left below.le] at walked
        rw [min_eq_left below.le] at room' upper
        refine ih ⟨restFragments, (List.forall_mem_cons.mp caches.rows).2⟩
          (start.trans upper) below room' (fun y member => ?_) (.inr later) walked
        exact (later y member).trans_lt (restFragments.nonempty y member)

/-- The descending walk, from a position down to which the result has all rows. The
entries are those below the end, in reverse. -/
theorem walkKVsBack_eq_page (caches : Caches d entries.reverse) {cur : Key} (start : cur ≤ e) (unfinished : b < cur)
    (room : 0 < budget → (d.within cur e).length < budget) (begins : ∀ x ∈ entries, x.beginKey < cur)
    (next : cur = e ∨ ∀ x ∈ entries, x.endKey ≤ cur)
    (walked : walkKVsBack b e budget cur (d.within cur e).reverse entries = some out) :
    out = d.page b e budget true := by
  induction entries generalizing cur with
  | nil => cases walked
  | cons x rest ih =>
    unfold walkKVsBack at walked
    obtain ⟨gap, walked⟩ := Option.ite_none_left_eq_some.mp walked
    rw [List.reverse_cons] at caches
    obtain ⟨restFragments, single, earlier⟩ := append_iff.mp caches.fragments
    have toCur : min x.endKey e = cur := by
      cases next with
      | inl isEnd => rw [isEnd, min_eq_right (isEnd ▸ not_lt.mp gap)]
      | inr before =>
        have ends := le_antisymm (before x List.mem_cons_self) (not_lt.mp gap)
        rw [ends, min_eq_left start]
    have rows : (x.kvs.take (x.kvs.findIdx fun kv => decide (e ≤ kv.key))).reverse.takeWhile
        (fun kv => !decide (kv.key < b)) = (d.within (max x.beginKey b) cur).reverse := by
      rw [caches.rows x (by simp), (d.within_ordered _ _).takeWhile_reverse, d.within_filter, toCur]
    have lower : max x.beginKey b ≤ cur := max_le (begins x List.mem_cons_self).le unfinished.le
    have whole := d.within_append_within (le_max_right x.beginKey b) (lower.trans start)
    have collected := collectRows_spec (fun kv => decide (kv.key < b)) budget (d.within cur e).reverse
      (x.kvs.take (x.kvs.findIdx fun kv => decide (e ≤ kv.key))).reverse (by simpa using room)
    simp only [rows, ← List.reverse_append, d.within_append_within lower start, List.length_reverse]
      at collected
    cases collected with
    | inl met =>
      obtain ⟨positive, enough, decided⟩ := met
      simp only [decided, if_pos] at walked
      obtain rfl := Option.some.inj walked
      have skipped : (d.within b e).length - budget.toNat = (d.within b (max x.beginKey b)).length +
          ((d.within (max x.beginKey b) e).length - budget.toNat) := by
        rw [← whole, List.length_append]
        omega
      rw [page, if_neg (not_le.mpr positive), if_pos rfl, skipped, ← whole,
        List.drop_length_add_append, List.take_reverse, List.reverse_reverse]
    | inr short =>
      obtain ⟨room', undecided⟩ := short
      simp only [undecided, Bool.false_eq_true, if_false, List.reverse_reverse] at walked
      by_cases covered : x.beginKey ≤ b
      · rw [if_pos covered, max_eq_right covered] at walked
        rw [max_eq_right covered] at room'
        obtain rfl := Option.some.inj walked
        exact (d.page_of_short room').symm
      · have above := not_le.mp covered
        rw [if_neg covered, max_eq_left above.le] at walked
        rw [max_eq_left above.le] at room' lower
        have endsBefore : ∀ y ∈ rest, y.endKey ≤ x.beginKey := fun y member =>
          earlier y (List.mem_reverse.mpr member) x (List.mem_singleton.mpr rfl)
        refine ih ⟨restFragments, fun y member => caches.rows y (List.mem_append_left _ member)⟩
          (lower.trans start) above room' (fun y member => ?_) (.inr endsBefore) walked
        exact (restFragments.nonempty y (List.mem_reverse.mpr member)).trans_le (endsBefore y member)

private theorem getRangeKVsLimited_eq_page (caches : Caches d entries) {reverse : Bool}
    (answered : getRangeKVsLimited ⟨entries⟩ b e budget reverse = some out) :
    out = d.page b e budget reverse := by
  unfold getRangeKVsLimited at answered
  obtain ⟨nothing, answered⟩ := Option.ite_none_left_eq_some.mp answered
  have nonempty : b < e := not_le.mp fun empty => nothing (.inr empty)
  have none : ∀ k, 0 < budget → ((d.within k k).length : Int) < budget := by
    intro k positive
    rw [within_eq_nil le_rfl]
    exact positive
  cases reverse with
  | true =>
    obtain ⟨lower, upper, rfl, index, below, -⟩ := caches.fragments.ordered.split_ge e
    simp only [if_pos, getRangeKVsBack, index, List.take_left' rfl] at answered
    split at answered
    case isTrue => cases answered
    case isFalse =>
      obtain ⟨lowerFragments, -, -⟩ := append_iff.mp caches.fragments
      have lowerCaches : Caches d lower.reverse.reverse := by
        rw [List.reverse_reverse]
        exact ⟨lowerFragments, fun x member => caches.rows x (List.mem_append_left upper member)⟩
      refine walkKVsBack_eq_page lowerCaches le_rfl nonempty (none e) ?_ (.inl rfl) ?_
      · intro x member
        exact below x (List.mem_reverse.mp member)
      · rw [within_eq_nil le_rfl]
        exact answered
  | false =>
    obtain ⟨lower, upper, rfl, index, -, above⟩ := caches.fragments.ordered_last.split_gt b
    simp only [Bool.false_eq_true, if_false, index, List.drop_left' rfl,
      List.getElem?_append_right le_rfl, Nat.sub_self] at answered
    cases upper with
    | nil => cases answered
    | cons x upper =>
      simp only [List.getElem?_cons_zero] at answered
      split at answered
      case isTrue => cases answered
      case isFalse =>
        obtain ⟨-, upperFragments, -⟩ := append_iff.mp caches.fragments
        refine walkKVs_eq_page ⟨upperFragments, fun y member => ?_⟩ le_rfl nonempty (none b) above
          (.inl rfl) ?_
        · exact caches.rows y (List.mem_append_right lower member)
        · rw [within_eq_nil le_rfl]
          exact answered

private theorem lookup_within {k : Key} (inside : b ≤ k ∧ k < e) :
    (match (d.within b e)[(d.within b e).findIdx fun kv => decide (k ≤ kv.key)]? with
      | some kv => if kv.key = k then some (some kv.value) else some none
      | none => some none) = some (d.get k) := by
  have found : ∀ kv, kv.key = k →
      ((d.within b e)[(d.within b e).findIdx fun other => decide (k ≤ other.key)]? = some kv ↔
        kv ∈ d.rows) := by
    rintro kv rfl
    rw [(d.within_ordered b e).find_eq_some_iff kv, mem_within, and_iff_left inside]
  generalize (d.within b e)[(d.within b e).findIdx fun other => decide (k ≤ other.key)]? = result at found ⊢
  cases result with
  | none =>
    cases value : d.get k with
    | none => rfl
    | some v => exact absurd ((found _ rfl).mpr (get_eq_some_iff.mp value)) (by simp)
  | some kv =>
    dsimp only
    split
    case isTrue same =>
      have member := (found kv same).mp rfl
      subst same
      rw [get_eq_some_iff.mpr member]
    case isFalse other =>
      cases value : d.get k with
      | none => rfl
      | some v =>
        have isRow := (found _ rfl).mpr (get_eq_some_iff.mp value)
        exact absurd (Option.some.inj isRow ▸ rfl) other

theorem cacheGetKey_spec (caches : Caches d entries) (k : Key) :
    (Known entries k → cacheGetKey entries k = some (d.get k)) ∧
      (¬ Known entries k → cacheGetKey entries k = none) := by
  obtain ⟨lower, upper, rfl, index, below, above⟩ := caches.fragments.ordered_last.split_gt k
  obtain ⟨-, upperFragments, -⟩ := append_iff.mp caches.fragments
  have notLower : ¬ Known lower k := by
    rintro ⟨x, member, -, less⟩
    exact absurd less (below x member).not_gt
  have known : Known (lower ++ upper) k ↔ Known upper k := by
    rw [Known, within_append]
    exact or_iff_right notLower
  rw [known]
  unfold cacheGetKey
  simp only [index, List.getElem?_append_right le_rfl, Nat.sub_self]
  cases upper with
  | nil => exact ⟨fun found => by simp [Known, Within] at found, fun _ => rfl⟩
  | cons x upper =>
    obtain ⟨-, later, -⟩ := cons_iff.mp upperFragments
    have ends := above x List.mem_cons_self
    simp only [List.getElem?_cons_zero]
    split
    case isTrue before =>
      refine ⟨fun found => ?_, fun _ => rfl⟩
      obtain ⟨y, member, begins, -⟩ := found
      cases List.mem_cons.mp member with
      | inl isHead => exact absurd before (isHead ▸ begins).not_gt
      | inr inUpper => exact absurd ends ((later y inUpper).trans begins).not_gt
    case isFalse after =>
      have here : Known (x :: upper) k := ⟨x, List.mem_cons_self, not_lt.mp after, ends⟩
      refine ⟨fun _ => ?_, fun missing => absurd here missing⟩
      rw [caches.rows x (by simp)]
      exact lookup_within ⟨not_lt.mp after, ends⟩

/-! ## Runs -/

inductive SnapshotCall where
  | insert (beginKey endKey : Key) (kvs : List KeyValue)
  | insertOwned (beginKey endKey : Key) (kvs : List KeyValue)
  | insertPoint (key : Key) (value : Option Bytes)
  deriving DecidableEq, Repr

namespace SnapshotCall

def Faithful (d : Snapshot) : SnapshotCall → Prop
  | .insert beginKey endKey kvs => kvs = d.within beginKey endKey
  | .insertOwned beginKey endKey kvs => kvs = d.within beginKey endKey
  | .insertPoint key value => value = d.get key

instance (d : Snapshot) : (call : SnapshotCall) → Decidable (call.Faithful d)
  | .insert beginKey endKey kvs | .insertOwned beginKey endKey kvs =>
    inferInstanceAs (Decidable (kvs = d.within beginKey endKey))
  | .insertPoint key value => inferInstanceAs (Decidable (value = d.get key))

def Covers : SnapshotCall → Key → Prop
  | .insert beginKey endKey _, k => beginKey ≤ k ∧ k < endKey
  | .insertOwned beginKey endKey _, k => beginKey ≤ k ∧ k < endKey
  | .insertPoint key _, k => k = key

end SnapshotCall

namespace SnapshotCache

def apply (sc : SnapshotCache) : SnapshotCall → SnapshotCache
  | .insert beginKey endKey kvs => sc.insert beginKey endKey kvs
  | .insertOwned beginKey endKey kvs => sc.insertOwned beginKey endKey kvs
  | .insertPoint key value => sc.insertPoint key value

variable {sc : SnapshotCache}

theorem insertPoint_spec (caches : Caches d sc.entries) (key : Key) :
    Caches d (sc.insertPoint key (d.get key)).entries ∧
      ∀ k, Known (sc.insertPoint key (d.get key)).entries k ↔ Known sc.entries k ∨ k = key := by
  have inserted := insertKVs_spec caches key (keyAfter key)
  simp only [within_keyAfter_iff] at inserted
  unfold insertPoint
  rw [← d.within_point key]
  obtain ⟨entries⟩ := sc
  split
  case isTrue empty =>
    obtain rfl := List.length_eq_zero_iff.mp empty
    refine ⟨⟨cons_iff.mpr ⟨lt_keyAfter key, by simp, .nil⟩, by simp [insertAt]⟩, fun k => ?_⟩
    simp [Known, Within, insertAt, within_keyAfter_iff]
  case isFalse => exact inserted

theorem apply_spec (caches : Caches d sc.entries) {call : SnapshotCall} (faithful : call.Faithful d) :
    Caches d (sc.apply call).entries ∧
      ∀ k, Known (sc.apply call).entries k ↔ Known sc.entries k ∨ call.Covers k := by
  cases call with
  | insert beginKey endKey kvs | insertOwned beginKey endKey kvs =>
    obtain rfl := faithful
    exact insertKVs_spec caches beginKey endKey
  | insertPoint key value =>
    obtain rfl := faithful
    exact insertPoint_spec caches key

theorem run_spec (caches : Caches d sc.entries) {calls : List SnapshotCall}
    (faithful : ∀ call ∈ calls, call.Faithful d) :
    Caches d (calls.foldl apply sc).entries ∧
      ∀ k, Known (calls.foldl apply sc).entries k ↔ Known sc.entries k ∨ ∃ call ∈ calls, call.Covers k := by
  induction calls generalizing sc with
  | nil => exact ⟨caches, by simp⟩
  | cons call calls ih =>
    obtain ⟨stepCaches, stepKnown⟩ := apply_spec caches (faithful call List.mem_cons_self)
    obtain ⟨runCaches, runKnown⟩ :=
      ih stepCaches (List.forall_mem_cons.mp faithful).2
    refine ⟨runCaches, fun k => ?_⟩
    rw [List.foldl_cons, runKnown, stepKnown, or_assoc]
    simp only [List.mem_cons, or_and_right, exists_or, exists_eq_left]

/-- After any inserts of rows of the database the entries are not empty, sorted and apart,
hold exactly the rows of their ranges, and cover exactly the ranges inserted. A key is
answered if it is covered, with its value, and a range read that answers returns the
first rows of the range, or in reverse the last ones. -/
theorem snapshot_cache_sound (d : Snapshot) {calls : List SnapshotCall}
    (faithful : ∀ call ∈ calls, call.Faithful d) {sc : SnapshotCache} (ran : calls.foldl apply {} = sc) :
    (∀ e ∈ sc.entries, e.beginKey < e.endKey ∧ e.kvs = d.within e.beginKey e.endKey) ∧
    (sc.entries.Pairwise fun first second => first.endKey ≤ second.beginKey) ∧
    (∀ k, (∃ e ∈ sc.entries, e.beginKey ≤ k ∧ k < e.endKey) ↔ ∃ call ∈ calls, call.Covers k) ∧
    (∀ k, (∃ call ∈ calls, call.Covers k) → sc.getKey k = some (d.get k)) ∧
    (∀ k, (¬ ∃ call ∈ calls, call.Covers k) → sc.getKey k = none) ∧
    ∀ b e budget reverse out, sc.getRangeKVsLimited b e budget reverse = some out →
      out = d.page b e budget reverse := by
  subst ran
  obtain ⟨caches, known⟩ := run_spec (.nil : Caches d ({} : SnapshotCache).entries) faithful
  have covered : ∀ k, Known (calls.foldl apply {}).entries k ↔ ∃ call ∈ calls, call.Covers k := by
    intro k
    rw [known]
    simp [Known, Within]
  refine ⟨fun e member => ⟨caches.fragments.nonempty e member, caches.rows e member⟩,
    caches.fragments.apart, covered, fun k isCovered => ?_, fun k uncovered => ?_, ?_⟩
  · exact (cacheGetKey_spec caches k).1 ((covered k).mpr isCovered)
  · exact (cacheGetKey_spec caches k).2 (mt (covered k).mp uncovered)
  · intro b e budget reverse out answered
    exact getRangeKVsLimited_eq_page caches answered

theorem snapshot_cache_sound_trimmed : let d : Snapshot := ⟨[⟨[97], [1]⟩, ⟨[99], [2]⟩], by decide⟩
    let calls : List SnapshotCall := [.insertPoint [97] (some [1]), .insert [97, 0] [99] [],
      .insertOwned [98] [100] [⟨[99], [2]⟩]]
    (∀ call ∈ calls, call.Faithful d) ∧ (calls.foldl apply {}).getKey [99] = some (d.get [99]) ∧
      ((calls.foldl apply {}).getRangeKVsLimited [97] [100] 1 true).isSome = true ∧
      ∀ out, (calls.foldl apply {}).getRangeKVsLimited [97] [100] 1 true = some out →
        out = d.page [97] [100] 1 true := by
  intro d calls
  have faithful : ∀ call ∈ calls, call.Faithful d := by decide
  obtain ⟨-, -, -, known, -, range⟩ := snapshot_cache_sound d faithful rfl
  refine ⟨faithful, known [99] ?_, by decide, range [97] [100] 1 true⟩
  exact ⟨.insertOwned [98] [100] [⟨[99], [2]⟩], by decide, by decide, by decide⟩

end SnapshotCache

end FdbGo.Client
