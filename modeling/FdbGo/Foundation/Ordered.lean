import Mathlib.Data.List.Pairwise
import Mathlib.Data.List.Sort
import Mathlib.Data.Set.Finite.Lemmas
import Mathlib.Order.Defs.LinearOrder

/-! Lists ordered strictly by a key: cutting them where a predicate turns true,
putting and removing items, and the last item at or below a position. Two such
lists with the same members are equal, so an operation on one is specified by
its members. -/

set_option autoImplicit false

namespace FdbGo.Foundation

section Cut

variable {Item : Type} {p : Item → Bool} {items : List Item}

/-- Once true along the list, `p` stays true. -/
def Ascending (p : Item → Bool) (items : List Item) : Prop :=
  items.Pairwise fun first second => p first = true → p second = true

section

variable (ascending : Ascending p items)

include ascending

theorem Ascending.split :
    ∃ lower upper, items = lower ++ upper ∧ items.findIdx p = lower.length ∧
      (∀ item ∈ lower, p item = false) ∧ ∀ item ∈ upper, p item = true := by
  induction items with
  | nil => exact ⟨[], [], by simp⟩
  | cons head tail ih =>
    obtain ⟨headBefore, tailAscending⟩ := List.pairwise_cons.mp ascending
    cases headTrue : p head with
    | true => exact ⟨[], head :: tail, by simpa [List.findIdx_cons, headTrue] using fun a m => headBefore a m headTrue⟩
    | false =>
      obtain ⟨lower, upper, rfl, index, below, above⟩ := ih tailAscending
      exact ⟨head :: lower, upper, rfl, by simp [List.findIdx_cons, headTrue, index],
        List.forall_mem_cons.mpr ⟨headTrue, below⟩, above⟩

theorem take_findIdx : items.take (items.findIdx p) = items.filter (fun item => !p item) := by
  obtain ⟨lower, upper, rfl, index, below, above⟩ := ascending.split
  rw [index, List.take_left' rfl, List.filter_append, List.filter_eq_self.mpr (by simpa using below),
    List.filter_eq_nil_iff.mpr (by simpa using above), List.append_nil]

theorem drop_findIdx : items.drop (items.findIdx p) = items.filter p := by
  obtain ⟨lower, upper, rfl, index, below, above⟩ := ascending.split
  rw [index, List.drop_left' rfl, List.filter_append, List.filter_eq_self.mpr above,
    List.filter_eq_nil_iff.mpr (by simpa using below), List.nil_append]

theorem Ascending.takeWhile : items.takeWhile (fun item => !p item) = items.filter fun item => !p item := by
  rw [List.takeWhile_eq_take_findIdx_not, ← take_findIdx ascending]
  simp only [Bool.not_not]

end

def insertAt (items : List Item) (i : Nat) (item : Item) : List Item :=
  items.take i ++ item :: items.drop i

def deleteRange (items : List Item) (lo hi : Nat) : List Item :=
  items.take lo ++ items.drop hi

theorem insertAt_append {lower upper : List Item} {i : Nat} (here : i = lower.length) (item : Item) :
    insertAt (lower ++ upper) i item = lower ++ item :: upper := by
  simp [insertAt, here]

theorem deleteRange_append {lower inner upper : List Item} {hi : Nat} (here : hi = lower.length + inner.length) :
    deleteRange (lower ++ inner ++ upper) lower.length hi = lower ++ upper := by
  have all : hi = (lower ++ inner).length := by rw [here, List.length_append]
  rw [deleteRange, all, List.drop_left' rfl, List.append_assoc, List.take_left' rfl]

theorem set_append_cons {lower upper : List Item} {old : Item} {i : Nat} (here : i = lower.length)
    (item : Item) : (lower ++ old :: upper).set i item = lower ++ item :: upper := by
  simp [here]

theorem replace_append {lower upper : List Item} (inner : List Item) (item : Item) :
    (if lower.length + inner.length - lower.length == 1 then (lower ++ (inner ++ upper)).set lower.length item
      else insertAt (deleteRange (lower ++ (inner ++ upper)) lower.length (lower.length + inner.length))
        lower.length item) = lower ++ item :: upper := by
  rw [Nat.add_sub_cancel_left]
  match inner with
  | [] => rw [if_neg (by simp), ← List.append_assoc, deleteRange_append rfl, insertAt_append rfl]
  | [old] => exact set_append_cons rfl item
  | first :: second :: rest =>
    rw [if_neg (by simp), ← List.append_assoc, deleteRange_append rfl, insertAt_append rfl]

theorem find_of_distinct {K : Type} [DecidableEq K] {key : Item → K}
    (distinct : items.Pairwise fun first second => key first ≠ key second) {item : Item}
    (member : item ∈ items) : items.find? (fun other => decide (key other = key item)) = some item := by
  induction items with
  | nil => exact absurd member List.not_mem_nil
  | cons head tail ih =>
    obtain ⟨apart, tailDistinct⟩ := List.pairwise_cons.mp distinct
    cases member with
    | head => simp
    | tail _ inTail =>
      rw [List.find?_cons_of_neg (by simpa using apart item inTail)]
      exact ih tailDistinct inTail

end Cut

theorem pairwise_cases {Item : Type} {R : Item → Item → Prop} {items : List Item} {item other : Item}
    (pairwise : items.Pairwise R) (member : item ∈ items) (otherMember : other ∈ items) :
    item = other ∨ R item other ∨ R other item := by
  have symmetric : Std.Symm fun item other => item = other ∨ R item other ∨ R other item :=
    ⟨fun _ _ cases => cases.elim (fun same => .inl same.symm) fun sides => .inr sides.symm⟩
  have sides : items.Pairwise fun item other => item = other ∨ R item other ∨ R other item :=
    pairwise.imp fun holds => .inr (.inl holds)
  exact sides.forall_of_forall (fun _ _ => .inl rfl) member otherMember

variable {Item K : Type} [LinearOrder K] {key : Item → K} {items : List Item}

def Ordered (key : Item → K) (items : List Item) : Prop :=
  items.Pairwise fun first second => key first < key second

instance (items : List Item) : Decidable (Ordered key items) :=
  inferInstanceAs (Decidable (items.Pairwise fun first second => key first < key second))

theorem mergeSort_pairwise (items : List Item) :
    (items.mergeSort fun a b => decide (key a ≤ key b)).Pairwise fun a b => key a ≤ key b :=
  (List.pairwise_mergeSort (fun _ _ _ first second => by simpa using (of_decide_eq_true first).trans (of_decide_eq_true second))
    (fun a b => by simpa using le_total (key a) (key b)) items).imp of_decide_eq_true

variable {item other : Item} {position : K} {others : List Item}

section

variable (ordered : Ordered key items)

include ordered

theorem Ordered.ext (otherOrdered : Ordered key others)
    (members : ∀ item, item ∈ items ↔ item ∈ others) : items = others := by
  have irreflexive : Std.Irrefl fun first second : Item => key first < key second :=
    ⟨fun item => lt_irrefl (key item)⟩
  have antisymmetric : Std.Antisymm fun first second : Item => key first < key second :=
    ⟨fun first second less more => absurd more less.not_gt⟩
  exact List.Pairwise.eq_of_mem_iff ordered otherOrdered members

theorem Ordered.eq_of_key_eq (member : item ∈ items) (otherMember : other ∈ items)
    (same : key item = key other) : item = other := by
  rcases pairwise_cases ordered member otherMember with equal | less | more
  · exact equal
  · exact absurd same less.ne
  · exact absurd same more.ne'

theorem Ordered.filter (p : Item → Bool) : Ordered key (items.filter p) :=
  List.Pairwise.filter p ordered

omit ordered in
/-- Two ordered parts are ordered if the first lies below the second. -/
theorem ordered_append :
    Ordered key (items ++ others) ↔ Ordered key items ∧ Ordered key others ∧
      ∀ item ∈ items, ∀ other ∈ others, key item < key other :=
  List.pairwise_append

omit ordered in
theorem Ordered.head_le (ordered : Ordered key (item :: items)) : ∀ other ∈ item :: items, key item ≤ key other :=
  List.forall_mem_cons.mpr ⟨le_rfl, fun other later => ((List.pairwise_cons.mp ordered).1 other later).le⟩

omit ordered in
theorem Ordered.around {lower upper : List Item} (ordered : Ordered key (lower ++ item :: upper)) :
    (∀ other ∈ lower, key other < key item) ∧ ∀ other ∈ upper, key item < key other := by
  obtain ⟨-, rest, across⟩ := ordered_append.mp ordered
  exact ⟨fun other inLower => across other inLower item List.mem_cons_self, (List.pairwise_cons.mp rest).1⟩

theorem Ordered.ascending_ge (position : K) : Ascending (fun item => decide (position ≤ key item)) items := by
  refine List.Pairwise.imp ?_ ordered
  intro first second less above
  simp only [decide_eq_true_eq] at above ⊢
  exact above.trans less.le

theorem Ordered.split_ge (position : K) :
    ∃ lower upper, items = lower ++ upper ∧ (items.findIdx fun item => decide (position ≤ key item)) = lower.length ∧
      (∀ item ∈ lower, key item < position) ∧ ∀ item ∈ upper, position ≤ key item := by
  simpa using (ordered.ascending_ge position).split

theorem Ordered.split_gt (position : K) :
    ∃ lower upper, items = lower ++ upper ∧ (items.findIdx fun item => decide (position < key item)) = lower.length ∧
      (∀ item ∈ lower, key item ≤ position) ∧ ∀ item ∈ upper, position < key item := by
  have ascending : Ascending (fun item => decide (position < key item)) items :=
    ordered.imp fun less above => by simpa using (of_decide_eq_true above).trans less
  simpa using ascending.split

theorem Ordered.le_of_mem_dropWhile
    (member : item ∈ items.dropWhile fun other => decide (key other < position)) : position ≤ key item := by
  induction items with
  | nil => exact absurd member List.not_mem_nil
  | cons head tail ih =>
    obtain ⟨above, tailOrdered⟩ := List.pairwise_cons.mp ordered
    by_cases before : key head < position
    · rw [List.dropWhile_cons_of_pos (by simpa using before)] at member
      exact ih tailOrdered member
    · rw [List.dropWhile_cons_of_neg (by simpa using before)] at member
      have headPast := not_lt.mp before
      cases List.mem_cons.mp member with
      | inl isHead => exact isHead ▸ headPast
      | inr inTail => exact headPast.trans (above item inTail).le

/-- The list with `item` in the place of any item of its key. -/
def put (key : Item → K) (item : Item) (items : List Item) : List Item :=
  items.filter (fun other => decide (key other < key item)) ++
    item :: items.filter (fun other => decide (key item < key other))

omit ordered in
/-- A put replaces what has its key and keeps the rest. -/
theorem mem_put : other ∈ put key item items ↔ other = item ∨ other ∈ items ∧ key other ≠ key item := by
  simp only [put, List.mem_append, List.mem_filter, List.mem_cons, decide_eq_true_eq, ne_iff_lt_or_gt]
  tauto

theorem Ordered.put (item : Item) : Ordered key (put key item items) := by
  refine ordered_append.mpr ⟨ordered.filter _, List.pairwise_cons.mpr ⟨?_, ordered.filter _⟩, ?_⟩
  · intro other member
    simpa using (List.mem_filter.mp member).2
  · intro lower inLower other member
    have below : key lower < key item := by simpa using (List.mem_filter.mp inLower).2
    rcases List.mem_cons.mp member with rfl | inUpper
    · exact below
    · exact below.trans (by simpa using (List.mem_filter.mp inUpper).2)

omit ordered in
theorem insert_eq_put {lower upper : List Item} {item : Item} (below : ∀ other ∈ lower, key other < key item)
    (above : ∀ other ∈ upper, key item < key other) : lower ++ item :: upper = put key item (lower ++ upper) := by
  have lowerKept : lower.filter (fun other => decide (key other < key item)) = lower :=
    List.filter_eq_self.mpr fun other member => decide_eq_true (below other member)
  have lowerOut : lower.filter (fun other => decide (key item < key other)) = [] :=
    List.filter_eq_nil_iff.mpr fun other member => by simpa using (below other member).le
  have upperKept : upper.filter (fun other => decide (key item < key other)) = upper :=
    List.filter_eq_self.mpr fun other member => decide_eq_true (above other member)
  have upperOut : upper.filter (fun other => decide (key other < key item)) = [] :=
    List.filter_eq_nil_iff.mpr fun other member => by simpa using (above other member).le
  rw [put, List.filter_append, List.filter_append, lowerKept, lowerOut, upperKept, upperOut, List.append_nil,
    List.nil_append]

omit ordered in
theorem Ordered.set_eq_put {lower upper : List Item} {old : Item} (ordered : Ordered key (lower ++ old :: upper))
    (same : key old = key item) : lower ++ item :: upper = Foundation.put key item (lower ++ old :: upper) := by
  obtain ⟨below, above⟩ := ordered.around
  have dropped : Foundation.put key item (lower ++ old :: upper) = Foundation.put key item (lower ++ upper) := by
    simp [Foundation.put, same]
  rw [same] at below above
  rw [dropped]
  exact insert_eq_put below above

theorem Ordered.find_eq_some_iff (item : Item) :
    items[items.findIdx fun other => decide (key item ≤ key other)]? = some item ↔ item ∈ items := by
  obtain ⟨lower, upper, rfl, index, below, notBelow⟩ := ordered.split_ge (key item)
  rw [index, List.getElem?_append_right le_rfl, Nat.sub_self]
  constructor
  · intro found
    exact List.mem_append_right lower (List.mem_of_getElem? found)
  · intro member
    rcases List.mem_append.mp member with inLower | inUpper
    · exact absurd (below item inLower) (lt_irrefl _)
    · cases inUpper with
      | head => rfl
      | @tail found upper inUpper =>
        exact absurd (ordered.around.2 item inUpper) (notBelow found List.mem_cons_self).not_gt

/-- Puts `item` where the search for its key ends: over the item of that key, or
before the first one past it. -/
def putAt [DecidableEq K] (key : Item → K) (item : Item) (items : List Item) : List Item :=
  let i := items.findIdx fun other => decide (key item ≤ key other)
  match items[i]? with
  | some found => if key found = key item then items.set i item else insertAt items i item
  | none => insertAt items i item

theorem Ordered.putAt_eq_put [DecidableEq K] (item : Item) : putAt key item items = Foundation.put key item items := by
  obtain ⟨lower, upper, rfl, index, below, notBelow⟩ := ordered.split_ge (key item)
  simp only [putAt, index]
  rw [List.getElem?_append_right le_rfl, Nat.sub_self]
  cases upper with
  | nil =>
    rw [insertAt_append rfl]
    exact insert_eq_put below (by simp)
  | cons found upper =>
    simp only [List.getElem?_cons_zero]
    split
    case isTrue same =>
      rw [set_append_cons rfl]
      exact ordered.set_eq_put same
    case isFalse apart =>
      rw [insertAt_append rfl]
      have foundAbove : key item < key found := (notBelow found List.mem_cons_self).lt_of_ne' apart
      refine insert_eq_put below (List.forall_mem_cons.mpr ⟨foundAbove, ?_⟩)
      intro other inUpper
      exact foundAbove.trans (ordered.around.2 other inUpper)

end

def deleteKey [DecidableEq K] (key : Item → K) (position : K) (items : List Item) : List Item :=
  let i := items.findIdx fun other => decide (position ≤ key other)
  match items[i]? with
  | some found => if key found = position then deleteRange items i (i + 1) else items
  | none => items

section

variable (ordered : Ordered key items)

include ordered

theorem Ordered.deleteKey_eq_filter [DecidableEq K]
    (position : K) : deleteKey key position items = items.filter fun item => decide (key item ≠ position) := by
  obtain ⟨lower, upper, rfl, index, below, notBelow⟩ := ordered.split_ge position
  have lowerKept : lower.filter (fun item => decide (key item ≠ position)) = lower := by
    rw [List.filter_eq_self]
    intro item member
    simpa using (below item member).ne
  simp only [deleteKey, index]
  rw [List.getElem?_append_right le_rfl, Nat.sub_self, List.filter_append, lowerKept]
  cases upper with
  | nil => simp
  | cons found upper =>
    have upperKept : upper.filter (fun item => decide (key item ≠ position)) = upper := by
      rw [List.filter_eq_self]
      intro item member
      have above := ordered.around.2 item member
      simpa using ((notBelow found List.mem_cons_self).trans_lt above).ne'
    simp only [List.getElem?_cons_zero]
    split
    case isTrue same =>
      rw [List.filter_cons_of_neg (by simpa using same), upperKept]
      simp [deleteRange]
    case isFalse apart => rw [List.filter_cons_of_pos (by simpa using apart), upperKept]

theorem Ordered.put_comm {first second : Item} (apart : key first ≠ key second) :
    Foundation.put key second (Foundation.put key first items) = Foundation.put key first (Foundation.put key second items) := by
  refine ((ordered.put first).put second).ext ((ordered.put second).put first) ?_
  intro item
  simp only [mem_put]
  constructor
  · intro member
    rcases member with rfl | ⟨rfl | ⟨old, notFirst⟩, notSecond⟩
    · exact .inr ⟨.inl rfl, apart.symm⟩
    · exact .inl rfl
    · exact .inr ⟨.inr ⟨old, notSecond⟩, notFirst⟩
  · intro member
    rcases member with rfl | ⟨rfl | ⟨old, notSecond⟩, notFirst⟩
    · exact .inr ⟨.inl rfl, apart⟩
    · exact .inl rfl
    · exact .inr ⟨.inr ⟨old, notFirst⟩, notSecond⟩

theorem Ordered.put_put {first second : Item} (same : key first = key second) :
    Foundation.put key second (Foundation.put key first items) = Foundation.put key second items := by
  refine ((ordered.put first).put second).ext (ordered.put second) ?_
  intro item
  simp only [mem_put, same]
  constructor
  · intro member
    rcases member with rfl | ⟨rfl | old, notSecond⟩
    · exact .inl rfl
    · exact absurd same notSecond
    · exact .inr old
  · intro member
    rcases member with rfl | old
    · exact .inl rfl
    · exact .inr ⟨.inr old, old.2⟩

/-- Deleting between the places of two bounds removes exactly the items
between the bounds. -/
theorem Ordered.deleteRange_eq {low high : K} (nonempty : low ≤ high) :
    deleteRange items (items.findIdx fun item => decide (low ≤ key item))
        (items.findIdx fun item => decide (high ≤ key item)) =
      items.filter (fun item => decide (key item < low ∨ high ≤ key item)) := by
  rw [deleteRange, take_findIdx (ordered.ascending_ge low), drop_findIdx (ordered.ascending_ge high)]
  refine Ordered.ext ?_ (ordered.filter _) ?_
  · refine ordered_append.mpr ⟨ordered.filter _, ordered.filter _, ?_⟩
    intro first inFirst second inSecond
    have firstBelow : key first < low := by simpa using (List.mem_filter.mp inFirst).2
    have secondAbove : high ≤ key second := by simpa using (List.mem_filter.mp inSecond).2
    exact firstBelow.trans_le (nonempty.trans secondAbove)
  · intro item
    simp only [List.mem_append, List.mem_filter, Bool.not_eq_true', decide_eq_false_iff_not,
      decide_eq_true_eq, not_le]
    tauto

theorem Ordered.slice_eq (low high : K) :
    (items.take (items.findIdx fun item => decide (high ≤ key item))).drop
        (items.findIdx fun item => decide (low ≤ key item)) =
      items.filter fun item => decide (low ≤ key item ∧ key item < high) := by
  obtain ⟨lower, upper, rfl, index, below, above⟩ := ordered.split_ge high
  obtain ⟨lowerOrdered, -, -⟩ := ordered_append.mp ordered
  have noUpper : upper.filter (fun item => decide (low ≤ key item ∧ key item < high)) = [] := by
    refine List.filter_eq_nil_iff.mpr fun item member => ?_
    simp [above item member]
  have inLower : lower.filter (fun item => decide (low ≤ key item ∧ key item < high)) =
      lower.filter fun item => decide (low ≤ key item) := by
    refine List.filter_congr fun item member => ?_
    simp [below item member]
  rw [index, List.take_left' rfl, List.filter_append, noUpper, List.append_nil, inLower, List.findIdx_append]
  split
  case isTrue => exact drop_findIdx (lowerOrdered.ascending_ge low)
  case isFalse missing =>
    rw [List.drop_eq_nil_of_le (Nat.le_add_left _ _)]
    refine (List.filter_eq_nil_iff.mpr fun item member found => missing ?_).symm
    exact List.findIdx_lt_length_of_exists ⟨item, member, found⟩

theorem Ordered.takeWhile_drop (low high : K) :
    (items.drop (items.findIdx fun item => decide (low ≤ key item))).takeWhile
        (fun item => !decide (high ≤ key item)) =
      items.filter fun item => decide (low ≤ key item ∧ key item < high) := by
  rw [drop_findIdx (ordered.ascending_ge low), ((ordered.filter _).ascending_ge high).takeWhile,
    List.filter_filter]
  refine List.filter_congr fun item _ => ?_
  simp [← not_le, Bool.and_comm]

theorem Ordered.takeWhile_reverse (low high : K) :
    (items.take (items.findIdx fun item => decide (high ≤ key item))).reverse.takeWhile
        (fun item => !decide (key item < low)) =
      (items.filter fun item => decide (low ≤ key item ∧ key item < high)).reverse := by
  rw [take_findIdx (ordered.ascending_ge high)]
  have descending : Ascending (fun item => decide (key item < low))
      (items.filter fun item => !decide (high ≤ key item)).reverse := by
    refine List.pairwise_reverse.mpr ((ordered.filter _).imp ?_)
    intro first second less below
    simp only [decide_eq_true_eq] at below ⊢
    exact less.trans below
  rw [descending.takeWhile, List.filter_reverse, List.filter_filter]
  congr 1
  refine List.filter_congr fun item _ => ?_
  simp only [← decide_not, not_lt, not_le, Bool.decide_and]

end

/-- `item` is the last of `items` at or below `position`. -/
structure Floor (key : Item → K) (items : List Item) (position : K) (item : Item) : Prop where
  member : item ∈ items
  below : key item ≤ position
  greatest : ∀ other ∈ items, key other ≤ position → key other ≤ key item

theorem Floor.unique (ordered : Ordered key items) (floor : Floor key items position item)
    (otherFloor : Floor key items position other) : item = other :=
  ordered.eq_of_key_eq floor.member otherFloor.member
    (le_antisymm (otherFloor.greatest item floor.member floor.below)
      (floor.greatest other otherFloor.member otherFloor.below))

theorem exists_floor {first : Item} (member : first ∈ items) (below : key first ≤ position) :
    ∃ item, Floor key items position item := by
  have finite : {item | item ∈ items ∧ key item ≤ position}.Finite := items.finite_toSet.subset fun _ inside => inside.1
  obtain ⟨best, ⟨inBest, bestBelow⟩, greatest⟩ := Set.exists_max_image _ key finite ⟨first, member, below⟩
  exact ⟨best, inBest, bestBelow, fun other otherMember otherBelow => greatest other ⟨otherMember, otherBelow⟩⟩

theorem floor_append_iff (above : ∀ other ∈ others, position < key other) :
    Floor key (items ++ others) position item ↔ Floor key items position item := by
  constructor
  · rintro ⟨member, below, greatest⟩
    rcases List.mem_append.mp member with inItems | inOthers
    · exact ⟨inItems, below, fun other inside => greatest other (List.mem_append_left others inside)⟩
    · exact absurd below (above item inOthers).not_ge
  · rintro ⟨member, below, greatest⟩
    refine ⟨List.mem_append_left others member, below, ?_⟩
    intro other otherMember otherBelow
    rcases List.mem_append.mp otherMember with inItems | inOthers
    · exact greatest other inItems otherBelow
    · exact absurd otherBelow (above other inOthers).not_ge

theorem floor_self (key : Item → K) (member : item ∈ items) : Floor key items (key item) item :=
  ⟨member, le_rfl, fun _ _ below => below⟩

theorem Ordered.floor_of_split {lower upper : List Item} (ordered : Ordered key (lower ++ item :: upper))
    (below : key item ≤ position) (above : ∀ other ∈ upper, position < key other) :
    Floor key (lower ++ item :: upper) position item := by
  refine ⟨by simp, below, ?_⟩
  intro other member otherBelow
  rcases List.mem_append.mp member with inLower | inUpper
  · exact (ordered.around.1 other inLower).le
  · cases inUpper with
    | head => exact le_rfl
    | tail _ inUpper => exact absurd otherBelow (above other inUpper).not_ge

/-- The list around the floor of a position: the search for the first item above
the position ends right after it. -/
theorem Floor.split (ordered : Ordered key items) (floor : Floor key items position item) :
    ∃ lower upper, items = lower ++ item :: upper ∧
      (items.findIdx fun other => decide (position < key other)) = lower.length + 1 ∧
      ∀ other, other ∈ upper ↔ other ∈ items ∧ position < key other := by
  obtain ⟨lower, upper, rfl⟩ := List.append_of_mem floor.member
  obtain ⟨lowerBelow, upperAbove⟩ := ordered.around
  have lowerOut : ∀ other ∈ lower, ¬ position < key other := by
    intro other inLower
    exact ((lowerBelow other inLower).le.trans floor.below).not_gt
  have above : ∀ other ∈ upper, position < key other := by
    intro other inUpper
    by_contra notAbove
    have least := floor.greatest other (by simp [inUpper]) (not_lt.mp notAbove)
    exact absurd (upperAbove other inUpper) least.not_gt
  refine ⟨lower, upper, rfl, ?_, ?_⟩
  · rw [List.findIdx_append, List.findIdx_eq_length_of_false (by simpa using lowerOut)]
    simp only [lt_irrefl, ↓reduceIte, List.findIdx_cons, floor.below.not_gt, decide_false,
      cond_false]
    cases upper with
    | nil => simp [Nat.add_comm]
    | cons head tail => simp [List.findIdx_cons, above head List.mem_cons_self, Nat.add_comm]
  · intro other
    constructor
    · intro inUpper
      exact ⟨by simp [inUpper], above other inUpper⟩
    · rintro ⟨member, otherAbove⟩
      rcases List.mem_append.mp member with inLower | inRest
      · exact absurd otherAbove (lowerOut other inLower)
      · rcases List.mem_cons.mp inRest with rfl | inUpper
        · exact absurd floor.below otherAbove.not_ge
        · exact inUpper

theorem Floor.getLast_filter (ordered : Ordered key items) (floor : Floor key items position item) :
    (items.filter fun other => decide (key other ≤ position)).getLast? = some item := by
  obtain ⟨lower, upper, rfl, -, above⟩ := floor.split ordered
  have upperOut : upper.filter (fun other => decide (key other ≤ position)) = [] :=
    List.filter_eq_nil_iff.mpr fun other member => by simpa using ((above other).mp member).2
  rw [List.filter_append, List.filter_cons_of_pos (by simpa using floor.below), upperOut, List.getLast?_concat]

end FdbGo.Foundation
