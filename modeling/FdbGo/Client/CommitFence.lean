import FdbGo.Client.WriteConflictProperties

/-! The fence of a commit with an unknown result is a key that the commit both reads and writes.
One walk over the conflict ranges, sorted by begin, finds it. -/

set_option autoImplicit false

namespace FdbGo.Client

def ByBegin (rs : List KeyRange) : Prop := (rs.map KeyRange.beginKey).Pairwise (· ≤ ·)

/-- A sort by begin. It need not be stable. -/
structure BeginSort where
  sort : List KeyRange → List KeyRange
  perm : ∀ rs, (sort rs).Perm rs
  sorted : ∀ rs, ByBegin (sort rs)

/-- The walk over two lists sorted by begin, of which the arguments are what is still ahead. -/
def intersectSorted : List KeyRange → List KeyRange → Option KeyRange
  | l :: ls, r :: rs =>
    if l.endKey ≤ r.beginKey then intersectSorted ls (r :: rs)
    else if r.endKey ≤ l.beginKey then intersectSorted (l :: ls) rs
    else
      some
        { beginKey := if l.beginKey < r.beginKey then r.beginKey else l.beginKey
          endKey := if r.endKey < l.endKey then r.endKey else l.endKey }
  | _, _ => none
termination_by ls rs => ls.length + rs.length

def intersectRanges (slice : BeginSort) (lhs rhs : List KeyRange) : Option KeyRange :=
  if lhs.isEmpty || rhs.isEmpty then none else intersectSorted (slice.sort lhs) (slice.sort rhs)

def sortedByBegin (sortFunc : BeginSort) (rs : List KeyRange) : List KeyRange :=
  if (rs.map KeyRange.beginKey).IsChain (· ≤ ·) then rs else sortFunc.sort rs

def conflictRangesIntersect (sortFunc : BeginSort) (writes reads : List KeyRange) : Bool :=
  if writes.isEmpty || reads.isEmpty then false
  else (intersectSorted (sortedByBegin sortFunc writes) (sortedByBegin sortFunc reads)).isSome

/-- The key of the fence. Without a shared key it is the first write's begin, read out of bounds when
there is no write. -/
def intersectConflictRanges (slice : BeginSort) (writes reads : List KeyRange) : Option Key :=
  match intersectRanges slice writes reads with
  | some shared => some shared.beginKey
  | none => writes.head?.map KeyRange.beginKey

/-- Some write range and some read range have a key in common. -/
def Intersect (writes reads : List KeyRange) : Prop :=
  ∃ w ∈ writes, ∃ r ∈ reads, ∃ k, w.Covers k ∧ r.Covers k

def KeyRange.Inside (inner : KeyRange) (rs : List KeyRange) : Prop :=
  ∃ r ∈ rs, r.beginKey ≤ inner.beginKey ∧ inner.endKey ≤ r.endKey

/-- What a walk may answer: a range that both lists contain, or that they share no key. -/
def Settles (writes reads : List KeyRange) : Option KeyRange → Prop
  | some shared => shared.beginKey < shared.endKey ∧ shared.Inside writes ∧ shared.Inside reads
  | none => ¬ Intersect writes reads

variable {l r other : KeyRange} {ls rs writes reads : List KeyRange} {answer : Option KeyRange}

theorem Settles.isSome_iff (settles : Settles writes reads answer) : answer.isSome ↔ Intersect writes reads := by
  cases answer with
  | none => exact ⟨fun some => absurd some Bool.false_ne_true, fun meets => absurd meets settles⟩
  | some shared =>
    obtain ⟨filled, ⟨w, member, wBegin, wEnd⟩, r, other, rBegin, rEnd⟩ := settles
    exact ⟨fun _ => ⟨w, member, r, other, shared.beginKey, ⟨wBegin, filled.trans_le wEnd⟩, rBegin, filled.trans_le rEnd⟩,
      fun _ => rfl⟩

theorem Settles.perm (settles : Settles ls rs answer) (left : ls.Perm writes) (right : rs.Perm reads) :
    Settles writes reads answer := by
  cases answer <;> simpa only [Settles, Intersect, KeyRange.Inside, left.mem_iff, right.mem_iff] using settles

/-- A range that the walk leaves behind shares no key with a range still ahead on the other side. -/
theorem ByBegin.left_behind (sorted : ByBegin (r :: rs)) (before : l.endKey ≤ r.beginKey) (member : other ∈ r :: rs)
    {k : Key} (covers : l.Covers k) : ¬ other.Covers k := by
  intro shares
  have ahead : r.beginKey ≤ other.beginKey := by
    rcases List.mem_cons.mp member with rfl | later
    · exact le_rfl
    · exact List.rel_of_pairwise_cons sorted (List.mem_map_of_mem later)
  exact absurd (covers.2.trans_le (before.trans (ahead.trans shares.1))) (lt_irrefl k)

theorem Settles.symm (settles : Settles ls rs answer) : Settles rs ls answer := by
  cases answer with
  | none =>
    rintro ⟨r, right, l, left, k, rCovers, lCovers⟩
    exact settles ⟨l, left, r, right, k, lCovers, rCovers⟩
  | some => exact ⟨settles.1, settles.2.2, settles.2.1⟩

/-- One step of the walk, which leaves `l` behind. -/
theorem Settles.cons (settles : Settles ls (r :: rs) answer) (before : l.endKey ≤ r.beginKey)
    (sorted : ByBegin (r :: rs)) : Settles (l :: ls) (r :: rs) answer := by
  cases answer with
  | none =>
    rintro ⟨w, member, other, ahead, k, covers, shares⟩
    rcases List.mem_cons.mp member with rfl | later
    · exact sorted.left_behind before ahead covers shares
    · exact settles ⟨w, later, other, ahead, k, covers, shares⟩
  | some shared =>
    obtain ⟨filled, ⟨w, member, inside⟩, right⟩ := settles
    exact ⟨filled, ⟨w, List.mem_cons_of_mem _ member, inside⟩, right⟩

private theorem intersectSorted_settles (filledLeft : ∀ l ∈ ls, l.beginKey < l.endKey)
    (filledRight : ∀ r ∈ rs, r.beginKey < r.endKey) (sortedLeft : ByBegin ls) (sortedRight : ByBegin rs) :
    Settles ls rs (intersectSorted ls rs) := by
  fun_induction intersectSorted ls rs with
  | case1 l ls r rs before ih =>
    have rest := ih (List.forall_mem_cons.mp filledLeft).2 filledRight sortedLeft.of_cons sortedRight
    exact rest.cons before sortedRight
  | case2 l ls r rs _ before ih =>
    have rest := ih filledLeft (List.forall_mem_cons.mp filledRight).2 sortedLeft sortedRight.of_cons
    exact (rest.symm.cons before sortedLeft).symm
  | case3 l ls r rs leftEnds rightEnds =>
    have left := filledLeft l List.mem_cons_self
    have right := filledRight r List.mem_cons_self
    refine ⟨?_, ⟨l, List.mem_cons_self, ?_⟩, r, List.mem_cons_self, ?_⟩ <;> grind
  | case4 ls rs short =>
    rintro ⟨w, member, other, ahead, -⟩
    obtain ⟨l, ls, rfl⟩ := List.exists_cons_of_ne_nil (List.ne_nil_of_mem member)
    obtain ⟨r, rs, rfl⟩ := List.exists_cons_of_ne_nil (List.ne_nil_of_mem ahead)
    exact short l ls r rs rfl rfl

theorem sortedByBegin_spec (sortFunc : BeginSort) (rs : List KeyRange) :
    (sortedByBegin sortFunc rs).Perm rs ∧ ByBegin (sortedByBegin sortFunc rs) := by
  unfold sortedByBegin
  split
  case isTrue chain => exact ⟨.refl _, List.isChain_iff_pairwise.mp chain⟩
  case isFalse => exact ⟨sortFunc.perm rs, sortFunc.sorted rs⟩

theorem settles_none_of_empty (empty : (writes.isEmpty || reads.isEmpty) = true) : Settles writes reads none := by
  rintro ⟨w, member, r, other, -⟩
  rcases Bool.or_eq_true_iff.mp empty with none | none
  · exact List.not_mem_nil (List.isEmpty_iff.mp none ▸ member)
  · exact List.not_mem_nil (List.isEmpty_iff.mp none ▸ other)

section

variable (filledWrites : ∀ w ∈ writes, w.beginKey < w.endKey) (filledReads : ∀ r ∈ reads, r.beginKey < r.endKey)
    (slice sortFunc : BeginSort)

include filledWrites filledReads

/-- Any order by begin will do, so it does not matter how a sort breaks ties. -/
theorem walk_settles (left : ls.Perm writes ∧ ByBegin ls) (right : rs.Perm reads ∧ ByBegin rs) :
    Settles writes reads (intersectSorted ls rs) :=
  have settles := intersectSorted_settles (fun l member => filledWrites l (left.1.mem_iff.mp member))
    (fun r member => filledReads r (right.1.mem_iff.mp member)) left.2 right.2
  settles.perm left.1 right.1

theorem intersectRanges_settles : Settles writes reads (intersectRanges slice writes reads) := by
  unfold intersectRanges
  split
  case isTrue empty => exact settles_none_of_empty empty
  case isFalse => exact walk_settles filledWrites filledReads ⟨slice.perm _, slice.sorted _⟩ ⟨slice.perm _, slice.sorted _⟩

theorem conflictRangesIntersect_iff : conflictRangesIntersect sortFunc writes reads = true ↔ Intersect writes reads := by
  unfold conflictRangesIntersect
  split
  case isTrue empty => exact (settles_none_of_empty empty).isSome_iff
  case isFalse =>
    exact (walk_settles filledWrites filledReads (sortedByBegin_spec sortFunc _) (sortedByBegin_spec sortFunc _)).isSome_iff

/-- The fence of a commit that conflicts with itself conflicts with the commit. -/
theorem fence_covered (meets : conflictRangesIntersect sortFunc writes reads = true) :
    ∃ key, intersectConflictRanges slice writes reads = some key ∧ Covered writes key ∧ Covered reads key := by
  have settles := intersectRanges_settles filledWrites filledReads slice
  have present := settles.isSome_iff.mpr ((conflictRangesIntersect_iff filledWrites filledReads sortFunc).mp meets)
  obtain ⟨shared, found⟩ := Option.isSome_iff_exists.mp present
  rw [found] at settles
  obtain ⟨filled, ⟨w, member, wBegin, wEnd⟩, r, other, rBegin, rEnd⟩ := settles
  exact ⟨shared.beginKey, by rw [intersectConflictRanges, found], ⟨w, member, wBegin, filled.trans_le wEnd⟩,
    r, other, rBegin, filled.trans_le rEnd⟩

/-- Over any two lists of non-empty ranges the walk misses no shared key, and the test that orders
only what is out of order agrees with it. -/
theorem intersectRanges_complete :
    ((intersectRanges slice writes reads).isSome ↔ Intersect writes reads) ∧
    (∀ shared, intersectRanges slice writes reads = some shared →
      shared.beginKey < shared.endKey ∧ shared.Inside writes ∧ shared.Inside reads) ∧
    conflictRangesIntersect sortFunc writes reads = (intersectRanges slice writes reads).isSome := by
  have settles := intersectRanges_settles filledWrites filledReads slice
  refine ⟨settles.isSome_iff, fun shared found => ?_, ?_⟩
  · rw [found] at settles
    exact settles
  · rw [Bool.eq_iff_iff, settles.isSome_iff]
    exact conflictRangesIntersect_iff filledWrites filledReads sortFunc

end

def BeginSort.merge : BeginSort where
  sort rs := rs.mergeSort fun first second => decide (first.beginKey ≤ second.beginKey)
  perm rs := List.mergeSort_perm rs _
  sorted rs := by
    have sorted : (rs.mergeSort fun first second => decide (first.beginKey ≤ second.beginKey)).Pairwise _ :=
      List.pairwise_mergeSort (by simpa using fun _ _ _ => le_trans) (by simpa using fun _ _ => le_total _ _) rs
    simpa [ByBegin, List.pairwise_map] using sorted

theorem fence_covered_written :
    ∃ key, intersectConflictRanges .merge [⟨[1], [3]⟩] [⟨[2], [4]⟩] = some key ∧
      Covered [⟨[1], [3]⟩] key ∧ Covered [⟨[2], [4]⟩] key :=
  fence_covered (by decide) (by decide) .merge .merge ((conflictRangesIntersect_iff (by decide) (by decide) .merge).mpr
    ⟨_, List.mem_cons_self, _, List.mem_cons_self, [2], by decide⟩)

/-- The write that meets the read ends after the write begun later. -/
theorem intersectRanges_complete_nested :
    (intersectRanges .merge [⟨[2], [3]⟩, ⟨[1], [9]⟩] [⟨[5], [6]⟩]).isSome :=
  (intersectRanges_complete (by decide) (by decide) .merge .merge).1.mpr
    ⟨⟨[1], [9]⟩, by simp, ⟨[5], [6]⟩, by simp, [5], by decide⟩

end FdbGo.Client
