import FdbGo.Client.WritesProperties

/-! The read-conflict map, into which the ranges of the reads are merged one by one, and the
merge of one range into coalesced write conflicts. Separate ranges are determined by the keys
they cover, so the ways to merge agree once they cover the same keys. -/

set_option autoImplicit false

namespace FdbGo.Client

open Foundation

/-- The read map `s` with `[b, e)` merged into it. -/
def insertReadConflictLocked (s : List KeyRange) (b e : Boundary) : List KeyRange :=
  if b.compare e != .lt then s
  else
    let lo := s.findIdx fun r => ({ key := r.endKey } : Boundary).compare b != .lt
    match s[lo]? with
    | some first =>
      if ({ key := first.beginKey } : Boundary).compare e != .gt then
        let keepBegin := ({ key := first.beginKey } : Boundary).compare b != .gt
        if keepBegin && ({ key := first.endKey } : Boundary).compare e != .lt then s
        else
          let joining := (s.drop (lo + 1)).takeWhile fun r =>
            ({ key := r.beginKey } : Boundary).compare e != .gt
          let hi := lo + (joining.length + 1)
          let last := joining.getLast?.getD first
          let keepEnd := ({ key := last.endKey } : Boundary).compare e != .lt
          let merged : KeyRange :=
            { beginKey := if keepBegin then first.beginKey else b.materialize
              endKey := if keepEnd then last.endKey else e.materialize }
          if hi - lo == 1 then s.set lo merged else insertAt (deleteRange s lo hi) lo merged
      else insertAt s lo { beginKey := b.materialize, endKey := e.materialize }
    | none => insertAt s lo { beginKey := b.materialize, endKey := e.materialize }

/-- The read map after a sequence of calls. -/
def readMap (calls : List (Boundary × Boundary)) : List KeyRange :=
  calls.foldl (fun s call => insertReadConflictLocked s call.1 call.2) []

def insertCoalesced (rs : List KeyRange) (r : KeyRange) : List KeyRange :=
  let i := rs.findIdx fun other => decide (r.beginKey ≤ other.endKey)
  let j := i + ((rs.drop i).takeWhile fun other => decide (other.beginKey ≤ r.endKey)).length
  let mergedBegin :=
    match rs[i]? with
    | some first => if i < j ∧ first.beginKey < r.beginKey then first.beginKey else r.beginKey
    | none => r.beginKey
  let mergedEnd :=
    match rs[j - 1]? with
    | some last => if i < j ∧ r.endKey < last.endKey then last.endKey else r.endKey
    | none => r.endKey
  rs.take i ++ { beginKey := mergedBegin, endKey := mergedEnd } :: rs.drop j

variable {r : KeyRange}

namespace SeparateRanges

variable {s t lower mid upper : List KeyRange}

/-! ## Merging one range -/

theorem takeWhile_touching {e : Key} (touching : ∀ r ∈ mid, r.beginKey ≤ e) (above : ∀ r ∈ upper, e < r.beginKey) :
    (mid ++ upper).takeWhile (fun r => decide (r.beginKey ≤ e)) = mid := by
  have past : upper.takeWhile (fun r => decide (r.beginKey ≤ e)) = [] := by
    cases upper with
    | nil => rfl
    | cons next upper => simp [(above next List.mem_cons_self).not_ge]
  rw [List.takeWhile_append_of_pos fun r member => decide_eq_true (touching r member), past, List.append_nil]

theorem Around.insertReadConflictLocked_eq {b e : Boundary}
    (around : Around s lower mid upper b.materialize e.materialize) (separate : SeparateRanges s)
    (nonempty : b.materialize < e.materialize) :
    insertReadConflictLocked s b e = lower ++ joined mid b.materialize e.materialize :: upper := by
  unfold insertReadConflictLocked
  simp only [Boundary.compare_bne_lt, Boundary.compare_bne_gt, Boundary.materialize_plain, decide_eq_true_eq,
    nonempty.not_ge, ↓reduceIte, around.low, Bool.and_eq_true]
  obtain ⟨rfl, -, -, -, touching, above⟩ := around
  generalize b.materialize = low at *
  generalize e.materialize = high at *
  cases mid with
  | nil =>
    cases upper with
    | nil => simp [insertAt, joined]
    | cons next upper =>
      have apart := (above next List.mem_cons_self).not_ge
      simp [insertAt, joined, apart]
  | cons first mid =>
    have firstAt : (lower ++ (first :: mid ++ upper))[lower.length]? = some first := by simp
    have begins := (touching first List.mem_cons_self).2
    rw [firstAt]
    dsimp only
    rw [if_pos begins]
    split
    case isTrue covered =>
      cases mid with
      | nil => simp [joined, covered.1, covered.2]
      | cons second mid =>
        -- A second range would begin after the end of the first, past the new one.
        have apart := (List.pairwise_cons.mp (append_iff.mp separate).2.1.apart).1 second List.mem_cons_self
        have reached := (touching second (List.mem_cons_of_mem first List.mem_cons_self)).2
        exact absurd ((apart.trans_le reached).trans_le covered.2) (lt_irrefl _)
    case isFalse =>
      have rest : (lower ++ (first :: mid ++ upper)).drop (lower.length + 1) = mid ++ upper := by simp
      have joining := takeWhile_touching
        (fun r member => (touching r (List.mem_cons_of_mem first member)).2) above
      rw [rest, joining, ← List.length_cons, replace_append]
      simp only [joined, List.head?_cons, List.getLast?_cons, Option.elim_some]
      congr 2
      grind

theorem Around.insertCoalesced_eq (around : Around s lower mid upper r.beginKey r.endKey) :
    insertCoalesced s r = addRangeOwned s r.beginKey r.endKey := by
  obtain ⟨rfl, lowIndex, highIndex, -, touching, above⟩ := around
  have joining := takeWhile_touching (fun r member => (touching r member).2) above
  unfold insertCoalesced addRangeOwned
  have rest : (lower ++ (mid ++ upper)).drop (lower.length + mid.length) = upper := by simp
  simp only [lowIndex, highIndex, List.drop_left, joining]
  rw [replace_append]
  exact congrArg₂ (· ++ _ :: ·) List.take_left rest

theorem insertReadConflictLocked_spec (separate : SeparateRanges s) (b e : Boundary) :
    SeparateRanges (insertReadConflictLocked s b e) ∧
      ∀ k, Covered (insertReadConflictLocked s b e) k ↔ Covered s k ∨ b.materialize ≤ k ∧ k < e.materialize := by
  rcases lt_or_ge b.materialize e.materialize with nonempty | empty
  · obtain ⟨lower, mid, upper, around⟩ := separate.split_around nonempty
    rw [around.insertReadConflictLocked_eq separate nonempty]
    exact around.spec separate nonempty
  · have kept : insertReadConflictLocked s b e = s :=
      if_pos ((Boundary.compare_bne_lt b e).trans (decide_eq_true empty))
    rw [kept]
    refine ⟨separate, fun k => (or_iff_left ?_).symm⟩
    exact fun inside => absurd (inside.1.trans_lt inside.2) empty.not_gt

theorem readMap_spec (calls : List (Boundary × Boundary)) (separate : SeparateRanges s) :
    SeparateRanges (calls.foldl (fun s call => insertReadConflictLocked s call.1 call.2) s) ∧
      ∀ k, Covered (calls.foldl (fun s call => insertReadConflictLocked s call.1 call.2) s) k ↔
        Covered s k ∨ ∃ call ∈ calls, call.1.materialize ≤ k ∧ k < call.2.materialize := by
  induction calls generalizing s with
  | nil => exact ⟨separate, fun k => by simp⟩
  | cons call calls ih =>
    obtain ⟨inserted, covered⟩ := separate.insertReadConflictLocked_spec call.1 call.2
    obtain ⟨whole, union⟩ := ih inserted
    refine ⟨whole, fun k => ?_⟩
    rw [List.foldl_cons, union, covered, or_assoc]
    simp

/-! ## Ranges with the same keys -/

private theorem tail {r : KeyRange} (separate : SeparateRanges (r :: s)) : SeparateRanges s :=
  ⟨(List.forall_mem_cons.mp separate.nonempty).2, separate.apart.tail⟩

variable {k : Key}

theorem end_lt_of_covered (separate : SeparateRanges (r :: s)) (covered : Covered s k) : r.endKey < k := by
  obtain ⟨other, member, begins, -⟩ := covered
  exact ((List.pairwise_cons.mp separate.apart).1 other member).trans_le begins

private theorem covered_begin (separate : SeparateRanges (r :: s)) : Covered (r :: s) r.beginKey :=
  ⟨r, List.mem_cons_self, le_rfl, separate.nonempty r List.mem_cons_self⟩

private theorem begin_le_of_covered (separate : SeparateRanges (r :: s)) (covered : Covered (r :: s) k) : r.beginKey ≤ k := by
  cases covered_cons.mp covered with
  | inl inside => exact inside.1
  | inr later => exact ((separate.nonempty r List.mem_cons_self).trans (separate.end_lt_of_covered later)).le

private theorem end_le_end {other : KeyRange} (separate : SeparateRanges (other :: t)) (begins : r.beginKey = other.beginKey)
    (within : ∀ k, Covered (r :: s) k → Covered (other :: t) k) : r.endKey ≤ other.endKey := by
  by_contra longer
  have reached := separate.nonempty other List.mem_cons_self
  have covered := within other.endKey ⟨r, List.mem_cons_self, begins.le.trans reached.le, not_le.mp longer⟩
  cases covered_cons.mp covered with
  | inl inside => exact absurd inside.2 (lt_irrefl _)
  | inr later => exact absurd (separate.end_lt_of_covered later) (lt_irrefl _)

private theorem eq_of_covered (separate : SeparateRanges s) (others : SeparateRanges t)
    (same : ∀ k, Covered s k ↔ Covered t k) : s = t := by
  induction s generalizing t with
  | nil =>
    cases t with
    | nil => rfl
    | cons other t => exact absurd ((same _).mpr others.covered_begin) (covered_nil _)
  | cons r s ih =>
    cases t with
    | nil => exact absurd ((same _).mp separate.covered_begin) (covered_nil _)
    | cons other t =>
      have begins : r.beginKey = other.beginKey :=
        le_antisymm (separate.begin_le_of_covered ((same _).mpr others.covered_begin))
          (others.begin_le_of_covered ((same _).mp separate.covered_begin))
      have ends : r.endKey = other.endKey :=
        le_antisymm (others.end_le_end begins fun k => (same k).mp)
          (separate.end_le_end begins.symm fun k => (same k).mpr)
      obtain rfl : r = other := by
        cases r
        cases other
        exact congr (congrArg KeyRange.mk begins) ends
      have tails (k : Key) : Covered s k ↔ Covered t k := by
        have := same k
        rw [covered_cons, covered_cons] at this
        constructor
        · intro covered
          refine (this.mp (.inr covered)).resolve_left fun inside => ?_
          exact absurd (separate.end_lt_of_covered covered) inside.2.not_gt
        · intro covered
          refine (this.mpr (.inr covered)).resolve_left fun inside => ?_
          exact absurd (others.end_lt_of_covered covered) inside.2.not_gt
      rw [ih separate.tail others.tail tails]

end SeparateRanges

/-! ## Coalescing -/

variable {rest : List KeyRange} {last : KeyRange}

private theorem mergeRanges_apart (sorted : (last :: rest).Pairwise fun first second => first.beginKey ≤ second.beginKey) :
    ((mergeRanges last rest).Pairwise fun first second => first.endKey < second.beginKey) ∧
      ∀ r ∈ mergeRanges last rest, last.beginKey ≤ r.beginKey := by
  induction rest generalizing last with
  | nil => simp [mergeRanges]
  | cons r rest ih =>
    unfold mergeRanges
    split
    case isTrue =>
      obtain ⟨apart, begins⟩ := ih (sorted_grown sorted)
      refine ⟨apart, fun other member => le_trans ?_ (begins other member)⟩
      split <;> exact le_rfl
    case isFalse separate =>
      obtain ⟨lastFirst, restSorted⟩ := List.pairwise_cons.mp sorted
      obtain ⟨apart, begins⟩ := ih restSorted
      refine ⟨List.pairwise_cons.mpr ⟨fun other member => ?_, apart⟩, List.forall_mem_cons.mpr ⟨le_rfl, ?_⟩⟩
      · exact (not_le.mp separate).trans_le (begins other member)
      · exact fun other member => (lastFirst r List.mem_cons_self).trans (begins other member)

private theorem mergeRanges_nonempty (nonempty : ∀ r ∈ last :: rest, r.beginKey < r.endKey) :
    ∀ r ∈ mergeRanges last rest, r.beginKey < r.endKey := by
  induction rest generalizing last with
  | nil => exact nonempty
  | cons r rest ih =>
    obtain ⟨here, others⟩ := List.forall_mem_cons.mp nonempty
    unfold mergeRanges
    split
    case isTrue =>
      refine ih (List.forall_mem_cons.mpr ⟨?_, (List.forall_mem_cons.mp others).2⟩)
      split
      case isTrue longer => exact here.trans longer
      case isFalse => exact here
    case isFalse => exact List.forall_mem_cons.mpr ⟨here, ih others⟩

theorem coalesce_normal (rs : List KeyRange) :
    ((coalesceOwnedWriteConflicts rs).Pairwise fun first second => first.endKey < second.beginKey) ∧
      ((∀ r ∈ rs, r.beginKey < r.endKey) → SeparateRanges (coalesceOwnedWriteConflicts rs)) := by
  unfold coalesceOwnedWriteConflicts
  split
  case isTrue short =>
    have apart : rs.Pairwise fun first second : KeyRange => first.endKey < second.beginKey := by
      match rs with
      | [] => exact List.Pairwise.nil
      | [r] => exact List.pairwise_singleton _ r
      | first :: second :: rest => simp at short
    exact ⟨apart, fun nonempty => ⟨nonempty, apart⟩⟩
  case isFalse =>
    have sorted := sorted_begins rs
    have members := fun r => (List.mergeSort_perm rs KeyRange.le).mem_iff (a := r)
    cases order : rs.mergeSort KeyRange.le with
    | nil => exact ⟨List.Pairwise.nil, fun _ => SeparateRanges.nil⟩
    | cons r rest =>
      rw [order] at sorted members
      have apart := (mergeRanges_apart sorted).1
      exact ⟨apart, fun nonempty =>
        ⟨mergeRanges_nonempty fun other member => nonempty other ((members other).mp member), apart⟩⟩

private theorem insertCoalesced_eq {rs : List KeyRange} (separate : SeparateRanges rs) (nonempty : r.beginKey < r.endKey) :
    insertCoalesced rs r = coalesceOwnedWriteConflicts (rs ++ [r]) := by
  obtain ⟨lower, mid, upper, around⟩ := separate.split_around nonempty
  obtain ⟨inserted, union⟩ := separate.addRangeOwned_spec nonempty
  rw [around.insertCoalesced_eq]
  refine inserted.eq_of_covered ((coalesce_normal _).2 ?_) fun k => ?_
  · exact List.forall_mem_append.mpr ⟨separate.nonempty, List.forall_mem_singleton.mpr nonempty⟩
  · rw [union, coalesce_covered, covered_append, covered_cons, or_iff_left (covered_nil k)]
    rfl

/-- The read map covers what its calls have inserted, and the coalesced write conflicts what
their ranges cover, each by ranges in order that do not touch; a range merged into coalesced
conflicts gives what coalescing all of them gives. -/
theorem conflict_ranges_are_unions :
    (∀ calls, SeparateRanges (readMap calls) ∧
      ∀ k, Covered (readMap calls) k ↔ ∃ call ∈ calls, call.1.materialize ≤ k ∧ k < call.2.materialize) ∧
    (∀ rs, (∀ k, Covered (coalesceOwnedWriteConflicts rs) k ↔ Covered rs k) ∧
      ((coalesceOwnedWriteConflicts rs).Pairwise fun first second => first.endKey < second.beginKey) ∧
      ((∀ r ∈ rs, r.beginKey < r.endKey) → SeparateRanges (coalesceOwnedWriteConflicts rs))) ∧
    ∀ rs r, SeparateRanges rs → r.beginKey < r.endKey →
      insertCoalesced rs r = coalesceOwnedWriteConflicts (rs ++ [r]) := by
  refine ⟨fun calls => ?_, fun rs => ⟨coalesce_covered rs, coalesce_normal rs⟩,
    fun rs r separate nonempty => insertCoalesced_eq separate nonempty⟩
  obtain ⟨separate, union⟩ := SeparateRanges.readMap_spec calls SeparateRanges.nil
  exact ⟨separate, fun k => (union k).trans (or_iff_right (covered_nil k))⟩

/-- A range that touches the one before it. -/
theorem conflict_ranges_are_unions_touching :
    insertCoalesced [⟨[1], [2]⟩] ⟨[2], [3]⟩ = [⟨[1], [3]⟩] ∧
      coalesceOwnedWriteConflicts [⟨[1], [2]⟩, ⟨[2], [3]⟩] = [⟨[1], [3]⟩] := by
  have inserted : insertCoalesced [⟨[1], [2]⟩] ⟨[2], [3]⟩ = [⟨[1], [3]⟩] := by decide
  refine ⟨inserted, (conflict_ranges_are_unions.2.2 [⟨[1], [2]⟩] ⟨[2], [3]⟩ ?_ (by decide)).symm.trans inserted⟩
  exact ⟨by decide, List.pairwise_singleton _ _⟩

end FdbGo.Client
