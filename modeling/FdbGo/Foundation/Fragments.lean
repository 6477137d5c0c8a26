import FdbGo.Foundation.Ordered

/-! Items that span half-open intervals of a linear order: none is empty, they stand in
order and do not overlap, though they may touch. -/

set_option autoImplicit false

namespace FdbGo.Foundation

variable {Item K : Type} [LinearOrder K] {first last : Item → K} {items lower upper : List Item}

structure Fragments (first last : Item → K) (items : List Item) : Prop where
  nonempty : ∀ item ∈ items, first item < last item
  apart : items.Pairwise fun item next => last item ≤ first next

def Within (first last : Item → K) (items : List Item) (position : K) : Prop :=
  ∃ item ∈ items, first item ≤ position ∧ position < last item

variable {item : Item} {position : K}

theorem within_append :
    Within first last (lower ++ upper) position ↔
      Within first last lower position ∨ Within first last upper position := by
  simp only [Within, List.mem_append, or_and_right, exists_or]

theorem within_cons :
    Within first last (item :: items) position ↔
      (first item ≤ position ∧ position < last item) ∨ Within first last items position := by
  simp only [Within, List.mem_cons, or_and_right, exists_or, exists_eq_left]

namespace Fragments

theorem nil : Fragments first last ([] : List Item) := ⟨by simp, List.Pairwise.nil⟩

theorem append_iff :
    Fragments first last (lower ++ upper) ↔ Fragments first last lower ∧ Fragments first last upper ∧
      ∀ item ∈ lower, ∀ next ∈ upper, last item ≤ first next := by
  constructor
  · intro fragments
    obtain ⟨lowerApart, upperApart, across⟩ := List.pairwise_append.mp fragments.apart
    exact ⟨⟨fun item member => fragments.nonempty item (List.mem_append_left upper member), lowerApart⟩,
      ⟨fun item member => fragments.nonempty item (List.mem_append_right lower member), upperApart⟩, across⟩
  · intro parts
    obtain ⟨lowerFragments, upperFragments, across⟩ := parts
    exact ⟨List.forall_mem_append.mpr ⟨lowerFragments.nonempty, upperFragments.nonempty⟩,
      List.pairwise_append.mpr ⟨lowerFragments.apart, upperFragments.apart, across⟩⟩

theorem cons_iff :
    Fragments first last (item :: items) ↔
      first item < last item ∧ (∀ next ∈ items, last item ≤ first next) ∧ Fragments first last items := by
  constructor
  · intro fragments
    obtain ⟨across, apart⟩ := List.pairwise_cons.mp fragments.apart
    exact ⟨fragments.nonempty item List.mem_cons_self, across,
      ⟨(List.forall_mem_cons.mp fragments.nonempty).2, apart⟩⟩
  · intro parts
    obtain ⟨nonempty, across, rest⟩ := parts
    exact ⟨List.forall_mem_cons.mpr ⟨nonempty, rest.nonempty⟩, List.pairwise_cons.mpr ⟨across, rest.apart⟩⟩

section

variable (fragments : Fragments first last items)

include fragments

theorem ordered : Ordered first items :=
  fragments.apart.imp_of_mem fun member _ le => (fragments.nonempty _ member).trans_le le

theorem ordered_last : Ordered last items :=
  fragments.apart.imp_of_mem fun _ member le => le.trans_lt (fragments.nonempty _ member)

end

theorem replace (lowerFragments : Fragments first last lower) (upperFragments : Fragments first last upper)
    (nonempty : first item < last item) (below : ∀ other ∈ lower, last other ≤ first item)
    (above : ∀ other ∈ upper, last item ≤ first other) : Fragments first last (lower ++ item :: upper) := by
  refine append_iff.mpr ⟨lowerFragments, cons_iff.mpr ⟨nonempty, above, upperFragments⟩, ?_⟩
  intro other member
  have before := below other member
  exact List.forall_mem_cons.mpr ⟨before, fun next inUpper => before.trans (nonempty.le.trans (above next inUpper))⟩

variable (fragments : Fragments first last items)

include fragments

theorem last_le_first {other : Item} (member : item ∈ items)
    (otherMember : other ∈ items) (less : first item < first other) : last item ≤ first other := by
  rcases pairwise_cases fragments.apart member otherMember with same | before | after
  · exact absurd less (same ▸ lt_irrefl _)
  · exact before
  · exact absurd less ((fragments.nonempty other otherMember).trans_le after).not_gt

theorem apart_of_free {low high : K} (nonempty : low < high)
    (free : ∀ position, low ≤ position → position < high → ¬ Within first last items position) (member : item ∈ items) :
    last item ≤ low ∨ high ≤ first item := by
  have itemNonempty := fragments.nonempty item member
  rcases lt_or_ge low (last item) with reaches | before
  · refine .inr (not_lt.mp fun overlaps => ?_)
    rcases le_total low (first item) with later | earlier
    · exact free (first item) later overlaps ⟨item, member, le_rfl, itemNonempty⟩
    · exact free low le_rfl nonempty ⟨item, member, earlier, reaches⟩
  · exact .inl before

/-- An item put beside the ones it does not overlap, in the place of the one that begins
where it does. -/
theorem put (nonempty : first item < last item)
    (clear : ∀ other ∈ items, first other ≠ first item → last other ≤ first item ∨ last item ≤ first other) :
    Fragments first last (Foundation.put first item items) := by
  refine ⟨fun other member => ?_, ?_⟩
  · cases mem_put.mp member with
    | inl new => exact new ▸ nonempty
    | inr old => exact fragments.nonempty other old.1
  · refine List.pairwise_append.mpr ⟨fragments.apart.filter _,
      List.pairwise_cons.mpr ⟨?_, fragments.apart.filter _⟩, ?_⟩
    · intro other member
      obtain ⟨isItem, above⟩ := List.mem_filter.mp member
      have above : first item < first other := of_decide_eq_true above
      cases clear other isItem above.ne' with
      | inl before => exact absurd above ((fragments.nonempty other isItem).trans_le before).not_gt
      | inr after => exact after
    · intro other member next nextMember
      obtain ⟨isItem, below⟩ := List.mem_filter.mp member
      have below : first other < first item := of_decide_eq_true below
      have before : last other ≤ first item := by
        cases clear other isItem below.ne with
        | inl before => exact before
        | inr after => exact absurd below (nonempty.trans_le after).not_gt
      cases List.mem_cons.mp nextMember with
      | inl isNew => exact isNew ▸ before
      | inr isUpper =>
        have above := of_decide_eq_true (List.mem_filter.mp isUpper).2
        exact before.trans above.le

end Fragments

theorem within_put :
    Within first last (put first item items) position ↔
      (first item ≤ position ∧ position < last item) ∨
        ∃ other ∈ items, first other ≠ first item ∧ first other ≤ position ∧ position < last other := by
  simp only [Within, mem_put]
  constructor
  · intro found
    obtain ⟨other, rfl | ⟨old, differs⟩, bounds⟩ := found
    · exact .inl bounds
    · exact .inr ⟨other, old, differs, bounds⟩
  · intro found
    cases found with
    | inl new => exact ⟨item, .inl rfl, new⟩
    | inr old =>
      obtain ⟨other, member, differs, bounds⟩ := old
      exact ⟨other, .inr ⟨member, differs⟩, bounds⟩

theorem Fragments.foldl_put {news : List Item} (fragments : Fragments first last items)
    (newFragments : Fragments first last news)
    (clear : ∀ new ∈ news, ∀ old ∈ items, last old ≤ first new ∨ last new ≤ first old) :
    Fragments first last (news.foldl (fun items new => Foundation.put first new items) items) ∧
      ∀ position, Within first last (news.foldl (fun items new => Foundation.put first new items) items) position ↔
        Within first last news position ∨ Within first last items position := by
  induction news generalizing items with
  | nil => exact ⟨fragments, fun position => by simp [Within]⟩
  | cons new rest ih =>
    obtain ⟨nonempty, across, restFragments⟩ := Fragments.cons_iff.mp newFragments
    have newClear := clear new List.mem_cons_self
    have begins : ∀ old ∈ items, first old ≠ first new := by
      intro old member same
      have oldNonempty := fragments.nonempty old member
      cases newClear old member with
      | inl before => exact absurd (oldNonempty.trans_le before) (same ▸ lt_irrefl _)
      | inr after => exact absurd (nonempty.trans_le after) (same ▸ lt_irrefl _)
    have put := fragments.put nonempty fun old member _ => newClear old member
    have restClear : ∀ next ∈ rest, ∀ old ∈ Foundation.put first new items,
        last old ≤ first next ∨ last next ≤ first old := by
      intro next member old isOld
      cases mem_put.mp isOld with
      | inl isNew => exact .inl (isNew ▸ across next member)
      | inr isItem => exact clear next (List.mem_cons_of_mem new member) old isItem.1
    obtain ⟨whole, within⟩ := ih put restFragments restClear
    refine ⟨whole, fun position => ?_⟩
    have held : (∃ old ∈ items, first old ≠ first new ∧ first old ≤ position ∧ position < last old) ↔
        Within first last items position :=
      exists_congr fun old => and_congr_right fun member => and_iff_right (begins old member)
    rw [List.foldl_cons, within position, within_put, within_cons, held]
    tauto

end FdbGo.Foundation
