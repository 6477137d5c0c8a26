import FdbGo.Foundation.Fragments
import Mathlib.Order.MinMax
import Mathlib.Tactic.Push

/-! The gaps that items leave between two positions. -/

set_option autoImplicit false

namespace FdbGo.Foundation

structure Stretch (K : Type) where
  low : K
  high : K
  deriving DecidableEq, Repr

variable {Item K : Type} [LinearOrder K] {first last : Item → K} {items : List Item}
  {gaps : List (Stretch K)} {taken : K → Prop} {low high cur stop : K}

/-- An interval between two positions that holds nothing taken. -/
structure Free (taken : K → Prop) (low high : K) (gap : Stretch K) : Prop where
  above : low ≤ gap.low
  below : gap.high ≤ high
  free : ∀ position, gap.low ≤ position → position < gap.high → ¬ taken position

/-- A free interval that no other one contains. -/
structure MaximalGap (taken : K → Prop) (low high : K) (gap : Stretch K) : Prop where
  nonempty : gap.low < gap.high
  free : Free taken low high gap
  maximal : ∀ wider, Free taken low high wider → wider.low ≤ gap.low → gap.high ≤ wider.high → wider = gap

variable {gap other : Stretch K} {position : K}

theorem MaximalGap.eq_of_overlap (isGap : MaximalGap taken low high gap) (isOther : MaximalGap taken low high other)
    (from_ : gap.low ≤ position) (upTo : position < gap.high) (otherFrom : other.low ≤ position)
    (otherUpTo : position < other.high) : gap = other := by
  have union : Free taken low high ⟨min gap.low other.low, max gap.high other.high⟩ := by
    refine ⟨le_min isGap.free.above isOther.free.above, max_le isGap.free.below isOther.free.below, ?_⟩
    intro k low_k k_high
    cases le_or_gt position k with
    | inl after =>
      cases lt_max_iff.mp k_high with
      | inl inGap => exact isGap.free.free k (from_.trans after) inGap
      | inr inOther => exact isOther.free.free k (otherFrom.trans after) inOther
    | inr before =>
      cases min_le_iff.mp low_k with
      | inl inGap => exact isGap.free.free k inGap (before.trans upTo)
      | inr inOther => exact isOther.free.free k inOther (before.trans otherUpTo)
  exact (isGap.maximal _ union (min_le_left _ _) (le_max_left _ _)).symm.trans
    (isOther.maximal _ union (min_le_right _ _) (le_max_right _ _))

structure Separated (gaps : List (Stretch K)) : Prop where
  nonempty : ∀ gap ∈ gaps, gap.low < gap.high
  apart : gaps.Pairwise fun gap next => gap.high < next.low

theorem Separated.fragments (separated : Separated gaps) : Fragments Stretch.low Stretch.high gaps :=
  ⟨separated.nonempty, separated.apart.imp le_of_lt⟩

theorem Separated.eq_of_within (separated : Separated gaps) (member : gap ∈ gaps) (otherMember : other ∈ gaps)
    (from_ : gap.low ≤ position) (upTo : position < gap.high) (otherFrom : other.low ≤ position)
    (otherUpTo : position ≤ other.high) : gap = other := by
  rcases pairwise_cases separated.apart member otherMember with same | before | after
  · exact same
  · exact absurd (upTo.trans before) otherFrom.not_gt
  · exact absurd (after.trans_le from_) otherUpTo.not_gt

/-- Separated intervals that hold exactly the free positions are the maximal gaps. -/
theorem Separated.mem_iff_maximalGap (separated : Separated gaps)
    (exact_ : ∀ position, Within Stretch.low Stretch.high gaps position ↔
      low ≤ position ∧ position < high ∧ ¬ taken position) (gap : Stretch K) :
    gap ∈ gaps ↔ MaximalGap taken low high gap := by
  have maximal : ∀ gap ∈ gaps, MaximalGap taken low high gap := by
    intro gap member
    have nonempty := separated.nonempty gap member
    have inside : ∀ position, gap.low ≤ position → position < gap.high →
        low ≤ position ∧ position < high ∧ ¬ taken position :=
      fun position from_ upTo => (exact_ position).mp ⟨gap, member, from_, upTo⟩
    refine ⟨nonempty, ⟨(inside gap.low le_rfl nonempty).1, ?_, fun k from_ upTo => (inside k from_ upTo).2.2⟩, ?_⟩
    · by_contra above
      have within := inside (max gap.low high) (le_max_left _ _) (max_lt nonempty (not_le.mp above))
      exact absurd within.2.1 (le_max_right _ _).not_gt
    · intro wider free from_ upTo
      -- a position just outside the gap would lie in another one
      have held : ∀ position, wider.low ≤ position → position < wider.high →
          ∃ other ∈ gaps, other.low ≤ position ∧ position < other.high := by
        intro position after before
        exact (exact_ position).mpr ⟨free.above.trans after, before.trans_le free.below, free.free position after before⟩
      have sameHigh : wider.high = gap.high := by
        by_contra differs
        obtain ⟨other, isOther, otherFrom, otherUpTo⟩ :=
          held gap.high (from_.trans nonempty.le) (lt_of_le_of_ne upTo (Ne.symm differs))
        obtain rfl := separated.eq_of_within isOther member otherFrom otherUpTo nonempty.le le_rfl
        exact absurd otherUpTo (lt_irrefl _)
      have sameLow : wider.low = gap.low := by
        by_contra differs
        have before := lt_of_le_of_ne from_ differs
        obtain ⟨other, isOther, otherFrom, otherUpTo⟩ := held wider.low le_rfl (before.trans (nonempty.trans_le upTo))
        cases lt_or_ge other.high gap.low with
        | inl ends =>
          obtain ⟨next, isNext, nextFrom, nextUpTo⟩ :=
            held other.high otherUpTo.le (ends.trans (nonempty.trans_le upTo))
          obtain rfl := separated.eq_of_within isNext isOther nextFrom nextUpTo
            (separated.nonempty other isOther).le le_rfl
          exact absurd nextUpTo (lt_irrefl _)
        | inr reaches =>
          obtain rfl := separated.eq_of_within member isOther le_rfl nonempty (otherFrom.trans before.le) reaches
          exact absurd otherFrom before.not_ge
      cases wider
      cases gap
      congr
  refine ⟨maximal gap, fun isGap => ?_⟩
  obtain ⟨other, member, from_, upTo⟩ := (exact_ gap.low).mpr
    ⟨isGap.free.above, isGap.nonempty.trans_le isGap.free.below, isGap.free.free _ le_rfl isGap.nonempty⟩
  rw [isGap.eq_of_overlap (maximal other member) le_rfl isGap.nonempty from_ upTo]
  exact member

/-- The gaps from a position, past which no item begins earlier, up to another. -/
def gapsFrom (first last : Item → K) (stop : K) : K → List Item → List (Stretch K)
  | cur, [] => if cur < stop then [⟨cur, stop⟩] else []
  | cur, item :: rest =>
    if cur < first item then ⟨cur, first item⟩ :: gapsFrom first last stop (last item) rest
    else gapsFrom first last stop (last item) rest

theorem gapsFrom_low (fragments : Fragments first last items) (start : ∀ item ∈ items, cur ≤ first item)
    (member : gap ∈ gapsFrom first last stop cur items) : cur ≤ gap.low := by
  induction items generalizing cur with
  | nil =>
    rw [gapsFrom] at member
    split at member
    · exact (List.mem_singleton.mp member) ▸ le_rfl
    · exact absurd member List.not_mem_nil
  | cons item rest ih =>
    obtain ⟨nonempty, across, rest⟩ := Fragments.cons_iff.mp fragments
    have begins := start item List.mem_cons_self
    have later : gap ∈ gapsFrom first last stop (last item) _ → cur ≤ gap.low :=
      fun member => (begins.trans nonempty.le).trans (ih rest across member)
    rw [gapsFrom] at member
    split at member
    · cases List.mem_cons.mp member with
      | inl here => exact here ▸ le_rfl
      | inr there => exact later there
    · exact later member

theorem gapsFrom_separated (fragments : Fragments first last items) (start : ∀ item ∈ items, cur ≤ first item) :
    Separated (gapsFrom first last stop cur items) := by
  induction items generalizing cur with
  | nil =>
    rw [gapsFrom]
    split
    case isTrue less => exact ⟨by simpa using less, List.pairwise_singleton _ _⟩
    case isFalse => exact ⟨by simp, List.Pairwise.nil⟩
  | cons item rest ih =>
    obtain ⟨nonempty, across, rest⟩ := Fragments.cons_iff.mp fragments
    have later := ih rest across
    rw [gapsFrom]
    split
    case isTrue less =>
      refine ⟨List.forall_mem_cons.mpr ⟨less, later.nonempty⟩, List.pairwise_cons.mpr ⟨?_, later.apart⟩⟩
      intro gap member
      exact nonempty.trans_le (gapsFrom_low rest across member)
    case isFalse => exact later

theorem within_gapsFrom (fragments : Fragments first last items) (start : ∀ item ∈ items, cur ≤ first item)
    (ends : ∀ item ∈ items, first item < stop) (position : K) :
    Within Stretch.low Stretch.high (gapsFrom first last stop cur items) position ↔
      cur ≤ position ∧ position < stop ∧ ¬ Within first last items position := by
  induction items generalizing cur with
  | nil =>
    rw [gapsFrom]
    split
    case isTrue less => simp [Within]
    case isFalse notLess =>
      have none : ¬ (cur ≤ position ∧ position < stop) :=
        fun both => notLess (both.1.trans_lt both.2)
      simp only [Within, List.not_mem_nil, false_and, exists_false, not_false_eq_true, and_true]
      exact ⟨False.elim, none⟩
  | cons item rest ih =>
    obtain ⟨nonempty, across, restFragments⟩ := Fragments.cons_iff.mp fragments
    have begins := start item List.mem_cons_self
    have ended := ends item List.mem_cons_self
    have later := ih restFragments across (List.forall_mem_cons.mp ends).2
    -- what the rest holds lies past the item
    have beyond : Within first last rest position → last item ≤ position := by
      intro found
      obtain ⟨other, member, from_, _⟩ := found
      exact (across other member).trans from_
    have here : Within Stretch.low Stretch.high
          (if cur < first item then [⟨cur, first item⟩] else []) position ↔
        cur ≤ position ∧ position < first item := by
      split
      case isTrue => simp [Within]
      case isFalse notLess =>
        simp only [Within, List.not_mem_nil, false_and, exists_false, false_iff, not_and, not_lt]
        exact fun after => (not_lt.mp notLess).trans after
    have split_ : gapsFrom first last stop cur (item :: rest) =
        (if cur < first item then [⟨cur, first item⟩] else []) ++ gapsFrom first last stop (last item) rest := by
      rw [gapsFrom]
      split <;> rfl
    rw [split_, within_append, here, later, within_cons]
    constructor
    · intro found
      cases found with
      | inl before =>
        refine ⟨before.1, before.2.trans ended, fun taken => ?_⟩
        cases taken with
        | inl inItem => exact absurd before.2 inItem.1.not_gt
        | inr inRest => exact absurd (before.2.trans nonempty) (beyond inRest).not_gt
      | inr after =>
        refine ⟨(begins.trans nonempty.le).trans after.1, after.2.1, fun taken => ?_⟩
        cases taken with
        | inl inItem => exact absurd inItem.2 after.1.not_gt
        | inr inRest => exact after.2.2 inRest
    · intro found
      obtain ⟨after, before, free⟩ := found
      cases lt_or_ge position (first item) with
      | inl early => exact .inl ⟨after, early⟩
      | inr late =>
        refine .inr ⟨not_lt.mp fun inside => free (.inl ⟨late, inside⟩), before, fun inRest => free (.inr inRest)⟩

end FdbGo.Foundation
