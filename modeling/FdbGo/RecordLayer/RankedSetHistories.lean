import FdbGo.RecordLayer.RankedSetQueries
import Mathlib.Data.Multiset.Sort

/-! Histories of a ranked set, against the multiset of its elements. -/

set_option autoImplicit false

namespace FdbGo.RecordLayer.RankedSet

open Client Foundation

/-- A call that changes the set. The hash function draws a value for every key it is asked
for, or fails. -/
inductive Call where
  | init
  | add (key : Bytes) (hash : Option Int32)
  | remove (key : Bytes)
  | commit
  deriving DecidableEq, Repr

inductive Answer where
  | done
  | changed (yes : Bool)
  | failed (cause : Failure Error)
  deriving DecidableEq, Repr

def answerOf : Except (Failure Error) Bool → Answer
  | .ok yes => .changed yes
  | .error cause => .failed cause

def doneOf : Except (Failure Error) Unit → Answer
  | .ok _ => .done
  | .error cause => .failed cause

def Call.run (ss : Bytes) (config : Config) (t : Transaction) : Call → Answer × Transaction
  | .init => ((RankedSet.init ss config).run t).map doneOf id
  | .add key hash => ((RankedSet.add ss config key hash).run t).map answerOf id
  | .remove key => ((RankedSet.remove ss config key).run t).map answerOf id
  | .commit => (.done, { base := t.view })

def runCalls (ss : Bytes) (config : Config) (t : Transaction) (calls : List Call) : Transaction :=
  calls.foldl (fun t call => (call.run ss config t).2) t

/-- What a call makes of a multiset, which without `CountDuplicates` holds no key twice. -/
def Call.apply (config : Config) (m : Multiset Bytes) : Call → Answer × Multiset Bytes
  | .init | .commit => (.done, m)
  | .add key hash =>
    if key = [] then (.failed (.error .emptyKey), m)
    else if hash = none then (.failed (.error .hashFailed), m)
    else if key ∈ m ∧ config.countDuplicates = false then (.changed false, m)
    else (.changed true, key ::ₘ m)
  | .remove key =>
    if key = [] then (.failed (.error .emptyKey), m)
    else if key ∈ m then (.changed true, m.erase key)
    else (.changed false, m)

def elementsAfter (config : Config) (calls : List Call) : Multiset Bytes :=
  calls.foldl (fun m call => (call.apply config m).2) 0

/-! ## The set in step with its elements -/

structure Tracks (ss : Bytes) (config : Config) (t : Transaction) (m : Multiset Bytes) (levels : Levels) : Prop where
  stored : Stored ss config.nLevels t.view levels
  shape : Shape config.nLevels levels
  elements : (elementsOf (levels 0) : Multiset Bytes) = m
  single : config.countDuplicates = false → ∀ item ∈ levels 0, item.2 ≤ 1

section Histories

variable {ss : Bytes} {config : Config} {t : Transaction} {m : Multiset Bytes} {levels : Levels} {key : Bytes}

private theorem elementsOf_less {items : List (Bytes × Nat)} (present : 0 < countOf items key) :
    (elementsOf (oneLess items key) : Multiset Bytes) = (elementsOf items : Multiset Bytes).erase key := by
  rw [elements_cons fun p => (shrunk_oneLess present p).symm, Multiset.erase_cons_head]

section

variable (positive : 0 < config.nLevels) (few : config.nLevels ≤ 8) (tracks : Tracks ss config t m levels)
    (small : m.card < 2 ^ 63)

include tracks

/-- The bottom level counts how often a key is a member. -/
theorem Tracks.count_eq (key : Bytes) : countOf (levels 0) key = m.count key := by
  rw [← tracks.elements, count_elements]

theorem Tracks.mem_iff (key : Bytes) : key ∈ m ↔ 0 < countOf (levels 0) key := by
  rw [tracks.count_eq, Multiset.count_pos]

theorem Tracks.card_eq : m.card = (elementsOf (levels 0)).length := by
  rw [← tracks.elements, Multiset.coe_card]

include positive in
theorem Tracks.ordered : Ordered Prod.fst (levels 0) :=
  (tracks.stored 0 positive).ordered

include positive in
theorem Tracks.nonempty (member : key ∈ m) : key ≠ [] := by
  intro empty
  have counted := (tracks.mem_iff key).mp member
  rw [empty, (tracks.ordered positive).countOf_eq tracks.shape.bottom] at counted
  exact Nat.lt_irrefl 0 counted

include small in
theorem Tracks.count_lt (key : Bytes) : countOf (levels 0) key < 2 ^ 63 := by
  rw [tracks.count_eq]
  exact (Multiset.count_le_card key m).trans_lt small

/-! ## One call -/

variable {t' : Transaction} {new : Levels}

theorem Tracks.of_view (same : t'.view = t.view) : Tracks ss config t' m levels :=
  ⟨tracks.stored.view same, tracks.shape, tracks.elements, tracks.single⟩

theorem Tracks.added (stored : Stored ss config.nLevels t'.view new) (shape : Shape config.nLevels new)
    (bottom : new 0 = put Prod.fst (key, countOf (levels 0) key + 1) (levels 0))
    (counts : 0 < countOf (levels 0) key → config.countDuplicates = true) : Tracks ss config t' (key ::ₘ m) new := by
  refine ⟨stored, shape, ?_, fun once item member => ?_⟩
  · rw [bottom, elements_cons (grown_put (levels 0) key), tracks.elements]
  · rw [bottom] at member
    cases mem_put.mp member with
    | inl isNew =>
      have absent : countOf (levels 0) key = 0 := by
        by_contra present
        rw [counts (Nat.pos_of_ne_zero present)] at once
        cases once
      rw [isNew, absent]
    | inr old => exact tracks.single once item old.1

theorem Tracks.removed (stored : Stored ss config.nLevels t'.view new) (shape : Shape config.nLevels new)
    (bottom : new 0 = oneLess (levels 0) key) (ordered : Ordered Prod.fst (levels 0)) (nonempty : key ≠ [])
    (present : 0 < countOf (levels 0) key) : Tracks ss config t' (m.erase key) new := by
  have bounded : config.countDuplicates = false → countOf (levels 0) key ≤ 1 := by
    intro once
    obtain ⟨old, isOld, rfl⟩ := mem_keysOf.mp ((tracks.shape.present_iff ordered nonempty).mpr present)
    rw [ordered.countOf_eq isOld]
    exact tracks.single once old isOld
  refine ⟨stored, shape, ?_, fun once item member => ?_⟩
  · rw [bottom, elementsOf_less present, tracks.elements]
  · rw [bottom, oneLess] at member
    split at member
    case isTrue more =>
      exact absurd more (not_lt.mpr (bounded once))
    case isFalse => exact tracks.single once item (mem_dropKey.mp member).1

include few in
theorem Tracks.init : (Call.init.run ss config t).1 = .done ∧
    Tracks ss config (Call.init.run ss config t).2 m levels := by
  obtain ⟨t', ran, stored⟩ := init_again few tracks.stored tracks.shape
  rw [Call.run, ran]
  exact ⟨rfl, stored, tracks.shape, tracks.elements, tracks.single⟩

include positive few small in
theorem Tracks.add (key : Bytes) (hash : Option Int32) :
    ((Call.add key hash).run ss config t).1 = ((Call.add key hash).apply config m).1 ∧
      ∃ new, Tracks ss config ((Call.add key hash).run ss config t).2 ((Call.add key hash).apply config m).2 new := by
  rw [Call.run, Call.apply]
  by_cases empty : key = []
  · rw [if_pos empty, empty]
    exact ⟨rfl, levels, tracks⟩
  · rw [if_neg empty]
    cases hash with
    | none =>
      rw [if_pos rfl, RankedSet.add.eq_def, if_neg (mt List.eq_nil_of_length_eq_zero empty)]
      exact ⟨rfl, levels, tracks⟩
    | some hash =>
      have fits := tracks.count_lt small key
      rw [if_neg (Option.some_ne_none hash)]
      by_cases refused : key ∈ m ∧ config.countDuplicates = false
      · obtain ⟨t', ran, view⟩ := add_present positive tracks.stored tracks.shape empty fits
          ((tracks.mem_iff key).mp refused.1) refused.2 hash
        rw [if_pos refused, ran]
        exact ⟨rfl, levels, tracks.of_view view⟩
      · have counts : 0 < countOf (levels 0) key → config.countDuplicates = true := fun present =>
          Bool.eq_true_of_not_eq_false fun once => refused ⟨(tracks.mem_iff key).mpr present, once⟩
        obtain ⟨t', new, ran, stored, shape, bottom⟩ := add_run positive tracks.stored tracks.shape empty few fits
          counts hash
        rw [if_neg refused, ran]
        exact ⟨rfl, new, tracks.added stored shape bottom counts⟩

include positive few small in
theorem Tracks.remove (key : Bytes) :
    ((Call.remove key).run ss config t).1 = ((Call.remove key).apply config m).1 ∧
      ∃ new, Tracks ss config ((Call.remove key).run ss config t).2 ((Call.remove key).apply config m).2 new := by
  rw [Call.run, Call.apply]
  by_cases empty : key = []
  · rw [if_pos empty, empty]
    exact ⟨rfl, levels, tracks⟩
  · have fits := tracks.count_lt small key
    rw [if_neg empty]
    by_cases present : key ∈ m
    · have counted := (tracks.mem_iff key).mp present
      obtain ⟨t', new, ran, stored, shape, bottom⟩ := remove_run positive tracks.stored tracks.shape empty few fits
        counted
      rw [if_pos present, ran]
      exact ⟨rfl, new, tracks.removed stored shape bottom (tracks.ordered positive) empty counted⟩
    · have absent := Nat.eq_zero_of_not_pos fun counted => present ((tracks.mem_iff key).mpr counted)
      obtain ⟨t', ran, view⟩ := remove_absent positive tracks.stored tracks.shape empty absent
      rw [if_neg present, ran]
      exact ⟨rfl, levels, tracks.of_view view⟩

include positive few small in
theorem Tracks.call (call : Call) : (call.run ss config t).1 = (call.apply config m).1 ∧
    ∃ new, Tracks ss config (call.run ss config t).2 (call.apply config m).2 new := by
  cases call with
  | init => exact ⟨(tracks.init few).1, levels, (tracks.init few).2⟩
  | add key hash => exact tracks.add positive few small key hash
  | remove key => exact tracks.remove positive few small key
  | commit => exact ⟨rfl, levels, tracks.of_view rfl⟩

/-! ## What the set answers -/

/-- A key of a level counts the elements from it up to the next key of the level. -/
def Spans (coarse fine : List (Bytes × Nat)) : Prop :=
  ∀ item ∈ coarse, ∀ next, Next coarse item.1 next → item.2 = weigh (between item.1 next) fine

structure Denotes (ss : Bytes) (config : Config) (t : Transaction) (m : Multiset Bytes) : Prop where
  levels : ∃ levels : Levels, (∀ level, level < config.nLevels → (layout ss level).Holds t.view (levels level)) ∧
    (∀ level, level + 1 < config.nLevels → ∀ k ∈ keysOf (levels (level + 1)), k ∈ keysOf (levels level)) ∧
    (∀ level, 1 ≤ level → level < config.nLevels → Spans (levels level) (levels 0)) ∧
    (elementsOf (levels 0) : Multiset Bytes) = m
  calls : ∀ call : Call, (call.run ss config t).1 = (call.apply config m).1
  count : ∀ key, key ≠ [] → ∃ count t', (RankedSet.count ss key).run t = (.ok count, t') ∧ count.toInt = m.count key
  size : ∃ size t', (RankedSet.size ss config).run t = (.ok size, t') ∧ size.toInt = m.card
  rank : ∀ key ∈ m, ∀ nullIfMissing, ∃ rank t', (RankedSet.rank ss config key nullIfMissing).run t = (.ok (some rank), t') ∧
    rank.toInt = (m.filter (· < key)).card
  getNth : ∀ rank : Int64, ∃ t', (RankedSet.getNth ss config rank).run t =
    (.ok (if rank < 0 then none else (m.sort (· ≤ ·))[rank.toInt.toNat]?), t')

include positive in
theorem Tracks.sort_eq : m.sort (· ≤ ·) = elementsOf (levels 0) := by
  rw [← tracks.elements, Multiset.coe_sort]
  exact List.mergeSort_of_pairwise ((tracks.ordered positive).sorted_elementsOf.imp fun le => decide_eq_true le)

theorem Tracks.rank_eq (key : Bytes) : (m.filter (· < key)).card = weigh (under key) (levels 0) := by
  rw [← tracks.elements, Multiset.filter_coe, Multiset.coe_card, ← List.countP_eq_length_filter, countP_elementsOf]
  refine weigh_congr fun item _ => ?_
  exact decide_eq_decide.mpr WithTop.coe_lt_coe.symm

include positive small in
theorem Tracks.rank (nonempty : key ≠ []) {h : Bytes × Nat} (floor : Floor Prod.fst (levels 0) key h)
    {nullIfMissing : Bool} (known : key ∈ m ∨ nullIfMissing = false) :
    ∃ rank t', (RankedSet.rank ss config key nullIfMissing).run t = (.ok (some rank), t') ∧
      rank.toInt + (if h.1 = key then 0 else h.2 - 1 : Nat) = (m.filter (· < key)).card := by
  obtain ⟨t', rank, ran, total⟩ := rank_run positive tracks.stored tracks.shape nonempty (tracks.count_lt small) floor
    (known.imp_left (tracks.mem_iff key).mp)
  rw [← tracks.rank_eq] at total
  have bounded := (Multiset.card_le_card (Multiset.filter_le (· < key) m)).trans_lt small
  refine ⟨_, t', ran, ?_⟩
  rw [toInt_ofNat (by omega)]
  omega

include positive in
theorem Tracks.listed_iff (nonempty : key ≠ []) : key ∈ keysOf (levels 0) ↔ key ∈ m :=
  (tracks.shape.present_iff (tracks.ordered positive) nonempty).trans (tracks.mem_iff key).symm

include positive few small in
theorem Tracks.denotes : Denotes ss config t m := by
  have total : (elementsOf (levels 0)).length < 2 ^ 63 := by rwa [← tracks.card_eq]
  constructor
  case levels =>
    refine ⟨levels, tracks.stored, tracks.shape.nested, fun level _ inside item member next isNext => ?_, tracks.elements⟩
    exact (tracks.shape.sums level inside).span (tracks.stored level inside).ordered member isNext
  case calls => exact fun call => (tracks.call positive few small call).1
  case count =>
    intro key nonempty
    obtain ⟨t', ran⟩ := count_run positive tracks.stored nonempty
    rw [← tracks.count_eq]
    exact ⟨_, t', ran, toInt_ofNat (tracks.count_lt small key)⟩
  case size =>
    obtain ⟨t', ran⟩ := size_run positive tracks.stored tracks.shape
    rw [← tracks.card_eq] at ran
    exact ⟨_, t', ran, toInt_ofNat small⟩
  case rank =>
    intro key member nullIfMissing
    have nonempty := tracks.nonempty positive member
    obtain ⟨h, floor⟩ := exists_floor_key (tracks.shape.sentinel 0 positive) key
    obtain ⟨rank, t', ran, total⟩ := tracks.rank positive small nonempty floor (.inl member)
    rw [if_pos (floor_of_listed floor ((tracks.listed_iff positive nonempty).mpr member))] at total
    exact ⟨rank, t', ran, by simpa using total⟩
  case getNth =>
    intro rank
    obtain ⟨t', ran⟩ := getNth_run positive tracks.stored tracks.shape total tracks.single rank
    rw [← tracks.sort_eq positive] at ran
    exact ⟨t', ran⟩

end

/-! ## Every history -/

def Unused (ss : Bytes) (config : Config) (t : Transaction) : Prop :=
  ∀ level, level < config.nLevels → t.view.within (subspaceBegin (levelHead ss level)) (subspaceEnd (levelHead ss level)) = []

theorem Unused.init (few : config.nLevels ≤ 8) (unused : Unused ss config t) :
    Tracks ss config (Call.init.run ss config t).2 0 fun _ => [([], 0)] := by
  have stored : Stored ss config.nLevels t.view fun _ => [] := fun level inside => ⟨List.Pairwise.nil, unused level inside⟩
  obtain ⟨t', ran, storedNew⟩ := init_empty few stored
  rw [Call.run, ran]
  refine ⟨storedNew, shape_empty _, rfl, fun _ item member => ?_⟩
  rw [List.mem_singleton.mp member]
  exact Nat.zero_le 1

theorem elementsAfter_append (config : Config) (calls : List Call) (call : Call) :
    elementsAfter config (calls ++ [call]) = (call.apply config (elementsAfter config calls)).2 := by
  simp only [elementsAfter, List.foldl_append, List.foldl_cons, List.foldl_nil]

private theorem runCalls_append (t : Transaction) (calls : List Call) (call : Call) :
    runCalls ss config t (calls ++ [call]) = (call.run ss config (runCalls ss config t calls)).2 := by
  simp only [runCalls, List.foldl_append, List.foldl_cons, List.foldl_nil]

private theorem card_apply_le (config : Config) (m : Multiset Bytes) (call : Call) :
    (call.apply config m).2.card ≤ m.card + 1 := by
  cases call with
  | init | commit => exact Nat.le_succ _
  | add key hash =>
    rw [Call.apply]
    split_ifs
    case neg => exact (Multiset.card_cons key m).le
    all_goals exact Nat.le_succ _
  | remove key =>
    rw [Call.apply]
    split_ifs
    · exact Nat.le_succ _
    · exact (Multiset.card_le_card (Multiset.erase_le key m)).trans (Nat.le_succ _)
    · exact Nat.le_succ _

theorem card_elementsAfter_le (config : Config) (calls : List Call) :
    (elementsAfter config calls).card ≤ calls.length := by
  induction calls using List.reverseRecOn with
  | nil => exact Nat.le_refl 0
  | append_singleton calls call ih =>
    rw [elementsAfter_append, List.length_append, List.length_singleton]
    exact (card_apply_le config _ call).trans (Nat.add_le_add_right ih 1)

theorem runCalls_tracks (positive : 0 < config.nLevels) (few : config.nLevels ≤ 8) (unused : Unused ss config t)
    (calls : List Call) (small : ∀ before, before.length < calls.length → before <+: calls →
      (elementsAfter config before).card < 2 ^ 63) :
    ∃ levels, Tracks ss config (runCalls ss config t (.init :: calls)) (elementsAfter config calls) levels := by
  induction calls using List.reverseRecOn with
  | nil => exact ⟨_, unused.init few⟩
  | append_singleton calls call ih =>
    have shorter : calls.length < (calls ++ [call]).length := by
      rw [List.length_append]
      exact Nat.lt_succ_self _
    have begins : calls <+: calls ++ [call] := List.prefix_append _ _
    obtain ⟨levels, tracks⟩ := ih fun before less isBefore => small before (less.trans shorter) (isBefore.trans begins)
    obtain ⟨_, new, next⟩ := tracks.call positive few (small calls shorter begins) call
    rw [← List.cons_append, runCalls_append, elementsAfter_append]
    exact ⟨new, next⟩

/-- After `Init` and any calls, for every hash, a ranked set holds the elements of a
multiset, as long as it never has `2 ^ 63` of them. -/
theorem ranked_set_denotes_elements (ss : Bytes) (config : Config) (atLeast : 2 ≤ config.nLevels)
    (atMost : config.nLevels ≤ 8) (t : Transaction) (unused : Unused ss config t) (calls : List Call)
    (small : ∀ before, before <+: calls → (elementsAfter config before).card < 2 ^ 63) :
    Denotes ss config (runCalls ss config t (.init :: calls)) (elementsAfter config calls) := by
  have positive : 0 < config.nLevels := by omega
  obtain ⟨levels, tracks⟩ := runCalls_tracks positive atMost unused calls fun before _ begins => small before begins
  exact tracks.denotes positive atMost (small calls (List.prefix_refl calls))

/-- Two keys that head the upper level and one that does not, two of them gone again. -/
def shortHistory : List Call :=
  [.add [5] (some 16), .add [3] (some 1), .add [5] (some 7), .commit, .add [4] (some 0), .remove [5], .init, .remove [3]]

theorem ranked_set_denotes_elements_short :
    elementsAfter ⟨2, true⟩ shortHistory = {[4], [5]} ∧
      Denotes [7] ⟨2, true⟩ (runCalls [7] ⟨2, true⟩ { base := ⟨[], List.Pairwise.nil⟩ } (.init :: shortHistory))
        (elementsAfter ⟨2, true⟩ shortHistory) :=
  ⟨by decide, ranked_set_denotes_elements [7] ⟨2, true⟩ (by decide) (by decide) _ (fun _ _ => rfl) shortHistory
    fun before begins => (card_elementsAfter_le _ before).trans_lt (begins.length_le.trans_lt (by decide))⟩

private theorem elementsAfter_replicate (n : Nat) :
    elementsAfter ⟨2, true⟩ (List.replicate n (.add [1] (some 1))) = Multiset.replicate n [1] := by
  induction n with
  | zero => rfl
  | succ n ih =>
    rw [List.replicate_succ', elementsAfter_append, ih, Multiset.replicate_succ, Call.apply]
    simp

/-- A key added `2 ^ 63` times counts less than zero times. -/
theorem ranked_set_count_overflows :
    ∃ calls : List Call, ¬ ∃ count t', (RankedSet.count [7] [1]).run
        (runCalls [7] ⟨2, true⟩ { base := ⟨[], List.Pairwise.nil⟩ } (.init :: calls)) = (.ok count, t') ∧
      count.toInt = (elementsAfter ⟨2, true⟩ calls).count [1] := by
  obtain ⟨n, many⟩ : ∃ n : Nat, n = 2 ^ 63 := ⟨_, rfl⟩
  have unused : Unused [7] ⟨2, true⟩ { base := ⟨[], List.Pairwise.nil⟩ } := fun _ _ => rfl
  obtain ⟨levels, tracks⟩ := runCalls_tracks (by decide) (by decide) unused (List.replicate n (.add [1] (some 1)))
    fun before shorter _ => by
      rw [List.length_replicate] at shorter
      exact (card_elementsAfter_le _ before).trans_lt (shorter.trans_eq many)
  rw [elementsAfter_replicate] at tracks
  refine ⟨List.replicate n (.add [1] (some 1)), fun agrees => ?_⟩
  obtain ⟨t', ran⟩ := count_run (by decide) tracks.stored (show [1] ≠ [] by decide)
  rw [tracks.count_eq, Multiset.count_replicate_self] at ran
  obtain ⟨count, t'', answer, same⟩ := agrees
  rw [ran] at answer
  cases answer
  rw [elementsAfter_replicate, Multiset.count_replicate_self, many] at same
  exact absurd same (by decide)

/-- The rank of an absent key is the number of elements below it exactly if the closest of
them is in the set once. -/
theorem rank_of_absent_key (ss : Bytes) (config : Config) (positive : 0 < config.nLevels) (t : Transaction)
    (m : Multiset Bytes) (levels : Levels) (tracks : Tracks ss config t m levels) (small : m.card < 2 ^ 63)
    (key : Bytes) (nonempty : key ≠ []) (absent : key ∉ m) :
    (∃ rank t', (RankedSet.rank ss config key false).run t = (.ok (some rank), t') ∧
        rank.toInt = (m.filter (· < key)).card) ↔
      ∀ below ∈ m, below < key → (∀ other ∈ m, other < key → other ≤ below) → m.count below ≤ 1 := by
  obtain ⟨h, floor⟩ := exists_floor_key (tracks.shape.sentinel 0 positive) key
  obtain ⟨rank, t', ran, total⟩ := tracks.rank positive small nonempty floor (.inr rfl)
  have other : h.1 ≠ key := fun same =>
    absent ((tracks.listed_iff positive nonempty).mp (mem_keysOf.mpr ⟨h, floor.member, same⟩))
  have counted : h.2 = m.count h.1 := by rw [← tracks.count_eq, (tracks.ordered positive).countOf_eq floor.member]
  have greatest : ∀ k ∈ m, k < key → k ≤ h.1 := by
    intro k isElement less
    obtain ⟨item, member, rfl⟩ := mem_keysOf.mp
      ((tracks.listed_iff positive (tracks.nonempty positive isElement)).mpr isElement)
    exact floor.greatest item member less.le
  rw [if_neg other] at total
  have once : (∃ rank t', (RankedSet.rank ss config key false).run t = (.ok (some rank), t') ∧
      rank.toInt = (m.filter (· < key)).card) ↔ h.2 ≤ 1 := by
    constructor
    · rintro ⟨rank', t'', ran', exact_⟩
      cases ran.symm.trans ran'
      omega
    · exact fun single => ⟨rank, t', ran, by omega⟩
  rw [once, counted]
  constructor
  · intro single below isElement less closest
    rcases (greatest below isElement less).eq_or_lt with rfl | under
    · exact single
    · have named : h.1 ≠ [] := fun empty => (nil_le below).not_gt (empty ▸ under)
      have isElement' := (tracks.listed_iff positive named).mp (mem_keysOf.mpr ⟨h, floor.member, rfl⟩)
      exact absurd (closest h.1 isElement' (floor.below.lt_of_ne other)) under.not_ge
  · intro single
    by_cases isElement : h.1 ∈ m
    · exact single h.1 isElement (floor.below.lt_of_ne other) greatest
    · rw [Multiset.count_eq_zero_of_notMem isElement]
      exact Nat.zero_le 1

theorem rank_of_absent_key_between :
    ∃ rank t', (RankedSet.rank [7] ⟨2, true⟩ [4] false).run
        (runCalls [7] ⟨2, true⟩ { base := ⟨[], List.Pairwise.nil⟩ } [.init, .add [3] (some 1), .add [5] (some 1)]) =
        (.ok (some rank), t') ∧ rank.toInt = (Multiset.filter (· < [4]) {[5], [3]}).card := by
  have unused : Unused [7] ⟨2, true⟩ { base := ⟨[], List.Pairwise.nil⟩ } := fun _ _ => rfl
  obtain ⟨levels, tracks⟩ := runCalls_tracks (by decide) (by decide) unused [.add [3] (some 1), .add [5] (some 1)]
    fun before less _ => (card_elementsAfter_le _ before).trans_lt (less.trans (by decide))
  exact (rank_of_absent_key [7] ⟨2, true⟩ (by decide) _ {[5], [3]} levels tracks (by decide) [4] (by decide)
    (by decide)).mpr (by decide)

/-- Two equal elements below the key: `Rank` counts one of them. -/
theorem rank_of_absent_key_doubled :
    elementsAfter ⟨2, true⟩ [.add [1] (some 1), .add [1] (some 1)] = {[1], [1]} ∧
      ((RankedSet.rank [7] ⟨2, true⟩ [2] false).run (runCalls [7] ⟨2, true⟩ { base := ⟨[], List.Pairwise.nil⟩ }
        [.init, .add [1] (some 1), .add [1] (some 1)])).1.toOption = some (some 1) :=
  ⟨by decide, by decide +kernel⟩

end Histories

end FdbGo.RecordLayer.RankedSet
