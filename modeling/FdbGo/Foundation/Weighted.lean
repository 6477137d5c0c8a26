import FdbGo.Foundation.Ordered
import Mathlib.Algebra.Order.BigOperators.Group.List
import Mathlib.Algebra.Order.Group.Nat
import Mathlib.Algebra.Ring.Nat
import Mathlib.Data.Multiset.Count
import Mathlib.Order.WithBot

/-! Keys with counts, in order of the keys, and coarser lists of some of the keys. The
count of a coarse key stands for all keys from it up to the next coarse one: below every
coarse key, and in total, the coarse list weighs as much as the fine one. -/

set_option autoImplicit false

namespace FdbGo.Foundation

variable {K : Type} {items coarse fine fine' : List (K × Nat)} {h : K × Nat} {k : K} {p q r : K → Bool}

/-! ## Weights -/

/-- The counts of the keys that meet a condition, together. -/
def weigh (p : K → Bool) (items : List (K × Nat)) : Nat := (items.map fun item => if p item.1 then item.2 else 0).sum

@[simp] theorem weigh_nil (p : K → Bool) : weigh p [] = 0 := rfl

@[simp] theorem weigh_cons (p : K → Bool) (item : K × Nat) (items : List (K × Nat)) :
    weigh p (item :: items) = (if p item.1 then item.2 else 0) + weigh p items := rfl

@[simp] theorem weigh_append (p : K → Bool) (items others : List (K × Nat)) :
    weigh p (items ++ others) = weigh p items + weigh p others := by
  simp only [weigh, List.map_append, List.sum_append]

theorem weigh_filter (p q : K → Bool) (items : List (K × Nat)) :
    weigh p (items.filter fun item => q item.1) = weigh (fun k => p k && q k) items := by
  induction items with
  | nil => rfl
  | cons item items ih =>
    cases kept : q item.1 with
    | true =>
      rw [List.filter_cons_of_pos (by simpa using kept), weigh_cons, weigh_cons, ih, kept, Bool.and_true]
    | false =>
      rw [List.filter_cons_of_neg (by simpa using kept), weigh_cons, ih, kept, Bool.and_false]
      simp

/-- Only the keys of the list matter to a weight. -/
theorem weigh_congr (same : ∀ item ∈ items, p item.1 = q item.1) : weigh p items = weigh q items := by
  refine congrArg List.sum (List.map_congr_left fun item member => ?_)
  rw [same item member]

theorem weigh_eq_zero (never : ∀ item ∈ items, p item.1 = false) : weigh p items = 0 := by
  refine List.sum_eq_zero fun count member => ?_
  obtain ⟨item, isItem, rfl⟩ := List.mem_map.mp member
  rw [never item isItem]
  rfl

theorem weigh_mono (stronger : ∀ item ∈ items, p item.1 = true → q item.1 = true) : weigh p items ≤ weigh q items := by
  refine List.sum_le_sum fun item member => ?_
  cases inP : p item.1 with
  | false => exact Nat.zero_le _
  | true => rw [stronger item member inP]

theorem weigh_add (parts : ∀ item ∈ items, (p item.1).toNat = (q item.1).toNat + (r item.1).toNat) :
    weigh p items = weigh q items + weigh r items := by
  rw [weigh, weigh, weigh, ← List.sum_map_add]
  refine congrArg List.sum (List.map_congr_left fun item member => ?_)
  have here := parts item member
  revert here
  cases p item.1 <;> cases q item.1 <;> cases r item.1 <;> simp

def elementsOf (items : List (K × Nat)) : List K := items.flatMap fun item => List.replicate item.2 item.1

theorem countP_elementsOf (p : K → Bool) (items : List (K × Nat)) : (elementsOf items).countP p = weigh p items := by
  induction items with
  | nil => rfl
  | cons item items ih =>
    rw [elementsOf] at ih
    rw [elementsOf, List.flatMap_cons, List.countP_append, ih, List.countP_replicate, weigh_cons]

theorem mem_elementsOf : k ∈ elementsOf items → ∃ item ∈ items, item.1 = k := by
  intro member
  obtain ⟨item, isItem, inside⟩ := List.mem_flatMap.mp member
  exact ⟨item, isItem, (List.eq_of_mem_replicate inside).symm⟩

theorem length_elementsOf (items : List (K × Nat)) : (elementsOf items).length = weigh (fun _ => true) items := by
  rw [← countP_elementsOf, List.countP_eq_length.mpr fun _ _ => rfl]

variable [LinearOrder K]

def countOf (items : List (K × Nat)) (k : K) : Nat := weigh (fun other => decide (other = k)) items

def dropKey (k : K) (items : List (K × Nat)) : List (K × Nat) := items.filter fun item => decide (item.1 ≠ k)

theorem countOf_of_absent (absent : ∀ item ∈ items, item.1 ≠ k) : countOf items k = 0 :=
  weigh_eq_zero fun item member => decide_eq_false (absent item member)

/-- In an ordered list a key counts what its item says. -/
theorem Ordered.countOf_eq (ordered : Ordered Prod.fst items) (member : h ∈ items) : countOf items h.1 = h.2 := by
  obtain ⟨lower, upper, rfl⟩ := List.append_of_mem member
  obtain ⟨below, above⟩ := ordered.around
  have low : countOf lower h.1 = 0 := countOf_of_absent fun other inLower => (below other inLower).ne
  have high : countOf upper h.1 = 0 := countOf_of_absent fun other inUpper => (above other inUpper).ne'
  rw [countOf] at low high
  simp [countOf, low, high]

theorem weigh_and_eq (p : K → Bool) (items : List (K × Nat)) (k : K) :
    weigh (fun other => p other && decide (other = k)) items = if p k then countOf items k else 0 := by
  have same : ∀ item ∈ items, (p item.1 && decide (item.1 = k)) = (p k && decide (item.1 = k)) := by
    intro item _
    by_cases equal : item.1 = k <;> simp [equal]
  rw [weigh_congr (q := fun other => p k && decide (other = k)) same]
  cases p k with
  | true => simp [countOf]
  | false => simp [weigh_eq_zero]

theorem mem_dropKey {item : K × Nat} : item ∈ dropKey k items ↔ item ∈ items ∧ item.1 ≠ k := by
  rw [dropKey, List.mem_filter, decide_eq_true_eq]

theorem dropKey_eq_self (absent : ∀ item ∈ items, item.1 ≠ k) : dropKey k items = items :=
  List.filter_eq_self.mpr fun item member => decide_eq_true (absent item member)

theorem Ordered.dropKey (ordered : Ordered Prod.fst items) (k : K) : Ordered Prod.fst (dropKey k items) :=
  ordered.filter _

theorem weigh_dropKey (p : K → Bool) (items : List (K × Nat)) (k : K) :
    weigh p (dropKey k items) + (if p k then countOf items k else 0) = weigh p items := by
  have kept := weigh_filter p (fun other => decide (other ≠ k)) items
  rw [dropKey, kept, ← weigh_and_eq]
  refine (weigh_add fun item _ => ?_).symm
  by_cases same : item.1 = k <;> cases p item.1 <;> simp [same]

theorem weigh_put (p : K → Bool) (items : List (K × Nat)) (k : K) (count : Nat) :
    weigh p (put Prod.fst (k, count) items) + (if p k then countOf items k else 0) =
      weigh p items + if p k then count else 0 := by
  have lower := weigh_filter p (fun other => decide (other < k)) items
  have upper := weigh_filter p (fun other => decide (k < other)) items
  have others : weigh (fun other => p other && decide (other < k)) items +
      weigh (fun other => p other && decide (k < other)) items =
      weigh p (dropKey k items) := by
    rw [dropKey, weigh_filter p (fun other => decide (other ≠ k)) items]
    refine (weigh_add fun item _ => ?_).symm
    rcases lt_trichotomy item.1 k with less | same | more
    · cases p item.1 <;> simp [less, less.ne, less.not_gt]
    · cases p item.1 <;> simp [same]
    · cases p item.1 <;> simp [more, more.ne', more.not_gt]
  have erased := weigh_dropKey p items k
  rw [put, weigh_append, weigh_cons, lower, upper]
  dsimp only
  omega

/-! ## Coarser lists -/

/-- The keys below a place; `⊤` is past all keys. -/
def under (c : WithTop K) (k : K) : Bool := decide ((k : WithTop K) < c)

def between (b e : WithTop K) (k : K) : Bool := decide (b ≤ (k : WithTop K) ∧ (k : WithTop K) < e)

/-- The places where a list of keys can be cut: before one of them, or at the end. -/
def Cut (items : List (K × Nat)) (c : WithTop K) : Prop := c = ⊤ ∨ ∃ item ∈ items, c = (item.1 : WithTop K)

/-- The coarse list sums up the fine one. -/
def SumsUp (coarse fine : List (K × Nat)) : Prop := ∀ c, Cut coarse c → weigh (under c) coarse = weigh (under c) fine

theorem SumsUp.refl (items : List (K × Nat)) : SumsUp items items := fun _ _ => rfl

theorem weigh_between {b e : WithTop K} (le : b ≤ e) (items : List (K × Nat)) :
    weigh (under e) items = weigh (under b) items + weigh (between b e) items := by
  refine weigh_add fun item _ => ?_
  by_cases low : (item.1 : WithTop K) < b
  · simp [under, between, low, low.trans_le le, low.not_ge]
  · have from_ := not_lt.mp low
    by_cases high : (item.1 : WithTop K) < e <;> simp [under, between, low, from_, high]

section

variable (sums : SumsUp coarse fine)

include sums

theorem SumsUp.between {b e : WithTop K} (cut : Cut coarse b) (otherCut : Cut coarse e)
    (le : b ≤ e) : weigh (Foundation.between b e) coarse = weigh (Foundation.between b e) fine := by
  have low := sums b cut
  have high := sums e otherCut
  rw [weigh_between le, weigh_between le] at high
  omega

/-- The place of the next key after a key. -/
structure Next (items : List (K × Nat)) (k : K) (c : WithTop K) : Prop where
  cut : Cut items c
  above : (k : WithTop K) < c
  least : ∀ item ∈ items, k < item.1 → c ≤ (item.1 : WithTop K)

omit sums in
theorem exists_next (items : List (K × Nat)) (k : K) : ∃ c, Next items k c := by
  have finite : {c | Cut items c ∧ (k : WithTop K) < c}.Finite := by
    refine ((items.map fun item => (item.1 : WithTop K)).finite_toSet.insert ⊤).subset ?_
    rintro c ⟨rfl | ⟨item, member, rfl⟩, -⟩
    · exact .inl rfl
    · exact .inr (List.mem_map.mpr ⟨item, member, rfl⟩)
  obtain ⟨c, ⟨cut, above⟩, least⟩ := Set.exists_min_image _ id finite ⟨⊤, .inl rfl, WithTop.coe_lt_top k⟩
  refine ⟨c, cut, above, fun item member past => ?_⟩
  exact least item.1 ⟨.inr ⟨item, member, rfl⟩, WithTop.coe_lt_coe.mpr past⟩

variable {c : WithTop K}

theorem SumsUp.span (ordered : Ordered Prod.fst coarse) (member : h ∈ coarse)
    (next : Next coarse h.1 c) : h.2 = weigh (Foundation.between h.1 c) fine := by
  rw [← sums.between (.inr ⟨h, member, rfl⟩) next.cut next.above.le, ← ordered.countOf_eq member, countOf]
  refine weigh_congr fun item isItem => ?_
  rw [Foundation.between, decide_eq_decide]
  constructor
  · intro same
    rw [same]
    exact ⟨le_rfl, next.above⟩
  · intro inside
    refine (WithTop.coe_le_coe.mp inside.1).antisymm' (not_lt.mp fun more => ?_)
    exact absurd (next.least item isItem more) inside.2.not_ge

theorem SumsUp.total : weigh (fun _ => true) coarse = weigh (fun _ => true) fine := by
  have all := sums ⊤ (.inl rfl)
  have every : (under ⊤ : K → Bool) = fun _ => true := by
    funext k
    simp [under]
  rw [every] at all
  exact all

omit sums in
theorem Floor.under_eq (floor : Floor Prod.fst items k h) (cut : Cut items c) : under c h.1 = under c k := by
  rw [under, under, decide_eq_decide]
  constructor
  · intro less
    cases cut with
    | inl top =>
      rw [top]
      exact WithTop.coe_lt_top k
    | inr found =>
      obtain ⟨item, member, rfl⟩ := found
      refine WithTop.coe_lt_coe.mpr (not_le.mp fun upTo => ?_)
      exact absurd (floor.greatest item member upTo) (not_le.mpr (WithTop.coe_lt_coe.mp less))
  · intro less
    exact (WithTop.coe_le_coe.mpr floor.below).trans_lt less

omit sums in
theorem Floor.lt_next (floor : Floor Prod.fst items k h) (next : Next items h.1 c) : (k : WithTop K) < c := by
  have same := floor.under_eq next.cut
  rw [under, under, decide_eq_decide] at same
  exact same.mp next.above

omit sums in
theorem Floor.weigh_between (floor : Floor Prod.fst coarse k h) (ordered : Ordered Prod.fst coarse) (apart : h.1 ≠ k) :
    weigh (between h.1 k) coarse = h.2 := by
  rw [← ordered.countOf_eq floor.member, countOf]
  refine weigh_congr fun item isItem => ?_
  rw [between, decide_eq_decide]
  constructor
  · intro inside
    exact (floor.greatest item isItem (WithTop.coe_lt_coe.mp inside.2).le).antisymm (WithTop.coe_le_coe.mp inside.1)
  · intro same
    rw [same]
    exact ⟨le_rfl, WithTop.coe_lt_coe.mpr (floor.below.lt_of_ne apart)⟩

omit sums in
theorem Cut.of_put {count : Nat} (member : h ∈ items) (cut : Cut (put Prod.fst (h.1, count) items) c) :
    Cut items c := by
  cases cut with
  | inl top => exact .inl top
  | inr found =>
    obtain ⟨item, inPut, same⟩ := found
    cases mem_put.mp inPut with
    | inl new => exact .inr ⟨h, member, by rw [same, new]⟩
    | inr old => exact .inr ⟨item, old.1, same⟩

variable (ordered : Ordered Prod.fst coarse)

include ordered

theorem SumsUp.bump (floor : Floor Prod.fst coarse k h)
    {more : Nat} (grown : ∀ p, weigh p fine' = weigh p fine + if p k then more else 0) :
    SumsUp (put Prod.fst (h.1, h.2 + more) coarse) fine' := by
  intro c cut
  have old := cut.of_put floor.member
  have put := weigh_put (under c) coarse h.1 (h.2 + more)
  have same := sums c old
  rw [ordered.countOf_eq floor.member] at put
  rw [grown, ← floor.under_eq old]
  split_ifs at put ⊢ <;> omega

theorem SumsUp.drop (floor : Floor Prod.fst coarse k h)
    {less : Nat} (shrunk : ∀ p, weigh p fine' + (if p k then less else 0) = weigh p fine) :
    less ≤ h.2 ∧ SumsUp (put Prod.fst (h.1, h.2 - less) coarse) fine' := by
  have enough : less ≤ h.2 := by
    obtain ⟨c, next⟩ := exists_next coarse h.1
    have inside : Foundation.between h.1 c k = true :=
      decide_eq_true ⟨WithTop.coe_le_coe.mpr floor.below, floor.lt_next next⟩
    have part := shrunk (Foundation.between h.1 c)
    rw [if_pos inside] at part
    rw [sums.span ordered floor.member next]
    omega
  refine ⟨enough, fun c cut => ?_⟩
  have old := cut.of_put floor.member
  have put := weigh_put (under c) coarse h.1 (h.2 - less)
  have same := sums c old
  have here := shrunk (under c)
  rw [ordered.countOf_eq floor.member] at put
  rw [← floor.under_eq old] at here
  split_ifs at put here ⊢ <;> omega

theorem SumsUp.split (floor : Floor Prod.fst coarse k h) (absent : ∀ item ∈ coarse, item.1 ≠ k) :
    weigh (Foundation.between h.1 k) fine ≤ h.2 ∧
      SumsUp (put Prod.fst (k, h.2 - weigh (Foundation.between h.1 k) fine)
        (put Prod.fst (h.1, weigh (Foundation.between h.1 k) fine) coarse)) fine := by
  have le : (h.1 : WithTop K) ≤ (k : WithTop K) := WithTop.coe_le_coe.mpr floor.below
  have apart : h.1 ≠ k := absent h floor.member
  have enough : weigh (Foundation.between h.1 k) fine ≤ h.2 := by
    obtain ⟨c, next⟩ := exists_next coarse h.1
    have above := floor.lt_next next
    have upTo := weigh_between le fine
    have beyond := weigh_between next.above.le fine
    have rest := weigh_between above.le fine
    rw [sums.span ordered floor.member next]
    omega
  have still : countOf (put Prod.fst (h.1, weigh (Foundation.between h.1 k) fine) coarse) k = 0 := by
    refine countOf_of_absent fun item member => ?_
    cases mem_put.mp member with
    | inl new => rw [new]; exact apart
    | inr old => exact absent item old.1
  refine ⟨enough, fun c cut => ?_⟩
  have lower := weigh_put (under c) coarse h.1 (weigh (Foundation.between h.1 k) fine)
  have upper := weigh_put (under c) (put Prod.fst (h.1, weigh (Foundation.between h.1 k) fine) coarse) k
    (h.2 - weigh (Foundation.between h.1 k) fine)
  rw [ordered.countOf_eq floor.member] at lower
  rw [still] at upper
  by_cases here : c = k
  · -- below the new key, the coarse list ends with what is left to the one before it
    subst here
    have notBelow : under (k : WithTop K) k = false := by simp [under]
    have isBelow : under (k : WithTop K) h.1 = true := decide_eq_true (WithTop.coe_lt_coe.mpr (floor.below.lt_of_ne apart))
    have upTo := weigh_between le fine
    have first := sums h.1 (.inr ⟨h, floor.member, rfl⟩)
    have coarseUpTo := weigh_between le coarse
    have only := floor.weigh_between ordered apart
    rw [notBelow] at upper
    rw [isBelow] at lower
    simp only [if_true, Bool.false_eq_true, if_false] at upper lower
    omega
  · have old : Cut coarse c := by
      cases cut with
      | inl top => exact .inl top
      | inr found =>
        obtain ⟨item, member, same⟩ := found
        cases mem_put.mp member with
        | inl new => exact absurd (by rw [same, new]) here
        | inr inner => exact Cut.of_put floor.member (.inr ⟨item, inner.1, same⟩)
    have same := sums c old
    rw [← floor.under_eq old] at upper
    split_ifs at lower upper ⊢ <;> omega

theorem SumsUp.merge {gone : K × Nat}
    (member : gone ∈ coarse) (floor : Floor Prod.fst (dropKey gone.1 coarse) gone.1 h) :
    SumsUp (put Prod.fst (h.1, h.2 + gone.2) (dropKey gone.1 coarse)) fine := by
  intro c cut
  have kept := cut.of_put floor.member
  have old : Cut coarse c := by
    cases kept with
    | inl top => exact .inl top
    | inr found =>
      obtain ⟨item, isKept, same⟩ := found
      exact .inr ⟨item, (mem_dropKey.mp isKept).1, same⟩
  have put := weigh_put (under c) (dropKey gone.1 coarse) h.1 (h.2 + gone.2)
  have erased := weigh_dropKey (under c) coarse gone.1
  have same := sums c old
  rw [(ordered.dropKey gone.1).countOf_eq floor.member] at put
  rw [ordered.countOf_eq member, ← floor.under_eq kept] at erased
  split_ifs at put erased ⊢ <;> omega

end

/-! ## The elements that the counts stand for, in order -/

theorem count_elements [DecidableEq K] (items : List (K × Nat)) (k : K) :
    (elementsOf items : Multiset K).count k = countOf items k := by
  rw [Multiset.coe_count, List.count_eq_countP, countOf, ← countP_elementsOf]
  refine List.countP_congr fun other _ => ?_
  simp

theorem elements_cons {more : List (K × Nat)} (grown : ∀ p, weigh p more = weigh p items + if p k then 1 else 0) :
    (elementsOf more : Multiset K) = k ::ₘ (elementsOf items : Multiset K) := by
  ext other
  rw [count_elements, Multiset.count_cons, count_elements, countOf, grown, countOf]
  simp [eq_comm]

theorem Ordered.sorted_elementsOf (ordered : Ordered Prod.fst items) : (elementsOf items).Pairwise (· ≤ ·) := by
  induction items with
  | nil => exact List.Pairwise.nil
  | cons item items ih =>
    obtain ⟨above, rest⟩ := List.pairwise_cons.mp ordered
    refine List.pairwise_append.mpr ⟨List.pairwise_replicate.mpr (.inr le_rfl), ih rest, fun k member other isOther => ?_⟩
    obtain ⟨later, isLater, rfl⟩ := mem_elementsOf isOther
    rw [List.eq_of_mem_replicate member]
    exact (above later isLater).le

theorem Ordered.elementsOf_get (ordered : Ordered Prod.fst items) (member : h ∈ items) {r : Nat} (inside : r < h.2) :
    (elementsOf items)[weigh (under h.1) items + r]? = some h.1 := by
  induction items with
  | nil => exact absurd member List.not_mem_nil
  | cons item items ih =>
    obtain ⟨above, rest⟩ := List.pairwise_cons.mp ordered
    rw [elementsOf, List.flatMap_cons, weigh_cons]
    cases List.mem_cons.mp member with
    | inl same =>
      subst same
      have nothing : weigh (under h.1) items = 0 := weigh_eq_zero fun other isOther =>
        decide_eq_false (not_lt.mpr (WithTop.coe_le_coe.mpr (above other isOther).le))
      have self : under (h.1 : WithTop K) h.1 = false := by simp [under]
      rw [self, nothing, List.getElem?_append_left (by simpa using inside)]
      simp [inside]
    | inr inItems =>
      have less : under (h.1 : WithTop K) item.1 = true := decide_eq_true (WithTop.coe_lt_coe.mpr (above h inItems))
      rw [less, if_pos rfl, List.getElem?_append_right (by simp; omega), List.length_replicate, Nat.add_assoc,
        Nat.add_sub_cancel_left]
      exact ih rest inItems

end FdbGo.Foundation
