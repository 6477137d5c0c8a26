import FdbGo.Foundation.Related
import Mathlib.Order.Lattice
import Mathlib.Order.Defs.LinearOrder

/-! Sequences in strict order of their keys, in either direction, and what merging several
of them gives: their union and their intersection by key. -/

set_option autoImplicit false

namespace FdbGo.Foundation

variable {T K : Type}

/-! ## Rows of one key in several sequences -/

variable {row : List T} {shorter : List (List T)}

section Rows

variable {key : T → K} {k : K} {lists : List (List T)}

/-- A sequence with a first row less, which no other sequence can match. -/
def Skips (key : T → K) (lists : List (List T)) (list shorter : List T) : Prop :=
  list = shorter ∨ ∃ row, list = row :: shorter ∧ ∃ other ∈ lists, ∀ x ∈ other, key x ≠ key row

variable {all : List (List T)}

theorem forall₂_of_skips (skips : List.Forall₂ (Skips key all) lists shorter)
    (inside : List.Forall₂ (· ∈ ·) row shorter) : List.Forall₂ (· ∈ ·) row lists := by
  refine related_trans inside (List.Forall₂.flip (R := flip (Skips key all)) skips) fun x _ rest list here skip => ?_
  cases skip with
  | inl same => exact same ▸ here
  | inr dropped =>
    obtain ⟨first, rfl, _⟩ := dropped
    exact List.mem_cons_of_mem _ here

theorem skips_of_forall₂ (skips : List.Forall₂ (Skips key all) lists shorter)
    (inside : List.Forall₂ (· ∈ ·) row lists) (matched : ∀ x ∈ row, ∀ other ∈ all, ∃ y ∈ other, key y = key x) :
    List.Forall₂ (· ∈ ·) row shorter := by
  refine related_trans inside skips fun x isX list rest here skip => ?_
  cases skip with
  | inl same => exact same ▸ here
  | inr dropped =>
    obtain ⟨first, rfl, other, isOther, lacks⟩ := dropped
    refine (List.mem_cons.mp here).resolve_left fun isFirst => ?_
    obtain ⟨y, isY, same⟩ := matched x isX other isOther
    exact lacks y isY (isFirst ▸ same)

/-- The sequences begin with rows of one key. -/
inductive Heads (key : T → K) (k : K) : List T → List (List T) → List (List T) → Prop
  | nil : Heads key k [] [] []
  | cons {x : T} {rest : List T} {xs : List T} {lists rests : List (List T)} (isKey : key x = k)
      (heads : Heads key k xs lists rests) : Heads key k (x :: xs) ((x :: rest) :: lists) (rest :: rests)

variable {xs : List T} {rests : List (List T)}

section

variable (heads : Heads key k xs lists rests)

include heads

theorem Heads.isKey : ∀ x ∈ xs, key x = k := by
  induction heads with
  | nil => exact List.forall_mem_nil _
  | cons isKey _ ih => exact List.forall_mem_cons.mpr ⟨isKey, ih⟩

theorem Heads.inside : List.Forall₂ (· ∈ ·) xs lists := by
  induction heads with
  | nil => exact .nil
  | cons _ _ ih => exact .cons List.mem_cons_self ih

theorem Heads.tails : List.Forall₂ (fun list rest => ∃ x, key x = k ∧ list = x :: rest) lists rests := by
  induction heads with
  | nil => exact .nil
  | cons isKey _ ih => exact .cons ⟨_, isKey, rfl⟩ ih

theorem Heads.weaken (inside : List.Forall₂ (· ∈ ·) row rests) : List.Forall₂ (· ∈ ·) row lists := by
  refine related_trans inside (List.Forall₂.flip heads.tails) fun y _ rest list here tail => ?_
  obtain ⟨x, _, rfl⟩ := tail
  exact List.mem_cons_of_mem _ here

theorem Heads.strengthen (inside : List.Forall₂ (· ∈ ·) row lists)
    (keys : ∀ x ∈ row, key x ≠ k) : List.Forall₂ (· ∈ ·) row rests := by
  refine related_trans inside heads.tails fun y isY list rest here tail => ?_
  obtain ⟨x, isKey, rfl⟩ := tail
  exact (List.mem_cons.mp here).resolve_left fun isHead => keys y isY (isHead ▸ isKey)

end

theorem exists_rows {row : T} (matched : ∀ list ∈ lists, ∃ x ∈ list, key x = key row) :
    ∃ rows, List.Forall₂ (· ∈ ·) rows lists ∧ ∀ x ∈ rows, key x = key row := by
  induction lists with
  | nil => exact ⟨[], .nil, List.forall_mem_nil _⟩
  | cons list lists ih =>
    obtain ⟨x, member, same⟩ := matched list List.mem_cons_self
    obtain ⟨rows, inside, keys⟩ := ih (List.forall_mem_cons.mp matched).2
    exact ⟨x :: rows, .cons member inside, List.forall_mem_cons.mpr ⟨same, keys⟩⟩

end Rows

/-! ## Directions -/

variable [LinearOrder K]

def Precedes (reverse : Bool) (a b : K) : Prop := if reverse then b < a else a < b

instance (reverse : Bool) (a b : K) : Decidable (Precedes reverse a b) :=
  inferInstanceAs (Decidable (if reverse then b < a else a < b))

section Direction

variable {reverse : Bool} {a b c : K}

theorem Precedes.trans (ab : Precedes reverse a b) (bc : Precedes reverse b c) : Precedes reverse a c := by
  cases reverse with
  | false => exact lt_trans (show a < b from ab) (show b < c from bc)
  | true => exact lt_trans (show c < b from bc) (show b < a from ab)

theorem Precedes.ne (ab : Precedes reverse a b) : a ≠ b := by
  cases reverse with
  | false => exact ne_of_lt (show a < b from ab)
  | true => exact ne_of_gt (show b < a from ab)

theorem Precedes.asymm (ab : Precedes reverse a b) : ¬ Precedes reverse b a :=
  fun ba => (ab.trans ba).ne rfl

/-- In either direction two keys are comparable. -/
theorem precedes_or_eq (reverse : Bool) (a b : K) : Precedes reverse a b ∨ a = b ∨ Precedes reverse b a := by
  cases reverse with
  | false => exact lt_trichotomy a b
  | true =>
    rcases lt_trichotomy b a with less | same | more
    · exact .inl less
    · exact .inr (.inl same.symm)
    · exact .inr (.inr more)

end Direction

variable (key : T → K) (reverse : Bool)

def InOrder (rows : List T) : Prop := rows.Pairwise fun x y => Precedes reverse (key x) (key y)

def dropHead (k : K) : List T → List T
  | [] => []
  | row :: rows => if key row = k then rows else row :: rows

variable {key reverse} {k : K} {lists : List (List T)} {rows : List T}

theorem InOrder.drop (inOrder : InOrder key reverse rows) (n : Nat) : InOrder key reverse (rows.drop n) :=
  List.Pairwise.sublist (List.drop_sublist n rows) inOrder

def Leads (key : T → K) (reverse : Bool) (k : K) (rows : List T) : Prop :=
  ∀ row ∈ rows.head?, key row = k ∨ Precedes reverse k (key row)

/-- A key that leads sorted rows comes before the others. -/
theorem Leads.all (leads : Leads key reverse k rows) (inOrder : InOrder key reverse rows) {row : T}
    (member : row ∈ rows) : key row = k ∨ Precedes reverse k (key row) := by
  cases rows with
  | nil => exact absurd member List.not_mem_nil
  | cons first rows =>
    have head := leads first rfl
    cases List.mem_cons.mp member with
    | inl isFirst =>
      rw [isFirst]
      exact head
    | inr later =>
      have after := (List.pairwise_cons.mp inOrder).1 row later
      cases head with
      | inl same => exact .inr (same ▸ after)
      | inr before => exact .inr (before.trans after)

theorem mem_dropHead (leads : Leads key reverse k rows) (inOrder : InOrder key reverse rows) {row : T} :
    row ∈ dropHead key k rows ↔ row ∈ rows ∧ key row ≠ k := by
  cases rows with
  | nil => exact ⟨fun never => absurd never List.not_mem_nil, fun never => absurd never.1 List.not_mem_nil⟩
  | cons first rows =>
    rw [dropHead]
    split
    case isTrue same =>
      constructor
      · intro later
        exact ⟨List.mem_cons_of_mem _ later, (same ▸ (List.pairwise_cons.mp inOrder).1 row later).ne.symm⟩
      · intro found
        cases List.mem_cons.mp found.1 with
        | inl isFirst => exact absurd (isFirst ▸ same) found.2
        | inr later => exact later
    case isFalse differs =>
      refine ⟨fun member => ⟨member, fun same => ?_⟩, And.left⟩
      have before := (leads first rfl).resolve_left differs
      cases List.mem_cons.mp member with
      | inl isFirst => exact differs (isFirst ▸ same)
      | inr later => exact (before.trans ((List.pairwise_cons.mp inOrder).1 row later)).ne same.symm

/-! ## Union -/

def firstRow (key : T → K) (k : K) (lists : List (List T)) : Option T :=
  lists.findSome? fun list => list.find? fun row => decide (key row = k)

/-- The union of several sequences: every key once, with the row of the first sequence that
has it. -/
structure IsUnion (key : T → K) (reverse : Bool) (lists : List (List T)) (rows : List T) : Prop where
  inOrder : InOrder key reverse rows
  mem_iff : ∀ row, row ∈ rows ↔ firstRow key (key row) lists = some row

theorem firstRow_mem {row : T} (found : firstRow key k lists = some row) : key row = k ∧ ∃ list ∈ lists, row ∈ list := by
  obtain ⟨list, isList, here⟩ := List.exists_of_findSome?_eq_some found
  exact ⟨by simpa using List.find?_some here, list, isList, List.mem_of_find?_eq_some here⟩

theorem isUnion_nil (empty : ∀ list ∈ lists, list = []) : IsUnion key reverse lists [] := by
  refine ⟨List.Pairwise.nil, fun row => ⟨fun never => absurd never List.not_mem_nil, fun found => ?_⟩⟩
  obtain ⟨_, list, isList, member⟩ := firstRow_mem found
  rw [empty list isList] at member
  exact member

variable {rests : List (List T)} {xs : List T} {other : K}

theorem find_dropHead (differs : other ≠ k) (rows : List T) :
    (dropHead key k rows).find? (fun row => decide (key row = other)) = rows.find? fun row => decide (key row = other) := by
  cases rows with
  | nil => rfl
  | cons row rows =>
    rw [dropHead]
    split
    case isTrue same =>
      have skipped : ¬ decide (key row = other) = true := fun found => differs (same ▸ (of_decide_eq_true found).symm)
      exact (List.find?_cons_of_neg (p := fun row => decide (key row = other)) skipped).symm
    case isFalse => rfl

theorem firstRow_dropHead (differs : other ≠ k) (lists : List (List T)) :
    firstRow key other (lists.map (dropHead key k)) = firstRow key other lists := by
  induction lists with
  | nil => rfl
  | cons list lists ih =>
    simp only [firstRow] at ih
    simp only [firstRow, List.map_cons, List.findSome?_cons, find_dropHead differs, ih]

theorem find_of_leads (leads : Leads key reverse k rows) (inOrder : InOrder key reverse rows) :
    rows.find? (fun row => decide (key row = k)) = rows.head?.filter fun row => decide (key row = k) := by
  cases rows with
  | nil => rfl
  | cons row rows =>
    rw [List.head?_cons, List.find?_cons]
    by_cases same : key row = k
    · simp [same, Option.filter]
    · have absent : rows.find? (fun row => decide (key row = k)) = none := by
        rw [List.find?_eq_none]
        intro later member
        have before := (leads row rfl).resolve_left same
        have after := before.trans ((List.pairwise_cons.mp inOrder).1 later member)
        simpa using after.ne.symm
      simp [same, absent, Option.filter]

theorem firstRow_of_leads (inOrder : ∀ list ∈ lists, InOrder key reverse list)
    (leads : ∀ list ∈ lists, Leads key reverse k list) :
    firstRow key k lists = (lists.map List.head?).findSome? (Option.filter fun row => decide (key row = k)) := by
  induction lists with
  | nil => rfl
  | cons list lists ih =>
    have rest := ih (List.forall_mem_cons.mp inOrder).2
      (List.forall_mem_cons.mp leads).2
    rw [firstRow] at rest
    rw [firstRow, List.map_cons, List.findSome?_cons, List.findSome?_cons, rest,
      find_of_leads (leads list List.mem_cons_self) (inOrder list List.mem_cons_self)]

theorem IsUnion.cons (inOrder : ∀ list ∈ lists, InOrder key reverse list)
    (leads : ∀ list ∈ lists, Leads key reverse k list) {row : T} (first : firstRow key k lists = some row) {rows : List T}
    (union : IsUnion key reverse (lists.map (dropHead key k)) rows) : IsUnion key reverse lists (row :: rows) := by
  have isKey := (firstRow_mem first).1
  have later : ∀ other ∈ rows, Precedes reverse k (key other) := by
    intro other member
    obtain ⟨_, dropped, isDropped, inside⟩ := firstRow_mem ((union.mem_iff other).mp member)
    obtain ⟨list, isList, rfl⟩ := List.mem_map.mp isDropped
    obtain ⟨inList, differs⟩ := (mem_dropHead (leads list isList) (inOrder list isList)).mp inside
    exact ((leads list isList).all (inOrder list isList) inList).resolve_left differs
  refine ⟨List.pairwise_cons.mpr ⟨fun other member => isKey ▸ later other member, union.inOrder⟩, fun other => ?_⟩
  by_cases same : key other = k
  · rw [same, first, Option.some.injEq, List.mem_cons]
    refine ⟨fun found => found.elim Eq.symm fun member => absurd same (later other member).ne.symm, fun is => .inl is.symm⟩
  · rw [← firstRow_dropHead same, ← union.mem_iff, List.mem_cons]
    exact ⟨fun found => found.resolve_left fun is => same (is ▸ isKey), .inr⟩

/-! ## Intersection -/

/-- The intersection of several sequences: for every key that all have, the rows with it. -/
structure IsIntersection (key : T → K) (reverse : Bool) (lists : List (List T)) (rows : List (List T)) : Prop where
  inOrder : rows.Pairwise fun xs ys => ∀ x ∈ xs, ∀ y ∈ ys, Precedes reverse (key x) (key y)
  mem_iff : ∀ row, row ∈ rows ↔ List.Forall₂ (· ∈ ·) row lists ∧ ∀ x ∈ row, ∀ y ∈ row, key x = key y

/-- The rows of the first sequence whose keys all sequences have. -/
structure IsCommon (key : T → K) (reverse : Bool) (lists : List (List T)) (rows : List T) : Prop where
  inOrder : InOrder key reverse rows
  mem_iff : ∀ row, row ∈ rows ↔ (∃ list ∈ lists.head?, row ∈ list) ∧ ∀ list ∈ lists, ∃ x ∈ list, key x = key row

theorem isIntersection_nil (ended : [] ∈ lists) : IsIntersection key reverse lists [] := by
  refine ⟨List.Pairwise.nil, fun row => ⟨fun never => absurd never List.not_mem_nil, fun found => ?_⟩⟩
  obtain ⟨x, _, never⟩ := exists_related found.1 ended
  exact absurd never List.not_mem_nil

theorem IsIntersection.skip (skips : List.Forall₂ (Skips key lists) lists shorter) {rows : List (List T)}
    (meets : IsIntersection key reverse shorter rows) : IsIntersection key reverse lists rows := by
  refine ⟨meets.inOrder, fun row => (meets.mem_iff row).trans
    ⟨fun found => ⟨forall₂_of_skips skips found.1, found.2⟩, fun found => ⟨?_, found.2⟩⟩⟩
  refine skips_of_forall₂ skips found.1 fun x isX other isOther => ?_
  obtain ⟨y, isY, member⟩ := exists_related found.1 isOther
  exact ⟨y, member, found.2 y isY x isX⟩

theorem Heads.eq (heads : Heads key k xs lists rests) (inOrder : ∀ list ∈ lists, InOrder key reverse list)
    (inside : List.Forall₂ (· ∈ ·) row lists) (keys : ∀ x ∈ row, key x = k) : row = xs := by
  induction heads generalizing row with
  | nil =>
    cases inside
    rfl
  | cons isKey _ ih =>
    cases inside with
    | cons here rest =>
      have tail := ih (List.forall_mem_cons.mp inOrder).2 rest
        (List.forall_mem_cons.mp keys).2
      cases List.mem_cons.mp here with
      | inl isHead => rw [tail, isHead]
      | inr later =>
        have after := (List.pairwise_cons.mp (inOrder _ List.mem_cons_self)).1 _ later
        exact absurd (isKey.trans (keys _ List.mem_cons_self).symm) after.ne

theorem Heads.after (heads : Heads key k xs lists rests) (inOrder : ∀ list ∈ lists, InOrder key reverse list)
    (inside : List.Forall₂ (· ∈ ·) row rests) : ∀ y ∈ row, Precedes reverse k (key y) := by
  intro y member
  obtain ⟨rest, isRest, here⟩ := exists_related (List.Forall₂.flip inside) member
  obtain ⟨list, isList, x, isKey, rfl⟩ := exists_related heads.tails isRest
  exact isKey ▸ (List.pairwise_cons.mp (inOrder _ isList)).1 y here

theorem IsIntersection.cons {xs : List T} {rests : List (List T)} (heads : Heads key k xs lists rests)
    (inOrder : ∀ list ∈ lists, InOrder key reverse list) {rows : List (List T)}
    (meets : IsIntersection key reverse rests rows) : IsIntersection key reverse lists (xs :: rows) := by
  refine ⟨List.pairwise_cons.mpr ⟨fun row member x isX y isY => ?_, meets.inOrder⟩, fun row => ?_⟩
  · rw [heads.isKey x isX]
    exact heads.after inOrder ((meets.mem_iff row).mp member).1 y isY
  · rw [List.mem_cons, meets.mem_iff]
    constructor
    · intro found
      cases found with
      | inl same =>
        subst same
        exact ⟨heads.inside, fun x isX y isY => (heads.isKey x isX).trans (heads.isKey y isY).symm⟩
      | inr later => exact ⟨heads.weaken later.1, later.2⟩
    · intro found
      by_cases same : ∀ x ∈ row, key x = k
      · exact .inl (heads.eq inOrder found.1 same)
      · push Not at same
        obtain ⟨x, isX, differs⟩ := same
        exact .inr ⟨heads.strengthen found.1 fun y isY agrees => differs ((found.2 x isX y isY).trans agrees), found.2⟩

theorem IsIntersection.isCommon {tuples : List (List T)} (meets : IsIntersection key reverse lists tuples)
    (heads : tuples.map List.head? = rows.map some) : IsCommon key reverse lists rows := by
  have mem_rows : ∀ row, row ∈ rows ↔ ∃ tuple ∈ tuples, tuple.head? = some row := by
    intro row
    have found : some row ∈ rows.map some ↔ row ∈ rows := by simp
    rw [← found, ← heads, List.mem_map]
  refine ⟨?_, fun row => ?_⟩
  · have ordered : (tuples.map List.head?).Pairwise fun x y => ∀ a ∈ x, ∀ b ∈ y, Precedes reverse (key a) (key b) :=
      List.pairwise_map.mpr (meets.inOrder.imp fun before a isA b isB =>
        before a (List.mem_of_head? isA) b (List.mem_of_head? isB))
    rw [heads, List.pairwise_map] at ordered
    exact ordered.imp fun before => before _ rfl _ rfl
  · rw [mem_rows]
    constructor
    · intro found
      obtain ⟨tuple, isTuple, head⟩ := found
      obtain ⟨inside, keys⟩ := (meets.mem_iff tuple).mp isTuple
      refine ⟨?_, fun list member => ?_⟩
      · cases inside with
        | nil => cases head
        | cons here _ =>
          cases head
          exact ⟨_, rfl, here⟩
      · obtain ⟨x, isX, here⟩ := exists_related inside member
        exact ⟨x, here, keys x isX row (List.mem_of_head? head)⟩
    · intro found
      obtain ⟨⟨list, isFirst, member⟩, matched⟩ := found
      cases lists with
      | nil => cases isFirst
      | cons first lists =>
        cases isFirst
        obtain ⟨others, inside, keys⟩ := exists_rows (List.forall_mem_cons.mp matched).2
        have same : ∀ x ∈ row :: others, key x = key row := List.forall_mem_cons.mpr ⟨rfl, keys⟩
        exact ⟨row :: others, (meets.mem_iff _).mpr
          ⟨.cons member inside, fun x isX y isY => (same x isX).trans (same y isY).symm⟩, rfl⟩

end FdbGo.Foundation
