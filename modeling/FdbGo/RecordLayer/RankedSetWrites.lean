import FdbGo.RecordLayer.RankedSetProperties

/-! What an addition and a removal make of the levels. -/

set_option autoImplicit false

namespace FdbGo.RecordLayer.RankedSet

open Client Foundation FdbGo.Tuple

def keysOf (items : List (Bytes × Nat)) : List Bytes := items.map Prod.fst

variable {items : List (Bytes × Nat)} {k : Bytes}

theorem mem_keysOf : k ∈ keysOf items ↔ ∃ item ∈ items, item.1 = k :=
  List.mem_map

theorem mem_keysOf_put {item : Bytes × Nat} : k ∈ keysOf (put Prod.fst item items) ↔ k = item.1 ∨ k ∈ keysOf items := by
  simp only [mem_keysOf, mem_put]
  constructor
  · intro found
    obtain ⟨other, new | old, same⟩ := found
    · exact .inl (by rw [← same, new])
    · exact .inr ⟨other, old.1, same⟩
  · intro found
    by_cases isItem : k = item.1
    · exact ⟨item, .inl rfl, isItem.symm⟩
    · obtain ⟨other, member, same⟩ := found.resolve_left isItem
      exact ⟨other, .inr ⟨member, fun equal => isItem (same.symm.trans equal)⟩, same⟩

variable {key : Bytes}

theorem mem_keysOf_dropKey : k ∈ keysOf (dropKey key items) ↔ k ∈ keysOf items ∧ k ≠ key := by
  simp only [mem_keysOf, mem_dropKey]
  constructor
  · intro found
    obtain ⟨item, ⟨member, apart⟩, same⟩ := found
    exact ⟨⟨item, member, same⟩, same ▸ apart⟩
  · intro found
    obtain ⟨⟨item, member, same⟩, apart⟩ := found
    exact ⟨item, ⟨member, same ▸ apart⟩, same⟩

theorem apart_of_absent (absent : key ∉ keysOf items) : ∀ item ∈ items, item.1 ≠ key :=
  fun item member same => absent (mem_keysOf.mpr ⟨item, member, same⟩)

variable {h : Bytes × Nat} {count : Nat}

/-- A new count adds and removes no key. -/
theorem mem_keysOf_replace (member : h ∈ items) :
    k ∈ keysOf (put Prod.fst (h.1, count) items) ↔ k ∈ keysOf items := by
  rw [mem_keysOf_put]
  constructor
  · intro found
    exact found.elim (fun same => mem_keysOf.mpr ⟨h, member, same.symm⟩) id
  · exact .inr

theorem floor_put (floor : Floor Prod.fst items key h) (count : Nat) :
    Floor Prod.fst (put Prod.fst (h.1, count) items) key (h.1, count) := by
  refine ⟨mem_put.mpr (.inl rfl), floor.below, fun other member below => ?_⟩
  cases mem_put.mp member with
  | inl new => rw [new]
  | inr old => exact floor.greatest other old.1 below

/-! ## The rows of one level -/

section Level

variable {ss : Bytes} {t : Transaction} {d : Snapshot} {level : Nat} {items : List (Bytes × Nat)}

variable (rewrites : (layout ss level).Rewrites d t.view items)

include rewrites

theorem rewrites_set (key : Bytes) (count : Nat) :
    (layout ss level).Rewrites d
      (t.mutate ⟨.setValue, bytesKey (levelHead ss level) key, rsEncodeLong (Int64.ofNat count)⟩).view
      (put Prod.fst (key, count) items) := by
  rw [Transaction.view_mutate]
  exact rewrites.set (key, count)

theorem rewrites_clear (key : Bytes) :
    (layout ss level).Rewrites d
      (t.mutate ⟨.clearRange, bytesKey (levelHead ss level) key, keyAfter (bytesKey (levelHead ss level) key)⟩).view
      (dropKey key items) := by
  rw [Transaction.view_mutate]
  exact rewrites.clear key

theorem rewrites_add (member : h ∈ items) {change : Int64} (sum : Int64.ofNat count = Int64.ofNat h.2 + change) :
    (layout ss level).Rewrites d
      (t.mutate ⟨.addValue, bytesKey (levelHead ss level) h.1, rsEncodeLong change⟩).view
      (put Prod.fst (h.1, count) items) := by
  have stored : t.view.get (bytesKey (levelHead ss level) h.1) = some (rsEncodeLong (Int64.ofNat h.2)) :=
    rewrites.holds.get member
  have applied : t.view.apply ⟨.addValue, bytesKey (levelHead ss level) h.1, rsEncodeLong change⟩ =
      t.view.set (bytesKey (levelHead ss level) h.1) (rsEncodeLong (Int64.ofNat count)) := by
    simp only [Snapshot.apply, stored, addCounts, sum]
  rw [Transaction.view_mutate, applied]
  exact rewrites.set (h.1, count)

end Level

/-! ## Adding -/

/-- A level after an addition: it sums up the new bottom level, and has the key if that
became a head. -/
structure Added (key : Bytes) (bottom old new : List (Bytes × Nat)) (head : Bool) : Prop where
  sums : SumsUp new bottom
  keys : ∀ k, k ∈ keysOf new ↔ k ∈ keysOf old ∨ head = true ∧ k = key

section Adding

variable {ss : Bytes} {t : Transaction} {level : Nat} {items below bottom bottom' : List (Bytes × Nat)} {key : Bytes}

theorem entryOf_none_iff : entryOf items key = none ↔ key ∉ keysOf items := by
  rw [entryOf, Option.map_eq_none_iff, List.find?_eq_none, mem_keysOf]
  constructor
  · intro never found
    obtain ⟨item, member, same⟩ := found
    exact never item member (decide_eq_true same)
  · intro absent item member same
    exact absent ⟨item, member, of_decide_eq_true same⟩

variable {h : Bytes × Nat}

theorem Ordered.entryOf_eq (ordered : Ordered Prod.fst items) (member : h ∈ items) : entryOf items h.1 = some h.2 := by
  have found := find_of_distinct (ordered.imp fun less => less.ne) member
  rw [entryOf, found]
  rfl

theorem addBottom_run (holds : (layout ss 0).Holds t.view items) {duplicate : Bool} {keyHash : Int32}
    (present : duplicate = true ↔ key ∈ keysOf items) :
    ∃ t', (addLevel ss key keyHash duplicate 0).run t = (.ok (), t') ∧
      (layout ss 0).Rewrites t.view t'.view (put Prod.fst (key, countOf items key + 1) items) := by
  rw [addLevel, if_pos rfl, Tx.run_bind_ok (levelKey_run 0 key)]
  cases duplicate with
  | true =>
    obtain ⟨h, member, rfl⟩ := mem_keysOf.mp (present.mp rfl)
    rw [holds.ordered.countOf_eq member]
    exact ⟨_, rfl, rewrites_add (.refl holds) member (Int64.ofNat_add h.2 1)⟩
  | false =>
    have absent : key ∉ keysOf items := fun isKey => Bool.false_ne_true (present.mpr isKey)
    rw [countOf_of_absent (apart_of_absent absent)]
    exact ⟨_, rfl, rewrites_set (.refl holds) key 1⟩

variable {duplicate : Bool} {keyHash : Int32}

theorem addSkip_run (holds : (layout ss level).Holds t.view items) (upper : level ≠ 0)
    (skips : (duplicate || skipsLevel keyHash level) = true)
    (floor : Floor Prod.fst (candidates duplicate items key) key h) (member : h ∈ items) :
    ∃ t', (addLevel ss key keyHash duplicate level).run t = (.ok (), t') ∧
      (layout ss level).Rewrites t.view t'.view (put Prod.fst (h.1, h.2 + 1) items) := by
  obtain ⟨t', ran, view⟩ := getPreviousKey_run holds floor
  rw [addLevel, if_neg upper, if_pos skips, Tx.run_bind_ok ran, Tx.run_bind_ok (levelKey_run level h.1)]
  exact ⟨_, rfl, rewrites_add (.of_eq view holds) member (Int64.ofNat_add h.2 1)⟩

theorem candidates_eq {orEqual : Bool} (fresh : orEqual = false → key ∉ keysOf items) :
    candidates orEqual items key = items := by
  cases orEqual with
  | true => rfl
  | false => exact dropKey_eq_self (apart_of_absent (fresh rfl))

/-- A level that the key heads: the count of the key before it is split. -/
theorem addInsertLevelKey_run (holds : (layout ss level).Holds t.view items)
    (belowHolds : (layout ss (level - 1)).Holds t.view below) (floor : Floor Prod.fst items key h)
    (absent : key ∉ keysOf items) (enough : weigh (between h.1 key) below ≤ h.2 + 1) :
    ∃ t', (addInsertLevelKey ss key level).run t = (.ok (), t') ∧
      (layout ss level).Rewrites t.view t'.view
        (put Prod.fst (key, h.2 + 1 - weigh (between h.1 key) below)
          (put Prod.fst (h.1, weigh (between h.1 key) below) items)) := by
  have strict : Floor Prod.fst (candidates false items key) key h := by
    rw [candidates_eq fun _ => absent]
    exact floor
  obtain ⟨t₁, ranPrev, view₁⟩ := getPreviousKey_run holds strict
  have read : (Tx.get (bytesKey (levelHead ss level) h.1) : Tx Error _).run t₁ =
      (.ok (some (rsEncodeLong (Int64.ofNat h.2))), t₁.addRead (bytesKey (levelHead ss level) h.1)
        (keyAfter (bytesKey (levelHead ss level) h.1))) := by
    have stored := holds.get floor.member
    rw [← view₁] at stored
    rw [Tx.run_get, show t₁.view.get (bytesKey (levelHead ss level) h.1) = _ from stored]
    rfl
  obtain ⟨t₂, ranCount, view₂⟩ := @countRange_run ss (t₁.addRead (bytesKey (levelHead ss level) h.1)
    (keyAfter (bytesKey (levelHead ss level) h.1))) (level - 1) below (view₁ ▸ belowHolds) h.1 key
  have view : t₂.view = t.view := view₂.trans view₁
  have count : Int64.ofNat h.2 - Int64.ofNat (weigh (between h.1 key) below) + 1 =
      Int64.ofNat (h.2 + 1 - weigh (between h.1 key) below) := by
    rw [ofNat_sub enough, Int64.ofNat_add, Int64.sub_eq_add_neg, Int64.sub_eq_add_neg, Int64.add_assoc, Int64.add_assoc,
      Int64.add_comm (Int64.ofNat 1)]
    rfl
  have rewrites : (layout ss level).Rewrites t.view t₂.view items := .of_eq view holds
  refine ⟨_, ?_, rewrites_set (rewrites_set rewrites h.1 (weigh (between h.1 key) below)) key
    (h.2 + 1 - weigh (between h.1 key) below)⟩
  rw [addInsertLevelKey, Tx.run_bind_ok ranPrev, Tx.run_bind_ok (levelKey_run level h.1), Tx.run_bind_ok read,
    Tx.run_bind_ok (decodeLong_run _), Tx.run_bind_ok ranCount]
  dsimp only
  rw [count, Tx.run_bind_ok (Tx.run_set _ _), Tx.run_bind_ok (levelKey_run level key)]
  rfl

/-- The sentinel makes every key have a last key at or before it. -/
theorem exists_floor_key (sentinel : [] ∈ keysOf items) (key : Bytes) : ∃ h, Floor Prod.fst items key h := by
  obtain ⟨first, member, empty⟩ := mem_keysOf.mp sentinel
  exact exists_floor member (empty ▸ nil_le key)

section Sums

variable (sums : SumsUp items bottom) (ordered : Ordered Prod.fst items)
  (grown : ∀ p, weigh p bottom' = weigh p bottom + if p key then 1 else 0) (floor : Floor Prod.fst items key h)

include sums ordered grown floor

theorem Added.bump : Added key bottom' items (put Prod.fst (h.1, h.2 + 1) items) false := by
  refine ⟨sums.bump ordered floor grown, fun k => ?_⟩
  rw [mem_keysOf_replace floor.member]
  constructor
  · exact .inl
  · intro found
    exact found.elim id fun never => absurd never.1 Bool.false_ne_true

theorem Added.insert (absent : key ∉ keysOf items) :
    weigh (between h.1 key) bottom' ≤ h.2 + 1 ∧
      Added key bottom' items (put Prod.fst (key, h.2 + 1 - weigh (between h.1 key) bottom')
        (put Prod.fst (h.1, weigh (between h.1 key) bottom') items)) true := by
  have stillAbsent : key ∉ keysOf (put Prod.fst (h.1, h.2 + 1) items) := fun isKey =>
    absent ((mem_keysOf_replace floor.member).mp isKey)
  obtain ⟨enough, split⟩ := (sums.bump ordered floor grown).split (ordered.put _) (floor_put floor _)
    (apart_of_absent stillAbsent)
  have twice := @Ordered.put_put _ _ _ Prod.fst items ordered (h.1, h.2 + 1) (h.1, weigh (between h.1 key) bottom') rfl
  rw [twice] at split
  refine ⟨enough, split, fun k => ?_⟩
  rw [mem_keysOf_put, mem_keysOf_replace floor.member, or_comm]
  simp only [true_and]

end Sums

theorem addLevel_run (upper : level ≠ 0) (holds : (layout ss level).Holds t.view items)
    (belowHolds : (layout ss (level - 1)).Holds t.view below) (sums : SumsUp items bottom)
    (belowSums : SumsUp below bottom') (grown : ∀ p, weigh p bottom' = weigh p bottom + if p key then 1 else 0)
    (sentinel : [] ∈ keysOf items) (nested : ∀ k ∈ keysOf items, k ∈ keysOf below)
    (fresh : duplicate = false → key ∉ keysOf items)
    (belowHead : (duplicate || skipsLevel keyHash level) = false → key ∈ keysOf below) :
    ∃ t' items', (addLevel ss key keyHash duplicate level).run t = (.ok (), t') ∧
      (layout ss level).Rewrites t.view t'.view items' ∧
      Added key bottom' items items' (!(duplicate || skipsLevel keyHash level)) := by
  obtain ⟨h, floor⟩ := exists_floor_key sentinel key
  have ordered : Ordered Prod.fst items := holds.ordered
  cases skips : (duplicate || skipsLevel keyHash level) with
  | true =>
    have chosen : Floor Prod.fst (candidates duplicate items key) key h := by
      rw [candidates_eq fresh]
      exact floor
    obtain ⟨t', ran, rewrites⟩ := addSkip_run holds upper skips chosen floor.member
    exact ⟨t', _, ran, rewrites, .bump sums ordered grown floor⟩
  | false =>
    have absent := fresh (Bool.or_eq_false_iff.mp skips).1
    have same : weigh (between h.1 key) below = weigh (between h.1 key) bottom' := by
      obtain ⟨first, isFirst, firstKey⟩ := mem_keysOf.mp (nested h.1 (mem_keysOf.mpr ⟨h, floor.member, rfl⟩))
      obtain ⟨second, isSecond, secondKey⟩ := mem_keysOf.mp (belowHead skips)
      exact belowSums.between (.inr ⟨first, isFirst, by rw [firstKey]⟩) (.inr ⟨second, isSecond, by rw [secondKey]⟩)
        (WithTop.coe_le_coe.mpr floor.below)
    obtain ⟨enough, added⟩ := Added.insert sums ordered grown floor absent
    rw [← same] at enough added
    obtain ⟨t', ran, rewrites⟩ := addInsertLevelKey_run holds belowHolds floor absent enough
    refine ⟨t', _, ?_, rewrites, added⟩
    rw [addLevel, if_neg upper, if_neg (Bool.eq_false_iff.mp skips), ran]

end Adding

/-! ## Removing -/

/-- A level after a removal: it sums up the new bottom level, and has lost the key if that
is gone. -/
structure Removed (key : Bytes) (bottom old new : List (Bytes × Nat)) (gone : Bool) : Prop where
  sums : SumsUp new bottom
  keys : ∀ k, k ∈ keysOf new ↔ k ∈ keysOf old ∧ ¬ (gone = true ∧ k = key)

section Removing

variable {ss : Bytes} {t : Transaction} {level : Nat} {items bottom bottom' : List (Bytes × Nat)} {key : Bytes}

section Sums

variable (sums : SumsUp items bottom) (ordered : Ordered Prod.fst items)
  (shrunk : ∀ p, weigh p bottom' + (if p key then 1 else 0) = weigh p bottom)

include sums ordered shrunk

theorem Removed.drop (floor : Floor Prod.fst items key h) {gone : Bool} (absent : gone = true → key ∉ keysOf items) :
    1 ≤ h.2 ∧ Removed key bottom' items (put Prod.fst (h.1, h.2 - 1) items) gone := by
  obtain ⟨enough, dropped⟩ := sums.drop ordered floor shrunk
  refine ⟨enough, dropped, fun k => ?_⟩
  rw [mem_keysOf_replace floor.member]
  constructor
  · intro old
    exact ⟨old, fun isGone => absent isGone.1 (isGone.2 ▸ old)⟩
  · exact And.left

theorem Removed.merge (member : (key, count) ∈ items) (floor : Floor Prod.fst (dropKey key items) key h) :
    1 ≤ h.2 + count ∧ Removed key bottom' items (put Prod.fst (h.1, h.2 + count - 1) (dropKey key items)) true := by
  have merged := sums.merge ordered member floor
  obtain ⟨enough, dropped⟩ := merged.drop ((ordered.dropKey key).put _) (floor_put floor _) shrunk
  have twice := @Ordered.put_put _ _ _ Prod.fst (dropKey key items) (ordered.dropKey key) (h.1, h.2 + count)
    (h.1, h.2 + count - 1) rfl
  rw [twice] at dropped
  refine ⟨enough, dropped, fun k => ?_⟩
  rw [mem_keysOf_replace floor.member, mem_keysOf_dropKey]
  simp only [true_and, ne_eq]

end Sums

theorem ofNat_pred (positive : 1 ≤ count) : Int64.ofNat (count - 1) = Int64.ofNat count + -1 := by
  rw [ofNat_sub positive, Int64.sub_eq_add_neg]
  rfl

/-- On an upper level a removed duplicate is taken off the last key at or before it. -/
theorem removeDuplicateLevel_run (upper : level ≠ 0) (holds : (layout ss level).Holds t.view items)
    (sums : SumsUp items bottom) (shrunk : ∀ p, weigh p bottom' + (if p key then 1 else 0) = weigh p bottom)
    (sentinel : [] ∈ keysOf items) (count : Int64) :
    ∃ t' items', (removeDuplicateLevel ss key count level).run t = (.ok (), t') ∧
      (layout ss level).Rewrites t.view t'.view items' ∧ Removed key bottom' items items' false := by
  obtain ⟨h, floor⟩ := exists_floor_key sentinel key
  obtain ⟨t', ran, view⟩ := @getPreviousKey_run ss t level items key holds true h floor
  have dropped : 1 ≤ h.2 ∧ Removed key bottom' items (put Prod.fst (h.1, h.2 - 1) items) false :=
    Removed.drop sums holds.ordered shrunk floor nofun
  obtain ⟨enough, removed⟩ := dropped
  refine ⟨_, _, ?_, rewrites_add (.of_eq view holds) floor.member (ofNat_pred enough), removed⟩
  rw [removeDuplicateLevel, if_neg upper, Tx.run_bind_ok ran, Tx.run_bind_ok (levelKey_run level h.1)]
  rfl

theorem removeKeyLevel_run (upper : level ≠ 0) (holds : (layout ss level).Holds t.view items)
    (sums : SumsUp items bottom) (shrunk : ∀ p, weigh p bottom' + (if p key then 1 else 0) = weigh p bottom)
    (sentinel : [] ∈ keysOf items) (nonempty : key ≠ []) :
    ∃ t' items', (removeKeyLevel ss key level).run t = (.ok (), t') ∧
      (layout ss level).Rewrites t.view t'.view items' ∧ Removed key bottom' items items' true := by
  have kept : [] ∈ keysOf (dropKey key items) := mem_keysOf_dropKey.mpr ⟨sentinel, nonempty.symm⟩
  obtain ⟨h, floor⟩ := exists_floor_key kept key
  have ordered : Ordered Prod.fst items := holds.ordered
  -- the entry is read first, then the key before it
  have read := Holds.get_entry holds key
  obtain ⟨t', ran, view⟩ := @getPreviousKey_run ss (t.addRead (bytesKey (levelHead ss level) key)
    (keyAfter (bytesKey (levelHead ss level) key))) level items key holds false h floor
  have start : (removeKeyLevel ss key level).run t =
      (do
        let countChange ← giveBack (bytesKey (levelHead ss level) key)
          ((entryOf items key).map fun count => rsEncodeLong (Int64.ofNat count))
        let prevk ← levelKey ss level h.1
        Tx.add prevk (rsEncodeLong countChange) : Tx Error Unit).run t' := by
    rw [removeKeyLevel, Tx.run_bind_ok (levelKey_run level key), if_neg upper, Tx.run_bind_ok (Tx.run_get _), read,
      Tx.run_bind_ok ran]
  have rewrites : (layout ss level).Rewrites t.view t'.view items := .of_eq view holds
  rw [start]
  cases entry : entryOf items key with
  | none =>
    have absent := entryOf_none_iff.mp entry
    rw [dropKey_eq_self (apart_of_absent absent)] at floor
    obtain ⟨enough, removed⟩ := Removed.drop sums ordered shrunk floor fun _ => absent
    refine ⟨_, _, ?_, rewrites_add rewrites floor.member (ofNat_pred enough), removed⟩
    exact (Tx.run_bind_ok rfl _).trans (Tx.run_bind_ok (levelKey_run level h.1) _)
  | some count =>
    obtain ⟨item, found, rfl⟩ := Option.map_eq_some_iff.mp entry
    have isKey : item.1 = key := by simpa using List.find?_some found
    have member : (key, item.2) ∈ items := by
      rw [← isKey]
      exact List.mem_of_find?_eq_some found
    obtain ⟨enough, removed⟩ := Removed.merge sums ordered shrunk member floor
    have sum : Int64.ofNat (h.2 + item.2 - 1) = Int64.ofNat h.2 + (-1 + Int64.ofNat item.2) := by
      rw [ofNat_pred enough, Int64.ofNat_add, Int64.add_assoc, Int64.add_comm (-1)]
    refine ⟨_, _, ?_, rewrites_add (rewrites_clear rewrites key) floor.member sum, removed⟩
    have gave : (giveBack (bytesKey (levelHead ss level) key) (some (rsEncodeLong (Int64.ofNat item.2)))).run t' =
        (.ok (-1 + Int64.ofNat item.2), t'.mutate ⟨.clearRange, bytesKey (levelHead ss level) key,
          keyAfter (bytesKey (levelHead ss level) key)⟩) :=
      Tx.run_bind_ok (decodeLong_run _) _
    exact (Tx.run_bind_ok gave _).trans (Tx.run_bind_ok (levelKey_run level h.1) _)

end Removing

end FdbGo.RecordLayer.RankedSet
