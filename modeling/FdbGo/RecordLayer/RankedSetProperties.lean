import FdbGo.Foundation.Weighted
import FdbGo.RecordLayer.Layout
import FdbGo.RecordLayer.RankedSet

/-! The rows of a ranked set's levels: counts as they are written, and what the reads of a
level find. -/

set_option autoImplicit false

namespace FdbGo.RecordLayer.RankedSet

open Client Foundation FdbGo.Tuple

/-! ## Counts -/

variable (count : Int64)

theorem decode_rsEncodeLong : decode (rsEncodeLong count) = count.toUInt64.toNat := by
  rw [rsEncodeLong, decode_encode]
  exact Nat.mod_eq_of_lt count.toUInt64.toNat_lt

theorem length_rsEncodeLong : (rsEncodeLong count).length = 8 := length_encode 8 _

private theorem rsDecodeLong_rsEncodeLong : rsDecodeLong (some (rsEncodeLong count)) = .ok count := by
  have whole : (rsEncodeLong count).take 8 = rsEncodeLong count :=
    List.take_of_length_le (length_rsEncodeLong count).le
  rw [rsDecodeLong, if_neg (by rw [length_rsEncodeLong]; decide), whole, decode_rsEncodeLong, UInt64.ofNat_toNat]
  rfl

theorem addCounts (count change : Int64) :
    atomicMeaning .addValue (rsEncodeLong change) (some (rsEncodeLong count)) = some (rsEncodeLong (count + change)) := by
  obtain ⟨length, value⟩ := doAdd_spec (some (rsEncodeLong count)) (rsEncodeLong change)
  rw [length_rsEncodeLong] at length value
  refine congrArg some (decode_injective (by rw [length, length_rsEncodeLong]) ?_)
  rw [show existing (some (rsEncodeLong count)) = rsEncodeLong count from rfl,
    copyInto_self (length_rsEncodeLong count), decode_rsEncodeLong, decode_rsEncodeLong] at value
  rw [decode_rsEncodeLong, value, Int64.toUInt64_add, UInt64.toNat_add]
  norm_num

theorem ofNat_sub {x y : Nat} (le : y ≤ x) : Int64.ofNat (x - y) = Int64.ofNat x - Int64.ofNat y := by
  rw [← Nat.sub_add_cancel le, Int64.ofNat_add, Nat.sub_add_cancel le]
  exact (Int64.add_sub_cancel _ _).symm

/-- A count below 2 ^ 63 survives the stored int64. -/
theorem toInt_ofNat {count : Nat} (small : count < 2 ^ 63) : (Int64.ofNat count).toInt = count :=
  Int64.toInt_ofNat_of_lt small

theorem ofNat_pos {count : Nat} (small : count < 2 ^ 63) : 0 < Int64.ofNat count ↔ 0 < count := by
  rw [Int64.lt_iff_toInt_lt, toInt_ofNat small]
  exact Int.natCast_pos

theorem one_lt_ofNat {count : Nat} (small : count < 2 ^ 63) : 1 < Int64.ofNat count ↔ 1 < count := by
  rw [Int64.lt_iff_toInt_lt, toInt_ofNat small]
  exact Nat.one_lt_cast

/-! ## Levels -/

def levelHead (ss : Bytes) (level : Nat) : Bytes := ss ++ wires false [.integer (Int64.ofNat level).toInt]

theorem packables_level (level : Nat) : packables [Value.integer (Int64.ofNat level).toInt] = true := by
  have bounds := int64_bounds (Int64.ofNat level)
  have small : (Int64.ofNat level).toInt.natAbs < 256 ^ 8 := by omega
  have short := byteLength_le_iff.mpr small
  simp only [packables, Value.packable, Bool.and_true, decide_eq_true_eq]
  omega

theorem packables_levelKey (level : Nat) (key : Bytes) :
    packables [Value.integer (Int64.ofNat level).toInt, .bytes key] = true := by
  have both := packables_append [Value.integer (Int64.ofNat level).toInt] [.bytes key]
  rw [packables_level] at both
  exact both

theorem bytesKey_level (ss : Bytes) (level : Nat) (key : Bytes) :
    bytesKey (levelHead ss level) key = ss ++ wires false [.integer (Int64.ofNat level).toInt, .bytes key] := by
  rw [bytesKey, levelHead, List.append_assoc, ← wires_append]
  rfl

def layout (ss : Bytes) (level : Nat) : Layout (Bytes × Nat) Bytes where
  index := Prod.fst
  value item := rsEncodeLong (Int64.ofNat item.2)
  key := bytesKey (levelHead ss level)
  region k := decide (subspaceBegin (levelHead ss level) ≤ k ∧ k < subspaceEnd (levelHead ss level))
  monotone _ _ less := (bytesKey_lt _).mpr less
  inside b := decide_eq_true (bytesKey_inside _ b)

theorem levels_apart {ss : Bytes} {level other : Nat} (small : level < 2 ^ 63) (otherSmall : other < 2 ^ 63)
    (apart : level ≠ other) {k : Key} (inside : (layout ss level).region k = true) :
    (layout ss other).region k = false := by
  have differ : (Int64.ofNat level).toInt ≠ (Int64.ofNat other).toInt := by
    rw [toInt_ofNat small, toInt_ofNat otherSmall]
    exact fun same => apart (Int.ofNat.inj same)
  refine decide_eq_false (subspaces_apart (packables_level level) (packables_level other) ?_ ?_ (of_decide_eq_true inside))
  · simpa using differ
  · simpa using differ.symm

section Keys

variable {ss : Bytes} {t : Transaction}

theorem levelSub_run (level : Nat) : (levelSub ss level).run t = (.ok (levelHead ss level), t) :=
  @subspacePack_eq Error ss [.int64 (Int64.ofNat level)] (packables_level level) t

/-- A key of a level is packed behind the head of that level. -/
theorem levelKey_run (level : Nat) (key : Bytes) :
    (levelKey ss level key).run t = (.ok (bytesKey (levelHead ss level) key), t) := by
  rw [levelKey, @subspacePack_eq Error ss [.int64 (Int64.ofNat level), .bytes key] (packables_levelKey level key),
    bytesKey_level]
  rfl

theorem pack_run (head key : Bytes) :
    (subspacePack head [.bytes key] : Tx Error Bytes).run t = (.ok (bytesKey head key), t) :=
  subspacePack_eq head rfl t

theorem keyBytesAt_sub (head key : Bytes) : (keyBytesAt head.length 0 (bytesKey head key)).run t = (.ok key, t) := by
  have unpacked := @subspaceUnpack_wires head [.bytes key] rfl
  simp only [keyBytesAt, bytesKey, unpacked, elements, Value.element]
  rfl

private theorem keyBytesAt_level (level : Nat) (key : Bytes) :
    (keyBytesAt ss.length 1 (bytesKey (levelHead ss level) key)).run t = (.ok key, t) := by
  have unpacked := subspaceUnpack_wires ss (packables_levelKey level key)
  simp only [keyBytesAt, bytesKey_level, unpacked, elements, Value.element]
  rfl

theorem decodeLong_run : (decodeLong (some (rsEncodeLong count))).run t = (.ok count, t) := by
  rw [decodeLong, rsDecodeLong_rsEncodeLong]
  rfl

end Keys

/-! ## Reading a level -/

section Reads

variable {ss : Bytes} {t : Transaction} {level : Nat} {items : List (Bytes × Nat)} {key : Bytes}

def entryOf (items : List (Bytes × Nat)) (key : Bytes) : Option Nat :=
  (items.find? fun item => decide (item.1 = key)).map Prod.snd

variable (holds : (layout ss level).Holds t.view items)

include holds

theorem Holds.get_entry (key : Bytes) :
    t.view.get (bytesKey (levelHead ss level) key) =
      (entryOf items key).map fun count => rsEncodeLong (Int64.ofNat count) := by
  rw [entryOf]
  cases found : items.find? fun item => decide (item.1 = key) with
  | none =>
    refine holds.get_none (k := key) fun item member same => ?_
    have never := List.find?_eq_none.mp found item member
    exact never (decide_eq_true same)
  | some item =>
    have same : item.1 = key := by simpa using List.find?_some found
    rw [← same]
    exact holds.get (List.mem_of_find?_eq_some found)

omit holds in
theorem countCheckedKey_run (holds : (layout ss 0).Holds t.view items) (key : Bytes) :
    (countCheckedKey ss key).run t =
      (.ok ((entryOf items key).map Int64.ofNat), t.addRead (bytesKey (levelHead ss 0) key)
        (keyAfter (bytesKey (levelHead ss 0) key))) := by
  have read : (Tx.get (bytesKey (levelHead ss 0) key) : Tx Error _).run t =
      (.ok ((entryOf items key).map fun count => rsEncodeLong (Int64.ofNat count)),
        t.addRead (bytesKey (levelHead ss 0) key) (keyAfter (bytesKey (levelHead ss 0) key))) := by
    rw [← Holds.get_entry holds]
    rfl
  rw [countCheckedKey, Tx.run_bind_ok (levelKey_run 0 key), Tx.run_bind_ok read]
  cases entryOf items key with
  | none => rfl
  | some count => exact Tx.run_bind_ok (decodeLong_run _) _

def candidates (orEqual : Bool) (items : List (Bytes × Nat)) (key : Bytes) : List (Bytes × Nat) :=
  if orEqual then items else dropKey key items

theorem within_from (b : Bytes) {e : Key} {p : Bytes → Bool}
    (inside : e ≤ subspaceEnd (levelHead ss level)) (upTo : ∀ k, decide (bytesKey (levelHead ss level) k < e) = p k) :
    t.view.within (bytesKey (levelHead ss level) b) e =
      (items.filter fun item => decide (b ≤ item.1) && p item.1).map (layout ss level).row := by
  have spans : (layout ss level).Spans (bytesKey (levelHead ss level) b) e := fun k above below =>
    decide_eq_true ⟨(bytesKey_inside _ b).1.trans above, below.trans_le inside⟩
  refine (holds.within spans).trans (congrArg (List.map (layout ss level).row) (List.filter_congr fun item _ => ?_))
  rw [← upTo, Bool.decide_and]
  exact congrArg (· && _) (decide_eq_decide.mpr (bytesKey_le _))

omit holds in
theorem keyAfter_le_end (head key : Bytes) : keyAfter (bytesKey head key) ≤ subspaceEnd head :=
  keyAfter_le_iff.mpr (bytesKey_inside head key).2

omit holds in
theorem decide_lt_bytesKey (head key k : Bytes) : decide (bytesKey head k < bytesKey head key) = decide (k < key) :=
  decide_eq_decide.mpr (bytesKey_lt head)

omit holds in
theorem decide_lt_keyAfter (head key k : Bytes) :
    decide (bytesKey head k < keyAfter (bytesKey head key)) = decide (k ≤ key) :=
  decide_eq_decide.mpr (lt_keyAfter_iff.trans (bytesKey_le head))

private theorem previous_read {orEqual : Bool} {h : Bytes × Nat} (floor : Floor Prod.fst (candidates orEqual items key) key h) :
    (Tx.snapshotGetRange (bytesKey (levelHead ss level) [])
        (if orEqual then keyAfter (bytesKey (levelHead ss level) key) else bytesKey (levelHead ss level) key) 1 true :
        Tx Error _).run t = (.ok [(layout ss level).row h], t) := by
  have chosen : t.view.within (bytesKey (levelHead ss level) [])
      (if orEqual then keyAfter (bytesKey (levelHead ss level) key) else bytesKey (levelHead ss level) key) =
      ((candidates orEqual items key).filter fun item => decide (item.1 ≤ key)).map (layout ss level).row := by
    cases orEqual with
    | true =>
      refine (within_from holds [] (keyAfter_le_end _ key) (decide_lt_keyAfter _ key)).trans ?_
      simp only [nil_le, decide_true, Bool.true_and]
      rfl
    | false =>
      refine (within_from holds [] (bytesKey_inside _ key).2.le (decide_lt_bytesKey _ key)).trans ?_
      simp only [nil_le, decide_true, Bool.true_and, candidates, Bool.false_eq_true, if_false, dropKey, List.filter_filter]
      refine congrArg (List.map _) (List.filter_congr fun item _ => ?_)
      rw [← Bool.decide_and, decide_eq_decide, lt_iff_le_and_ne]
  have ordered : Ordered Prod.fst (candidates orEqual items key) := by
    cases orEqual with
    | true => exact holds.ordered
    | false => exact holds.ordered.dropKey key
  rw [Tx.snapshotGetRange]
  simp only [if_true, Snapshot.page_last, chosen, List.getLast?_map, floor.getLast_filter ordered]
  rfl

theorem getPreviousKey_run {orEqual : Bool} {h : Bytes × Nat}
    (floor : Floor Prod.fst (candidates orEqual items key) key h) :
    ∃ t', (getPreviousKey ss level key orEqual).run t = (.ok h.1, t') ∧ t'.view = t.view := by
  have conflict : ∃ t', (conflictBetween orEqual ((layout ss level).row h).key (bytesKey (levelHead ss level) key)).run t =
      (.ok (), t') ∧ t'.view = t.view := by
    rw [conflictBetween]
    by_cases same : (orEqual && decide (((layout ss level).row h).key = bytesKey (levelHead ss level) key)) = true
    · rw [if_pos same]
      exact ⟨t, rfl, rfl⟩
    · have less : h.1 < key := by
        refine floor.below.lt_of_ne fun equal => ?_
        cases orEqual with
        | true => exact same (decide_eq_true (congrArg (bytesKey (levelHead ss level)) equal))
        | false =>
          exact (mem_dropKey.mp floor.member).2 equal
      rw [if_neg same]
      exact ⟨_, Tx.run_addReadConflictRange (keyAfter_le_iff.mpr ((bytesKey_lt _).mpr less)), rfl⟩
  obtain ⟨t', ran, view⟩ := conflict
  refine ⟨t'.addRead (bytesKey (levelHead ss 0) h.1) (keyAfter (bytesKey (levelHead ss 0) h.1)), ?_, view⟩
  rw [getPreviousKey, Tx.run_bind_ok (levelKey_run level key), Tx.run_bind_ok (levelKey_run level []),
    Tx.run_bind_ok (previous_read holds floor)]
  refine (Tx.run_bind_ok ran _).trans ((Tx.run_bind_ok (keyBytesAt_level level h.1) _).trans ?_)
  rw [Tx.run_bind_ok (levelKey_run 0 h.1), Tx.run_bind_ok (Tx.run_addReadConflictKey _)]
  rfl

omit holds in
theorem sumCounts_run (sum : Nat) (rows : List (Bytes × Nat)) :
    (sumCounts (Int64.ofNat sum) (rows.map (layout ss level).row)).run t =
      (.ok (Int64.ofNat (sum + (rows.map Prod.snd).sum)), t) := by
  induction rows generalizing sum with
  | nil => rfl
  | cons item rows ih =>
    rw [List.map_cons, sumCounts]
    refine (Tx.run_bind_ok (decodeLong_run (Int64.ofNat item.2)) _).trans ?_
    rw [← Int64.ofNat_add, ih, List.map_cons, List.sum_cons, Nat.add_assoc]

omit holds in
theorem sum_filter_eq_weigh (p : Bytes → Bool) (items : List (Bytes × Nat)) :
    ((items.filter fun item => p item.1).map Prod.snd).sum = weigh p items := by
  induction items with
  | nil => rfl
  | cons item items ih =>
    cases kept : p item.1 with
    | true => rw [List.filter_cons_of_pos (by simpa using kept), List.map_cons, List.sum_cons, ih, weigh_cons, kept]; rfl
    | false => rw [List.filter_cons_of_neg (by simpa using kept), ih, weigh_cons, kept]; simp

theorem countRange_run (b e : Bytes) :
    ∃ t', (countRange ss level b e).run t = (.ok (Int64.ofNat (weigh (between b e) items)), t') ∧ t'.view = t.view := by
  have rows := within_from holds b (bytesKey_inside _ e).2.le (decide_lt_bytesKey _ e)
  have summed := @sumCounts_run ss (t.addRead (bytesKey (levelHead ss level) b) (bytesKey (levelHead ss level) e)) level 0
    (items.filter fun item => decide (b ≤ item.1) && decide (item.1 < e))
  have weight := sum_filter_eq_weigh (fun k => decide (b ≤ k) && decide (k < e)) items
  have same : (fun k => decide (b ≤ k) && decide (k < e)) = between (b : WithTop Bytes) (e : WithTop Bytes) := by
    funext k
    simp [between]
  rw [same] at weight
  rw [weight, Nat.zero_add] at summed
  refine ⟨t.addRead (bytesKey (levelHead ss level) b) (bytesKey (levelHead ss level) e), ?_, rfl⟩
  rw [countRange, Tx.run_bind_ok (levelSub_run level), Tx.run_bind_ok (pack_run _ b), Tx.run_bind_ok (pack_run _ e),
    Tx.run_bind_ok (Tx.run_getRange _ _), rows]
  exact summed

end Reads

end FdbGo.RecordLayer.RankedSet
