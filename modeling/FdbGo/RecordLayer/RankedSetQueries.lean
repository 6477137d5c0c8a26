import FdbGo.RecordLayer.RankedSetLevels

/-! What the queries of a ranked set answer, from the elements that its bottom level
counts. -/

set_option autoImplicit false

namespace FdbGo.RecordLayer.RankedSet

open Client Foundation FdbGo.Tuple

section Queries

variable {ss : Bytes} {config : Config} {t : Transaction} {levels : Levels} {key : Bytes} {level : Nat}
  (positive : 0 < config.nLevels) (inside : level < config.nLevels) (stored : Stored ss config.nLevels t.view levels)
  (shape : Shape config.nLevels levels)

/-! ## Counts -/

include positive stored in
theorem count_run (nonempty : key ≠ []) : ∃ t', (count ss key).run t = (.ok (Int64.ofNat (countOf (levels 0) key)), t') := by
  have counted := countCheckedKey_run (stored 0 positive) key
  rw [entryOf_eq (stored 0 positive).ordered] at counted
  rw [count, if_neg (mt List.eq_nil_of_length_eq_zero nonempty), Tx.run_bind_ok counted]
  split
  case isTrue => exact ⟨_, rfl⟩
  case isFalse absent =>
    rw [countOf_of_absent (apart_of_absent absent)]
    exact ⟨_, rfl⟩

include positive stored shape in
theorem size_run : ∃ t', (size ss config).run t = (.ok (Int64.ofNat (elementsOf (levels 0)).length), t') := by
  have top : config.nLevels - 1 < config.nLevels := by omega
  have rows : t.view.within (subspaceBegin (levelHead ss (config.nLevels - 1)))
      (subspaceEnd (levelHead ss (config.nLevels - 1))) =
      (levels (config.nLevels - 1)).map (layout ss (config.nLevels - 1)).row := (stored _ top).rows
  have total := (shape.sums _ top).total
  have summed := @sumCounts_run ss (t.addRead (subspaceBegin (levelHead ss (config.nLevels - 1)))
    (subspaceEnd (levelHead ss (config.nLevels - 1)))) (config.nLevels - 1) 0 (levels (config.nLevels - 1))
  rw [← sum_filter_eq_weigh, List.filter_true, ← length_elementsOf] at total
  rw [total, Nat.zero_add] at summed
  refine ⟨_, Eq.trans ?_ summed⟩
  rw [size, Tx.run_bind_ok (levelSub_run _), Tx.run_bind_ok (Tx.run_getRange _ _), rows]
  rfl

/-! ## Ranks -/

variable {items : List (Bytes × Nat)}

theorem rankRows_run (rank : Nat) (rankKey : Bytes) (lastCount : Int64) (front : List (Bytes × Nat))
    (last : Bytes × Nat) :
    (rankRows (levelHead ss level).length (Int64.ofNat rank) rankKey lastCount
      ((front ++ [last]).map (layout ss level).row)).run t =
      (.ok (Int64.ofNat (rank + (front.map Prod.snd).sum + last.2), last.1, Int64.ofNat last.2), t) := by
  induction front generalizing rank rankKey lastCount with
  | nil =>
    rw [List.nil_append, List.map_singleton, rankRows]
    refine (Tx.run_bind_ok (keyBytesAt_sub _ last.1) _).trans ?_
    refine (Tx.run_bind_ok (decodeLong_run (Int64.ofNat last.2)) _).trans ?_
    rw [← Int64.ofNat_add]
    rfl
  | cons item front ih =>
    rw [List.cons_append, List.map_cons, rankRows]
    refine (Tx.run_bind_ok (keyBytesAt_sub _ item.1) _).trans ?_
    refine (Tx.run_bind_ok (decodeLong_run (Int64.ofNat item.2)) _).trans ?_
    rw [← Int64.ofNat_add, ih, List.map_cons, List.sum_cons, Nat.add_assoc rank]

variable {h : Bytes × Nat}

/-- The items from one key up to another end with the last one that is not above it. -/
theorem rows_upTo (ordered : Ordered Prod.fst items) {b : Bytes} (floor : Floor Prod.fst items key h)
    (from_ : b ≤ h.1) :
    items.filter (fun item => decide (b ≤ item.1) && decide (item.1 ≤ key)) =
      items.filter (fun item => between b h.1 item.1) ++ [h] := by
  have single : Ordered Prod.fst [h] := List.pairwise_singleton _ _
  have joined : Ordered Prod.fst (items.filter (fun item => between b h.1 item.1) ++ [h]) := by
    refine List.pairwise_append.mpr ⟨ordered.filter _, single, fun item member other isOther => ?_⟩
    rw [List.mem_singleton.mp isOther]
    have inside := of_decide_eq_true (List.mem_filter.mp member).2
    exact WithTop.coe_lt_coe.mp inside.2
  refine (ordered.filter _).ext joined fun item => ?_
  rw [List.mem_filter, List.mem_append, List.mem_filter, List.mem_singleton, between, decide_eq_true_eq,
    Bool.and_eq_true, decide_eq_true_eq, decide_eq_true_eq, WithTop.coe_le_coe, WithTop.coe_lt_coe]
  constructor
  · intro found
    obtain ⟨member, above, upTo⟩ := found
    cases (floor.greatest item member upTo).lt_or_eq with
    | inl less => exact .inl ⟨member, above, less⟩
    | inr same => exact .inr (ordered.eq_of_key_eq member floor.member same)
  · intro found
    cases found with
    | inl before => exact ⟨before.1, before.2.1, before.2.2.le.trans floor.below⟩
    | inr same =>
      rw [same]
      exact ⟨floor.member, from_, floor.below⟩

/-- One level in the descent of `Rank`: the rank of the last key of the level that is not
above the key. -/
theorem rankLevel_run (holds : (layout ss level).Holds t.view items) (sums : SumsUp items (levels 0))
    {b : Bytes × Nat} (isKey : b ∈ items) (floor : Floor Prod.fst items key h) (upTo : b.1 ≤ key) (present : Bool) :
    ∃ t', (rankLevels ss key present (level + 1) b.1 (Int64.ofNat (weigh (under b.1) (levels 0)))).run t =
        (if h.1 = key then pure (Int64.ofNat (weigh (under h.1) (levels 0)))
          else rankLevels ss key present level h.1
            (if !present && decide (level = 0) && decide (0 < Int64.ofNat h.2)
              then Int64.ofNat (weigh (under h.1) (levels 0)) + 1 else Int64.ofNat (weigh (under h.1) (levels 0)))).run t' ∧
      t'.view = t.view := by
  have from_ : b.1 ≤ h.1 := floor.greatest b isKey upTo
  have bounds := within_from holds b.1 (keyAfter_le_end _ key) (decide_lt_keyAfter _ key)
  rw [rows_upTo holds.ordered floor from_] at bounds
  have lifted : ((b.1 : Bytes) : WithTop Bytes) ≤ h.1 := WithTop.coe_le_coe.mpr from_
  have weight := weigh_between lifted (levels 0)
  rw [← sums.between (.inr ⟨b, isKey, rfl⟩) (.inr ⟨h, floor.member, rfl⟩) lifted,
    ← sum_filter_eq_weigh (between (b.1 : WithTop Bytes) h.1)] at weight
  refine ⟨t.addRead (bytesKey (levelHead ss level) b.1) (keyAfter (bytesKey (levelHead ss level) key)), ?_, rfl⟩
  rw [rankLevels, Tx.run_bind_ok (levelSub_run level), Tx.run_bind_ok (pack_run _ b.1), Tx.run_bind_ok (pack_run _ key)]
  refine (Tx.run_bind_ok (Tx.run_getRange _ (keyAfter (bytesKey (levelHead ss level) key))) _).trans ?_
  rw [bounds, Tx.run_bind_ok (rankRows_run _ _ _ _ h)]
  dsimp only
  rw [← ofNat_sub (Nat.le_add_left _ _), Nat.add_sub_cancel, ← weight]

include inside stored shape in
/-- The descent of `Rank` reaches the bottom level, if it does not find the key above it. -/
theorem rankLevels_descends (present : Bool) {b : Bytes × Nat} (from_ : b ∈ levels level) (upTo : b.1 ≤ key) :
    ∃ t', t'.view = t.view ∧
      (key ∈ keysOf (levels 0) ∧
          (rankLevels ss key present (level + 1) b.1 (Int64.ofNat (weigh (under b.1) (levels 0)))).run t =
            (.ok (Int64.ofNat (weigh (under key) (levels 0))), t') ∨
        ∃ low ∈ levels 0, low.1 ≤ key ∧
          (rankLevels ss key present (level + 1) b.1 (Int64.ofNat (weigh (under b.1) (levels 0)))).run t =
            (rankLevels ss key present 1 low.1 (Int64.ofNat (weigh (under low.1) (levels 0)))).run t') := by
  induction level generalizing b t with
  | zero => exact ⟨t, rfl, .inr ⟨b, from_, upTo, rfl⟩⟩
  | succ level ih =>
    obtain ⟨h, floor⟩ := exists_floor_key (shape.sentinel _ inside) key
    obtain ⟨t₁, ran, view⟩ := rankLevel_run (stored _ inside) (shape.sums _ inside) from_ floor upTo present
    have listed : h.1 ∈ keysOf (levels (level + 1)) := mem_keysOf.mpr ⟨h, floor.member, rfl⟩
    by_cases same : h.1 = key
    · rw [if_pos same, same] at ran
      exact ⟨t₁, view, .inl ⟨shape.bottomKey inside (same ▸ listed), ran⟩⟩
    · obtain ⟨lower, isLower, sameKey⟩ := mem_keysOf.mp (shape.nested level inside h.1 listed)
      obtain ⟨t', viewRest, rest⟩ := ih (by omega) (stored.view view) isLower (sameKey.trans_le floor.below)
      have higher : (!present && decide (level + 1 = 0) && decide (0 < Int64.ofNat h.2)) = false := by
        simp
      rw [if_neg same, higher, ← sameKey] at ran
      refine ⟨t', viewRest.trans view, rest.imp (And.imp_right ran.trans) fun reached => ?_⟩
      obtain ⟨low, isLow, lowUpTo, ranRest⟩ := reached
      exact ⟨low, isLow, lowUpTo, ran.trans ranRest⟩

private theorem weigh_under_absent (ordered : Ordered Prod.fst items) (absent : key ∉ keysOf items)
    (floor : Floor Prod.fst items key h) : weigh (under key) items = weigh (under h.1) items + h.2 := by
  have only : weigh (between (h.1 : WithTop Bytes) key) items = countOf items h.1 := by
    refine weigh_congr fun item member => decide_eq_decide.mpr ?_
    have other := apart_of_absent absent item member
    rw [WithTop.coe_le_coe, WithTop.coe_lt_coe]
    exact ⟨fun inside => (floor.greatest item member inside.2.le).antisymm inside.1,
      fun same => ⟨same.ge, (same.trans_le floor.below).lt_of_ne other⟩⟩
  rw [weigh_between (WithTop.coe_le_coe.mpr floor.below), only, ordered.countOf_eq floor.member]

theorem floor_of_listed (floor : Floor Prod.fst items key h) (listed : key ∈ keysOf items) : h.1 = key := by
  obtain ⟨item, member, rfl⟩ := mem_keysOf.mp listed
  exact floor.below.antisymm (floor.greatest item member le_rfl)

include inside stored shape in
/-- The descent of `Rank`: the elements before the key, but the closest one below an absent
key is counted once at most. -/
theorem rankLevels_run {present : Bool} (known : key ∈ keysOf (levels 0) ∨ present = false)
    (floor : Floor Prod.fst (levels 0) key h) (few : h.2 < 2 ^ 63) {b : Bytes × Nat} (from_ : b ∈ levels level)
    (upTo : b.1 ≤ key) :
    ∃ t' rank, (rankLevels ss key present (level + 1) b.1 (Int64.ofNat (weigh (under b.1) (levels 0)))).run t =
        (.ok (Int64.ofNat rank), t') ∧
      rank + (if h.1 = key then 0 else h.2 - 1) = weigh (under key) (levels 0) := by
  obtain ⟨t₁, view, ⟨listed, ran⟩ | ⟨low, isLow, lowUpTo, ran⟩⟩ :=
    rankLevels_descends inside stored shape present from_ upTo
  · exact ⟨t₁, _, ran, by rw [if_pos (floor_of_listed floor listed), Nat.add_zero]⟩
  have bottom := stored.view view 0 (by omega)
  obtain ⟨t', ranRest, -⟩ := rankLevel_run bottom (.refl _) isLow floor lowUpTo present
  by_cases same : h.1 = key
  · rw [if_pos same] at ranRest
    exact ⟨t', _, ran.trans ranRest, by rw [if_pos same, Nat.add_zero, same]⟩
  · have absent : key ∉ keysOf (levels 0) := fun listed => same (floor_of_listed floor listed)
    obtain rfl := known.resolve_left absent
    rw [if_neg same] at ranRest
    rw [if_neg same, weigh_under_absent bottom.ordered absent floor]
    by_cases none : h.2 = 0
    · rw [none] at ranRest ⊢
      exact ⟨t', _, ran.trans ranRest, rfl⟩
    · have some : 0 < Int64.ofNat h.2 := (ofNat_pos few).mpr (Nat.pos_of_ne_zero none)
      rw [decide_eq_true some, show (1 : Int64) = Int64.ofNat 1 from rfl, ← Int64.ofNat_add] at ranRest
      exact ⟨t', _, ran.trans ranRest, by omega⟩

theorem weigh_under_nil (items : List (Bytes × Nat)) : weigh (under ([] : Bytes)) items = 0 := by
  have never : ∀ item ∈ items, under (([] : Bytes) : WithTop Bytes) item.1 = (fun _ => false) item.1 :=
    fun item _ => decide_eq_false (not_lt.mpr (WithTop.coe_le_coe.mpr (nil_le item.1)))
  rw [weigh_congr (q := fun _ => false) never]
  simp [weigh]

include positive stored shape in
theorem rank_run (nonempty : key ≠ []) (small : ∀ k, countOf (levels 0) k < 2 ^ 63)
    (floor : Floor Prod.fst (levels 0) key h) {nullIfMissing : Bool}
    (known : 0 < countOf (levels 0) key ∨ nullIfMissing = false) :
    ∃ t' rank, (RankedSet.rank ss config key nullIfMissing).run t = (.ok (some (Int64.ofNat rank)), t') ∧
      rank + (if h.1 = key then 0 else h.2 - 1) = weigh (under key) (levels 0) := by
  have isKey := shape.present_iff (stored 0 positive).ordered nonempty
  have checked : ∃ t', (isMissing ss key nullIfMissing).run t = (.ok false, t') ∧ t'.view = t.view := by
    cases nullIfMissing with
    | true =>
      have present := known.resolve_right Bool.noConfusion
      obtain ⟨t₁, counted, view⟩ := counted_run positive stored shape nonempty
      rw [if_pos present] at counted
      have more : ¬ Int64.ofNat (countOf (levels 0) key) ≤ 0 := by
        rw [Int64.not_le]
        exact (ofNat_pos (small key)).mpr present
      refine ⟨t₁, (Tx.run_bind_ok counted _).trans ?_, view⟩
      simp [more]
    | false => exact ⟨t, rfl, rfl⟩
  obtain ⟨t₁, ran, view⟩ := checked
  obtain ⟨last, levelsEq⟩ := Nat.exists_eq_succ_of_ne_zero positive.ne'
  obtain ⟨first, isFirst, empty⟩ := mem_keysOf.mp (shape.sentinel last (by omega))
  have few : h.2 < 2 ^ 63 := (stored 0 positive).ordered.countOf_eq floor.member ▸ small h.1
  obtain ⟨t', answer, ranked, total⟩ := rankLevels_run (by omega) (stored.view view) shape
    (known.imp_left isKey.mpr) floor few isFirst (empty ▸ nil_le key)
  rw [empty, weigh_under_nil] at ranked
  refine ⟨t', answer, ?_, total⟩
  rw [rank, if_neg (mt List.eq_nil_of_length_eq_zero nonempty), Tx.run_bind_ok ran, if_neg Bool.false_ne_true, levelsEq]
  exact Tx.run_bind_ok ranked _

/-! ## Elements by rank -/

theorem weigh_before {before rest : List (Bytes × Nat)} {item : Bytes × Nat}
    (ordered : Ordered Prod.fst (before ++ item :: rest)) :
    weigh (under item.1) (before ++ item :: rest) = weigh (fun _ => true) before := by
  obtain ⟨_, from_, less⟩ := List.pairwise_append.mp ordered
  have below : ∀ other ∈ before, under (item.1 : WithTop Bytes) other.1 = (fun _ => true) other.1 :=
    fun other member => decide_eq_true (WithTop.coe_lt_coe.mpr (less other member item List.mem_cons_self))
  have above : ∀ other ∈ item :: rest, under (item.1 : WithTop Bytes) other.1 = (fun _ => false) other.1 := by
    intro other member
    exact decide_eq_false (not_lt.mpr (WithTop.coe_le_coe.mpr (Ordered.head_le from_ other member)))
  rw [weigh_append, weigh_congr (q := fun _ => true) below, weigh_congr (q := fun _ => false) above]
  simp [weigh]

def Places (items : List (Bytes × Nat)) (place : Nat) : Nth → Prop
  | .found key => key ∈ keysOf items ∧ key ≠ [] ∧ weigh (under key) items = place
  | .drillDown key rank => ∃ r, rank = Int64.ofNat r ∧ ∃ item ∈ items, item.1 = key ∧ r < item.2 ∧
      weigh (under key) items + r = place ∧ (key ≠ [] → 0 < r)
  | .outOfBounds => weigh (fun _ => true) items ≤ place

private theorem nthRows_cons (rank : Int64) (item : Bytes × Nat) (rows : List KeyValue) :
    (nthRows (levelHead ss level).length rank ((layout ss level).row item :: rows)).run t =
      (if rank = 0 ∧ 0 < item.1.length then pure (.found item.1)
        else if rank < Int64.ofNat item.2 then pure (.drillDown item.1 rank)
        else nthRows (levelHead ss level).length (rank - Int64.ofNat item.2) rows).run t := by
  have read : (keyBytesAt (levelHead ss level).length 0 ((layout ss level).row item).key).run t = (.ok item.1, t) :=
    keyBytesAt_sub _ item.1
  have counted : (decodeLong (some ((layout ss level).row item).value)).run t = (.ok (Int64.ofNat item.2), t) :=
    decodeLong_run _
  rw [nthRows, Tx.run_bind_ok read]
  by_cases here : rank = 0 ∧ 0 < item.1.length
  · rw [if_pos here, if_pos here]
  · rw [if_neg here, if_neg here, Tx.run_bind_ok counted]

theorem nthRows_run {before rows : List (Bytes × Nat)} (ordered : Ordered Prod.fst items)
    (split : items = before ++ rows) (small : weigh (fun _ => true) items < 2 ^ 63) {r : Nat} (fits : r < 2 ^ 63) :
    ∃ nth, (nthRows (levelHead ss level).length (Int64.ofNat r) (rows.map (layout ss level).row)).run t = (.ok nth, t) ∧
      Places items (weigh (fun _ => true) before + r) nth := by
  induction rows generalizing before r with
  | nil =>
    rw [List.append_nil] at split
    refine ⟨.outOfBounds, rfl, ?_⟩
    rw [Places, split]
    exact Nat.le_add_right _ _
  | cons item rows ih =>
    have member : item ∈ items := by
      rw [split]
      exact List.mem_append_right _ List.mem_cons_self
    have place : weigh (under item.1) items = weigh (fun _ => true) before := by
      rw [split] at ordered ⊢
      exact weigh_before ordered
    have total : weigh (fun _ => true) items = weigh (fun _ => true) before + item.2 + weigh (fun _ => true) rows := by
      rw [split, weigh_append, weigh_cons, if_pos rfl, Nat.add_assoc]
    have isZero : Int64.ofNat r = 0 ↔ r = 0 := by
      rw [← Int64.toInt_inj, toInt_ofNat fits]
      exact Int.natCast_eq_zero
    rw [List.map_cons, nthRows_cons]
    by_cases here : Int64.ofNat r = 0 ∧ 0 < item.1.length
    · rw [if_pos here]
      refine ⟨.found item.1, rfl, mem_keysOf.mpr ⟨item, member, rfl⟩, List.length_pos_iff.mp here.2, ?_⟩
      rw [isZero.mp here.1, place, Nat.add_zero]
    · have counted : item.2 < 2 ^ 63 := by omega
      have less : Int64.ofNat r < Int64.ofNat item.2 ↔ r < item.2 := by
        rw [Int64.lt_iff_toInt_lt, toInt_ofNat fits, toInt_ofNat counted]
        exact Int.ofNat_lt
      rw [if_neg here]
      by_cases inside : r < item.2
      · have later : item.1 ≠ [] → 0 < r := fun named =>
          Nat.pos_of_ne_zero fun zero => here ⟨isZero.mpr zero, List.length_pos_iff.mpr named⟩
        rw [if_pos (less.mpr inside)]
        exact ⟨.drillDown item.1 (Int64.ofNat r), rfl, r, rfl, item, member, rfl, inside, by rw [place], later⟩
      · have next : items = (before ++ [item]) ++ rows := by
          rw [split, List.append_assoc]
          rfl
        obtain ⟨nth, ran, placed⟩ := ih next (show r - item.2 < 2 ^ 63 by omega)
        have same : weigh (fun _ => true) (before ++ [item]) + (r - item.2) = weigh (fun _ => true) before + r := by
          rw [weigh_append, weigh_cons, if_pos rfl, weigh_nil]
          omega
        rw [if_neg (fun isLess => inside (less.mp isLess)), ← ofNat_sub (not_lt.mp inside)]
        exact ⟨nth, ran, same ▸ placed⟩

private theorem rows_from (holds : (layout ss level).Holds t.view items) {b : Bytes × Nat} (member : b ∈ items) :
    ∃ before rows, items = before ++ rows ∧ weigh (fun _ => true) before = weigh (under b.1) items ∧
      t.view.within (bytesKey (levelHead ss level) b.1) (subspaceEnd (levelHead ss level)) =
        rows.map (layout ss level).row := by
  have ordered : Ordered Prod.fst items := holds.ordered
  obtain ⟨before, rest, split⟩ := List.append_of_mem member
  refine ⟨before, b :: rest, split, ?_, ?_⟩
  · rw [split] at ordered ⊢
    exact (weigh_before ordered).symm
  · refine (within_from holds b.1 le_rfl (p := fun _ => true) fun k => decide_eq_true (bytesKey_inside _ k).2).trans ?_
    rw [split] at ordered ⊢
    obtain ⟨_, from_, less⟩ := List.pairwise_append.mp ordered
    rw [List.filter_append, List.filter_eq_nil_iff.mpr, List.filter_eq_self.mpr, List.nil_append]
    · intro other isOther
      rw [Bool.and_true, decide_eq_true_eq]
      exact Ordered.head_le from_ other isOther
    · intro other isOther
      rw [Bool.and_true, decide_eq_true_eq]
      exact not_le.mpr (less other isOther b List.mem_cons_self)

theorem nthLevel_run (holds : (layout ss level).Holds t.view items)
    (small : weigh (fun _ => true) items < 2 ^ 63) {b : Bytes × Nat} (isKey : b ∈ items) {r : Nat} (fits : r < 2 ^ 63) :
    ∃ nth t', (nthLevels ss config (level + 1) b.1 (Int64.ofNat r)).run t =
        (match nth with
          | .found key => pure (some key)
          | .outOfBounds => pure none
          | .drillDown key rank => nthLevels ss config level key rank : Tx Error (Option Bytes)).run t' ∧
      t'.view = t.view ∧ Places items (weigh (under b.1) items + r) nth := by
  obtain ⟨before, rows, split, place, read⟩ := rows_from holds isKey
  obtain ⟨nth, ran, placed⟩ := @nthRows_run ss
    (t.addRead (bytesKey (levelHead ss level) b.1) (subspaceEnd (levelHead ss level))) level items before rows
    holds.ordered split small r fits
  rw [place] at placed
  refine ⟨nth, t.addRead (bytesKey (levelHead ss level) b.1) (subspaceEnd (levelHead ss level)), ?_, rfl, placed⟩
  rw [nthLevels, Tx.run_bind_ok (levelSub_run level), Tx.run_bind_ok (pack_run _ b.1),
    Tx.run_bind_ok (Tx.run_getRange _ _), read]
  exact Tx.run_bind_ok ran _

section

include inside shape

theorem Shape.place_eq (isKey : key ∈ keysOf (levels level)) : weigh (under key) (levels level) = weigh (under key) (levels 0) := by
  obtain ⟨item, member, rfl⟩ := mem_keysOf.mp isKey
  exact shape.sums level inside item.1 (.inr ⟨item, member, rfl⟩)

theorem Shape.element_of_key (ordered : Ordered Prod.fst (levels 0)) (isKey : key ∈ keysOf (levels level)) (nonempty : key ≠ []) :
    (elementsOf (levels 0))[weigh (under key) (levels level)]? = some key := by
  rw [shape.place_eq inside isKey]
  obtain ⟨item, member, rfl⟩ := mem_keysOf.mp (shape.bottomKey inside isKey)
  exact ordered.elementsOf_get member (shape.positive item member nonempty)

theorem Shape.element_outside {place : Nat} (outside : weigh (fun _ => true) (levels level) ≤ place) : (elementsOf (levels 0))[place]? = none := by
  rw [(shape.sums level inside).total, ← length_elementsOf] at outside
  exact List.getElem?_eq_none outside

include stored in
/-- The descent of `GetNth`: the element at a place. -/
theorem nthLevels_run (small : (elementsOf (levels 0)).length < 2 ^ 63)
    (single : config.countDuplicates = false → ∀ item ∈ levels 0, item.2 ≤ 1) {b : Bytes × Nat} (isKey : b ∈ levels level) {r : Nat} (fits : r < 2 ^ 63) :
    ∃ t', (nthLevels ss config (level + 1) b.1 (Int64.ofNat r)).run t =
      (.ok (elementsOf (levels 0))[weigh (under b.1) (levels 0) + r]?, t') := by
  have positive : 0 < config.nLevels := by omega
  have ordered : Ordered Prod.fst (levels 0) := (stored 0 positive).ordered
  induction level generalizing b r t with
  | zero =>
    have total : weigh (fun _ => true) (levels 0) < 2 ^ 63 := by rwa [← length_elementsOf]
    obtain ⟨nth, t', ran, -, placed⟩ := @nthLevel_run ss config t 0 (levels 0) (stored 0 inside) total b isKey r fits
    refine ⟨t', ran.trans ?_⟩
    cases nth with
    | found key =>
      obtain ⟨found, nonempty, place⟩ := placed
      rw [← place, shape.element_of_key inside ordered found nonempty]
      rfl
    | outOfBounds =>
      rw [shape.element_outside inside placed]
      rfl
    | drillDown key rank =>
      obtain ⟨r', -, item, member, rfl, less, place, later⟩ := placed
      have nonempty : item.1 ≠ [] := by
        intro empty
        have sentinel := ordered.eq_of_key_eq member shape.bottom empty
        rw [sentinel] at less
        exact absurd less (Nat.not_lt_zero _)
      have counts : config.countDuplicates = true := by
        by_contra not
        have one := single (Bool.eq_false_iff.mpr not) item member
        have more := later nonempty
        omega
      rw [← place, ordered.elementsOf_get member less]
      simp [nthLevels, counts, List.length_pos_iff, nonempty]
  | succ level ih =>
    have total : weigh (fun _ => true) (levels (level + 1)) < 2 ^ 63 := by
      rwa [(shape.sums _ inside).total, ← length_elementsOf]
    obtain ⟨nth, t₁, ran, view, placed⟩ := @nthLevel_run ss config t (level + 1) (levels (level + 1)) (stored _ inside)
      total b isKey r fits
    rw [shape.place_eq inside (mem_keysOf.mpr ⟨b, isKey, rfl⟩)] at placed
    cases nth with
    | found key =>
      obtain ⟨found, nonempty, place⟩ := placed
      refine ⟨t₁, ran.trans ?_⟩
      rw [← place, shape.element_of_key inside ordered found nonempty]
      rfl
    | outOfBounds =>
      refine ⟨t₁, ran.trans ?_⟩
      rw [shape.element_outside inside placed]
      rfl
    | drillDown key rank =>
      obtain ⟨r', rfl, item, member, rfl, less, place, -⟩ := placed
      have listed : item.1 ∈ keysOf (levels (level + 1)) := mem_keysOf.mpr ⟨item, member, rfl⟩
      have bound : item.2 ≤ weigh (fun _ => true) (levels (level + 1)) := by
        rw [← (stored (level + 1) inside).ordered.countOf_eq member]
        exact weigh_mono fun _ _ _ => rfl
      obtain ⟨lower, isLower, sameKey⟩ := mem_keysOf.mp (shape.nested level inside item.1 listed)
      obtain ⟨t', ranRest⟩ := @ih t₁ (by omega) (stored.view view) lower isLower r' (by omega)
      rw [shape.place_eq inside listed] at place
      rw [sameKey, place] at ranRest
      exact ⟨t', ran.trans ranRest⟩

end

include positive stored shape in
theorem getNth_run (small : (elementsOf (levels 0)).length < 2 ^ 63)
    (single : config.countDuplicates = false → ∀ item ∈ levels 0, item.2 ≤ 1) (rank : Int64) :
    ∃ t', (getNth ss config rank).run t =
      (.ok (if rank < 0 then none else (elementsOf (levels 0))[rank.toInt.toNat]?), t') := by
  rw [getNth]
  by_cases negative : rank < 0
  · rw [if_pos negative, if_pos negative]
    exact ⟨t, rfl⟩
  · rw [if_neg negative, if_neg negative]
    have from_ : 0 ≤ rank.toInt := by
      rw [Int64.lt_iff_toInt_lt, not_lt] at negative
      exact negative
    have upTo : rank.toInt < 2 ^ 63 := Int64.toInt_lt rank
    have same : rank = Int64.ofNat rank.toInt.toNat := by
      rw [← Int64.toInt_inj, toInt_ofNat (by omega), Int.toNat_of_nonneg from_]
    obtain ⟨last, levelsEq⟩ := Nat.exists_eq_succ_of_ne_zero positive.ne'
    obtain ⟨first, isFirst, empty⟩ := mem_keysOf.mp (shape.sentinel last (by omega))
    obtain ⟨t', ran⟩ := nthLevels_run (show last < config.nLevels by omega) stored shape small single isFirst
      (show rank.toInt.toNat < 2 ^ 63 by omega)
    rw [empty, weigh_under_nil, Nat.zero_add, ← same] at ran
    rw [levelsEq]
    exact ⟨t', ran⟩

end Queries

end FdbGo.RecordLayer.RankedSet
