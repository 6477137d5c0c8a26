import FdbGo.RecordLayer.RankedSetWrites

/-! Additions and removals over all levels: each level stays a part of the one below, and
sums up the bottom one. -/

set_option autoImplicit false

namespace FdbGo.RecordLayer.RankedSet

open Client Foundation FdbGo.Tuple

abbrev Levels := Nat → List (Bytes × Nat)

def Stored (ss : Bytes) (n : Nat) (d : Snapshot) (levels : Levels) : Prop :=
  ∀ level, level < n → (layout ss level).Holds d (levels level)

/-- The skip list: every level starts with the empty key, holds keys of the level below,
and counts what the bottom level holds up to its next key. -/
structure Shape (n : Nat) (levels : Levels) : Prop where
  bottom : ([], 0) ∈ levels 0
  sentinel : ∀ level, level < n → [] ∈ keysOf (levels level)
  nested : ∀ level, level + 1 < n → ∀ k ∈ keysOf (levels (level + 1)), k ∈ keysOf (levels level)
  sums : ∀ level, level < n → SumsUp (levels level) (levels 0)
  positive : ∀ item ∈ levels 0, item.1 ≠ [] → 0 < item.2

section Levels

variable {ss : Bytes} {n : Nat} {t t' : Transaction} {levels : Levels} {key : Bytes}

theorem Stored.view (stored : Stored ss n t.view levels) (same : t'.view = t.view) : Stored ss n t'.view levels := by
  rw [same]
  exact stored

variable {items : List (Bytes × Nat)} {level : Nat}

theorem Stored.update (few : n ≤ 8) (stored : Stored ss n t.view levels) (inside : level < n)
    (rewrites : (layout ss level).Rewrites t.view t'.view items) :
    Stored ss n t'.view (Function.update levels level items) := by
  intro other otherInside
  by_cases same : other = level
  · subst same
    rw [Function.update_self]
    exact rewrites.holds
  · rw [Function.update_of_ne same]
    refine rewrites.frame (fun k inRegion => ?_) (stored other otherInside)
    exact levels_apart (by omega) (by omega) same inRegion

variable {current new : Levels} {k : Bytes}

/-- A key of any level is a key of the bottom one. -/
theorem Shape.bottomKey (shape : Shape n levels) (inside : level < n) (member : k ∈ keysOf (levels level)) :
    k ∈ keysOf (levels 0) := by
  induction level with
  | zero => exact member
  | succ level ih => exact ih (by omega) (shape.nested level inside k member)

theorem forLevels_run (few : n ≤ 8) {body : Nat → Tx Error Unit} {done : Nat → List (Bytes × Nat) → Prop}
    (step : ∀ (level : Nat) (t : Transaction) (current : Levels), level < n → Stored ss n t.view current →
      current level = levels level → (∀ j, j < level → done j (current j)) →
      ∃ t' items, (body level).run t = (.ok (), t') ∧ (layout ss level).Rewrites t.view t'.view items ∧ done level items)
    {remaining level : Nat} (count : level + remaining = n) {current : Levels} (stored : Stored ss n t.view current)
    (ahead : ∀ j, level ≤ j → current j = levels j) (finished : ∀ j, j < level → done j (current j)) :
    ∃ t' new, (forLevels body remaining level).run t = (.ok (), t') ∧ Stored ss n t'.view new ∧
      ∀ j, j < n → done j (new j) := by
  induction remaining generalizing level current t with
  | zero =>
    have all : level = n := count
    subst all
    exact ⟨t, current, rfl, stored, finished⟩
  | succ remaining ih =>
    have inside : level < n := by omega
    obtain ⟨t₁, items, ran, rewrites, isDone⟩ := step level t current inside stored (ahead level le_rfl) finished
    have next : level + 1 + remaining = n := by omega
    obtain ⟨t', new, ranRest, storedNew, allDone⟩ := ih next (stored.update few inside rewrites)
      (fun j later => by
        have apart : j ≠ level := by omega
        rw [Function.update_of_ne apart]
        exact ahead j (by omega))
      (fun j earlier => by
        by_cases same : j = level
        · subst same
          rw [Function.update_self]
          exact isDone
        · rw [Function.update_of_ne same]
          exact finished j (by omega))
    refine ⟨t', new, ?_, storedNew, allDone⟩
    rw [forLevels, Tx.run_bind_ok ran, ranRest]

/-! ## Initialization -/

theorem initLevel_run (holds : (layout ss level).Holds t.view items) :
    ∃ t', (initLevel ss level).run t = (.ok (), t') ∧
      (layout ss level).Rewrites t.view t'.view (if [] ∈ keysOf items then items else put Prod.fst ([], 0) items) := by
  rw [initLevel, Tx.run_bind_ok (levelKey_run level []), Tx.run_bind_ok (Tx.run_get _), Holds.get_entry holds]
  cases entry : entryOf items [] with
  | none =>
    rw [if_neg (entryOf_none_iff.mp entry)]
    exact ⟨_, rfl, rewrites_set (.of_eq rfl holds) [] 0⟩
  | some count =>
    have isKey : [] ∈ keysOf items := by
      by_contra absent
      rw [entryOf_none_iff.mpr absent] at entry
      cases entry
    rw [if_pos isKey]
    exact ⟨_, rfl, .of_eq rfl holds⟩

variable {config : Config}

theorem init_levels (few : config.nLevels ≤ 8) (stored : Stored ss config.nLevels t.view levels) :
    ∃ t' new, (init ss config).run t = (.ok (), t') ∧ Stored ss config.nLevels t'.view new ∧
      ∀ j, j < config.nLevels → new j = if [] ∈ keysOf (levels j) then levels j else put Prod.fst ([], 0) (levels j) := by
  refine @forLevels_run ss config.nLevels t levels few (initLevel ss)
    (fun j items => items = if [] ∈ keysOf (levels j) then levels j else put Prod.fst ([], 0) (levels j))
    (fun level t current inside storedNow ahead _ => ?_)
    config.nLevels 0 (Nat.zero_add _) levels stored (fun _ _ => rfl) (fun _ never => absurd never (Nat.not_lt_zero _))
  have holds := storedNow level inside
  rw [ahead] at holds
  obtain ⟨t', ran, rewrites⟩ := initLevel_run holds
  exact ⟨t', _, ran, rewrites, rfl⟩

theorem init_again (few : config.nLevels ≤ 8) (stored : Stored ss config.nLevels t.view levels)
    (shape : Shape config.nLevels levels) :
    ∃ t', (init ss config).run t = (.ok (), t') ∧ Stored ss config.nLevels t'.view levels := by
  obtain ⟨t', new, ran, storedNew, same⟩ := init_levels few stored
  refine ⟨t', ran, fun level inside => ?_⟩
  have kept := same level inside
  rw [if_pos (shape.sentinel level inside)] at kept
  rw [← kept]
  exact storedNew level inside

theorem init_empty (few : config.nLevels ≤ 8) (stored : Stored ss config.nLevels t.view fun _ => []) :
    ∃ t', (init ss config).run t = (.ok (), t') ∧ Stored ss config.nLevels t'.view (fun _ => [([], 0)]) := by
  obtain ⟨t', new, ran, storedNew, first⟩ := init_levels few stored
  refine ⟨t', ran, fun level inside => ?_⟩
  have made : new level = [([], 0)] := (first level inside).trans (if_neg List.not_mem_nil)
  rw [← made]
  exact storedNew level inside

theorem shape_empty (n : Nat) : Shape n fun _ => [([], 0)] where
  bottom := List.mem_cons_self
  sentinel _ _ := List.mem_cons_self
  nested _ _ _ isKey := isKey
  sums _ _ := .refl _
  positive _ member named := absurd (congrArg Prod.fst (List.mem_singleton.mp member)) named

/-! ## Adding -/

private theorem fanValue_and (few : level + 1 < 8) :
    rankedSetLevelFanValue (level + 1) &&& rankedSetLevelFanValue level = rankedSetLevelFanValue level := by
  have all : ∀ level : Fin 7, rankedSetLevelFanValue (level.val + 1) &&& rankedSetLevelFanValue level.val =
      rankedSetLevelFanValue level.val := by decide
  exact all ⟨level, by omega⟩

variable {keyHash : Int32}

private theorem skipsLevel_mono (few : level + 1 < 8) (heads : skipsLevel keyHash (level + 1) = false) :
    skipsLevel keyHash level = false := by
  have none : keyHash &&& rankedSetLevelFanValue (level + 1) = 0 := by simpa [skipsLevel] using heads
  have less : keyHash &&& rankedSetLevelFanValue level = 0 := by
    rw [← fanValue_and few, ← Int32.and_assoc, none, Int32.zero_and]
  simp [skipsLevel, less]

def headsLevel (keyHash : Int32) (duplicate : Bool) (level : Nat) : Bool :=
  decide (level = 0) || !(duplicate || skipsLevel keyHash level)

theorem headsLevel_succ {duplicate : Bool} (few : level + 1 < 8)
    (heads : headsLevel keyHash duplicate (level + 1) = true) : headsLevel keyHash duplicate level = true := by
  simp only [headsLevel, Nat.add_one_ne_zero, decide_false, Bool.false_or, Bool.not_eq_true',
    Bool.or_eq_false_iff] at heads
  simp [headsLevel, heads.1, skipsLevel_mono few heads.2]

variable {keyHash : Int32} {duplicate : Bool} {bottom : List (Bytes × Nat)}

theorem grown_put (items : List (Bytes × Nat)) (key : Bytes) (p : Bytes → Bool) :
    weigh p (put Prod.fst (key, countOf items key + 1) items) = weigh p items + if p key then 1 else 0 := by
  have put := weigh_put p items key (countOf items key + 1)
  split_ifs at put ⊢ <;> omega

theorem addStep_run (few : n ≤ 8) (shape : Shape n levels)
    (bottomNew : bottom = put Prod.fst (key, countOf (levels 0) key + 1) (levels 0))
    (present : duplicate = true ↔ key ∈ keysOf (levels 0)) (inside : level < n) (stored : Stored ss n t.view current)
    (ahead : current level = levels level)
    (done : ∀ j, j < level → Added key bottom (levels j) (current j) (headsLevel keyHash duplicate j)) :
    ∃ t' items, (addLevel ss key keyHash duplicate level).run t = (.ok (), t') ∧
      (layout ss level).Rewrites t.view t'.view items ∧
      Added key bottom (levels level) items (headsLevel keyHash duplicate level) ∧ (level = 0 → items = bottom) := by
  have holds := stored level inside
  rw [ahead] at holds
  by_cases lowest : level = 0
  · subst lowest
    obtain ⟨t', ran, rewrites⟩ := @addBottom_run ss t (levels 0) key holds duplicate keyHash present
    rw [← bottomNew] at rewrites
    refine ⟨t', bottom, ran, rewrites, ⟨.refl _, fun k => ?_⟩, fun _ => rfl⟩
    rw [bottomNew, mem_keysOf_put, or_comm]
    simp [headsLevel]
  · have step : level - 1 + 1 = level := by omega
    have below := done (level - 1) (by omega)
    have heads : headsLevel keyHash duplicate level = !(duplicate || skipsLevel keyHash level) := by
      rw [headsLevel, decide_eq_false lowest, Bool.false_or]
    have nested : ∀ k ∈ keysOf (levels level), k ∈ keysOf (current (level - 1)) := fun k isKey =>
      (below.keys k).mpr (.inl (shape.nested (level - 1) (by omega) k (step.symm ▸ isKey)))
    have belowHead : (duplicate || skipsLevel keyHash level) = false → key ∈ keysOf (current (level - 1)) := by
      intro isHead
      have here : headsLevel keyHash duplicate (level - 1 + 1) = true := by
        rw [step, heads, isHead]
        rfl
      exact (below.keys key).mpr (.inr ⟨headsLevel_succ (by omega) here, rfl⟩)
    have fresh : duplicate = false → key ∉ keysOf (levels level) := fun single isKey =>
      Bool.eq_false_iff.mp single (present.mpr (shape.bottomKey inside isKey))
    obtain ⟨t', items, ran, rewrites, added⟩ := addLevel_run lowest holds (stored (level - 1) (by omega))
      (shape.sums level inside) below.sums (bottomNew ▸ grown_put (levels 0) key) (shape.sentinel level inside) nested
      fresh belowHead
    rw [← heads] at added
    exact ⟨t', items, ran, rewrites, added, fun zero => absurd zero lowest⟩

theorem Shape.added (few : n ≤ 8) (shape : Shape n levels) (nonempty : key ≠ [])
    (bottomNew : new 0 = put Prod.fst (key, countOf (levels 0) key + 1) (levels 0))
    (added : ∀ j, j < n → Added key (new 0) (levels j) (new j) (headsLevel keyHash duplicate j)) : Shape n new where
  bottom := by
    rw [bottomNew]
    exact mem_put.mpr (.inr ⟨shape.bottom, nonempty.symm⟩)
  sentinel level inside := ((added level inside).keys []).mpr (.inl (shape.sentinel level inside))
  nested level inside k isKey := by
    have lower := (added level (by omega)).keys k
    cases ((added (level + 1) inside).keys k).mp isKey with
    | inl old => exact lower.mpr (.inl (shape.nested level inside k old))
    | inr isNew => exact lower.mpr (.inr ⟨headsLevel_succ (by omega) isNew.1, isNew.2⟩)
  sums level inside := (added level inside).sums
  positive item member named := by
    rw [bottomNew] at member
    cases mem_put.mp member with
    | inl new =>
      rw [new]
      exact Nat.succ_pos _
    | inr old => exact shape.positive item old.1 named

/-- A key other than the sentinel is stored exactly if it is counted. -/
theorem Shape.present_iff (shape : Shape n levels) (ordered : Ordered Prod.fst (levels 0)) (nonempty : key ≠ []) :
    key ∈ keysOf (levels 0) ↔ 0 < countOf (levels 0) key := by
  constructor
  · intro isKey
    obtain ⟨item, member, rfl⟩ := mem_keysOf.mp isKey
    rw [ordered.countOf_eq member]
    exact shape.positive item member nonempty
  · intro positive
    by_contra absent
    rw [countOf_of_absent (apart_of_absent absent)] at positive
    omega

theorem entryOf_eq (ordered : Ordered Prod.fst (levels 0)) (key : Bytes) :
    entryOf (levels 0) key = if key ∈ keysOf (levels 0) then some (countOf (levels 0) key) else none := by
  split
  case isTrue isKey =>
    obtain ⟨item, member, rfl⟩ := mem_keysOf.mp isKey
    rw [Ordered.entryOf_eq ordered member, ordered.countOf_eq member]
  case isFalse absent => exact entryOf_none_iff.mpr absent

/-! ## Removing -/

def oneLess (items : List (Bytes × Nat)) (key : Bytes) : List (Bytes × Nat) :=
  if 1 < countOf items key then put Prod.fst (key, countOf items key - 1) items else dropKey key items

theorem shrunk_oneLess {items : List (Bytes × Nat)} (present : 0 < countOf items key) (p : Bytes → Bool) :
    weigh p (oneLess items key) + (if p key then 1 else 0) = weigh p items := by
  rw [oneLess]
  split
  case isTrue more =>
    have put := weigh_put p items key (countOf items key - 1)
    split_ifs at put ⊢ <;> omega
  case isFalse one =>
    have dropped := weigh_dropKey p items key
    have single : countOf items key = 1 := by omega
    rw [single] at dropped
    exact dropped

private theorem mem_keysOf_oneLess (present : key ∈ keysOf items) :
    k ∈ keysOf (oneLess items key) ↔ k ∈ keysOf items ∧ ¬ ((!decide (1 < countOf items key)) = true ∧ k = key) := by
  rw [oneLess]
  split
  case isTrue more =>
    obtain ⟨item, member, rfl⟩ := mem_keysOf.mp present
    rw [mem_keysOf_replace member]
    simp only [more, decide_true, Bool.not_true, Bool.false_eq_true, false_and, not_false_eq_true, and_true]
  case isFalse one =>
    rw [mem_keysOf_dropKey]
    simp only [one, decide_false, Bool.not_false, true_and]

theorem removeStep_run (shape : Shape n levels) (ordered : Ordered Prod.fst (levels 0)) (nonempty : key ≠ [])
    (present : 0 < countOf (levels 0) key) (small : countOf (levels 0) key < 2 ^ 63) (inside : level < n)
    (stored : Stored ss n t.view current) (ahead : current level = levels level) :
    ∃ t' items, (removeLevel ss key (Int64.ofNat (countOf (levels 0) key)) level).run t = (.ok (), t') ∧
      (layout ss level).Rewrites t.view t'.view items ∧
      Removed key (oneLess (levels 0) key) (levels level) items (!decide (1 < countOf (levels 0) key)) ∧
      (level = 0 → items = oneLess (levels 0) key) := by
  have holds := stored level inside
  rw [ahead] at holds
  have isKey := (shape.present_iff ordered nonempty).mpr present
  have shrunk := @shrunk_oneLess key (levels 0) present
  have more : (1 < Int64.ofNat (countOf (levels 0) key)) ↔ 1 < countOf (levels 0) key := one_lt_ofNat small
  have lowest : Removed key (oneLess (levels 0) key) (levels 0) (oneLess (levels 0) key)
      (!decide (1 < countOf (levels 0) key)) := ⟨.refl _, fun _ => mem_keysOf_oneLess isKey⟩
  rw [removeLevel]
  by_cases stays : 1 < countOf (levels 0) key
  · rw [if_pos (more.mpr stays)]
    rw [decide_eq_true stays] at lowest ⊢
    by_cases zero : level = 0
    · subst zero
      have rewrites := rewrites_set (.refl holds) key (countOf (levels 0) key - 1)
      rw [ofNat_sub present] at rewrites
      refine ⟨_, oneLess (levels 0) key, ?_, by rw [oneLess, if_pos stays]; exact rewrites, lowest, fun _ => rfl⟩
      rw [removeDuplicateLevel, if_pos rfl, Tx.run_bind_ok (levelKey_run 0 key)]
      rfl
    · obtain ⟨t', items, ran, rewrites, removed⟩ := removeDuplicateLevel_run zero holds (shape.sums level inside) shrunk
        (shape.sentinel level inside) (Int64.ofNat (countOf (levels 0) key))
      exact ⟨t', items, ran, rewrites, removed, fun isZero => absurd isZero zero⟩
  · rw [if_neg fun less => stays (more.mp less)]
    rw [decide_eq_false stays] at lowest ⊢
    by_cases zero : level = 0
    · subst zero
      refine ⟨_, oneLess (levels 0) key, ?_, by rw [oneLess, if_neg stays]; exact rewrites_clear (.refl holds) key, lowest,
        fun _ => rfl⟩
      rw [removeKeyLevel, Tx.run_bind_ok (levelKey_run 0 key), if_pos rfl]
      rfl
    · obtain ⟨t', items, ran, rewrites, removed⟩ := removeKeyLevel_run zero holds (shape.sums level inside) shrunk
        (shape.sentinel level inside) nonempty
      exact ⟨t', items, ran, rewrites, removed, fun isZero => absurd isZero zero⟩

theorem Shape.removed (shape : Shape n levels) (nonempty : key ≠ []) {gone : Bool}
    (bottomNew : new 0 = oneLess (levels 0) key) (removed : ∀ j, j < n → Removed key (new 0) (levels j) (new j) gone) :
    Shape n new where
  bottom := by
    rw [bottomNew, oneLess]
    split
    case isTrue => exact mem_put.mpr (.inr ⟨shape.bottom, nonempty.symm⟩)
    case isFalse => exact mem_dropKey.mpr ⟨shape.bottom, nonempty.symm⟩
  sentinel level inside :=
    ((removed level inside).keys []).mpr ⟨shape.sentinel level inside, fun isKey => nonempty isKey.2.symm⟩
  nested level inside k isKey := by
    obtain ⟨old, kept⟩ := ((removed (level + 1) inside).keys k).mp isKey
    exact ((removed level (by omega)).keys k).mpr ⟨shape.nested level inside k old, kept⟩
  sums level inside := (removed level inside).sums
  positive item member named := by
    rw [bottomNew, oneLess] at member
    split at member
    case isTrue more =>
      cases mem_put.mp member with
      | inl new =>
        rw [new]
        exact Nat.sub_pos_of_lt more
      | inr old => exact shape.positive item old.1 named
    case isFalse => exact shape.positive item (mem_dropKey.mp member).1 named

/-! ## The calls -/

variable {config : Config}

variable (positive : 0 < config.nLevels) (stored : Stored ss config.nLevels t.view levels)
  (shape : Shape config.nLevels levels) (nonempty : key ≠ [])

include positive stored shape nonempty

/-- The count of a key is read, and is there exactly if it is positive. -/
theorem counted_run :
    ∃ t', (countCheckedKey ss key).run t =
      (.ok (if 0 < countOf (levels 0) key then some (Int64.ofNat (countOf (levels 0) key)) else none), t') ∧
      t'.view = t.view := by
  have ordered : Ordered Prod.fst (levels 0) := (stored 0 positive).ordered
  rw [countCheckedKey_run (stored 0 positive) key, entryOf_eq ordered key,
    if_congr (shape.present_iff ordered nonempty) rfl rfl, apply_ite (Option.map Int64.ofNat)]
  exact ⟨_, rfl, rfl⟩

theorem add_present (small : countOf (levels 0) key < 2 ^ 63) (present : 0 < countOf (levels 0) key)
    (single : config.countDuplicates = false) (hash : Int32) :
    ∃ t', (add ss config key (some hash)).run t = (.ok false, t') ∧ t'.view = t.view := by
  obtain ⟨t₁, counted, view⟩ := counted_run positive stored shape nonempty
  rw [if_pos present] at counted
  refine ⟨t₁, ?_, view⟩
  rw [add, if_neg (mt List.eq_nil_of_length_eq_zero nonempty)]
  dsimp only
  rw [Tx.run_bind_ok counted]
  have isPositive := (ofNat_pos small).mpr present
  simp [isPositive, single]

theorem add_run (few : config.nLevels ≤ 8) (small : countOf (levels 0) key < 2 ^ 63)
    (counts : 0 < countOf (levels 0) key → config.countDuplicates = true) (hash : Int32) :
    ∃ t' new, (add ss config key (some hash)).run t = (.ok true, t') ∧ Stored ss config.nLevels t'.view new ∧
      Shape config.nLevels new ∧ new 0 = put Prod.fst (key, countOf (levels 0) key + 1) (levels 0) := by
  have present := shape.present_iff (stored 0 positive).ordered nonempty
  obtain ⟨t₁, counted, view⟩ := counted_run positive stored shape nonempty
  have duplicates : ((if 0 < countOf (levels 0) key then some (Int64.ofNat (countOf (levels 0) key)) else none).any
      fun count => decide (0 < count)) = decide (0 < countOf (levels 0) key) := by
    split
    case isTrue more => simp [ofNat_pos small, more]
    case isFalse none => exact (decide_eq_false none).symm
  have goes : ¬ (decide (0 < countOf (levels 0) key) && !config.countDuplicates) = true := by
    by_cases more : 0 < countOf (levels 0) key
    · simp [counts more]
    · simp [more]
  obtain ⟨t', new, ran, storedNew, added⟩ := @forLevels_run ss config.nLevels t₁ levels few
    (addLevel ss key hash (decide (0 < countOf (levels 0) key)))
    (fun j items => Added key (put Prod.fst (key, countOf (levels 0) key + 1) (levels 0)) (levels j) items
      (headsLevel hash (decide (0 < countOf (levels 0) key)) j) ∧
      (j = 0 → items = put Prod.fst (key, countOf (levels 0) key + 1) (levels 0)))
    (fun level t current inside storedNow ahead finished => addStep_run few shape rfl
      (by rw [decide_eq_true_eq, present]) inside storedNow ahead fun j earlier => (finished j earlier).1)
    config.nLevels 0 (Nat.zero_add _) levels (stored.view view) (fun _ _ => rfl)
    (fun _ never => absurd never (Nat.not_lt_zero _))
  have bottomNew := (added 0 positive).2 rfl
  refine ⟨t', new, ?_, storedNew,
    shape.added few nonempty bottomNew fun j inside => bottomNew ▸ (added j inside).1, bottomNew⟩
  rw [add, if_neg (mt List.eq_nil_of_length_eq_zero nonempty)]
  dsimp only
  rw [Tx.run_bind_ok counted, duplicates, if_neg goes]
  exact Tx.run_bind_ok ran _

theorem remove_absent (absent : countOf (levels 0) key = 0) :
    ∃ t', (remove ss config key).run t = (.ok false, t') ∧ t'.view = t.view := by
  obtain ⟨t₁, counted, view⟩ := counted_run positive stored shape nonempty
  rw [if_neg absent.not_gt] at counted
  refine ⟨t₁, ?_, view⟩
  rw [remove, if_neg (mt List.eq_nil_of_length_eq_zero nonempty)]
  exact Tx.run_bind_ok counted _

theorem remove_run (few : config.nLevels ≤ 8) (small : countOf (levels 0) key < 2 ^ 63)
    (present : 0 < countOf (levels 0) key) :
    ∃ t' new, (remove ss config key).run t = (.ok true, t') ∧ Stored ss config.nLevels t'.view new ∧
      Shape config.nLevels new ∧ new 0 = oneLess (levels 0) key := by
  have ordered : Ordered Prod.fst (levels 0) := (stored 0 positive).ordered
  obtain ⟨t₁, counted, view⟩ := counted_run positive stored shape nonempty
  rw [if_pos present] at counted
  have goes : ¬ Int64.ofNat (countOf (levels 0) key) ≤ 0 := by
    rw [Int64.not_le]
    exact (ofNat_pos small).mpr present
  obtain ⟨t', new, ran, storedNew, removed⟩ := @forLevels_run ss config.nLevels t₁ levels few
    (removeLevel ss key (Int64.ofNat (countOf (levels 0) key)))
    (fun j items => Removed key (oneLess (levels 0) key) (levels j) items (!decide (1 < countOf (levels 0) key)) ∧
      (j = 0 → items = oneLess (levels 0) key))
    (fun level t current inside storedNow ahead _ =>
      removeStep_run shape ordered nonempty present small inside storedNow ahead)
    config.nLevels 0 (Nat.zero_add _) levels (stored.view view) (fun _ _ => rfl)
    (fun _ never => absurd never (Nat.not_lt_zero _))
  have bottomNew := (removed 0 positive).2 rfl
  refine ⟨t', new, ?_, storedNew,
    shape.removed nonempty bottomNew fun j inside => bottomNew ▸ (removed j inside).1, bottomNew⟩
  rw [remove, if_neg (mt List.eq_nil_of_length_eq_zero nonempty), Tx.run_bind_ok counted]
  exact (congrArg (Tx.run · _) (if_neg goes)).trans (Tx.run_bind_ok ran _)

end Levels

end FdbGo.RecordLayer.RankedSet
