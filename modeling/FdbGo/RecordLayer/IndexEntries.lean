import FdbGo.RecordLayer.KeyExpressionProperties
import FdbGo.RecordLayer.Subspace

/-! The evaluated entries of a record in an index, and those that an update leaves alone. -/

set_option autoImplicit false

namespace FdbGo.RecordLayer

open Client Foundation FdbGo.Tuple

structure EvaluatedIndexEntry where
  key : List Element
  primaryKey : List Element
  value : Option (List Element) := none

inductive IndexEntryError where
  | evaluate (cause : KeyExpressionError)
  | positionsOutOfBounds
  deriving DecidableEq, Repr

section Keys

variable (primaryKeyComponentPositions : Option (List Int))

/-- `TrimPrimaryKey`: the components of the primary key that the index key does not hold. -/
def trimPrimaryKey (primaryKey : List Element) : Except IndexEntryError (List Element) :=
  match primaryKeyComponentPositions with
  | none => .ok primaryKey
  | some positions =>
    if primaryKey.length < positions.length then .error .positionsOutOfBounds
    else .ok ((positions.zip primaryKey).filterMap fun component => if component.1 < 0 then some component.2 else none)

def indexEntryKey (indexValues primaryKey : List Element) : Except IndexEntryError (List Element) :=
  (trimPrimaryKey primaryKeyComponentPositions primaryKey).map fun trimmed => indexValues ++ trimmed

def packEntry (entry : EvaluatedIndexEntry) : Except IndexEntryError (Option Bytes) := do
  let key ← indexEntryKey primaryKeyComponentPositions entry.key entry.primaryKey
  .ok (do
    let packed ← (pack key).toOption
    match entry.value with
    | none => some packed
    | some value => do
      let packedValue ← (pack value).toOption
      -- 0x7c is the separator between the key and the value
      some (packed ++ 0x7c :: packedValue))

def dropEntries (keys : List (Option Bytes)) (entries : List (EvaluatedIndexEntry × Option Bytes)) : List EvaluatedIndexEntry :=
  (entries.filter fun entry => decide (entry.2 ∉ keys)).map Prod.fst

def removeCommonEntries {Error : Type} (orElse : IndexEntryError → Error) (old new : List EvaluatedIndexEntry) :
    Tx Error (List EvaluatedIndexEntry × List EvaluatedIndexEntry) :=
  let packed := do
    let newKeys ← new.mapM (packEntry primaryKeyComponentPositions)
    let oldKeys ← old.mapM (packEntry primaryKeyComponentPositions)
    Except.ok (oldKeys, newKeys)
  match packed with
  | .error cause => Tx.fail (orElse cause)
  | .ok (oldKeys, newKeys) =>
    if none ∈ oldKeys ∨ none ∈ newKeys then Tx.panics
    else
      let common := oldKeys.filter fun key => decide (key ∈ newKeys)
      pure (dropEntries newKeys (old.zip oldKeys), dropEntries common (new.zip newKeys))

/-! ## What an update leaves alone -/

def commonKey (entry : EvaluatedIndexEntry) : Option Bytes :=
  (packEntry primaryKeyComponentPositions entry).toOption.getD none

private theorem dropEntries_zip (keys : List (Option Bytes)) (f : EvaluatedIndexEntry → Option Bytes) (entries : List EvaluatedIndexEntry) :
    dropEntries keys (entries.zip (entries.map f)) = entries.filter fun entry => decide (f entry ∉ keys) := by
  rw [dropEntries]
  induction entries with
  | nil => rfl
  | cons entry entries ih =>
    rw [List.map_cons, List.zip_cons_cons, List.filter_cons, List.filter_cons]
    split
    · rw [List.map_cons, ih]
    · exact ih

variable {primaryKeyComponentPositions}

theorem packable_trimmed {primaryKey trimmed : List Element} (packable : packables (values primaryKey) = true)
    (found : trimPrimaryKey primaryKeyComponentPositions primaryKey = .ok trimmed) : packables (values trimmed) = true := by
  rw [trimPrimaryKey.eq_def] at found
  split at found
  · cases found
    exact packable
  · split at found
    · cases found
    · cases found
      refine packables_iff.mpr fun element member => ?_
      obtain ⟨component, inside, same⟩ := List.mem_filterMap.mp member
      split at same
      · cases same
        exact packables_iff.mp packable _ (List.of_mem_zip inside).2
      · cases same

def valueBytes (value : Option (List Element)) : Bytes := value.elim [] fun value => 0x7c :: (pack value).toOption.getD []

private theorem commonKey_some {entry : EvaluatedIndexEntry} {k : Bytes} (packable : packables (values entry.key) = true)
    (named : packables (values entry.primaryKey) = true) (found : commonKey primaryKeyComponentPositions entry = some k) :
    ∃ trimmed, trimPrimaryKey primaryKeyComponentPositions entry.primaryKey = .ok trimmed ∧
      packables (values (entry.key ++ trimmed)) = true ∧ k = wires false (values (entry.key ++ trimmed)) ++ valueBytes entry.value := by
  rw [commonKey, packEntry, indexEntryKey] at found
  cases trims : trimPrimaryKey primaryKeyComponentPositions entry.primaryKey with
  | error cause =>
    rw [trims] at found
    cases found
  | ok trimmed =>
    have both : packables (values (entry.key ++ trimmed)) = true := by
      rw [values_append, packables_append, packable, packable_trimmed named trims]
      rfl
    rw [trims] at found
    refine ⟨trimmed, rfl, both, ?_⟩
    dsimp only [Except.map, bind, Except.bind, Except.toOption, Option.getD_some] at found
    rw [pack_eq both] at found
    cases hasValue : entry.value with
    | none =>
      rw [hasValue] at found
      cases found
      exact (List.append_nil _).symm
    | some value =>
      rw [hasValue] at found
      dsimp only [Except.toOption, Option.bind_some] at found
      cases packedValue : pack value with
      | error panic =>
        rw [packedValue] at found
        cases found
      | ok bytes =>
        rw [packedValue] at found
        cases found
        rw [valueBytes, Option.elim_some, packedValue]
        rfl

/-- Entries of one record that share their common key have the same columns. -/
theorem values_of_commonKey {entry other : EvaluatedIndexEntry} (packable : packables (values entry.key) = true)
    (otherPackable : packables (values other.key) = true) (named : packables (values entry.primaryKey) = true)
    (sameRecord : other.primaryKey = entry.primaryKey) (sameValue : other.value = entry.value)
    (some_ : commonKey primaryKeyComponentPositions entry ≠ none)
    (same : commonKey primaryKeyComponentPositions entry = commonKey primaryKeyComponentPositions other) :
    values entry.key = values other.key := by
  obtain ⟨k, found⟩ := Option.ne_none_iff_exists'.mp some_
  obtain ⟨trimmed, trims, both, isKey⟩ := commonKey_some packable named found
  obtain ⟨otherTrimmed, otherTrims, otherBoth, isOtherKey⟩ :=
    commonKey_some otherPackable (sameRecord ▸ named) (same ▸ found)
  rw [sameRecord, trims] at otherTrims
  cases otherTrims
  rw [sameValue] at isOtherKey
  have wiresEq := List.append_cancel_right (isKey.symm.trans isOtherKey)
  have valuesEq := wires_injective both otherBoth wiresEq
  rw [values_append, values_append] at valuesEq
  exact List.append_cancel_right valuesEq

theorem commonKey_of_values {entry other : EvaluatedIndexEntry} (packable : packables (values entry.key) = true)
    (named : packables (values entry.primaryKey) = true) (sameRecord : other.primaryKey = entry.primaryKey)
    (sameValue : other.value = entry.value) (same : values entry.key = values other.key) :
    commonKey primaryKeyComponentPositions entry = commonKey primaryKeyComponentPositions other := by
  rw [commonKey, commonKey, packEntry, packEntry, indexEntryKey, indexEntryKey, sameRecord, sameValue]
  cases trims : trimPrimaryKey primaryKeyComponentPositions entry.primaryKey with
  | error cause => rfl
  | ok trimmed =>
    have both : packables (values entry.key ++ values trimmed) = true := by
      rw [packables_append, packable, packable_trimmed named trims]
      rfl
    have packs : pack (entry.key ++ trimmed) = pack (other.key ++ trimmed) := by
      rw [pack_eq (values_append _ _ ▸ both), pack_eq (values_append _ _ ▸ same ▸ both), values_append, values_append, same]
    dsimp only [Except.map, bind, Except.bind]
    rw [packs]

theorem removeCommonEntries_ok {Error : Type} {orElse : IndexEntryError → Error} {old new filteredOld filteredNew : List EvaluatedIndexEntry}
    {t t' : Transaction}
    (ran : (removeCommonEntries primaryKeyComponentPositions orElse old new).run t = (.ok (filteredOld, filteredNew), t')) :
    t' = t ∧ (∀ entry ∈ old, commonKey primaryKeyComponentPositions entry ≠ none) ∧
      (∀ entry ∈ new, commonKey primaryKeyComponentPositions entry ≠ none) ∧
      filteredOld = old.filter (fun entry => decide (commonKey primaryKeyComponentPositions entry ∉
        new.map (commonKey primaryKeyComponentPositions))) ∧
      filteredNew = new.filter (fun entry => decide (commonKey primaryKeyComponentPositions entry ∉
        old.map (commonKey primaryKeyComponentPositions))) := by
  rw [removeCommonEntries] at ran
  dsimp only at ran
  split at ran
  case h_1 => cases ran
  case h_2 olds news keyed =>
    obtain ⟨_, newKeys, keyed⟩ := bind_eq_ok keyed
    obtain ⟨_, oldKeys, keyed⟩ := bind_eq_ok keyed
    cases keyed
    have isNews : news = new.map (commonKey primaryKeyComponentPositions) := (mapM_eq_ok _ none newKeys).1
    have isOlds : olds = old.map (commonKey primaryKeyComponentPositions) := (mapM_eq_ok _ none oldKeys).1
    by_cases unpackable : none ∈ olds ∨ none ∈ news
    · rw [if_pos unpackable] at ran
      cases ran
    · rw [if_neg unpackable] at ran
      cases ran
      refine ⟨rfl, fun entry member unpacked => unpackable (.inl ?_), fun entry member unpacked => unpackable (.inr ?_), ?_, ?_⟩
      · rw [isOlds, ← unpacked]
        exact List.mem_map_of_mem member
      · rw [isNews, ← unpacked]
        exact List.mem_map_of_mem member
      · rw [isOlds, dropEntries_zip, isNews]
      · rw [isNews, dropEntries_zip, isOlds]
        refine List.filter_congr fun entry member => ?_
        have inNew : commonKey primaryKeyComponentPositions entry ∈ new.map (commonKey primaryKeyComponentPositions) :=
          List.mem_map_of_mem member
        simp only [List.mem_filter, decide_eq_true_eq, inNew, and_true]

end Keys

end FdbGo.RecordLayer
