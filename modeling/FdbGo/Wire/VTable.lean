import Mathlib.Algebra.Group.Nat.Defs
import Mathlib.Data.List.Pairwise
import Mathlib.Data.List.Sort
import Mathlib.Tactic.SplitIfs

/-! The layout of a message. The fields that have a size are placed largest first, each at
the next multiple of its alignment, after the four bytes of the vtable pointer. -/

set_option autoImplicit false

namespace FdbGo.Wire

/-- The size of the vtable, the size of the object, and the offset of each field. -/
abbrev VTable := List UInt16

structure IndexedField where
  index : UInt32
  size : UInt32
  deriving DecidableEq, Repr

/-- The fields of nonzero size, from the one numbered `i` on. -/
def indexedFields : List UInt32 → Nat → List IndexedField
  | [], _ => []
  | size :: sizes, i =>
    if size > 0 then ⟨i.toUInt32, size⟩ :: indexedFields sizes (i + 1) else indexedFields sizes (i + 1)

/-- The loop over the sorted fields, and the size of the object. `none` is the panic on a
field without an alignment. -/
def assignOffsets (alignments : List UInt32) : List IndexedField → UInt32 → VTable → Option VTable
  | [], offset, result => some (result.set 1 (offset + 4).toUInt16)
  | f :: fields, offset, result => do
    let align ← alignments[f.index.toNat]?
    if align = 0 then none
    else
      let offset := if offset % align ≠ 0 then (offset / align + 1) * align else offset
      assignOffsets alignments fields (offset + f.size) (result.set (f.index + 2).toNat (offset + 4).toUInt16)

def sortedFields (sizes : List UInt32) : List IndexedField :=
  (indexedFields sizes 0).insertionSort fun f g => f.size ≥ g.size

def generateVTable (sizes alignments : List UInt32) : Option VTable :=
  if sizes.length = 0 then some [4, 4]
  else if alignments.length ≠ sizes.length then none
  else
    let result := (List.replicate (sizes.length + 2) 0).set 0 (2 * sizes.length + 4).toUInt16
    assignOffsets alignments (sortedFields sizes) 0 result

/-! ## Layouts -/

def VTable.offset (v : VTable) (i : Nat) : Nat := (v[i + 2]?.getD 0).toNat

def VTable.objectSize (v : VTable) : Nat := (v[1]?.getD 0).toNat

def roundUp (offset align : Nat) : Nat := if offset % align ≠ 0 then (offset / align + 1) * align else offset

def alignmentOf (alignments : List UInt32) (f : IndexedField) : UInt32 := alignments[f.index.toNat]?.getD 0

/-- Where the last of the fields ends, if no number wraps. -/
def extent (alignments : List UInt32) : List IndexedField → Nat → Nat
  | [], offset => offset
  | f :: fields, offset =>
    extent alignments fields (roundUp offset (alignmentOf alignments f).toNat + f.size.toNat)

/-- The size of the object, if no number wraps. -/
def totalSize (sizes alignments : List UInt32) : Nat := extent alignments (sortedFields sizes) 0 + 4

structure WellFormed (sizes alignments : List UInt32) (v : VTable) : Prop where
  absent : ∀ i, sizes[i]? = some 0 → v.offset i = 0
  inside : ∀ i size align, sizes[i]? = some size → size ≠ 0 → alignments[i]? = some align →
    4 ≤ v.offset i ∧ v.offset i + size.toNat ≤ v.objectSize ∧ align.toNat ∣ v.offset i - 4
  disjoint : ∀ i j size size', sizes[i]? = some size → sizes[j]? = some size' → size ≠ 0 → size' ≠ 0 → i ≠ j →
    v.offset i + size.toNat ≤ v.offset j ∨ v.offset j + size'.toNat ≤ v.offset i

/-- The fields lie one after the other from `offset` on, and the object ends behind them. -/
def Placed (alignments : List UInt32) (v : VTable) : List IndexedField → Nat → Prop
  | [], offset => v.objectSize = offset + 4
  | f :: fields, offset => ∃ start, offset ≤ start ∧ (alignmentOf alignments f).toNat ∣ start ∧
      v.offset f.index.toNat = start + 4 ∧ Placed alignments v fields (start + f.size.toNat)

variable {alignments : List UInt32} {fields : List IndexedField} {v : VTable} {offset n i : Nat}

/-- A rounded offset is aligned and not below the given one. -/
theorem roundUp_spec (offset : Nat) {align : UInt32} (positive : align ≠ 0) :
    offset ≤ roundUp offset align.toNat ∧ align.toNat ∣ roundUp offset align.toNat := by
  unfold roundUp
  split_ifs with between
  · refine ⟨Nat.le_of_lt ?_, Nat.dvd_mul_left _ _⟩
    rw [Nat.mul_comm]
    exact Nat.lt_mul_div_succ offset (UInt32.pos_iff_ne_zero.mpr positive)
  · exact ⟨le_rfl, Nat.dvd_of_mod_eq_zero (not_not.mp between)⟩

private theorem le_extent (positive : ∀ f ∈ fields, alignmentOf alignments f ≠ 0) (offset : Nat) :
    offset ≤ extent alignments fields offset := by
  induction fields generalizing offset with
  | nil => exact le_rfl
  | cons f fields ih =>
    have aligned := positive f List.mem_cons_self
    have rounded := (roundUp_spec offset aligned).1
    have later := ih (List.forall_mem_cons.mp positive).2
      (roundUp offset (alignmentOf alignments f).toNat + f.size.toNat)
    exact le_trans rounded (le_trans (Nat.le_add_right _ _) later)

private theorem toNat_roundUp (offset : UInt32) {align : UInt32} (positive : align ≠ 0)
    (fits : roundUp offset.toNat align.toNat < 2 ^ 32) :
    (if offset % align ≠ 0 then (offset / align + 1) * align else offset).toNat =
      roundUp offset.toNat align.toNat := by
  have same : offset % align ≠ 0 ↔ offset.toNat % align.toNat ≠ 0 := by
    rw [← UInt32.toNat_mod, Ne, ← UInt32.toNat_inj]
    rfl
  unfold roundUp at fits ⊢
  by_cases between : offset.toNat % align.toNat ≠ 0
  · rw [if_pos between] at fits ⊢
    rw [if_pos (same.mpr between)]
    have next : offset.toNat / align.toNat + 1 < 2 ^ 32 :=
      lt_of_le_of_lt (Nat.le_mul_of_pos_right _ (UInt32.pos_iff_ne_zero.mpr positive)) fits
    rw [UInt32.toNat_mul, UInt32.toNat_add, UInt32.toNat_div, UInt32.toNat_one, Nat.mod_eq_of_lt next,
      Nat.mod_eq_of_lt fits]
  · rw [if_neg between, if_neg (mt same.mp between)]

private theorem toNat_add_four {offset : UInt32} (fits : offset.toNat + 4 < 2 ^ 16) :
    (offset + 4).toUInt16.toNat = offset.toNat + 4 := by
  rw [UInt32.toNat_toUInt16, UInt32.toNat_add]
  exact (Nat.mod_mod_of_dvd _ (by decide)).trans (Nat.mod_eq_of_lt fits)

private theorem offset_set {result : VTable} {index : UInt32} {x : UInt16} (few : n + 2 ≤ 2 ^ 32) (inside : index.toNat < n)
    (length : result.length = n + 2) :
    VTable.offset (result.set (index + 2).toNat x) i = if index.toNat = i then x.toNat else result.offset i := by
  have position : (index + 2).toNat = index.toNat + 2 := by
    rw [UInt32.toNat_add]
    exact Nat.mod_eq_of_lt (by simp; omega)
  have within : index.toNat + 2 < n + 2 := by omega
  simp only [VTable.offset, position, List.getElem?_set, Nat.add_right_cancel_iff, length, within, if_true]
  split_ifs <;> rfl

theorem assignOffsets_spec (offset : UInt32) (result : VTable) (few : n + 2 ≤ 2 ^ 32)
    (inside : ∀ f ∈ fields, f.index.toNat < n) (positive : ∀ f ∈ fields, alignmentOf alignments f ≠ 0)
    (distinct : fields.Pairwise fun f g => f.index.toNat ≠ g.index.toNat)
    (fits : extent alignments fields offset.toNat + 4 < 2 ^ 16) (length : result.length = n + 2) :
    ∃ v, assignOffsets alignments fields offset result = some v ∧ Placed alignments v fields offset.toNat ∧
      ∀ i, (∀ f ∈ fields, f.index.toNat ≠ i) → v.offset i = result.offset i := by
  induction fields generalizing offset result with
  | nil =>
    refine ⟨_, rfl, ?_, fun i _ => ?_⟩
    · have last : (result.set 1 (offset + 4).toUInt16)[1]? = some (offset + 4).toUInt16 :=
        List.getElem?_set_self (by omega)
      simp only [Placed, VTable.objectSize, last]
      exact toNat_add_four fits
    · simp [VTable.offset]
  | cons f fields ih =>
    have aligned := positive f List.mem_cons_self
    have found : alignments[f.index.toNat]? = some (alignmentOf alignments f) := by
      unfold alignmentOf at aligned ⊢
      cases found : alignments[f.index.toNat]? with
      | none => exact absurd (by rw [found]; rfl) aligned
      | some align => rfl
    have later := le_extent (List.forall_mem_cons.mp positive).2
      (roundUp offset.toNat (alignmentOf alignments f).toNat + f.size.toNat)
    simp only [extent] at fits
    obtain ⟨after, multiple⟩ := roundUp_spec offset.toNat aligned
    have rounded := toNat_roundUp offset aligned (by omega)
    simp only [assignOffsets, found, Option.bind_eq_bind, Option.bind_some, if_neg aligned]
    generalize (if offset % alignmentOf alignments f ≠ 0 then _ else offset) = start at rounded ⊢
    rw [← rounded] at fits later after multiple
    have next : (start + f.size).toNat = start.toNat + f.size.toNat := by
      rw [UInt32.toNat_add]
      exact Nat.mod_eq_of_lt (by omega)
    rw [← next] at fits later
    obtain ⟨v, assigned, placed, kept⟩ := ih (start + f.size)
      (result.set (f.index + 2).toNat (start + 4).toUInt16) (List.forall_mem_cons.mp inside).2
      (List.forall_mem_cons.mp positive).2 distinct.tail fits (by rw [List.length_set, length])
    have here := inside f List.mem_cons_self
    refine ⟨v, assigned, ⟨start.toNat, after, multiple, ?_, next ▸ placed⟩, fun i others => ?_⟩
    · rw [kept _ fun g later => (List.rel_of_pairwise_cons distinct later).symm, offset_set few here length, if_pos rfl]
      refine toNat_add_four (lt_of_le_of_lt ?_ fits)
      omega
    · rw [kept i (List.forall_mem_cons.mp others).2, offset_set few here length,
        if_neg (others f List.mem_cons_self)]

theorem Placed.end_le (placed : Placed alignments v fields offset) : offset + 4 ≤ v.objectSize := by
  induction fields generalizing offset with
  | nil => exact Nat.le_of_eq placed.symm
  | cons f fields ih =>
    obtain ⟨start, after, -, -, rest⟩ := placed
    have below := ih rest
    omega

theorem Placed.inside (placed : Placed alignments v fields offset) {f : IndexedField} (member : f ∈ fields) :
    offset + 4 ≤ v.offset f.index.toNat ∧ v.offset f.index.toNat + f.size.toNat ≤ v.objectSize ∧
      (alignmentOf alignments f).toNat ∣ v.offset f.index.toNat - 4 := by
  induction fields generalizing offset with
  | nil => cases member
  | cons g fields ih =>
    obtain ⟨start, after, aligned, here, rest⟩ := placed
    have below := rest.end_le
    cases member with
    | head =>
      rw [here]
      exact ⟨by omega, by omega, aligned⟩
    | tail _ later =>
      obtain ⟨above, facts⟩ := ih rest later
      exact ⟨by omega, facts⟩

theorem Placed.pairwise (placed : Placed alignments v fields offset) :
    fields.Pairwise fun f g => v.offset f.index.toNat + f.size.toNat ≤ v.offset g.index.toNat ∨
      v.offset g.index.toNat + g.size.toNat ≤ v.offset f.index.toNat := by
  induction fields generalizing offset with
  | nil => exact .nil
  | cons f fields ih =>
    obtain ⟨start, -, -, here, rest⟩ := placed
    refine .cons (fun g later => ?_) (ih rest)
    have above := (rest.inside later).1
    omega

/-! ## The fields -/

variable {sizes : List UInt32} {start : Nat} {f : IndexedField}

theorem mem_indexedFields :
    f ∈ indexedFields sizes start ↔
      ∃ i, f.index = (start + i).toUInt32 ∧ sizes[i]? = some f.size ∧ f.size ≠ 0 := by
  induction sizes generalizing start with
  | nil => simp [indexedFields]
  | cons size sizes ih =>
    have split : (∃ i, f.index = (start + i).toUInt32 ∧ (size :: sizes)[i]? = some f.size ∧ f.size ≠ 0) ↔
        (f = ⟨start.toUInt32, size⟩ ∧ size ≠ 0) ∨ f ∈ indexedFields sizes (start + 1) := by
      rw [ih, ← Nat.or_exists_add_one]
      obtain ⟨index, size'⟩ := f
      simp only [List.getElem?_cons_zero, List.getElem?_cons_succ, Nat.add_zero, Nat.add_assoc, Nat.add_comm 1,
        IndexedField.mk.injEq, Option.some.injEq]
      grind
    rw [split, indexedFields]
    split_ifs with sized
    · simp [UInt32.pos_iff_ne_zero.mp sized]
    · simp [not_not.mp (mt UInt32.pos_iff_ne_zero.mpr sized)]

theorem toNat_index {i : Nat} (few : i < 2 ^ 32) : i.toUInt32.toNat = i := Nat.mod_eq_of_lt few

private theorem pairwise_indexedFields (few : start + sizes.length ≤ 2 ^ 32) :
    (indexedFields sizes start).Pairwise fun f g => f.index.toNat ≠ g.index.toNat := by
  induction sizes generalizing start with
  | nil => exact .nil
  | cons size sizes ih =>
    rw [List.length_cons] at few
    have later := @ih (start + 1) (by omega)
    simp only [indexedFields]
    split_ifs
    · refine .cons (fun f member => ?_) later
      obtain ⟨i, index, found, -⟩ := mem_indexedFields.mp member
      obtain ⟨inside, -⟩ := List.getElem?_eq_some_iff.mp found
      rw [index, toNat_index (by omega), toNat_index (by omega)]
      omega
    · exact later

private theorem mem_sortedFields (few : sizes.length ≤ 2 ^ 32) :
    f ∈ sortedFields sizes ↔ sizes[f.index.toNat]? = some f.size ∧ f.size ≠ 0 := by
  rw [sortedFields, List.mem_insertionSort, mem_indexedFields]
  simp only [Nat.zero_add]
  constructor
  · rintro ⟨i, index, found, sized⟩
    obtain ⟨inside, -⟩ := List.getElem?_eq_some_iff.mp found
    rw [index, toNat_index (by omega)]
    exact ⟨found, sized⟩
  · exact fun facts => ⟨f.index.toNat, UInt32.ofNat_toNat.symm, facts⟩

/-- With fewer than 2³² - 1 fields, and an object that fits: the layout is well formed. -/
theorem generateVTable_wellFormed (sizes alignments : List UInt32) (length : alignments.length = sizes.length)
    (few : sizes.length + 2 ≤ 2 ^ 32)
    (positive : ∀ (i : Nat) (size align : UInt32), sizes[i]? = some size → size ≠ 0 → alignments[i]? = some align →
      align ≠ 0)
    (fits : totalSize sizes alignments < 2 ^ 16) :
    ∃ v, generateVTable sizes alignments = some v ∧ WellFormed sizes alignments v := by
  unfold generateVTable
  rw [if_neg (not_not.mpr length)]
  split_ifs with none
  · obtain rfl := List.length_eq_zero_iff.mp none
    exact ⟨_, rfl, nofun, nofun, nofun⟩
  have origin : ∀ f ∈ sortedFields sizes, sizes[f.index.toNat]? = some f.size ∧ f.size ≠ 0 :=
    fun f => (mem_sortedFields (by omega)).mp
  have inside : ∀ f ∈ sortedFields sizes, f.index.toNat < sizes.length := by
    intro f member
    obtain ⟨inside, -⟩ := List.getElem?_eq_some_iff.mp (origin f member).1
    exact inside
  have distinct : (sortedFields sizes).Pairwise fun f g => f.index.toNat ≠ g.index.toNat :=
    (List.perm_insertionSort _ _).symm.pairwise (pairwise_indexedFields (by omega)) Ne.symm
  have aligned : ∀ f ∈ sortedFields sizes, alignmentOf alignments f ≠ 0 := by
    intro f member
    obtain ⟨found, sized⟩ := origin f member
    have align := List.getElem?_eq_getElem (length ▸ inside f member)
    unfold alignmentOf
    rw [align]
    exact positive _ _ _ found sized align
  obtain ⟨v, assigned, placed, kept⟩ := assignOffsets_spec 0
    ((List.replicate (sizes.length + 2) 0).set 0 (2 * sizes.length + 4).toUInt16) few inside aligned
    distinct fits (by simp)
  have field : ∀ {i size}, sizes[i]? = some size → size ≠ 0 →
      ∃ f ∈ sortedFields sizes, f.index.toNat = i ∧ f.size = size := by
    intro i size found sized
    obtain ⟨inside, -⟩ := List.getElem?_eq_some_iff.mp found
    have index : i.toUInt32.toNat = i := toNat_index (by omega)
    exact ⟨⟨i.toUInt32, size⟩, (mem_sortedFields (by omega)).mpr ⟨index.symm ▸ found, sized⟩, index, rfl⟩
  refine ⟨v, assigned, fun i absent => ?_, fun i size align found sized isAlign => ?_, ?_⟩
  · rw [kept i]
    · rw [VTable.offset, List.getElem?_set_ne (Nat.succ_ne_zero _).symm, List.getElem?_replicate]
      split_ifs <;> rfl
    · rintro f member rfl
      obtain ⟨found, sized⟩ := origin f member
      exact sized (Option.some.inj (found.symm.trans absent))
  · obtain ⟨f, member, rfl, rfl⟩ := field found sized
    have facts := placed.inside member
    rw [alignmentOf, isAlign] at facts
    exact facts
  · intro i j size size' found found' sized sized' differ
    obtain ⟨f, member, rfl, rfl⟩ := field found sized
    obtain ⟨g, member', rfl, rfl⟩ := field found' sized'
    have := Std.Symm.mk (r := fun f g : IndexedField => v.offset f.index.toNat + f.size.toNat ≤ v.offset g.index.toNat ∨
      v.offset g.index.toNat + g.size.toNat ≤ v.offset f.index.toNat) fun _ _ => Or.symm
    exact placed.pairwise.forall member member' fun same => differ (same ▸ rfl)

theorem generateVTable_wellFormed_mixed :
    ∃ v, generateVTable [1, 8, 0, 4] [1, 8, 0, 4] = some v ∧ WellFormed [1, 8, 0, 4] [1, 8, 0, 4] v := by
  refine generateVTable_wellFormed [1, 8, 0, 4] [1, 8, 0, 4] rfl (by decide) ?_ (by decide +kernel)
  intro i size align found sized isAlign
  rw [found] at isAlign
  exact Option.some.inj isAlign ▸ sized

private theorem indexedFields_replicate (n : Nat) : indexedFields (List.replicate n 0 ++ sizes) start =
    indexedFields sizes (start + n) := by
  induction n generalizing start with
  | zero => rfl
  | succ n ih =>
    rw [List.replicate_succ, List.cons_append, indexedFields, if_neg (by decide), ih, Nat.add_assoc, Nat.add_comm 1]

private theorem sortedFields_last (n : Nat) : sortedFields (List.replicate n 0 ++ [1]) = [⟨n.toUInt32, 1⟩] := by
  rw [sortedFields, indexedFields_replicate, Nat.zero_add]
  rfl

/-- If the index of the last field wraps onto the size of the vtable, the field has no offset. -/
theorem generateVTable_last {n : Nat} (wraps : (n + 2) % 4294967296 = 0) :
    ∃ v, generateVTable (List.replicate n 0 ++ [1]) (List.replicate (n + 1) 1) = some v ∧
      totalSize (List.replicate n 0 ++ [1]) (List.replicate (n + 1) 1) = 5 ∧ v.offset n = 0 := by
  have found : n % 4294967296 < n + 1 := Nat.lt_succ_of_le (Nat.mod_le n _)
  refine ⟨(((List.replicate (n + 3) 0).set 0 (2 * (n + 1) + 4).toUInt16).set 0 4).set 1 5, ?_, ?_, ?_⟩
  · simp [generateVTable, sortedFields_last, assignOffsets, found, wraps]
  · simp [totalSize, sortedFields_last, extent, alignmentOf, found, roundUp]
  · simp [VTable.offset]

theorem last_index_wraps :
    ∃ v, generateVTable (List.replicate 4294967294 0 ++ [1]) (List.replicate 4294967295 1) = some v ∧
      totalSize (List.replicate 4294967294 0 ++ [1]) (List.replicate 4294967295 1) = 5 ∧ v.offset 4294967294 = 0 :=
  generateVTable_last (by decide)

end FdbGo.Wire
