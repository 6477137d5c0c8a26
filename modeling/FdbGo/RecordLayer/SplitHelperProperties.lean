import FdbGo.RecordLayer.Layout
import FdbGo.RecordLayer.SplitHelper

/-! The rows of a record: what a save writes, what a load makes of them, and that clears
by the reported sizes remove all of them. -/

set_option autoImplicit false

namespace FdbGo.RecordLayer.SplitHelper

open Client Foundation FdbGo.Tuple

/-! ## Keys -/

/-- What a key suffix stands for in the order of the rows. -/
def Suffix : Type := { i : Int // -2 ^ 63 ≤ i ∧ i < 2 ^ 63 }

instance : LinearOrder Suffix := inferInstanceAs (LinearOrder { i : Int // -2 ^ 63 ≤ i ∧ i < 2 ^ 63 })

def suffixOf (suffix : Int64) : Suffix := ⟨suffix.toInt, int64_bounds suffix⟩

theorem suffixOf_inj {suffix other : Int64} : suffixOf suffix = suffixOf other ↔ suffix = other :=
  ⟨fun same => Int64.toInt_inj.mp (congrArg Subtype.val same), congrArg suffixOf⟩

private theorem packable_suffix (i : Suffix) : (Value.integer i.val).packable = true := by
  obtain ⟨i, low, high⟩ := i
  have small : i.natAbs < 256 ^ 8 := by omega
  have short := byteLength_le_iff.mpr small
  simp only [Value.packable, decide_eq_true_eq]
  omega

theorem packables_suffix (i : Suffix) : packables [Value.integer i.val] = true := by
  simp [packables, packable_suffix i]

def keyPrefix (ss : Bytes) (pk : List Value) : Bytes := ss ++ wires false pk

def suffixKey (head : Bytes) (i : Suffix) : Key := head ++ wires false [.integer i.val]

/-- The keys of a record lie in the order of their suffixes. -/
theorem suffixKey_monotone (head : Bytes) : StrictMono (suffixKey head) := by
  intro i j less
  rw [suffixKey, suffixKey, ← cmp_eq_lt_iff,
    cmp_subspace head _ _ (packables_suffix i) (packables_suffix j)]
  have order : i.val < j.val := less
  simpa [compareValues, Value.compare] using order

def layout (head : Bytes) : Layout (Int64 × Bytes) Suffix where
  index item := suffixOf item.1
  value item := item.2
  key := suffixKey head
  region k := decide (subspaceBegin head ≤ k ∧ k < subspaceEnd head)
  monotone := suffixKey_monotone head
  inside i := decide_eq_true (subspace_inside head (.integer i.val) [])

/-- The rows of one record lie outside the range of another, unless one key begins with
the other. -/
theorem regions_apart {ss : Bytes} {pk other : List Value} (packable : packables pk = true)
    (otherPackable : packables other = true) (apart : ¬ pk <+: other) (otherApart : ¬ other <+: pk) {k : Key}
    (inside : (layout (keyPrefix ss pk)).region k = true) : (layout (keyPrefix ss other)).region k = false := by
  exact decide_eq_false (subspaces_apart packable otherPackable apart otherApart (of_decide_eq_true inside))

section Keys

variable {ss : Bytes} {pk : List Element} {t : Transaction}

/-- A key of a record is packed behind its primary key. -/
theorem recordKey_run (packable : packables (values pk) = true) (suffix : Int64) :
    (recordKey ss pk suffix).run t = (.ok (suffixKey (keyPrefix ss (values pk)) (suffixOf suffix)), t) := by
  have all : packables (values (pk ++ [.int64 suffix])) = true := by
    rw [values_append, packables_append, packable]
    exact packables_suffix (suffixOf suffix)
  rw [recordKey, subspacePack_eq ss all, values_append, wires_append, ← List.append_assoc]
  rfl

theorem rowIndex_row (head : Bytes) (item : Int64 × Bytes) :
    rowIndex head.length ((layout head).row item) = .ok item.1 := by
  have unpacked := subspaceUnpack_wires head (packables_suffix (suffixOf item.1))
  have bounds := int64_bounds item.1
  have element : integerElement item.1.toInt = .int64 item.1 := by
    rw [integerElement, if_pos bounds, Int64.ofInt_toInt]
  have row : subspaceUnpack ((layout head).row item).key head.length = .ok [.int64 item.1] := by
    rw [← element]
    exact unpacked
  rw [rowIndex, row]

end Keys

/-! ## Items -/

def chunks : Nat → Bytes → List Bytes
  | 0, _ => []
  | rounds + 1, rest =>
    if rest = [] then [] else rest.take splitRecordSize :: chunks rounds (rest.drop splitRecordSize)

def chunkItems : Int64 → List Bytes → List (Int64 × Bytes)
  | _, [] => []
  | start, chunk :: rest => (start, chunk) :: chunkItems (start + 1) rest

variable {rounds : Nat} {rest : Bytes}

private theorem flatten_chunks (enough : rest.length ≤ rounds) : (chunks rounds rest).flatten = rest := by
  induction rounds generalizing rest with
  | zero =>
    have empty : rest = [] := List.eq_nil_of_length_eq_zero (Nat.le_zero.mp enough)
    rw [empty]
    rfl
  | succ rounds ih =>
    rw [chunks]
    split
    case isTrue empty => exact empty.symm
    case isFalse more =>
      have positive : 0 < rest.length := List.length_pos_iff.mpr more
      have fewer : (rest.drop splitRecordSize).length ≤ rounds := by
        rw [List.length_drop, splitRecordSize]
        omega
      rw [List.flatten_cons, ih fewer, List.take_append_drop]

theorem chunks_nil (rounds : Nat) : chunks rounds [] = [] := by
  cases rounds <;> rfl

private theorem length_chunks (rounds : Nat) (rest : Bytes) :
    (chunks rounds rest).length ≤ rest.length / splitRecordSize + 1 := by
  induction rounds generalizing rest with
  | zero => exact Nat.zero_le _
  | succ rounds ih =>
    rw [chunks]
    split
    case isTrue => exact Nat.zero_le _
    case isFalse =>
      rw [List.length_cons, Nat.add_le_add_iff_right]
      by_cases short : rest.length ≤ splitRecordSize
      · rw [List.drop_of_length_le short, chunks_nil]
        exact Nat.zero_le _
      · have fewer := ih (rest.drop splitRecordSize)
        rw [List.length_drop, splitRecordSize] at fewer
        rw [splitRecordSize] at short ⊢
        omega

theorem chunkItems_suffixes (start : Int64) (pieces : List Bytes) :
    (chunkItems start pieces).map Prod.fst = (List.range pieces.length).map fun i => start + Int64.ofNat i := by
  induction pieces generalizing start with
  | nil => rfl
  | cons piece pieces ih =>
    have shift : ∀ i, start + 1 + Int64.ofNat i = start + Int64.ofNat (i + 1) := fun i => by
      rw [Int64.ofNat_add, Int64.add_assoc, Int64.add_comm 1]
      rfl
    rw [chunkItems, List.map_cons, ih, List.length_cons, List.range_succ_eq_map, List.map_cons, List.map_map]
    have first : start + Int64.ofNat 0 = start := Int64.add_zero start
    simp only [Function.comp_def, shift, first, Nat.succ_eq_add_one]

variable {item : Int64 × Bytes} {data : Bytes} {start : Int64}

theorem toInt_add_ofNat {i : Nat} (nonneg : 0 ≤ start.toInt) (fits : start.toInt + i < 2 ^ 63) :
    (start + Int64.ofNat i).toInt = start.toInt + i := by
  have small : (Int64.ofNat i).toInt = i := Int64.toInt_ofNat_of_lt (by omega)
  rw [Int64.toInt_add, small]
  exact Int.bmod_eq_of_le (by omega) (by omega)

theorem toInt_succ (nonneg : 0 ≤ start.toInt) (fits : start.toInt + 1 < 2 ^ 63) : (start + 1).toInt = start.toInt + 1 :=
  toInt_add_ofNat (i := 1) nonneg fits

private theorem chunkItems_from {pieces : List Bytes} (nonneg : 0 ≤ start.toInt) (fits : start.toInt + pieces.length < 2 ^ 63)
    (member : item ∈ chunkItems start pieces) : start.toInt ≤ item.1.toInt := by
  have suffix := List.mem_map_of_mem (f := Prod.fst) member
  rw [chunkItems_suffixes] at suffix
  obtain ⟨i, inRange, same⟩ := List.mem_map.mp suffix
  have inside := List.mem_range.mp inRange
  rw [← same, toInt_add_ofNat nonneg (by omega)]
  omega

structure Record where
  data : Bytes
  version : Option RecordVersion
  deriving DecidableEq, Repr

def isLong (data : Bytes) : Bool := decide (splitRecordSize < data.length)

def dataItems (data : Bytes) : List (Int64 × Bytes) :=
  if isLong data then chunkItems startSplitRecord (chunks data.length data) else [(unsplitRecord, data)]

def versionItems : Option RecordVersion → List (Int64 × Bytes)
  | some (.complete stamp _) => [(recordVersionSuffix, wires false [.versionstamp stamp])]
  | _ => []

def items : Option Record → List (Int64 × Bytes)
  | some record => versionItems record.version ++ dataItems record.data
  | none => []

def pendingVersion : Option Record → Option UInt16
  | some ⟨_, some (.incomplete localVersion)⟩ => some localVersion
  | _ => none

/-- The version in the cache of the transaction: the one that waits for the commit, or a
stale one, which a save without a pending version leaves there. -/
def cachedVersion (record : Option Record) (stale : Option UInt16) : Option UInt16 :=
  record.bind fun saved => (pendingVersion (some saved)).or stale

theorem startSplitRecord_toInt : startSplitRecord.toInt = 1 := rfl

/-- No suffix of a chunk overflows. -/
theorem chunks_fit (addressable : data.length < 2 ^ 63) :
    startSplitRecord.toInt + (chunks data.length data).length < 2 ^ 63 := by
  have fewer := length_chunks data.length data
  rw [splitRecordSize] at fewer
  rw [startSplitRecord_toInt]
  omega

theorem dataItems_from (addressable : data.length < 2 ^ 63) (member : item ∈ dataItems data) : 0 ≤ item.1.toInt := by
  rw [dataItems] at member
  split at member
  case isTrue =>
    have start := chunkItems_from (by decide) (chunks_fit addressable) member
    rw [startSplitRecord_toInt] at start
    omega
  case isFalse =>
    rw [List.mem_singleton.mp member]
    exact le_refl (0 : Int)

theorem versionItems_suffix {version : Option RecordVersion} (member : item ∈ versionItems version) :
    item.1 = recordVersionSuffix := by
  unfold versionItems at member
  split at member
  · rw [List.mem_singleton.mp member]
  · exact absurd member List.not_mem_nil

/-! ## Sizes -/

def SizeInfo.count (sizes : SizeInfo) (rows : List KeyValue) : SizeInfo :=
  { sizes with
    keyCount := sizes.keyCount + rows.length
    keySize := sizes.keySize + (rows.map fun kv => kv.key.length).sum
    valueSize := sizes.valueSize + (rows.map fun kv => kv.value.length).sum }

theorem SizeInfo.count_append (sizes : SizeInfo) (rows more : List KeyValue) :
    sizes.count (rows ++ more) = (sizes.count rows).count more := by
  simp only [count, List.length_append, List.map_append, List.sum_append, Nat.add_assoc]

theorem SizeInfo.count_cons (sizes : SizeInfo) (kv : KeyValue) (rows : List KeyValue) :
    sizes.count (kv :: rows) = (sizes.count [kv]).count rows :=
  sizes.count_append [kv] rows

theorem Reading.counted_eq (r : Reading) (kv : KeyValue) : r.counted kv = { r with sizes := r.sizes.count [kv] } := by
  simp [counted, SizeInfo.count]

def versionKey (head : Bytes) : Key := suffixKey head (suffixOf recordVersionSuffix)

def pendingSizes (head : Bytes) (localVersion : Option UInt16) : SizeInfo :=
  if localVersion.isSome then
    { keyCount := 1, keySize := (versionKey head).length, valueSize := versionstampLength + 1, versionedInline := true }
  else {}

/-- The sizes that a load reports. -/
def sizesOf (head : Bytes) (stale : Option UInt16) (record : Record) : SizeInfo :=
  { (pendingSizes head (cachedVersion (some record) stale)).count ((items (some record)).map (layout head).row) with
    isSplit := isLong record.data
    versionedInline := record.version.isSome || stale.isSome }

/-! ## Loading -/

section Reading

variable {head : Bytes} {r : Reading}

private theorem readRow_unsplit (nothing : r.result = none) :
    readRow head.length r ((layout head).row (unsplitRecord, data)) =
      .ok { r with
        result := some data
        sizes := { r.sizes.count [(layout head).row (unsplitRecord, data)] with isSplit := false } } := by
  simp only [readRow, rowIndex_row, nothing, bind, Except.bind, Reading.counted_eq]
  rfl

private theorem readRow_start (nothing : r.result = none) (first : r.lastIndex = 0) :
    readRow head.length r ((layout head).row (startSplitRecord, data)) =
      .ok { r with
        result := some data
        lastIndex := startSplitRecord
        sizes := { r.sizes.count [(layout head).row (startSplitRecord, data)] with isSplit := true } } := by
  simp only [readRow, rowIndex_row, nothing, first, bind, Except.bind, Reading.counted_eq]
  rfl

private theorem readRow_next {sofar : Bytes} {index : Int64} (some_ : r.result = some sofar) (next : index = r.lastIndex + 1)
    (later : 1 < index.toInt) :
    readRow head.length r ((layout head).row (index, data)) =
      .ok { r with
        result := some (sofar ++ data)
        lastIndex := index
        sizes := r.sizes.count [(layout head).row (index, data)] } := by
  have notUnsplit : index ≠ unsplitRecord := fun same => by
    rw [same] at later
    exact absurd later (by decide)
  have notStart : index ≠ startSplitRecord := fun same => by
    rw [same] at later
    exact absurd later (by decide)
  simp only [readRow, rowIndex_row, bind, Except.bind, Reading.counted_eq, if_neg notUnsplit, if_neg notStart,
    if_pos (show index = r.lastIndex + 1 ∨ _ from .inl next), some_]
  rfl

private theorem readRow_version {stamp : Versionstamp} (known : stamp.transactionVersion ≠ incompleteTransactionVersion)
    (first : r.lastIndex = 0) :
    readRow head.length r ((layout head).row (recordVersionSuffix, wires false [.versionstamp stamp])) =
      .ok { r with
        version := some (.complete stamp known)
        sizes := { r.sizes.count [(layout head).row (recordVersionSuffix, wires false [.versionstamp stamp])]
          with versionedInline := true } } := by
  have packable : packables [Value.versionstamp stamp] = true := by simp [packables, Value.packable, known]
  have unpacked := fastUnpack_wires packable
  have version : unpackVersion (wires false [.versionstamp stamp]) = .ok (.complete stamp known) := by
    simp only [unpackVersion, unpacked, elements, Value.element, dif_pos known]
  simp only [readRow, rowIndex_row, first, bind, Except.bind, Reading.counted_eq]
  rw [if_neg (by decide), if_neg (by decide), if_pos trivial]
  simp only [Layout.row, layout, version]
  rfl

private theorem readChunks {start : Int64} {pieces : List Bytes} {sofar : Bytes} (some_ : r.result = some sofar)
    (next : start = r.lastIndex + 1) (later : 1 < start.toInt) (fits : start.toInt + pieces.length < 2 ^ 63) :
    ∃ last, ((chunkItems start pieces).map (layout head).row).foldlM (readRow head.length) r =
      .ok { r with
        result := some (sofar ++ pieces.flatten)
        lastIndex := last
        sizes := r.sizes.count ((chunkItems start pieces).map (layout head).row) } := by
  induction pieces generalizing start sofar r with
  | nil =>
    refine ⟨r.lastIndex, ?_⟩
    rw [List.flatten_nil, List.append_nil, ← some_]
    rfl
  | cons piece pieces ih =>
    rw [List.length_cons] at fits
    have one : (start + 1).toInt = start.toInt + 1 := toInt_succ (by omega) (by omega)
    have still : 1 < (start + 1).toInt := by omega
    have more : (start + 1).toInt + pieces.length < 2 ^ 63 := by omega
    rw [chunkItems, List.map_cons, List.foldlM_cons, readRow_next some_ next later]
    obtain ⟨last, rest⟩ := @ih ⟨some (sofar ++ piece), r.version, start,
      r.sizes.count [(layout head).row (start, piece)]⟩ (start + 1) (sofar ++ piece) rfl rfl still more
    refine ⟨last, rest.trans ?_⟩
    rw [List.flatten_cons, List.append_assoc,
      SizeInfo.count_cons r.sizes _ ((chunkItems (start + 1) pieces).map (layout head).row)]

theorem chunks_of_long {data : Bytes} (long : isLong data = true) :
    ∃ first others, chunks data.length data = first :: others := by
  cases data with
  | nil => exact absurd long (by decide)
  | cons byte data => exact ⟨_, _, if_neg (List.cons_ne_nil byte data)⟩

private theorem readData {data : Bytes} (addressable : data.length < 2 ^ 63) (nothing : r.result = none)
    (first : r.lastIndex = 0) :
    ∃ last, ((dataItems data).map (layout head).row).foldlM (readRow head.length) r =
      .ok { r with
        result := some data
        lastIndex := last
        sizes := { r.sizes.count ((dataItems data).map (layout head).row) with isSplit := isLong data } } := by
  rw [dataItems]
  split
  case isFalse short =>
    refine ⟨r.lastIndex, ?_⟩
    rw [List.map_singleton, List.foldlM_cons, readRow_unsplit nothing, Bool.eq_false_iff.mpr short]
    rfl
  case isTrue long =>
    obtain ⟨piece, pieces, cut⟩ := chunks_of_long long
    have fits := chunks_fit addressable
    have whole := flatten_chunks (le_refl data.length)
    rw [cut, startSplitRecord_toInt, List.length_cons] at fits
    rw [cut, List.flatten_cons] at whole
    have two : (startSplitRecord + 1).toInt = 2 := rfl
    rw [cut, chunkItems, List.map_cons, List.foldlM_cons, readRow_start nothing first]
    obtain ⟨last, rest⟩ := @readChunks head ⟨some piece, r.version, startSplitRecord,
      { r.sizes.count [(layout head).row (startSplitRecord, piece)] with isSplit := true }⟩
      (startSplitRecord + 1) pieces piece rfl rfl (by omega) (by omega)
    refine ⟨last, rest.trans ?_⟩
    rw [whole, long,
      SizeInfo.count_cons r.sizes _ ((chunkItems (startSplitRecord + 1) pieces).map (layout head).row)]
    rfl

private theorem readRange_data {data : Bytes} (addressable : data.length < 2 ^ 63) (nothing : r.result = none)
    (first : r.lastIndex = 0) :
    (do
      let r ← ((dataItems data).map (layout head).row).foldlM (readRow head.length) r
      if r.result.isNone && r.version.isSome then .error (.splitWithoutStart recordVersionSuffix)
      else .ok (r.result, r.version, r.sizes) : Except Error _) =
    .ok (some data, r.version,
      { r.sizes.count ((dataItems data).map (layout head).row) with isSplit := isLong data }) := by
  obtain ⟨last, ran⟩ := @readData head r data addressable nothing first
  rw [ran]
  rfl

theorem readRange_record {record : Record} (stale : Option UInt16) (addressable : record.data.length < 2 ^ 63) :
    readRange head.length (versionKey head) (cachedVersion (some record) stale)
        ((items (some record)).map (layout head).row) =
      .ok (some record.data, record.version.or (stale.map .incomplete), sizesOf head stale record) := by
  rw [readRange, sizesOf, items, List.map_append, List.foldlM_append, SizeInfo.count_append]
  match record with
  | ⟨data, none⟩ =>
    refine (@readRange_data head ⟨none, stale.map .incomplete, 0, pendingSizes head stale⟩ data addressable rfl rfl).trans ?_
    cases stale <;> rfl
  | ⟨data, some (.incomplete localVersion)⟩ =>
    exact @readRange_data head ⟨none, some (.incomplete localVersion), 0, pendingSizes head (some localVersion)⟩
      data addressable rfl rfl
  | ⟨data, some (.complete stamp known)⟩ =>
    rw [versionItems, List.map_singleton, List.foldlM_cons, readRow_version known rfl]
    exact @readRange_data head ⟨none, some (.complete stamp known), 0, _⟩ data addressable rfl rfl

theorem readRange_nothing :
    readRange head.length (versionKey head) none ((items none).map (layout head).row) =
      .ok (none, none, {}) := rfl

end Reading

end FdbGo.RecordLayer.SplitHelper
