import FdbGo.Client.NodeLogProperties

/-! Write conflicts read from the log and from the built nodes cover the same
keys: those the nodes mark as conflicting. -/

set_option autoImplicit false

namespace FdbGo.Client

open Foundation Boundary RywNodes

def KeyRange.Covers (r : KeyRange) (k : Key) : Prop := r.beginKey ≤ k ∧ k < r.endKey

def Covered (rs : List KeyRange) (k : Key) : Prop := ∃ r ∈ rs, r.Covers k

instance (r : KeyRange) (k : Key) : Decidable (r.Covers k) := inferInstanceAs (Decidable (_ ∧ _))

instance (rs : List KeyRange) (k : Key) : Decidable (Covered rs k) :=
  inferInstanceAs (Decidable (∃ r ∈ rs, r.Covers k))

theorem covered_nil (k : Key) : ¬ Covered [] k := by
  rintro ⟨r, member, -⟩
  exact absurd member List.not_mem_nil

variable {seq : List Node} {rs : List KeyRange}
    {others rest dst : List KeyRange} {runs : ConflictRuns} {log : List NodeOp} {last r : KeyRange} {lo k : Key}

theorem covered_cons : Covered (r :: rs) k ↔ r.Covers k ∨ Covered rs k := by
  simp [Covered]

theorem covered_append : Covered (rs ++ others) k ↔ Covered rs k ∨ Covered others k := by
  simp only [Covered, List.mem_append, or_and_right, exists_or]

private theorem covered_perm (perm : rs.Perm others) (k : Key) : Covered rs k ↔ Covered others k := by
  simp only [Covered, perm.mem_iff]

/-! ## Coalescing -/

theorem sorted_grown (sorted : (last :: r :: rest).Pairwise fun first second => first.beginKey ≤ second.beginKey) :
    ((if last.endKey < r.endKey then { last with endKey := r.endKey } else last) :: rest).Pairwise
      fun first second : KeyRange => first.beginKey ≤ second.beginKey := by
  obtain ⟨lastFirst, restSorted⟩ := List.pairwise_cons.mp sorted
  refine List.pairwise_cons.mpr ⟨fun other member => ?_, (List.pairwise_cons.mp restSorted).2⟩
  have := lastFirst other (List.mem_cons_of_mem r member)
  split <;> exact this

private theorem mergeRanges_covered (sorted : (last :: rest).Pairwise fun first second => first.beginKey ≤ second.beginKey)
    (k : Key) : Covered (mergeRanges last rest) k ↔ Covered (last :: rest) k := by
  induction rest generalizing last with
  | nil => exact Iff.rfl
  | cons r rest ih =>
    obtain ⟨lastFirst, restSorted⟩ := List.pairwise_cons.mp sorted
    have begins := lastFirst r List.mem_cons_self
    unfold mergeRanges
    split
    case isTrue touching =>
      rw [ih (sorted_grown sorted), covered_cons, covered_cons, covered_cons, ← or_assoc]
      refine or_congr_left ?_
      unfold KeyRange.Covers
      split
      case isTrue longer => grind
      case isFalse inside => grind
    case isFalse =>
      rw [covered_cons, ih restSorted]
      exact covered_cons.symm

theorem KeyRange.le_iff {a b : KeyRange} :
    a.le b = true ↔ a.beginKey < b.beginKey ∨ a.beginKey = b.beginKey ∧ a.endKey ≤ b.endKey := by
  unfold KeyRange.le
  rcases lt_trichotomy a.beginKey b.beginKey with less | same | more
  · rw [less.cmp_eq_lt]
    simp [less]
  · rw [same, cmp_self_eq_eq]
    simp
  · rw [more.cmp_eq_gt]
    simp [more.not_gt, more.ne']

theorem sorted_begins (rs : List KeyRange) :
    (rs.mergeSort KeyRange.le).Pairwise fun first second => first.beginKey ≤ second.beginKey := by
  have sorted : (rs.mergeSort KeyRange.le).Pairwise fun first second => first.le second = true :=
    List.pairwise_mergeSort (fun a b c => by simp only [KeyRange.le_iff]; grind)
      (fun a b => by simp only [Bool.or_eq_true, KeyRange.le_iff]; grind) rs
  refine sorted.imp fun ordered => ?_
  rw [KeyRange.le_iff] at ordered
  cases ordered with
  | inl less => exact less.le
  | inr same => exact same.1.le

theorem coalesce_covered (rs : List KeyRange) (k : Key) :
    Covered (coalesceOwnedWriteConflicts rs) k ↔ Covered rs k := by
  unfold coalesceOwnedWriteConflicts
  split
  case isTrue => exact Iff.rfl
  case isFalse =>
    have perm := List.mergeSort_perm rs KeyRange.le
    have sorted := sorted_begins rs
    rw [← covered_perm perm k]
    cases order : rs.mergeSort KeyRange.le with
    | nil => exact Iff.rfl
    | cons r rest =>
      rw [order] at sorted
      exact mergeRanges_covered sorted k

/-! ## The log -/

private theorem clipConflict_covered (lo hi : Key) (b e : Boundary) (k : Key) :
    Covered (clipConflict lo hi b e) k ↔
      (lo ≤ k ∧ k < hi) ∧ b.materialize ≤ k ∧ k < e.materialize := by
  have low : (if b.compare { key := lo } == .lt then ({ key := lo } : Boundary) else b).materialize =
      max lo b.materialize := by
    rw [compare_beq_lt, materialize_plain]
    rcases lt_or_ge b.materialize lo with less | more
    · simp [less, less.le]
    · simp [more, more.not_gt]
  have high : (if e.compare { key := hi } == .gt then ({ key := hi } : Boundary) else e).materialize =
      min hi e.materialize := by
    rw [compare_beq_gt, materialize_plain]
    rcases lt_or_ge hi e.materialize with more | less
    · simp [more, more.le]
    · simp [less, less.not_gt]
  simp only [clipConflict]
  rw [compare_beq_lt, low, high]
  by_cases nonempty : max lo b.materialize < min hi e.materialize
  · rw [if_pos (by simpa using nonempty), covered_cons]
    simp only [covered_nil, or_false, KeyRange.Covers, max_le_iff, lt_min_iff]
    tauto
  · rw [if_neg (by simpa using nonempty)]
    simp only [covered_nil, false_iff]
    intro inside
    exact nonempty ((max_le inside.1.1 inside.2.1).trans_lt (lt_min inside.1.2 inside.2.2))

def NodeOp.AddsConflict (op : NodeOp) (k : Key) : Prop :=
  match op.kind with
  | .mutate => op.addConflict = true ∧ k = op.beginKey
  | .clear => op.addConflict = true ∧ op.beginKey ≤ k ∧ k < op.endKey
  | .conflict => op.beginKey ≤ k ∧ k < op.endKey
  | .unreadable => False

private theorem loggedConflicts_covered (lo hi : Key) (op : NodeOp) (k : Key) :
    Covered (loggedConflicts lo hi op) k ↔ (lo ≤ k ∧ k < hi) ∧ op.AddsConflict k := by
  unfold loggedConflicts NodeOp.AddsConflict
  cases op.kind with
  | unreadable => simpa using covered_nil k
  | conflict => simp [clipConflict_covered]
  | clear =>
    cases op.addConflict with
    | true => simp [clipConflict_covered]
    | false => simpa using covered_nil k
  | mutate =>
    cases op.addConflict with
    | false => simpa using covered_nil k
    | true =>
      simp [clipConflict_covered, within_keyAfter_iff]

/-- The log adds the keys of `[lo, hi)` to which an operation of it adds a conflict. -/
theorem log_covered (log : List NodeOp) (dst : List KeyRange) (lo hi k : Key) :
    Covered (appendWriteConflictsIn { log := log } dst lo hi) k ↔
      Covered dst k ∨ (lo ≤ k ∧ k < hi) ∧ ∃ op ∈ log, op.AddsConflict k := by
  simp only [appendWriteConflictsIn, Bool.not_false, ↓reduceIte]
  rw [covered_append, coalesce_covered]
  refine or_congr_right ?_
  induction log with
  | nil => simpa using covered_nil k
  | cons op rest ih =>
    rw [List.flatMap_cons, covered_append, ih, loggedConflicts_covered, ← and_or_left]
    simp

/-! ## The nodes -/

private theorem target_conflict {op : NodeOp} (readable : op.kind ≠ .unreadable) (k : Key) :
    (if op.beginKey ≤ k ∧ k < op.upperKey then op.target seq k else denote seq k).conflict = true ↔
      (denote seq k).conflict = true ∨ op.AddsConflict k := by
  unfold NodeOp.target NodeOp.upperKey NodeOp.AddsConflict
  cases kind : op.kind with
  | unreadable => exact absurd kind readable
  | conflict =>
    simp only [reduceCtorEq, ↓reduceIte]
    split <;> simp_all [NodeFlags.raise]
  | clear =>
    simp only [reduceCtorEq, ↓reduceIte]
    split <;> simp_all [clearedFlags]
  | mutate =>
    simp only [↓reduceIte, within_keyAfter_iff]
    split <;> simp_all

private theorem foldl_applyOp_conflict (wf : WellFormed seq) (legal : ∀ op ∈ log, op.InKeyspace)
    (readable : ∀ op ∈ log, op.kind ≠ .unreadable) (k : Key) :
    (denote (log.foldl applyOp seq) k).conflict = true ↔
      (denote seq k).conflict = true ∨ ∃ op ∈ log, op.AddsConflict k := by
  induction log generalizing seq with
  | nil => simp
  | cons op rest ih =>
    have rewrites := applyOp_rewrites wf (legal op List.mem_cons_self)
    have step : (denote (applyOp seq op) k).conflict = true ↔
        (denote seq k).conflict = true ∨ op.AddsConflict k := by
      rw [rewrites.2 k]
      exact target_conflict (readable op List.mem_cons_self) k
    rw [List.foldl_cons, ih rewrites.1 (List.forall_mem_cons.mp legal).2
      (List.forall_mem_cons.mp readable).2, step, or_assoc]
    simp

/-! ## The scan over built nodes -/

/-- The scan has read the segments up to `q`: the ranges found cover the marked
keys up to there, but for those of the run of conflicts it is in. -/
structure ConflictRuns.Upto (marked : Key → Bool) (dst : List KeyRange) (lo q : Key)
    (runs : ConflictRuns) : Prop where
  running : runs.inside = true → lo ≤ runs.start.materialize ∧ runs.start.materialize ≤ max lo q ∧
    ∀ k, runs.start.materialize ≤ k → k < q → marked k = true
  covered : ∀ k, Covered runs.dst k ↔ Covered dst k ∨
    lo ≤ k ∧ k < (if runs.inside then runs.start.materialize else q) ∧ marked k = true

theorem ConflictRuns.Upto.segment {marked : Key → Bool} {q q' : Key} (upto : Upto marked dst lo q runs)
    {begins : Boundary} {conflict : Bool} (here : begins.materialize = q) (later : q ≤ q')
    (flags : ∀ k, q ≤ k → k < q' → marked k = conflict) :
    Upto marked dst lo q' (runs.segment { key := lo } begins conflict) := by
  have clipped : (if begins.compare { key := lo } == .lt then ({ key := lo } : Boundary)
      else begins).materialize = max lo q := by
    rw [compare_beq_lt, materialize_plain, here]
    rcases lt_or_ge q lo with less | more
    · simp [less, less.le]
    · simp [more, more.not_gt, here]
  obtain ⟨running, covered⟩ := upto
  simp only [ConflictRuns.segment]
  generalize (if begins.compare { key := lo } == .lt then ({ key := lo } : Boundary) else begins) = b
    at clipped ⊢
  cases inside : runs.inside with
  | false =>
    rw [inside] at covered
    simp only [Bool.false_eq_true, ↓reduceIte] at covered
    cases conflict with
    | true =>
      simp only [Bool.not_false, Bool.and_self, ↓reduceIte]
      refine ⟨fun _ => ?_, fun k => ?_⟩
      · dsimp only
        grind
      · dsimp only
        rw [covered k]
        simp only [↓reduceIte]
        grind
    | false =>
      simp only [Bool.not_false, Bool.false_and, Bool.and_false, Bool.false_eq_true, ↓reduceIte]
      refine ⟨fun running => by simp [inside] at running, fun k => ?_⟩
      rw [covered k, inside]
      simp only [Bool.false_eq_true, ↓reduceIte]
      grind
  | true =>
    obtain ⟨past, before, inRun⟩ := running inside
    rw [inside] at covered
    simp only [↓reduceIte] at covered
    cases conflict with
    | true =>
      simp only [Bool.not_true, Bool.and_false, Bool.false_and, Bool.false_eq_true, ↓reduceIte]
      refine ⟨fun _ => ?_, fun k => ?_⟩
      · grind
      · rw [covered k, inside]
        simp only [↓reduceIte]
    | false =>
      simp only [Bool.not_true, Bool.not_false, Bool.and_self, Bool.false_eq_true, ↓reduceIte]
      refine ⟨fun running => by simp at running, fun k => ?_⟩
      simp only [Bool.false_eq_true, ↓reduceIte]
      by_cases nonempty : runs.start.materialize < b.materialize
      · rw [compare_beq_lt, decide_eq_true nonempty, if_pos rfl, covered_append, covered k,
          covered_cons, KeyRange.Covers, clipped]
        have := covered_nil k
        grind
      · rw [compare_beq_lt, decide_eq_false nonempty, if_neg Bool.false_ne_true, covered k]
        grind

theorem ConflictRuns.Upto.scan {hi : Key} {e : Node} {before rest : List Node}
    (upto : Upto (fun k => (denote seq k).conflict) dst lo (min e.key hi) runs) (wf : WellFormed seq)
    (split : seq = before ++ e :: rest) :
    Upto (fun k => (denote seq k).conflict) dst lo hi
      (runs.scan { key := lo } { key := hi } (e :: rest)) := by
  subst split
  induction rest generalizing before e runs with
  | nil =>
    have flags : ∀ k, e.key ≤ k → denote (before ++ [e]) k = e.flagsAt k := fun k past =>
      wf.denote_eq (wf.ordered.floor_of_split past (by simp))
    have last : e = { key := afterAllKeys } := by
      have floor := wf.ordered.floor_of_split (wf.bounded e (by simp)) (by simp)
      exact floor.unique wf.ordered (floor_self Node.key wf.after)
    unfold ConflictRuns.scan
    simp only [compare_bne_lt, materialize_plain, decide_eq_true_eq]
    by_cases past : hi ≤ e.key
    · rw [min_eq_right past] at upto
      rw [if_pos past]
      exact upto
    · rw [min_eq_left (not_le.mp past).le] at upto
      have range : e.op = false := by rw [last]
      simp only [if_neg past, range, Bool.false_eq_true, ↓reduceIte, ConflictRuns.scan]
      refine upto.segment (materialize_plain e.key) (not_le.mp past).le ?_
      intro k later _
      rw [flags k later, Node.flagsAt_of_ne (by simp [range])]
  | cons next tail ih =>
    obtain ⟨-, ordered, -⟩ := ordered_append.mp wf.ordered
    obtain ⟨above, ordered⟩ := List.pairwise_cons.mp ordered
    have ascends : e.key < next.key := above next List.mem_cons_self
    have upper := Ordered.head_le ordered
    have flags : ∀ k, e.key ≤ k → k < next.key → denote (before ++ e :: next :: tail) k = e.flagsAt k :=
      fun k past below => wf.denote_eq (wf.ordered.floor_of_split past
        fun node member => below.trans_le (upper node member))
    have goOn : ∀ runs : ConflictRuns,
        Upto (fun k => (denote (before ++ e :: next :: tail) k).conflict) dst lo (min next.key hi) runs →
        Upto (fun k => (denote (before ++ e :: next :: tail) k).conflict) dst lo hi
          (runs.scan { key := lo } { key := hi } (next :: tail)) := by
      intro runs upto
      have same : before ++ e :: next :: tail = (before ++ [e]) ++ next :: tail := by simp
      rw [same] at wf upto ⊢
      exact ih upto wf
    unfold ConflictRuns.scan
    simp only [compare_bne_lt, materialize_plain, materialize_keyAfter,
      decide_eq_true_eq]
    by_cases past : hi ≤ e.key
    · rw [min_eq_right past] at upto
      rw [if_pos past]
      exact upto
    rw [min_eq_left (not_le.mp past).le] at upto
    rw [if_neg past]
    cases op : e.op with
    | false =>
      rw [if_neg Bool.false_ne_true]
      refine goOn _ (upto.segment (materialize_plain e.key) (by grind) ?_)
      intro k later earlier
      rw [flags k later (earlier.trans_le (min_le_left next.key hi)), Node.flagsAt_of_ne (by simp [op])]
    | true =>
      rw [if_pos rfl]
      have afterOp : keyAfter e.key ≤ next.key := keyAfter_le_iff.mpr ascends
      have key : Upto (fun k => (denote (before ++ e :: next :: tail) k).conflict) dst lo
          (min (keyAfter e.key) hi) (runs.segment { key := lo } { key := e.key } e.isConflict) := by
        refine upto.segment (materialize_plain e.key)
          (le_min (lt_keyAfter e.key).le (not_le.mp past).le) ?_
        intro k later earlier
        have same : k = e.key :=
          le_antisymm (lt_keyAfter_iff.mp (earlier.trans_le (min_le_left _ hi))) later
        rw [flags k later (same ▸ ascends), same]
        simp [Node.flagsAt, op]
      by_cases adjacent : equalsKeyAfter e.key next.key = true
      · rw [if_pos adjacent]
        rw [← equalsKeyAfter_iff.mp adjacent] at key
        exact goOn _ key
      rw [if_neg adjacent]
      by_cases ended : hi ≤ keyAfter e.key
      · rw [min_eq_right ended] at key
        rw [if_pos ended]
        exact key
      · rw [min_eq_left (not_le.mp ended).le] at key
        rw [if_neg ended]
        refine goOn _ (key.segment (by simp [materialize_keyAfter])
          (le_min afterOp (not_le.mp ended).le) ?_)
        intro k later earlier
        have past := keyAfter_le_iff.mp later
        rw [flags k past.le (earlier.trans_le (min_le_left next.key hi)),
          Node.flagsAt_of_ne fun _ => past.ne]

private theorem built_covered (wf : WellFormed seq) (dst : List KeyRange) (lo hi k : Key) :
    Covered (appendWriteConflictsIn { seq := seq, built := true } dst lo hi) k ↔
      Covered dst k ∨ (lo ≤ k ∧ k < hi) ∧ (denote seq k).conflict = true := by
  rw [and_assoc]
  obtain ⟨e, floor⟩ := wf.exists_floor lo
  obtain ⟨lower, upper, split, index, -⟩ := floor.split wf.ordered
  have suffix : seq.drop ((seq.findIdx fun nd => decide (lo < nd.key)) - 1) = e :: upper := by
    rw [index, split]
    simp
  have start : ConflictRuns.Upto (fun k => (denote seq k).conflict) dst lo (min e.key hi)
      { dst := dst } := by
    refine ⟨fun inside => absurd inside Bool.false_ne_true, fun k => ?_⟩
    have below := floor.below
    grind
  obtain ⟨running, covered⟩ := start.scan wf split
  unfold appendWriteConflictsIn
  simp only [Bool.not_true, Bool.false_eq_true, ↓reduceIte, suffix, compare_beq_lt,
    materialize_plain]
  generalize ConflictRuns.scan _ _ _ _ = runs at running covered ⊢
  cases inside : runs.inside with
  | false =>
    rw [inside] at covered
    simpa using covered k
  | true =>
    obtain ⟨past, before, inRun⟩ := running inside
    rw [inside] at covered
    simp only [Bool.true_and, decide_eq_true_eq]
    split
    case isTrue nonempty =>
      rw [covered_append, covered k, covered_cons, KeyRange.Covers]
      have := covered_nil k
      grind
    case isFalse empty =>
      rw [covered k]
      grind

private theorem log_covered_iff_built (legal : ∀ op ∈ log, op.InKeyspace) (readable : ∀ op ∈ log, op.kind ≠ .unreadable)
    (dst : List KeyRange) (lo hi k : Key) : Covered (appendWriteConflictsIn { log := log } dst lo hi) k ↔
      Covered (appendWriteConflictsIn { seq := nodesAfter log, built := true } dst lo hi) k := by
  rw [log_covered, built_covered (nodesAfter_wellFormed legal), nodesAfter,
    foldl_applyOp_conflict wellFormed_sentinels legal readable, denote_sentinels]
  simp

/-- Building a log leaves the nodes that performing it one operation at a time on the
built sentinels leaves, whatever order the sort leaves equal keys in; and a log without
unreadable ranges covers the same conflicts before and after it is built. -/
theorem lazy_nodes_eq_eager {sort : List NodeOp → List NodeOp} (sorts : SortsByKey sort) {log : List NodeOp}
    (legal : ∀ op ∈ log, op.InKeyspace) :
    build sort { log := log } =
        { seq := (log.foldl perform { seq := rywNodeSentinels, built := true }).seq, built := true } ∧
      ((∀ op ∈ log, op.kind ≠ .unreadable) → ∀ dst lo hi k,
        Covered (appendWriteConflictsIn { log := log } dst lo hi) k ↔
          Covered ((build sort { log := log }).appendWriteConflictsIn dst lo hi) k) := by
  have eager : (log.foldl perform { seq := nodesAfter [], built := true }).seq = nodesAfter log :=
    foldl_perform_seq rfl legal
  rw [build_seq sorts legal]
  refine ⟨congrArg (RywNodes.mk · _ _) eager.symm, ?_⟩
  intro readable dst lo hi k
  exact log_covered_iff_built legal readable dst lo hi k

/-- Three writes are merged as one run, then cleared without a conflict: the conflict
of the first write stays. -/
theorem lazy_nodes_eq_eager_merged_run :
    Covered ((build (fun run => run.mergeSort fun a b => decide (a.beginKey ≤ b.beginKey))
      { log := [{ kind := .mutate, beginKey := [98], addConflict := true },
                { kind := .mutate, beginKey := [97] },
                { kind := .mutate, beginKey := [98], versionstamp := true },
                { kind := .clear, beginKey := [97], endKey := [99] }] }
      ).appendWriteConflictsIn [] [98] [99]) [98] := by
  refine ((lazy_nodes_eq_eager mergeSort_sortsByKey (by decide)).2 (by decide) [] [98] [99] [98]).mp ?_
  rw [log_covered]
  exact .inr ⟨by decide, { kind := .mutate, beginKey := [98], addConflict := true }, by decide, rfl, rfl⟩

end FdbGo.Client
