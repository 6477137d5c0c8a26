import FdbGo.Client.Overlay

/-! The entries and the cleared ranges of a version agree with its nodes. -/

set_option autoImplicit false

namespace FdbGo.Client

open Foundation

/-! ## Lazy nodes -/

namespace RywNodes

/-- Built nodes are well formed; a log that is not built holds legal operations. -/
structure Sound (n : RywNodes) : Prop where
  built : n.built = true → WellFormed n.seq
  logged : n.built = false → ∀ op ∈ n.log, op.InKeyspace

theorem Sound.empty : Sound {} := ⟨fun built => absurd built Bool.false_ne_true, by simp⟩

variable {n : RywNodes}

theorem Sound.wellFormed (sound : n.Sound) : WellFormed n.nodes := by
  unfold nodes
  cases built : n.built with
  | true => exact sound.built built
  | false => exact nodesAfter_wellFormed (sound.logged built)

theorem Sound.perform (sound : n.Sound) {op : NodeOp} (legal : op.InKeyspace) : (n.perform op).Sound := by
  constructor
  · intro built
    rw [perform_built] at built
    have applied := n.nodes_perform legal
    simp only [nodes, perform_built, built, ↓reduceIte] at applied
    rw [applied]
    exact (applyOp_rewrites (sound.built built) legal).1
  · intro unbuilt
    rw [perform_built] at unbuilt
    have appended : ∃ logged : NodeOp, logged.InKeyspace ∧ (n.perform op).log = n.log ++ [logged] := by
      obtain ⟨inside, range⟩ := legal
      unfold RywNodes.perform
      cases kind : op.kind with
      | mutate =>
        refine ⟨{ kind := .mutate, beginKey := op.beginKey, addConflict := op.addConflict,
                  versionstamp := op.versionstamp }, ⟨inside, fun other => absurd rfl other⟩, ?_⟩
        simp [mutate, unbuilt, logOp]
      | clear =>
        have range := range (by simp [kind])
        refine ⟨{ kind := .clear, beginKey := op.beginKey, endKey := op.endKey,
                  addConflict := op.addConflict }, ⟨inside, fun _ => range⟩, ?_⟩
        simp [clear, range.1.not_ge, unbuilt, logOp]
      | conflict =>
        have range := range (by simp [kind])
        refine ⟨{ kind := .conflict, beginKey := op.beginKey, endKey := op.endKey },
          ⟨inside, fun _ => range⟩, ?_⟩
        simp [addConflictRange, range.1.not_ge, unbuilt, logOp]
      | unreadable =>
        have range := range (by simp [kind])
        refine ⟨{ kind := .unreadable, beginKey := op.beginKey, endKey := op.endKey },
          ⟨inside, fun _ => range⟩, ?_⟩
        simp [addUnmodifiedAndUnreadableRange, range.1.not_ge, unbuilt, logOp]
    obtain ⟨logged, inKeyspace, log⟩ := appended
    rw [log]
    exact List.forall_mem_append.mpr ⟨sound.logged unbuilt, List.forall_mem_singleton.mpr inKeyspace⟩

theorem Sound.denote_perform (sound : n.Sound) {op : NodeOp} (legal : op.InKeyspace) (p : Key) :
    denote (n.perform op).nodes p =
      if op.beginKey ≤ p ∧ p < op.upperKey then op.target n.nodes p else denote n.nodes p := by
  rw [n.nodes_perform legal]
  exact (applyOp_rewrites sound.wellFormed legal).2 p

theorem Sound.build (sound : n.Sound) {sort : List NodeOp → List NodeOp}
    (sorts : SortsByKey sort) : (n.build sort).built = true ∧ (n.build sort).seq = n.nodes := by
  cases built : n.built with
  | true => simp [RywNodes.build, nodes, built]
  | false =>
    have same : n.build sort = RywNodes.build sort { log := n.log } := by simp [RywNodes.build, built]
    rw [same, build_seq sorts (sound.logged built)]
    simp [nodes, built]

end RywNodes

/-! ## Agreement -/

namespace RywWrites

variable {w : RywWrites}

/-- The stores of a version say the same: the written keys are the operations of the
nodes, and the keys not written are cleared where the nodes are. -/
structure Agrees (w : RywWrites) : Prop where
  coherent : w.Coherent
  sound : w.nodes.Sound
  operation : ∀ k, (w.entry k).isSome = true ↔ (denote w.nodes.nodes k).op = true
  cleared : ∀ k, w.entry k = none → (Covered w.cleared k ↔ (denote w.nodes.nodes k).cleared = true)

theorem Agrees.empty : Agrees {} where
  coherent := Coherent.empty
  sound := RywNodes.Sound.empty
  operation k := by
    have flags : denote (RywNodes.nodes {}) k = _ := denote_sentinels k
    rw [flags]
    simp [entry]
  cleared k _ := by
    have flags : denote (RywNodes.nodes {}) k = _ := denote_sentinels k
    rw [flags]
    simpa using covered_nil k

variable {key : Key} {w' : RywWrites} {b e : Key}

/-- Writing an entry agrees with nodes in which its key has become an operation and the
others are as they were. -/
theorem Agrees.put (agrees : w.Agrees) {e : RywEntry} (coherent : w'.Coherent) (sound : w'.nodes.Sound)
    (entries : w'.entry = Function.update w.entry key (some e)) (cleared : w'.cleared = w.cleared)
    (here : (denote w'.nodes.nodes key).op = true)
    (elsewhere : ∀ k, k ≠ key → denote w'.nodes.nodes k = denote w.nodes.nodes k) : w'.Agrees where
  coherent := coherent
  sound := sound
  operation k := by
    rw [entries]
    by_cases same : k = key
    · simp [same, here]
    · rw [Function.update_of_ne same, elsewhere k same]
      exact agrees.operation k
  cleared k := by
    rw [entries, cleared]
    by_cases same : k = key
    · simp [same]
    · rw [Function.update_of_ne same, elsewhere k same]
      exact agrees.cleared k

theorem mutate_denote {n : RywNodes} (sound : n.Sound) (inside : key < allKeysEnd) (addConflict versionstamp : Bool) :
    (n.mutate key addConflict versionstamp).Sound ∧
      (denote (n.mutate key addConflict versionstamp).nodes key).op = true ∧
      ∀ k, k ≠ key → denote (n.mutate key addConflict versionstamp).nodes k = denote n.nodes k := by
  let op : NodeOp :=
    { kind := .mutate, beginKey := key, addConflict := addConflict, versionstamp := versionstamp }
  have legal : op.InKeyspace := ⟨inside, fun other => absurd rfl other⟩
  have range : ∀ p, op.beginKey ≤ p ∧ p < op.upperKey ↔ p = key := fun p => within_keyAfter_iff
  refine ⟨sound.perform legal, ?_, fun k apart => ?_⟩
  · have flags := sound.denote_perform legal key
    rw [if_pos ((range key).mpr rfl)] at flags
    exact congrArg NodeFlags.op flags
  · have flags := sound.denote_perform legal k
    rw [if_neg (mt (range k).mp apart)] at flags
    exact flags

theorem Agrees.setWith (agrees : w.Agrees) (inside : key < allKeysEnd) (value : Bytes)
    (addConflict : Bool) : (w.setWith key value addConflict).Agrees := by
  obtain ⟨sound, here, elsewhere⟩ := mutate_denote agrees.sound inside addConflict false
  have nodes : (w.setWith key value addConflict).nodes = w.nodes.mutate key addConflict false := by
    rw [setWith_eq, putEntry_nodes]
    simp [nodeKey, inside]
  have entries : (w.setWith key value addConflict).entry = Function.update w.entry key
      (some { value := some value, unreadable := ((w.entry key).getD {}).unreadable }) := by
    rw [setWith_eq, entry_putEntry (agrees.coherent.mark _ w.unreadableKeys w.unreadableRanges).indexed]
    rfl
  have cleared : (w.setWith key value addConflict).cleared = w.cleared := by
    rw [setWith_eq, putEntry_cleared]
  exact agrees.put (agrees.coherent.setWith key value addConflict) (nodes ▸ sound) entries cleared
    (nodes ▸ here) (nodes ▸ elsewhere)

theorem Agrees.atomicWith (agrees : w.Agrees) {op : MutationType} (operation : isAtomicOp op = true)
    (resolvable : isUnresolvedVersionstamp op = false) (inside : key < allKeysEnd)
    (param : Bytes) (addConflict : Bool) : (w.atomicWith op key param addConflict).Agrees := by
  have coherent := agrees.coherent.atomicWith operation resolvable key param addConflict
  have nodes : (w.atomicWith op key param addConflict).nodes =
      if w.mutatesNode op key addConflict then w.nodes.mutate key addConflict false else w.nodes := by
    rw [atomicWith_eq w resolvable, putEntry_nodes]
  have entries : (w.atomicWith op key param addConflict).entry =
      Function.update w.entry key (some (w.atomicEntry op key param addConflict)) := by
    rw [atomicWith_eq w resolvable,
      entry_putEntry (agrees.coherent.mark _ w.unreadableKeys w.unreadableRanges).indexed]
    rfl
  have cleared : (w.atomicWith op key param addConflict).cleared = w.cleared := by
    rw [atomicWith_eq w resolvable, putEntry_cleared]
  cases mutates : w.mutatesNode op key addConflict with
  | true =>
    obtain ⟨sound, here, elsewhere⟩ := mutate_denote agrees.sound inside addConflict false
    rw [mutates, if_pos rfl] at nodes
    exact agrees.put coherent (nodes ▸ sound) entries cleared (nodes ▸ here) (nodes ▸ elsewhere)
  | false =>
    rw [mutates, if_neg Bool.false_ne_true] at nodes
    -- The node was left alone, so the key was written before.
    have written : (w.entry key).isSome = true := by
      by_contra missing
      simp [mutatesNode, nodeKey, inside, missing] at mutates
    exact agrees.put coherent (nodes ▸ agrees.sound) entries cleared
      (nodes ▸ (agrees.operation key).mp written) (fun k _ => by rw [nodes])

theorem Agrees.clears (agrees : w.Agrees) {addConflict : Bool} (clears : Clears w w' b e addConflict)
    (nonempty : b < e) (inKeyspace : e ≤ allKeysEnd) : w'.Agrees := by
  let op : NodeOp := { kind := .clear, beginKey := b, endKey := e, addConflict := addConflict }
  have legal : op.InKeyspace := ⟨nonempty.trans_le inKeyspace, fun _ => ⟨nonempty, inKeyspace⟩⟩
  have nodes : w'.nodes = w.nodes.perform op := by
    rw [clears.nodes, clearNodes, nodeClip]
    simp only [inKeyspace.not_gt, ↓reduceIte, nonempty]
    rfl
  have flags : ∀ k, denote w'.nodes.nodes k = if b ≤ k ∧ k < e then
      clearedFlags ((denote w.nodes.nodes k).conflict || addConflict) else denote w.nodes.nodes k := by
    intro k
    rw [nodes]
    exact agrees.sound.denote_perform legal k
  obtain ⟨-, covered⟩ := agrees.coherent.separate.addRangeOwned_spec nonempty
  refine ⟨clears.coherent agrees.coherent nonempty, nodes ▸ agrees.sound.perform legal, ?_, ?_⟩
  · intro k
    rw [clears.entry k, flags k]
    by_cases inside : b ≤ k ∧ k < e
    · rw [if_pos inside, if_pos inside]
      simp [clearedFlags]
    · rw [if_neg inside, if_neg inside]
      exact agrees.operation k
  · intro k
    rw [clears.entry k, flags k, clears.cleared, covered k]
    by_cases inside : b ≤ k ∧ k < e
    · rw [if_pos inside, if_pos inside]
      simp [clearedFlags, inside]
    · rw [if_neg inside, if_neg inside, or_iff_left inside]
      exact agrees.cleared k

theorem nodeClip_eq_some {lo hi : Key} (clipped : nodeClip b e = some (lo, hi)) : lo < hi ∧ hi ≤ allKeysEnd := by
  unfold nodeClip at clipped
  dsimp only at clipped
  have bound : (if allKeysEnd < e then allKeysEnd else e) ≤ allKeysEnd := by
    split
    case isTrue => exact le_rfl
    case isFalse inside => exact not_lt.mp inside
  generalize (if allKeysEnd < e then allKeysEnd else e) = upper at bound clipped
  by_cases nonempty : b < upper
  · rw [if_pos nonempty] at clipped
    obtain ⟨rfl, rfl⟩ := Prod.mk.inj (Option.some.inj clipped)
    exact ⟨nonempty, bound⟩
  · rw [if_neg nonempty] at clipped
    cases clipped

theorem Agrees.addConflictRange (agrees : w.Agrees) (nonempty : b < e) (inKeyspace : e ≤ allKeysEnd) :
    Agrees { w with nodes := w.nodes.addConflictRange b e } := by
  let op : NodeOp := { kind := .conflict, beginKey := b, endKey := e }
  have legal : op.InKeyspace := ⟨nonempty.trans_le inKeyspace, fun _ => ⟨nonempty, inKeyspace⟩⟩
  have flags : ∀ k, (denote (w.nodes.perform op).nodes k).op = (denote w.nodes.nodes k).op ∧
      (denote (w.nodes.perform op).nodes k).cleared = (denote w.nodes.nodes k).cleared := by
    intro k
    rw [agrees.sound.denote_perform legal k]
    split <;> exact ⟨rfl, rfl⟩
  refine ⟨agrees.coherent.mark _ w.unreadableKeys w.unreadableRanges, agrees.sound.perform legal, ?_, ?_⟩
  · intro k
    exact (agrees.operation k).trans (by rw [← (flags k).1]; rfl)
  · intro k unwritten
    exact (agrees.cleared k unwritten).trans (by rw [← (flags k).2]; rfl)

/-- Agreement depends on the entries found, the cleared ranges and what the nodes are. -/
theorem Agrees.congr (agrees : w.Agrees) (indexed : w'.Indexed) (sound : w'.nodes.Sound)
    (entries : w'.entry = w.entry) (cleared : w'.cleared = w.cleared) (nodes : w'.nodes.nodes = w.nodes.nodes) :
    w'.Agrees where
  coherent :=
    { indexed := indexed
      separate := cleared ▸ agrees.coherent.separate
      fits := by
        rw [entries, cleared]
        exact agrees.coherent.fits }
  sound := sound
  operation := by
    rw [entries, nodes]
    exact agrees.operation
  cleared := by
    rw [entries, cleared, nodes]
    exact agrees.cleared

end RywWrites

end FdbGo.Client
