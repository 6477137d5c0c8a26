import FdbGo.Client.Overlay

/-! The read conflicts that a read adds. A key that the write map answers by itself adds
none: an operation that does not depend on the database, or a cleared key. One function
classifies a single key; another walks a range and emits the spans that conflict. -/

set_option autoImplicit false

namespace FdbGo.Client

open Foundation

/-- Whether reading the operation's key reads the database. A chain with a versionstamp
is unreadable and resolves nothing. -/
def RywEntry.isDependentLocked (e : RywEntry) : Bool :=
  if e.hasAtomics then !e.atomics.any fun m => isUnresolvedVersionstamp m.typ else e.dependent

def RywWrites.conflictForKey (w : RywWrites) (key : Key) : Bool :=
  match w.entry key with
  | some e => e.isDependentLocked
  | none => !w.isCleared key

structure ConflictSpan where
  beginB : Boundary
  endB : Boundary
  deriving DecidableEq, Repr

def ConflictSpan.range (span : ConflictSpan) : KeyRange :=
  { beginKey := span.beginB.materialize, endKey := span.endB.materialize }

/-- Adds `[lo, hi)` to the spans after the first `first`, joining it to the last of them
when it begins where that ends. -/
def emit (first : Nat) (dst : List ConflictSpan) (lo hi : Boundary) : List ConflictSpan :=
  match dst.getLast? with
  | some last =>
    if decide (first < dst.length) && last.endB.equal lo then dst.dropLast ++ [{ last with endB := hi }]
    else dst ++ [{ beginB := lo, endB := hi }]
  | none => dst ++ [{ beginB := lo, endB := hi }]

/-- The walk's spans, its position, and what is left of the writes and cleared ranges. -/
structure SpanWalk where
  dst : List ConflictSpan
  cur : Boundary
  writes : List RywWrite
  cleared : List KeyRange

namespace SpanWalk

def writeHere (walk : SpanWalk) : Option RywWrite :=
  match walk.writes with
  | x :: _ => if Boundary.equal { key := x.key } walk.cur then some x else none
  | [] => none

def clearedAhead (walk : SpanWalk) : List KeyRange :=
  walk.cleared.dropWhile fun r => Boundary.compare { key := r.endKey } walk.cur != .gt

def gapEnd (walk : SpanWalk) (last : Boundary) : Boundary :=
  match walk.writes with
  | x :: _ => if Boundary.compare { key := x.key } last == .lt then { key := x.key } else last
  | [] => last

/-- Whether the position is cleared, and where that or the gap before it ends. -/
def clearedGap (walk : SpanWalk) (hi : Boundary) : Bool × Boundary :=
  match walk.clearedAhead with
  | r :: _ =>
    if Boundary.compare { key := r.beginKey } walk.cur != .gt then
      (true, if Boundary.compare { key := r.endKey } hi == .lt then { key := r.endKey } else hi)
    else (false, if Boundary.compare { key := r.beginKey } hi == .lt then { key := r.beginKey } else hi)
  | [] => (false, hi)

def step (first : Nat) (last : Boundary) (walk : SpanWalk) : SpanWalk :=
  match walk.writeHere with
  | some x =>
    let next := Boundary.keyAfter { key := x.key }
    { walk with
      dst := if x.e.isDependentLocked then emit first walk.dst walk.cur next else walk.dst
      cur := next
      writes := walk.writes.tail }
  | none =>
    let (cleared, hi) := walk.clearedGap (walk.gapEnd last)
    { walk with
      dst := if cleared then walk.dst else emit first walk.dst walk.cur hi
      cur := hi
      cleared := walk.clearedAhead }

end SpanWalk

namespace RywWrites

/-- Appends the spans of `[beginKey, endKey)` that conflict. The position moves at each
round to the next boundary, of which each write and each cleared range has two. -/
def appendConflictSpans (w : RywWrites) (dst : List ConflictSpan) (beginKey endKey : Key) :
    List ConflictSpan :=
  if endKey ≤ beginKey then dst
  else
    let w := w.ensureSorted
    let writes := w.sorted.drop (w.writeIndex beginKey)
    let cleared := w.cleared.drop (w.cleared.findIdx fun r => decide (beginKey < r.endKey))
    let last : Boundary := { key := endKey }
    (Loop.run (fun walk => walk.cur.compare last == .lt) (SpanWalk.step dst.length last)
      (2 * w.sorted.length + 2 * w.cleared.length + 1)
      { dst := dst, cur := { key := beginKey }, writes := writes, cleared := cleared }).dst

end RywWrites

/-! ## The spans emitted so far -/

private theorem separateRanges_concat {rs : List KeyRange} {r : KeyRange} :
    SeparateRanges (rs ++ [r]) ↔
      SeparateRanges rs ∧ r.beginKey < r.endKey ∧ ∀ other ∈ rs, other.endKey < r.beginKey := by
  have alone : SeparateRanges [r] ↔ r.beginKey < r.endKey :=
    ⟨fun separate => separate.nonempty r List.mem_cons_self, fun nonempty => ⟨by simpa, by simp⟩⟩
  rw [SeparateRanges.append_iff, alone]
  simp

/-- The spans up to a position: they hold the keys that conflict. -/
structure Emitted (conflicts : Key → Bool) (low position : Key) (out : List ConflictSpan) : Prop where
  separate : SeparateRanges (out.map ConflictSpan.range)
  inside : ∀ span ∈ out, low ≤ span.range.beginKey ∧ span.range.endKey ≤ position
  covered : ∀ k, Covered (out.map ConflictSpan.range) k ↔ (low ≤ k ∧ k < position) ∧ conflicts k = true

private theorem emit_first (dst : List ConflictSpan) (lo hi : Boundary) :
    emit dst.length dst lo hi = dst ++ [{ beginB := lo, endB := hi }] := by
  unfold emit
  cases dst.getLast? with
  | none => rfl
  | some last => simp

theorem emit_concat {first : Nat} {init : List ConflictSpan} (old : first ≤ init.length)
    (last : ConflictSpan) (lo hi : Boundary) :
    emit first (init ++ [last]) lo hi =
      if last.endB.equal lo then init ++ [{ last with endB := hi }]
      else init ++ [last] ++ [{ beginB := lo, endB := hi }] := by
  have longer : first < init.length + 1 := Nat.lt_succ_of_le old
  simp only [emit, List.getLast?_concat, List.length_append, List.length_singleton, longer, decide_true,
    Bool.true_and, List.dropLast_concat]

/-- A call joins only spans of its own; those of earlier calls stay as they are. -/
theorem emit_append (dst out : List ConflictSpan) (lo hi : Boundary) :
    emit dst.length (dst ++ out) lo hi = dst ++ emit 0 out lo hi := by
  cases out using List.reverseRecOn with
  | nil =>
    rw [List.append_nil, emit_first]
    rfl
  | append_singleton init last =>
    rw [← List.append_assoc, emit_concat (by simp), emit_concat (Nat.zero_le _), apply_ite (dst ++ ·)]
    simp only [List.append_assoc]

namespace Emitted

variable {conflicts : Key → Bool} {low position : Key} {out : List ConflictSpan}

theorem start (conflicts : Key → Bool) (low : Key) : Emitted conflicts low low [] where
  separate := SeparateRanges.nil
  inside := by simp
  covered k := by
    refine ⟨fun covered => absurd covered (covered_nil k), fun ⟨⟨le, less⟩, _⟩ => ?_⟩
    exact absurd le (not_le.mpr less)

theorem skip (emitted : Emitted conflicts low position out) {hi : Key} (forward : position < hi)
    (quiet : ∀ k, position ≤ k → k < hi → conflicts k = false) : Emitted conflicts low hi out where
  separate := emitted.separate
  inside span member :=
    ⟨(emitted.inside span member).1, (emitted.inside span member).2.trans forward.le⟩
  covered k := by
    rw [emitted.covered]
    constructor
    · rintro ⟨⟨le, less⟩, conflict⟩
      exact ⟨⟨le, less.trans forward⟩, conflict⟩
    · rintro ⟨⟨le, less⟩, conflict⟩
      refine ⟨⟨le, ?_⟩, conflict⟩
      by_contra beyond
      rw [quiet k (not_lt.mp beyond) less] at conflict
      exact Bool.false_ne_true conflict

theorem emit (emitted : Emitted conflicts low position out) {lo hi : Boundary}
    (here : lo.materialize = position) (from_ : low ≤ position) (forward : position < hi.materialize)
    (loud : ∀ k, position ≤ k → k < hi.materialize → conflicts k = true) :
    Emitted conflicts low hi.materialize (Client.emit 0 out lo hi) := by
  have stretch : ∀ k, (position ≤ k ∧ k < hi.materialize) ∨ (low ≤ k ∧ k < position) ∧ conflicts k = true ↔
      (low ≤ k ∧ k < hi.materialize) ∧ conflicts k = true := by
    intro k
    constructor
    · intro either
      cases either with
      | inl now => exact ⟨⟨from_.trans now.1, now.2⟩, loud k now.1 now.2⟩
      | inr earlier => exact ⟨⟨earlier.1.1, earlier.1.2.trans forward⟩, earlier.2⟩
    · rintro ⟨⟨le, less⟩, conflict⟩
      cases lt_or_ge k position with
      | inl before => exact .inr ⟨⟨le, before⟩, conflict⟩
      | inr after => exact .inl ⟨after, less⟩
  cases out using List.reverseRecOn with
  | nil =>
    refine ⟨⟨?_, ?_⟩, ?_, fun k => ?_⟩
    · simpa [Client.emit, ConflictSpan.range, here] using forward
    · simp [Client.emit]
    · simpa [Client.emit, ConflictSpan.range, here] using from_
    · rw [← stretch, ← emitted.covered]
      simp [Client.emit, ConflictSpan.range, here, Covered, KeyRange.Covers]
  | append_singleton init last =>
    obtain ⟨initSeparate, lastNonempty, initBefore⟩ :=
      separateRanges_concat.mp (List.map_append ▸ emitted.separate)
    have lastInside := emitted.inside last (by simp)
    have whole := fun k => (emitted.covered k).symm
    simp only [List.map_append, List.map_singleton, covered_append] at whole
    rw [emit_concat (Nat.zero_le _)]
    split
    case isTrue touches =>
      have ends : last.range.endKey = position := (Boundary.equal_iff.mp touches).trans here
      refine ⟨?_, ?_, fun k => ?_⟩
      · rw [List.map_append]
        refine separateRanges_concat.mpr ⟨initSeparate, ?_, initBefore⟩
        exact (lastNonempty.trans_le lastInside.2).trans forward
      · refine List.forall_mem_append.mpr ⟨fun span inInit => ?_, List.forall_mem_singleton.mpr ⟨lastInside.1, le_rfl⟩⟩
        exact (emitted.inside span (List.mem_append_left _ inInit)).imp_right fun before => before.trans forward.le
      · rw [← stretch, whole, List.map_append, covered_append, or_left_comm]
        refine or_congr_right ?_
        simp only [List.map_singleton, Covered, List.mem_singleton, exists_eq_left, KeyRange.Covers]
        have begins : last.range.beginKey ≤ position := (lastNonempty.le.trans lastInside.2)
        constructor
        · rintro ⟨le, less⟩
          cases lt_or_ge k position with
          | inl before => exact .inr ⟨le, ends ▸ before⟩
          | inr after => exact .inl ⟨after, less⟩
        · intro either
          cases either with
          | inl now => exact ⟨begins.trans now.1, now.2⟩
          | inr earlier => exact ⟨earlier.1, (ends ▸ earlier.2).trans forward⟩
    case isFalse apart =>
      have ends : last.range.endKey < position := by
        refine lt_of_le_of_ne lastInside.2 fun same => apart (Boundary.equal_iff.mpr ?_)
        exact same.trans here.symm
      refine ⟨?_, ?_, fun k => ?_⟩
      · rw [List.map_append]
        refine separateRanges_concat.mpr ⟨emitted.separate, here.trans_lt forward, ?_⟩
        show ∀ r : KeyRange, r ∈ _ → r.endKey < lo.materialize
        rw [here, List.map_append]
        refine List.forall_mem_append.mpr ⟨fun r inInit => ?_, List.forall_mem_singleton.mpr ends⟩
        exact ((initBefore r inInit).trans lastNonempty).trans ends
      · refine List.forall_mem_append.mpr ⟨fun span old => ?_, List.forall_mem_singleton.mpr ⟨from_.trans here.ge, le_rfl⟩⟩
        exact (emitted.inside span old).imp_right fun before => before.trans forward.le
      · rw [← stretch, ← emitted.covered, List.map_append, covered_append, or_comm]
        simp [Covered, KeyRange.Covers, ConflictSpan.range, here]

end Emitted

end FdbGo.Client
