import FdbGo.Client.CacheProperties
import FdbGo.Client.ChainFolding
import FdbGo.Client.CommitProperties
import FdbGo.Client.SnapshotCacheProperties

/-! Point reads. What the writes and the snapshot cache do not decide when a read is issued comes from
the server later, under the chain captured at the issue. -/

set_option autoImplicit false

namespace FdbGo.Client

inductive ReadError where
  | accessedUnreadable
  | server (code : Int)

/-- No value is an absent key. -/
abbrev ReadResult := Except ReadError (Option Bytes)

/-- A versionstamped operand is taken as written. -/
def resolveAtomicsBypass (base : Option Bytes) (atomics : List RywMutation) : Option Bytes × Bool :=
  atomics.foldl (fun state m =>
    if isUnresolvedVersionstamp m.typ then (some m.param, false)
    else
      match applyAtomic m.typ state.1 m.param with
      | (value, true) => (value, true)
      | (value, false) => (some (existing value), false)) (base, false)

def resolvePointAtomics (base : Option Bytes) (atomics : List RywMutation) (bypassUnreadable : Bool) : ReadResult :=
  if bypassUnreadable then
    let (value, cleared) := resolveAtomicsBypass base atomics
    .ok (if cleared then none else value)
  else
    let (value, cleared, unreadable) := resolveAtomics base atomics
    if unreadable then .error .accessedUnreadable else .ok (if cleared then none else value)

structure PointRead where
  key : Key
  -- The answer, when the issue gives one.
  known : Option ReadResult
  atomics : Option (List RywMutation)
  bypass : Bool

section

variable (serverCache : SnapshotCache) (w : RywWrites) (key : Key) (serverGet : Key → ReadResult)

def localPointLocked : Option ReadResult :=
  if !w.bypassUnreadable && ((w.entry key).any RywEntry.unreadable || w.isUnreadable key) then
    some (.error .accessedUnreadable)
  else
    match w.entry key with
    | some entry =>
      if !entry.hasAtomics then some (.ok (if entry.absent then none else entry.value))
      else
        let base := serverCache.getKey key
        if base.isNone && !(entry.atomics.head?.any fun m => isUnresolvedVersionstamp m.typ) then none
        else some (resolvePointAtomics base.join entry.atomics w.bypassUnreadable)
    | none => if w.isCleared key then some (.ok none) else (serverCache.getKey key).map .ok

def issueGet : PointRead :=
  let known := localPointLocked serverCache w key
  { key, known, bypass := w.bypassUnreadable
    atomics := if known.isNone then ((w.entry key).filter RywEntry.hasAtomics).map RywEntry.atomics else none }

/-- The server's answer goes to the cache of its time, `replied`. -/
def getSnapshot (replied : SnapshotCache) : ReadResult × SnapshotCache :=
  match serverCache.getKey key with
  | some value => (.ok value, replied)
  | none => (serverGet key, (serverGet key).toOption.elim replied (replied.insertPoint key))

def PointRead.finish (r : PointRead) (replied : SnapshotCache) : ReadResult × SnapshotCache :=
  match r.known with
  | some answer => (answer, replied)
  | none =>
    let (base, replied) := getSnapshot serverCache r.key serverGet replied
    (base.bind fun base => r.atomics.elim (.ok base) fun atomics => resolvePointAtomics base atomics r.bypass, replied)

end

/-! ## What a read sees -/

variable {atomics : List RywMutation} {k : Key} {d : Snapshot} {sc replied : SnapshotCache} {w : RywWrites}

private theorem resolvePointAtomics_eq (plain : stamped atomics = false) (base : Option Bytes) :
    resolvePointAtomics base atomics false = .ok (chainMeaning base atomics) := by
  rw [resolvePointAtomics, if_neg Bool.false_ne_true]
  cases atomics with
  | nil => rfl
  | cons m rest =>
    rw [resolveAtomics_resolvable (List.cons_ne_nil m rest) plain]
    cases chainMeaning base (m :: rest) <;> rfl

theorem getKey_cases (caches : Caches d sc.entries) (k : Key) : sc.getKey k = some (d.get k) ∨ sc.getKey k = none := by
  by_cases known : Known sc.entries k
  · exact .inl ((cacheGetKey_spec caches k).1 known)
  · exact .inr ((cacheGetKey_spec caches k).2 known)

/-- No versionstamp has made the key unreadable. -/
structure RywWrites.Readable (w : RywWrites) (k : Key) : Prop where
  bypass : w.bypassUnreadable = false
  ranges : w.isUnreadable k = false
  entry : ∀ e, w.entry k = some e → e.unreadable = false ∧ stamped e.atomics = false

/-- An issue decides the read, or the server's value under the captured chain does. -/
theorem localPointLocked_spec (coherent : w.Coherent) (readable : w.Readable k) (caches : Caches d sc.entries) :
    localPointLocked sc w k = some (.ok (w.overlay d.get k)) ∨
      localPointLocked sc w k = none ∧ .ok (w.overlay d.get k) =
        (((w.entry k).filter RywEntry.hasAtomics).map RywEntry.atomics).elim (.ok (d.get k)) fun atomics =>
          resolvePointAtomics (d.get k) atomics w.bypassUnreadable := by
  obtain ⟨bypass, unmarked, entries⟩ := readable
  unfold localPointLocked RywWrites.overlay
  cases found : w.entry k with
  | none =>
    rcases getKey_cases caches k with cached | unknown <;> cases w.isCleared k <;> simp [*]
  | some e =>
    obtain ⟨isReadable, plain⟩ := entries e found
    have first : (e.atomics.head?.any fun m => isUnresolvedVersionstamp m.typ) = false := by
      cases chain : e.atomics <;> simp_all [stamped]
    have resolved := (coherent.fits k e found).resolved
    unfold RywEntry.meaning
    cases chained : e.hasAtomics with
    | true =>
      rcases getKey_cases caches k with cached | unknown <;>
        simp [*, resolvePointAtomics_eq plain, Option.filter]
    | false =>
      cases value : e.value <;> simp_all

private theorem finish_issueGet (d : Snapshot) (coherent : w.Coherent) (readable : w.Readable k)
    {issued : SnapshotCache} (atIssue : Caches d issued.entries) (atFinish : Caches d sc.entries)
    (atReply : Caches d replied.entries) :
    ((issueGet issued w k).finish sc (fun key => .ok (d.get key)) replied).1 =
        .ok (w.materializeCommit.foldl Mutation.apply d.get k) ∧
      Caches d ((issueGet issued w k).finish sc (fun key => .ok (d.get key)) replied).2.entries := by
  rw [materializeCommit_apply coherent, issueGet, PointRead.finish]
  rcases localPointLocked_spec coherent readable atIssue with known | ⟨unknown, view⟩
  · simp only [known]
    exact ⟨trivial, atReply⟩
  · simp only [unknown, view, getSnapshot, Option.isNone_none, if_true]
    rcases getKey_cases atFinish k with cached | uncached
    · rw [cached]
      exact ⟨rfl, atReply⟩
    · rw [uncached]
      exact ⟨rfl, (SnapshotCache.insertPoint_spec atReply k).1⟩

/-- After any calls on an empty cache, a read returns the value that the writes at its issue would
leave if they were committed, whatever has been cached since. -/
theorem point_read_returns_committed {sort : List NodeOp → List NodeOp} (sorts : SortsByKey sort) {calls : List CacheCall}
    (legal : ∀ call ∈ calls, call.Legal) {c : RywCache} (ran : RywCache.run sort {} calls = some c) (d : Snapshot)
    (readable : c.live.Readable k) {issued : SnapshotCache} (atIssue : Caches d issued.entries)
    (atFinish : Caches d sc.entries) (atReply : Caches d replied.entries) :
    ((issueGet issued c.live k).finish sc (fun key => .ok (d.get key)) replied).1 =
        .ok (c.live.materializeCommit.foldl Mutation.apply d.get k) ∧
      Caches d ((issueGet issued c.live k).finish sc (fun key => .ok (d.get key)) replied).2.entries := by
  obtain ⟨valid, -, -⟩ := RywCache.liveLocked_spec (RywCache.run_valid sorts .empty legal ran)
  have agrees : c.live.Agrees := valid.agrees _
  exact finish_issueGet d agrees.coherent readable atIssue atFinish atReply

theorem point_read_returns_committed_added : ∃ (c : RywCache) (d : Snapshot),
    (c.live.entry [1]).any RywEntry.hasAtomics = true ∧ d.get [1] = some [5] ∧
      ((issueGet {} c.live [1]).finish {} (fun key => .ok (d.get key)) {}).1 =
        .ok (c.live.materializeCommit.foldl Mutation.apply d.get [1]) := by
  have legal : ∀ call ∈ [.clearRange [2] [3] true, .atomic .addValue [1] [2] true], CacheCall.Legal call := by decide
  refine ⟨_, ⟨[⟨[1], [5]⟩], List.pairwise_singleton _ _⟩, ?_, rfl,
    (point_read_returns_committed mergeSort_sortsByKey legal rfl _ ⟨rfl, rfl, ?_⟩ .nil .nil .nil).1⟩
  · rfl
  · rintro e ⟨⟩
    exact ⟨rfl, rfl⟩

end FdbGo.Client
