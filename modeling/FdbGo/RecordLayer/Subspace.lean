import FdbGo.RecordLayer.TransactionProperties
import FdbGo.Tuple.FastAgreement
import FdbGo.Tuple.Prefixes

/-! Tuples packed behind a subspace's prefix. -/

set_option autoImplicit false

namespace FdbGo.RecordLayer

open Client FdbGo.Tuple

/-- `Subspace.Pack`: packing panics on a tuple that cannot be packed. -/
def subspacePack {Error : Type} (ss : Bytes) (t : List Element) : Tx Error Bytes :=
  match pack t with
  | .ok packed => pure (ss ++ packed)
  | .error _ => Tx.panics

inductive SubspaceError where
  | shorterThanPrefix (length prefixLen : Nat)
  | decode (cause : Fast.FastError)
  deriving DecidableEq, Repr

/-- `tuplefast.SubspaceUnpack`. -/
def subspaceUnpack (key : Bytes) (prefixLen : Nat) : Except SubspaceError (List Element) :=
  if key.length < prefixLen then .error (.shorterThanPrefix key.length prefixLen)
  else
    match Fast.unpack (key.drop prefixLen) with
    | .ok t => .ok t
    | .error cause => .error (.decode cause)

variable (ss : Bytes)

/-- `Subspace.FDBRangeKeys`. -/
def subspaceBegin : Key := ss ++ [0x00]

def subspaceEnd : Key := ss ++ [0xff]

/-- A packable tuple is packed behind the subspace. -/
theorem subspacePack_eq {Error : Type} (ss : Bytes) {t : List Element} (packable : packables (values t) = true)
    (tr : Transaction) : (subspacePack ss t : Tx Error Bytes).run tr = (.ok (ss ++ wires false (values t)), tr) := by
  rw [subspacePack, pack_eq packable]
  rfl

theorem fastUnpack_wires {vs : List Value} (packable : packables vs = true) :
    Fast.unpack (wires false vs) = .ok (elements vs) := by
  have reference := unpack_wires packable
  cases Fast.unpack_agrees (wires false vs) with
  | inl agree =>
    obtain ⟨t, fast, same, _⟩ := agree
    rw [fast, Except.ok.inj (same.symm.trans reference)]
  | inr disagree =>
    obtain ⟨_, _, _, _, _, failed, _⟩ := disagree
    rw [reference] at failed
    cases failed

theorem subspaceUnpack_wires (ss : Bytes) {vs : List Value} (packable : packables vs = true) :
    subspaceUnpack (ss ++ wires false vs) ss.length = .ok (elements vs) := by
  have long : ¬ (ss ++ wires false vs).length < ss.length := by
    rw [List.length_append]
    omega
  rw [subspaceUnpack, if_neg long, List.drop_left' rfl, fastUnpack_wires packable]

theorem append_lt_append (ss b others : Bytes) : ss ++ b < ss ++ others ↔ b < others := by
  rw [← cmp_eq_lt_iff, cmp_append_left, cmp_eq_lt_iff]

theorem append_le_append (ss b others : Bytes) : ss ++ b ≤ ss ++ others ↔ b ≤ others := by
  rw [← not_lt, append_lt_append, not_lt]

theorem cmp_subspace (vs others : List Value) (packable : packables vs = true)
    (otherPackable : packables others = true) :
    cmp (ss ++ wires false vs) (ss ++ wires false others) = compareValues vs others := by
  rw [cmp_append_left, cmp_packed vs others packable otherPackable]

theorem subspace_inside (value : Value) (vs : List Value) :
    subspaceBegin ss ≤ ss ++ wires false (value :: vs) ∧ ss ++ wires false (value :: vs) < subspaceEnd ss := by
  obtain ⟨code, rest, wire, below⟩ := wire_head false value
  rw [subspaceBegin, subspaceEnd, append_le_append, append_lt_append, wires, wire, List.cons_append,
    cons_le_cons, cons_lt_cons]
  exact ⟨cons_le_cons.mp (zero_le_of_ne_nil (List.cons_ne_nil _ _)), .inl below⟩

/-- The keys of a subspace's range are those that go on after the prefix, with a byte
that no escaped payload ends in. -/
theorem mem_subspace_iff (k : Key) :
    subspaceBegin ss ≤ k ∧ k < subspaceEnd ss ↔ ∃ s, k = ss ++ s ∧ s ≠ [] ∧ Tail s := by
  constructor
  · intro bounds
    rw [subspaceBegin, subspaceEnd] at bounds
    induction ss generalizing k with
    | nil =>
      cases k with
      | nil => exact absurd bounds.1 (not_le.mpr (nil_lt_cons _ _))
      | cons byte rest =>
        refine ⟨byte :: rest, rfl, List.cons_ne_nil _ _, fun same => ?_⟩
        obtain rfl : byte = 0xFF := Option.some.inj same
        cases cons_lt_cons.mp bounds.2 with
        | inl less => exact absurd less (lt_irrefl _)
        | inr equal => exact absurd equal.2 (not_lt_nil rest)
    | cons head ss ih =>
      cases k with
      | nil => exact absurd bounds.1 (not_le.mpr (nil_lt_cons _ _))
      | cons byte rest =>
        rw [List.cons_append, List.cons_append, cons_le_cons, cons_lt_cons] at bounds
        obtain ⟨above | ⟨rfl, above⟩, below | ⟨same, below⟩⟩ := bounds
        · exact absurd above below.not_gt
        · exact absurd same above.ne'
        · exact absurd below (lt_irrefl _)
        · obtain ⟨s, rfl, parts⟩ := ih rest ⟨above, below⟩
          exact ⟨s, rfl, parts⟩
  · intro found
    obtain ⟨s, rfl, nonempty, tail⟩ := found
    rw [subspaceBegin, subspaceEnd, append_le_append, append_lt_append]
    refine ⟨?_, tail.lt []⟩
    exact zero_le_of_ne_nil nonempty

/-- The ranges of two subspaces have no key in common, unless one tuple begins with the
other. -/
theorem subspaces_apart {ss : Bytes} {vs others : List Value} (packable : packables vs = true)
    (otherPackable : packables others = true) (apart : ¬ vs <+: others) (otherApart : ¬ others <+: vs) {k : Key}
    (inside : subspaceBegin (ss ++ wires false vs) ≤ k ∧ k < subspaceEnd (ss ++ wires false vs)) :
    ¬ (subspaceBegin (ss ++ wires false others) ≤ k ∧ k < subspaceEnd (ss ++ wires false others)) := by
  intro otherInside
  obtain ⟨s, rfl, _, tail⟩ := (mem_subspace_iff _ k).mp inside
  obtain ⟨s', same, _, otherTail⟩ := (mem_subspace_iff _ _).mp otherInside
  rw [List.append_assoc, List.append_assoc, List.append_cancel_left_eq] at same
  cases prefix_of_wires_eq packable otherPackable tail otherTail same with
  | inl begins => exact apart begins
  | inr begins => exact otherApart begins

/-! ## Keys of one byte string -/

def bytesKey (b : Bytes) : Key := ss ++ wires false [.bytes b]

private theorem cmp_bytesKey (ss b other : Bytes) : cmp (bytesKey ss b) (bytesKey ss other) = cmp b other := by
  rw [bytesKey, bytesKey, cmp_subspace ss _ _ rfl rfl]
  simp only [compareValues, Value.compare]
  cases cmp b other <;> rfl

theorem bytesKey_lt {b other : Bytes} : bytesKey ss b < bytesKey ss other ↔ b < other := by
  rw [← cmp_eq_lt_iff, cmp_bytesKey, cmp_eq_lt_iff]

theorem bytesKey_le {b other : Bytes} : bytesKey ss b ≤ bytesKey ss other ↔ b ≤ other := by
  rw [← not_lt, bytesKey_lt, not_lt]

theorem bytesKey_inside (ss b : Bytes) : subspaceBegin ss ≤ bytesKey ss b ∧ bytesKey ss b < subspaceEnd ss :=
  subspace_inside ss (.bytes b) []

end FdbGo.RecordLayer
