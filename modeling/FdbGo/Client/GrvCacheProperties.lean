import FdbGo.Client.GrvMachine
import Mathlib.Data.Int.Order.Basic
import Mathlib.Data.Nat.Basic

/-! What merging a reply does to the epoch, the version and the floor of the entry. -/

set_option autoImplicit false

namespace FdbGo.Client

/-! ## Fences -/

theorem fenceEpoch_pack (epoch gen : Nat) : fenceEpoch (packFences epoch gen) = epoch % fenceHalf := by
  have small : gen % fenceHalf < fenceHalf := Nat.mod_lt _ (by decide)
  rw [fenceEpoch, packFences, Nat.add_comm, Nat.add_mul_div_right _ _ (by decide), Nat.div_eq_of_lt small,
    Nat.zero_add]

theorem fenceGen_pack (epoch gen : Nat) : fenceGen (packFences epoch gen) = gen % fenceHalf := by
  rw [fenceGen, packFences, Nat.add_comm, Nat.add_mul_mod_self_right, Nat.mod_mod]

theorem fenceGen_withEpoch (tok epoch : Nat) : fenceGen (withEpoch tok epoch) = fenceGen tok := by
  rw [withEpoch, fenceGen_pack, fenceGen, Nat.mod_mod]

theorem fenceEpoch_withEpoch_le (tok epoch : Nat) : fenceEpoch (withEpoch tok epoch) ≤ epoch := by
  rw [withEpoch, fenceEpoch_pack]
  exact Nat.mod_le _ _

/-- Short of the wrap a bump counts one generation. -/
theorem fenceGen_bumped {f : Nat} (unwrapped : fenceGen f + 1 < fenceHalf) (newCluster : Bool) :
    fenceGen (bumpedFences newCluster f) = fenceGen f + 1 := by
  rw [bumpedFences, fenceGen_pack, Nat.mod_eq_of_lt unwrapped]

/-- The epoch never exceeds the generation, so it does not wrap before it. -/
theorem fenceEpoch_bumped {f : Nat} (unwrapped : fenceGen f + 1 < fenceHalf)
    (ahead : fenceEpoch f ≤ fenceGen f) (newCluster : Bool) :
    fenceEpoch (bumpedFences newCluster f) = if newCluster then fenceEpoch f + 1 else fenceEpoch f := by
  rw [bumpedFences, fenceEpoch_pack, Nat.mod_eq_of_lt]
  split <;> omega

/-! ## Merging -/

variable {cur : Option GrvCacheEntry} {obs tok : Nat} {r : Reply}

@[simp] theorem mergeCooldowns_version (next : GrvCacheEntry) (sameEpoch : Bool) (r : Reply) :
    (mergeCooldowns next sameEpoch r).version = next.version := by
  unfold mergeCooldowns
  dsimp only
  split <;> split <;> rfl

private theorem mergeVersion_version (base : Option GrvCacheEntry) (r : Reply) :
    (mergeVersion base r).version = match base with
      | some e => if r.v < e.version then e.version else r.v
      | none => r.v := by
  cases base with
  | none => rfl
  | some e =>
    unfold mergeVersion
    dsimp only
    split
    case isTrue => rfl
    case isFalse => split <;> split <;> rfl

theorem mergeReply_stale (stale : fenceEpoch obs ≠ fenceEpoch tok) (cur : Option GrvCacheEntry) (r : Reply) :
    mergeReply cur obs tok r = cur.getD {} := by
  have differs : obs ≠ tok := fun same => stale (congrArg fenceEpoch same)
  cases cur <;> simp [mergeReply, mergeBase, mergeFloor, mergeCooldowns, stale, differs]

theorem mergeBase_current (cur : Option GrvCacheEntry) (obsEpoch : Nat) :
    mergeBase cur true obsEpoch = cur.filter fun e => e.epoch == obsEpoch := by
  cases cur with
  | none => rfl
  | some e =>
    by_cases same : e.epoch = obsEpoch
    · simp [mergeBase, same, Option.filter]
    · simp [mergeBase, same, Option.filter]

section

variable (current : fenceEpoch obs = fenceEpoch tok)

include current

theorem mergeReply_epoch : (mergeReply cur obs tok r).epoch = fenceEpoch tok := by
  simp [mergeReply, current]

theorem mergeReply_floor :
    (mergeReply cur obs tok r).floor =
      mergeFloor (cur.filter fun e => e.epoch == fenceEpoch tok) true r := by
  simp [mergeReply, current, mergeBase_current]

theorem mergeReply_version :
    (mergeReply cur obs tok r).version =
      if takesVersion cur obs tok r then r.v
      else ((cur.filter fun e => e.epoch == fenceEpoch tok).map GrvCacheEntry.version).getD 0 := by
  simp only [mergeReply, takesVersion, current, beq_self_eq_true, if_true, mergeBase_current,
    mergeCooldowns_version]
  generalize cur.filter (fun e => e.epoch == fenceEpoch tok) = base
  by_cases same : obs = tok
  · by_cases low : r.v < mergeFloor base true r
    · cases base <;> simp [same, low]
    · cases base with
      | none => simp [same, low, mergeVersion_version]
      | some e =>
        by_cases older : r.v < e.version
        · simp [same, low, older, mergeVersion_version]
        · simp [same, low, older, mergeVersion_version]
  · cases base <;> simp [same]

end

/-- The floor a reply of the current epoch leaves: the one it found, or its own version
if this is durable. -/
theorem mergeFloor_spec (base : Option GrvCacheEntry) (r : Reply) :
    (base.map GrvCacheEntry.floor).getD 0 ≤ mergeFloor base true r ∧
      (r.durable = true → r.v ≤ mergeFloor base true r) ∧
      (mergeFloor base true r = (base.map GrvCacheEntry.floor).getD 0 ∨
        r.durable = true ∧ mergeFloor base true r = r.v) := by
  unfold mergeFloor
  dsimp only
  generalize (base.map GrvCacheEntry.floor).getD 0 = floor
  split
  case isTrue raised =>
    simp only [Bool.and_true, Bool.and_eq_true, decide_eq_true_eq] at raised
    exact ⟨Int.le_of_lt raised.2, fun _ => le_rfl, .inr ⟨raised.1, rfl⟩⟩
  case isFalse kept =>
    refine ⟨le_rfl, fun durable => ?_, .inl rfl⟩
    simpa [durable] using kept

/-! ## Reading -/

theorem serve_eq_some {e : GrvCacheEntry} {priority : Nat} {nowT anchor : GoTime} {x : Int}
    (served : serve e priority nowT = some (x, anchor)) : e.version = x ∧ x ≠ 0 ∧ e.floor ≤ x := by
  unfold serve at served
  dsimp only at served
  generalize (if priority = grvPriorityBatch then e.rkBatch
    else if priority = grvPrioritySystemImmediate then {} else e.rkDefault) = lastThrottle at served
  split_ifs at served with missing low stale throttled
  cases served
  exact ⟨rfl, missing, not_lt.mp low⟩

end FdbGo.Client
