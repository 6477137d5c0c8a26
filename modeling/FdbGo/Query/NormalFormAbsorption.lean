import FdbGo.Foundation.Related
import FdbGo.Query.NormalFormProperties

/-! Absorption keeps the meaning of a list of clauses: every clause it drops is dominated by
one that it keeps. -/

set_option autoImplicit false

namespace FdbGo.Query

open Foundation

section Absorption

variable {Leaf L : Type} {v : Predicate Leaf → L} {same : Leaf → Leaf → Bool} {heap : Nat → Predicate Leaf}

/-! ## Duplicates in a clause -/

/-- The atoms of a list all have a stand-in of the same value in another one. -/
def Covers (v : Predicate Leaf → L) (others items : List (Predicate Leaf)) : Prop :=
  ∀ item ∈ items, ∃ other ∈ others, v other = v item

variable (equals : ∀ a b, predicateEquals same a b = true → v a = v b)

include equals

theorem dedup_loop (preds out : List (Predicate Leaf)) :
    let result := preds.foldl (fun out p => if out.any (predicateEquals same p) then out else out ++ [p]) out
    (∀ p ∈ result, p ∈ out ∨ p ∈ preds) ∧ Covers v result out ∧ Covers v result preds := by
  induction preds generalizing out with
  | nil => exact ⟨fun p member => .inl member, fun p member => ⟨p, member, rfl⟩, fun p never => absurd never List.not_mem_nil⟩
  | cons p preds ih =>
    rw [List.foldl_cons]
    split
    case isTrue found =>
      obtain ⟨part, covered, rest⟩ := ih out
      obtain ⟨other, isOther, equal⟩ := List.any_eq_true.mp found
      refine ⟨fun q member => (part q member).imp_right (List.mem_cons_of_mem p), covered,
        List.forall_mem_cons.mpr ⟨?_, rest⟩⟩
      obtain ⟨kept, isKept, agree⟩ := covered other isOther
      exact ⟨kept, isKept, by rw [agree, equals p other equal]⟩
    case isFalse =>
      obtain ⟨part, covered, rest⟩ := ih (out ++ [p])
      obtain ⟨old, new⟩ := List.forall_mem_append.mp covered
      refine ⟨fun q member => ?_, old, List.forall_mem_cons.mpr ⟨new p (List.mem_singleton_self p), rest⟩⟩
      have isPart := part q member
      rwa [List.mem_append, List.mem_singleton, or_assoc, ← List.mem_cons] at isPart

variable {representatives clause more : List (Predicate Leaf)} {clauses : List (List (Predicate Leaf))}
    {address : Nat → Nat} {atom : Predicate Leaf} {c : PredicateClasses Leaf} {position id i : Nat} {ids : List Nat}

theorem mem_dedup (member : atom ∈ dedupPredicateSlice same clause) : atom ∈ clause :=
  ((dedup_loop equals clause []).1 atom member).resolve_left List.not_mem_nil

/-! ## Classes of equal atoms -/

def Names (v : Predicate Leaf → L) (representatives : List (Predicate Leaf)) (id : Nat) (p : Predicate Leaf) : Prop :=
  ∃ r, representatives[id]? = some r ∧ v r = v p

omit equals in
/-- A name stays right as representatives are added. -/
theorem Names.mono {p : Predicate Leaf} (names : Names v representatives id p) (grown : representatives <+: more) :
    Names v more id p := by
  obtain ⟨r, found, agree⟩ := names
  obtain ⟨rest, rfl⟩ := grown
  refine ⟨r, ?_, agree⟩
  rw [List.getElem?_append_left (List.getElem?_eq_some_iff.mp found).1]
  exact found

/-- What is remembered of an address names the predicate that lies there. -/
def Sound (v : Predicate Leaf → L) (heap : Nat → Predicate Leaf) (c : PredicateClasses Leaf) : Prop :=
  ∀ pointers, c.byPointer = some pointers → ∀ entry ∈ pointers, Names v c.representatives entry.2 (heap entry.1)

omit equals in
theorem sound_start (remembers : Prop) [Decidable remembers] :
    Sound v heap { byPointer := if remembers then some [] else none } := by
  intro pointers isPointers entry member
  split at isPointers
  case isTrue =>
    cases isPointers
    exact absurd member List.not_mem_nil
  case isFalse => cases isPointers

omit equals in
theorem Sound.remember (sound : Sound v heap c) (grown : c.representatives <+: more) {address : Nat}
    (names : Names v more id (heap address)) :
    Sound v heap ({ c with representatives := more }.remember address id) := by
  intro pointers remembered entry member
  obtain ⟨old, isOld, rfl⟩ := Option.map_eq_some_iff.mp remembered
  cases List.mem_cons.mp member with
  | inl isNew =>
    rw [isNew]
    exact names
  | inr before => exact (sound old isOld entry before).mono grown

theorem id_spec (sound : Sound v heap c) (address : Nat) : let (id, c') := c.id same (heap address) address
    Sound v heap c' ∧ c.representatives <+: c'.representatives ∧ Names v c'.representatives id (heap address) := by
  rw [PredicateClasses.id]
  cases found : c.seen address with
  | some id =>
    obtain ⟨pointers, isPointers, mapped⟩ := Option.bind_eq_some_iff.mp found
    obtain ⟨entry, isEntry, rfl⟩ := Option.map_eq_some_iff.mp mapped
    have here : entry.1 = address := by simpa using List.find?_some isEntry
    refine ⟨sound, List.prefix_rfl, ?_⟩
    rw [← here]
    exact sound pointers isPointers entry (List.mem_of_find?_eq_some isEntry)
  | none =>
    dsimp only
    cases index : c.representatives.findIdx? (predicateEquals same (heap address)) with
    | some id =>
      obtain ⟨inside, equal, _⟩ := List.findIdx?_eq_some_iff_getElem.mp index
      have names : Names v c.representatives id (heap address) :=
        ⟨_, List.getElem?_eq_getElem inside, (equals _ _ equal).symm⟩
      exact ⟨sound.remember List.prefix_rfl names, List.prefix_rfl, names⟩
    | none =>
      have names : Names v (c.representatives ++ [heap address]) c.representatives.length (heap address) :=
        ⟨heap address, by simp, rfl⟩
      exact ⟨sound.remember (List.prefix_append _ _) names, List.prefix_append _ _, names⟩

def Lie (heap : Nat → Predicate Leaf) (address : Nat → Nat) (position : Nat) (atoms : List (Predicate Leaf)) : Prop :=
  ∀ k atom, atoms[k]? = some atom → heap (address (position + k)) = atom

variable {deduped : List (List (Predicate Leaf))} {atoms : List (Predicate Leaf)} {sets : List (List Nat)}

omit equals in
theorem Lie.head (lie : Lie heap address position (atom :: atoms)) : heap (address position) = atom :=
  lie 0 atom rfl

omit equals in
theorem Lie.tail {address : Nat → Nat} {position : Nat} {atom : Predicate Leaf} {atoms : List (Predicate Leaf)}
    (lie : Lie heap address position (atom :: atoms)) : Lie heap address (position + 1) atoms := by
  intro k other found
  rw [Nat.add_assoc, Nat.add_comm 1]
  exact lie (k + 1) other found

omit equals in
theorem Lie.append {others : List (Predicate Leaf)} (lie : Lie heap address position (atoms ++ others)) :
    Lie heap address position atoms ∧ Lie heap address (position + atoms.length) others := by
  constructor
  · intro k atom found
    refine lie k atom ?_
    rw [List.getElem?_append_left (List.getElem?_eq_some_iff.mp found).1]
    exact found
  · intro k atom found
    rw [Nat.add_assoc]
    refine lie (atoms.length + k) atom ?_
    rw [List.getElem?_append_right (Nat.le_add_right _ _), Nat.add_sub_cancel_left]
    exact found

theorem clauseIds_spec (sound : Sound v heap c)
    (lie : Lie heap address position clause) : let (ids, c') := clauseIds same address c position clause
    Sound v heap c' ∧ c.representatives <+: c'.representatives ∧ List.Forall₂ (Names v c'.representatives) ids clause := by
  induction clause generalizing c position with
  | nil => exact ⟨sound, List.prefix_rfl, .nil⟩
  | cons atom clause ih =>
    have first := id_spec equals sound (address position)
    rw [lie.head] at first
    obtain ⟨soundHere, grownHere, names⟩ := first
    obtain ⟨soundRest, grownRest, rest⟩ := ih soundHere lie.tail
    exact ⟨soundRest, grownHere.trans grownRest, .cons (names.mono grownRest) rest⟩

theorem classSets_spec {address : Nat → Nat} {clauses : List (List (Predicate Leaf))} {c : PredicateClasses Leaf}
    {position : Nat} (sound : Sound v heap c) (lie : Lie heap address position clauses.flatten) :
    ∃ representatives, c.representatives <+: representatives ∧
      List.Forall₂ (List.Forall₂ (Names v representatives)) (classSets same address c position clauses) clauses := by
  induction clauses generalizing c position with
  | nil => exact ⟨c.representatives, List.prefix_rfl, .nil⟩
  | cons clause clauses ih =>
    rw [List.flatten_cons] at lie
    obtain ⟨soundHere, grownHere, here⟩ := clauseIds_spec equals sound lie.append.1
    obtain ⟨representatives, grown, rest⟩ := ih soundHere lie.append.2
    exact ⟨representatives, grownHere.trans grown, .cons (here.imp fun _ _ named => named.mono grown) rest⟩

omit equals in
theorem covers_of_containsAll {set subset : List Nat} {other : List (Predicate Leaf)}
    (names : List.Forall₂ (Names v representatives) set clause)
    (otherNames : List.Forall₂ (Names v representatives) subset other) (contained : containsAll set subset = true) :
    Covers v clause other := by
  intro atom member
  obtain ⟨id, isId, r, found, agree⟩ := exists_related otherNames member
  have shared : id ∈ set := of_decide_eq_true (List.all_eq_true.mp contained id isId)
  obtain ⟨partner, isPartner, r', found', agree'⟩ := exists_related (List.Forall₂.flip names) shared
  rw [found] at found'
  cases found'
  exact ⟨partner, isPartner, agree'.symm.trans agree⟩

omit equals in
theorem names_at (names : List.Forall₂ (List.Forall₂ (Names v representatives)) sets clauses) (i : Nat) :
    List.Forall₂ (Names v representatives) (sets[i]?.getD []) (clauses[i]?.getD []) := by
  induction names generalizing i with
  | nil => exact .nil
  | cons here _ ih =>
    cases i with
    | zero => exact here
    | succ i => exact ih i

/-! ## The clauses that survive -/

omit equals in
theorem mem_survivors (survives : i ∈ absorptionSurvivors same address deduped) : i < deduped.length :=
  List.mem_range.mp (List.mem_filter.mp survives).1

omit equals in
theorem dominated
    (covers : ∀ i j, i < deduped.length → j < deduped.length → containsAll (sets[i]?.getD []) (sets[j]?.getD []) = true →
      Covers v (deduped[i]?.getD []) (deduped[j]?.getD [])) (inside : i < deduped.length) :
    ∃ s, s < deduped.length ∧ (List.range deduped.length).any (absorbs deduped sets s) = false ∧
      Covers v (deduped[i]?.getD []) (deduped[s]?.getD []) := by
  -- absorption leads to shorter clauses, or to later ones of the same length
  induction measured : (deduped[i]?.getD []).length * deduped.length + (deduped.length - i) using Nat.strong_induction_on
    generalizing i with
  | _ size ih =>
    cases absorbed : (List.range deduped.length).any (absorbs deduped sets i) with
    | false => exact ⟨i, inside, absorbed, fun atom member => ⟨atom, member, rfl⟩⟩
    | true =>
      obtain ⟨j, inRange, byJ⟩ := List.any_eq_true.mp absorbed
      have insideJ : j < deduped.length := List.mem_range.mp inRange
      simp only [absorbs, Bool.and_eq_true, Bool.or_eq_true, decide_eq_true_eq] at byJ
      obtain ⟨⟨_, order⟩, contained⟩ := byJ
      have smaller : (deduped[j]?.getD []).length * deduped.length + (deduped.length - j) < size := by
        rw [← measured]
        cases order with
        | inl shorter =>
          have step := Nat.mul_le_mul_right deduped.length (Nat.succ_le_of_lt shorter)
          rw [Nat.succ_mul] at step
          omega
        | inr later =>
          rw [later.1]
          omega
      obtain ⟨s, insideS, survives, covered⟩ := ih _ smaller insideJ rfl
      refine ⟨s, insideS, survives, fun atom member => ?_⟩
      obtain ⟨middle, isMiddle, agree⟩ := covered atom member
      obtain ⟨first, isFirst, agreeFirst⟩ := covers i j inside insideJ contained middle isMiddle
      exact ⟨first, isFirst, agreeFirst.trans agree⟩

omit equals in
theorem getD_mem (inside : i < clauses.length) : clauses[i]?.getD [] ∈ clauses := by
  rw [List.getElem?_eq_getElem inside]
  exact List.getElem_mem inside

/-- Absorption adds no atom. -/
theorem applyAbsorption_atoms (member : clause ∈ applyAbsorption same address clauses) (isAtom : atom ∈ clause) :
    ∃ original ∈ clauses, atom ∈ original := by
  rw [applyAbsorption] at member
  split at member
  case isTrue => exact ⟨clause, member, isAtom⟩
  case isFalse =>
    obtain ⟨i, survives, rfl⟩ := List.mem_map.mp member
    obtain ⟨original, isOriginal, isDeduped⟩ := List.mem_map.mp (getD_mem (mem_survivors survives))
    rw [← isDeduped] at isAtom
    exact ⟨original, isOriginal, mem_dedup equals isAtom⟩

variable [DistribLattice L] [BoundedOrder L]

private theorem meetAll_dedup (clause : List (Predicate Leaf)) :
    meetAll v (dedupPredicateSlice same clause) = meetAll v clause :=
  le_antisymm (meetAll_anti (dedup_loop equals clause []).2.2)
    (meetAll_anti fun atom member => ⟨atom, mem_dedup equals member, rfl⟩)

/-- Absorption keeps the value of the clauses. -/
theorem applyAbsorption_value (lie : Lie heap address 0 (clauses.map (dedupPredicateSlice same)).flatten) :
    clausesValue v (applyAbsorption same address clauses) = clausesValue v clauses := by
  rw [applyAbsorption]
  split
  case isTrue => rfl
  case isFalse =>
    have deduped : clausesValue v (clauses.map (dedupPredicateSlice same)) = clausesValue v clauses := by
      rw [clausesValue, joinAll, List.map_map]
      refine congrArg (fun values : List L => (values : Multiset L).sup) (List.map_congr_left fun clause _ => ?_)
      exact meetAll_dedup equals clause
    rw [← deduped]
    generalize clauses.map (dedupPredicateSlice same) = dedupedClauses at lie
    refine le_antisymm (joinAll_mono fun clause member => ?_) (joinAll_mono fun clause member => ?_)
    · obtain ⟨i, survives, rfl⟩ := List.mem_map.mp member
      exact ⟨_, getD_mem (mem_survivors survives), le_rfl⟩
    · obtain ⟨i, inside, rfl⟩ := List.mem_iff_getElem.mp member
      obtain ⟨representatives, _, names⟩ := @classSets_spec Leaf L v same heap equals address dedupedClauses
        { byPointer := if (dedupedClauses.map List.length).sum > 16 then some [] else none } 0
        (sound_start _) lie
      obtain ⟨s, insideS, survives, covered⟩ := dominated
        (fun i j _ _ contained => covers_of_containsAll (names_at names i) (names_at names j) contained) inside
      refine ⟨dedupedClauses[s]?.getD [], List.mem_map.mpr ⟨s, List.mem_filter.mpr ⟨List.mem_range.mpr insideS, ?_⟩, rfl⟩, ?_⟩
      · rw [survives]
        rfl
      · rw [List.getElem?_eq_getElem inside] at covered
        exact meetAll_anti covered

end Absorption

end FdbGo.Query
