import FdbGo.Query.NormalFormAbsorption

/-! The entry points of normalization: what they rewrite keeps its meaning, is in normal
form, and is not rewritten again. -/

set_option autoImplicit false

namespace FdbGo.Query

open Foundation

variable {Leaf : Type} {mode : NormalFormMode}

/-! ## Readings -/

variable (value : Leaf → TriBool)

/-- Disjunctive: truth values as they are ordered. -/
theorem reading_dnf :
    Reading .normalFormDNF (Predicate.eval value) TriBool.not where
  major p isMajor := by
    cases p with
    | or sps atomic => exact eval_or value sps atomic
    | and | not | leaf | constant => cases isMajor
  minor p isMinor := by
    cases p with
    | and sps atomic => exact eval_and value sps atomic
    | or | not | leaf | constant => cases isMinor
  noMajor := rfl
  noMinor := rfl
  not := eval_not value
  neg_neg := TriBool.not_not
  neg_inf := TriBool.not_inf
  neg_sup := TriBool.not_sup
  neg_top := rfl
  neg_bot := rfl

/-- Conjunctive: truth values the other way round. -/
theorem reading_cnf :
    Reading .normalFormCNF (fun p => OrderDual.toDual (p.eval value))
      (fun x => OrderDual.toDual (OrderDual.ofDual x).not) where
  major p isMajor := by
    cases p with
    | and sps atomic => exact (congrArg _ (eval_and value sps atomic)).trans (joinAll_toDual _ _).symm
    | or | not | leaf | constant => cases isMajor
  minor p isMinor := by
    cases p with
    | or sps atomic => exact (congrArg _ (eval_or value sps atomic)).trans (meetAll_toDual _ _).symm
    | and | not | leaf | constant => cases isMinor
  noMajor := rfl
  noMinor := rfl
  not child atomic := congrArg _ (eval_not value child atomic)
  neg_neg x := TriBool.not_not x
  neg_inf x y := TriBool.not_sup x y
  neg_sup x y := TriBool.not_inf x y
  neg_top := rfl
  neg_bot := rfl

/-! ## Clauses back to predicates -/

section Rebuild

variable {L : Type} [DistribLattice L] [BoundedOrder L] {v : Predicate Leaf → L} {neg : L → L}

theorem Reading.majorWithChildren_value (reading : Reading mode v neg) (children : List (Predicate Leaf)) :
    v (mode.majorWithChildren children) = joinAll v children := by
  match children with
  | [] => exact reading.noMajor.trans (joinAll_nil v).symm
  | [p] =>
    rw [joinAll_cons, joinAll_nil, sup_bot_eq]
    cases mode <;> rfl
  | p :: q :: rest =>
    cases mode with
    | normalFormDNF => exact reading.major (.or (p :: q :: rest) false) rfl
    | normalFormCNF => exact reading.major (.and (p :: q :: rest) false) rfl

theorem Reading.minorWithChildren_value (reading : Reading mode v neg) (children : List (Predicate Leaf)) :
    v (mode.minorWithChildren children) = meetAll v children := by
  match children with
  | [] => exact reading.noMinor.trans (meetAll_nil v).symm
  | [p] =>
    rw [meetAll_cons, meetAll_nil, inf_top_eq]
    cases mode <;> rfl
  | p :: q :: rest =>
    cases mode with
    | normalFormDNF => exact reading.minor (.and (p :: q :: rest) false) rfl
    | normalFormCNF => exact reading.minor (.or (p :: q :: rest) false) rfl

theorem Reading.rebuild_value (reading : Reading mode v neg) (clauses : List (List (Predicate Leaf))) :
    v (rebuildNormalForm clauses mode) = clausesValue v clauses := by
  rw [rebuildNormalForm, reading.majorWithChildren_value, joinAll, List.map_map]
  refine congrArg (fun values : List L => (values : Multiset L).sup) (List.map_congr_left fun clause _ => ?_)
  exact reading.minorWithChildren_value clause

end Rebuild

def clausal (mode : NormalFormMode) (child : Predicate Leaf) : Bool :=
  normalFormVariableOrNot child ||
    (mode.isMinor child && (connectiveChildren child).all normalFormVariableOrNot)

private theorem clausal_minorWithChildren {clause : List (Predicate Leaf)}
    (literals : ∀ atom ∈ clause, normalFormVariableOrNot atom = true) :
    clausal mode (mode.minorWithChildren clause) = true := by
  match clause with
  | [] => cases mode <;> rfl
  | [p] =>
    have isLiteral := literals p List.mem_cons_self
    cases mode <;> exact Bool.or_eq_true_iff.mpr (.inl isLiteral)
  | p :: q :: rest =>
    have all := List.all_eq_true.mpr literals
    cases mode <;> exact Bool.or_eq_true_iff.mpr (.inr all)

private theorem isInNormalForm_of_clausal {p : Predicate Leaf} (isClausal : clausal mode p = true) :
    isInNormalForm p mode = true := by
  rw [clausal, Bool.or_eq_true, Bool.and_eq_true] at isClausal
  rw [isInNormalForm]
  split
  case isTrue => rfl
  case isFalse notLiteral =>
    obtain ⟨isMinor, literals⟩ := isClausal.resolve_left notLiteral
    have notMajor : mode.isMajor p = false := by
      cases mode <;> cases p <;> first | rfl | cases isMinor
    rw [notMajor, if_neg Bool.false_ne_true, isMinor, if_pos rfl]
    exact literals

variable {clauses : List (List (Predicate Leaf))} {pred : Predicate Leaf}

theorem isInNormalForm_rebuild (literals : ∀ clause ∈ clauses, ∀ atom ∈ clause, normalFormVariableOrNot atom = true) :
    isInNormalForm (rebuildNormalForm clauses mode) mode = true := by
  have clausals : ∀ child ∈ clauses.map mode.minorWithChildren, clausal mode child = true := by
    intro child member
    obtain ⟨clause, isClause, rfl⟩ := List.mem_map.mp member
    exact clausal_minorWithChildren (literals clause isClause)
  rw [rebuildNormalForm]
  match clauses.map mode.minorWithChildren, clausals with
  | [], _ => cases mode <;> rfl
  | [p], only =>
    have here := isInNormalForm_of_clausal (only p List.mem_cons_self)
    cases mode <;> exact here
  | p :: q :: rest, all =>
    have every := List.all_eq_true.mpr all
    cases mode <;> exact every

/-! ## The entry points -/

/-- What a rewriting has to keep. The entry point is given the result again. -/
structure Normalizes (value : Leaf → TriBool) (mode : NormalFormMode) (pred : Predicate Leaf)
    (result : Predicate Leaf × Bool) (again : Predicate Leaf → Predicate Leaf × Bool) : Prop where
  meaning : result.1.eval value = pred.eval value
  normal : result.2 = true → isInNormalForm result.1 mode = true
  stable : result.2 = true → again result.1 = (result.1, false)

def absorptionAtoms (same : Leaf → Leaf → Bool) (mode : NormalFormMode) (pred : Predicate Leaf) :
    List (Predicate Leaf) :=
  ((toNormalized mode pred false).map (dedupPredicateSlice same)).flatten

theorem normalizeInternal_none (normal : isInNormalForm pred mode = true) (sizeLimit : Int) :
    normalizeInternal pred sizeLimit mode = none := by
  rw [normalizeInternal, if_pos normal]

theorem normalizeInternal_some {sizeLimit : Int} (rewritten : normalizeInternal pred sizeLimit mode = some clauses) :
    clauses = toNormalized mode pred false := by
  rw [normalizeInternal] at rewritten
  split at rewritten
  case isTrue => cases rewritten
  case isFalse =>
    split at rewritten
    case isTrue => cases rewritten
    case isFalse => exact (Option.some.inj rewritten).symm

private theorem normalizeAndSimplify_normalizes {L : Type} [DistribLattice L] [BoundedOrder L] {v : Predicate Leaf → L}
    {neg : L → L} (reading : Reading mode v neg) {value : Leaf → TriBool}
    (injective : ∀ p q, v p = v q → p.eval value = q.eval value) {same : Leaf → Leaf → Bool}
    (equals : ∀ a b, predicateEquals same a b = true → v a = v b) {heap : Nat → Predicate Leaf} {address : Nat → Nat}
    (pred : Predicate Leaf) (lie : Lie heap address 0 (absorptionAtoms same mode pred)) (sizeLimit : Int)
    (nextAddress : Nat → Nat) (nextLimit : Int) :
    Normalizes value mode pred (normalizeAndSimplify same address mode pred sizeLimit)
      fun p => normalizeAndSimplify same nextAddress mode p nextLimit := by
  rw [normalizeAndSimplify]
  cases rewritten : normalizeInternal pred sizeLimit mode with
  | none => exact ⟨rfl, nofun, nofun⟩
  | some clauses =>
    rw [normalizeInternal_some rewritten]
    have normal : isInNormalForm (rebuildNormalForm (applyAbsorption same address (toNormalized mode pred false)) mode)
        mode = true := by
      refine isInNormalForm_rebuild fun clause member atom isAtom => ?_
      obtain ⟨original, isOriginal, inOriginal⟩ := applyAbsorption_atoms equals member isAtom
      exact literals_toNormalized pred false original isOriginal atom inOriginal
    refine ⟨injective _ _ ?_, fun _ => normal, fun _ => ?_⟩
    · rw [reading.rebuild_value, applyAbsorption_value equals lie, toNormalized_value reading]
      rfl
    · rw [normalizeAndSimplify, normalizeInternal_none normal]

private theorem normalizeDNFWithoutSimplification_normalizes (pred : Predicate Leaf) (sizeLimit nextLimit : Int) :
    Normalizes value .normalFormDNF pred (normalizeDNFWithoutSimplification pred sizeLimit)
      fun p => normalizeDNFWithoutSimplification p nextLimit := by
  rw [normalizeDNFWithoutSimplification]
  cases rewritten : normalizeInternal pred sizeLimit .normalFormDNF with
  | none => exact ⟨rfl, nofun, nofun⟩
  | some clauses =>
    rw [normalizeInternal_some rewritten]
    have normal : isInNormalForm (rebuildNormalForm (toNormalized .normalFormDNF pred false) .normalFormDNF)
        .normalFormDNF = true := isInNormalForm_rebuild (literals_toNormalized pred false)
    refine ⟨?_, fun _ => normal, fun _ => ?_⟩
    · rw [(reading_dnf value).rebuild_value, toNormalized_value (reading_dnf value)]
      rfl
    · rw [normalizeDNFWithoutSimplification, normalizeInternal_none normal]

/-- Normalization keeps the truth value of every predicate, for every assignment to its
leaves that gives equal leaves one value, and wherever its atoms lie in memory. The
predicted size is the number of clauses, unless it saturates. -/
theorem normal_forms_preserve_meaning (same : Leaf → Leaf → Bool) (value : Leaf → TriBool)
    (respects : ∀ a b, same a b = true → value a = value b) (pred : Predicate Leaf) :
    (∀ heap address, Lie heap address 0 (absorptionAtoms same .normalFormCNF pred) →
      ∀ sizeLimit nextAddress nextLimit, Normalizes value .normalFormCNF pred (normalizeCNF same address pred sizeLimit)
        fun p => normalizeCNF same nextAddress p nextLimit) ∧
    (∀ heap address, Lie heap address 0 (absorptionAtoms same .normalFormDNF pred) →
      ∀ sizeLimit nextAddress nextLimit, Normalizes value .normalFormDNF pred (normalizeDNF same address pred sizeLimit)
        fun p => normalizeDNF same nextAddress p nextLimit) ∧
    (∀ sizeLimit nextLimit, Normalizes value .normalFormDNF pred (normalizeDNFWithoutSimplification pred sizeLimit)
      fun p => normalizeDNFWithoutSimplification p nextLimit) ∧
    ∀ negate mode, normalFormExpansionSize pred negate mode ≠ normalFormSizeSaturated →
      normalFormExpansionSize pred negate mode = (toNormalized mode pred negate).length := by
  have equals := eval_eq_of_equals respects
  refine ⟨fun heap address lie sizeLimit nextAddress nextLimit => ?_,
    fun heap address lie sizeLimit nextAddress nextLimit => ?_,
    normalizeDNFWithoutSimplification_normalizes value pred, fun negate mode unsaturated => ?_⟩
  · exact normalizeAndSimplify_normalizes (reading_cnf value) (fun _ _ same => OrderDual.toDual.injective same)
      (fun a b equal => congrArg OrderDual.toDual (equals a b equal)) pred lie sizeLimit nextAddress nextLimit
  · exact normalizeAndSimplify_normalizes (reading_dnf value) (fun _ _ same => same) equals pred lie sizeLimit
      nextAddress nextLimit
  · have size : normalFormExpansionSize pred negate mode = _ := size_toNormalized pred negate
    omega

/-- `NOT (a AND NOT b) AND (a OR b)`, where only `b` is known. -/
def negatedConjunction : Predicate Bool :=
  .and [.not (.and [.leaf true, .not (.leaf false) false] false) false, .or [.leaf true, .leaf false] false] false

def onlyOneKnown : Bool → TriBool
  | true => .triUnknown
  | false => .triFalse

theorem normal_forms_preserve_meaning_negated :
    (normalizeCNF (fun a b => decide (a = b)) id negatedConjunction 3000).2 = true ∧
      Normalizes onlyOneKnown .normalFormCNF negatedConjunction
        (normalizeCNF (fun a b => decide (a = b)) id negatedConjunction 3000)
        fun p => normalizeCNF (fun a b => decide (a = b)) id p 3000 := by
  refine ⟨rfl, (normal_forms_preserve_meaning (fun a b => decide (a = b)) onlyOneKnown (fun a b equal => ?_)
    negatedConjunction).1 (fun k => (absorptionAtoms (fun a b => decide (a = b)) .normalFormCNF negatedConjunction)[k]?.getD
      (.leaf true)) id (fun k atom found => ?_) 3000 id 3000⟩
  · rw [of_decide_eq_true equal]
  · rw [id, Nat.zero_add]
    exact congrArg (Option.getD · _) found

/-! ### Casts of arrays

Leaves that `PredicateEquals` takes for equal need not have one value: the comparison of two
casts does not look at the element types of arrays. -/

inductive TypeCode where
  | boolean
  | int
  | long
  | array
  deriving DecidableEq, Repr

inductive ValueType where
  | boolean (nullable : Bool)
  | int (nullable : Bool)
  | long (nullable : Bool)
  | array (nullable : Bool) (elementType : ValueType)

namespace ValueType

def code : ValueType → TypeCode
  | boolean _ => .boolean
  | int _ => .int
  | long _ => .long
  | array _ _ => .array

def isNullable : ValueType → Bool
  | boolean nullable | int nullable | long nullable | array nullable _ => nullable

end ValueType

def typesEqual (a b : ValueType) : Bool := decide (a.code = b.code) && decide (a.isNullable = b.isNullable)

/-- A `CastValue` over a column of type `INT ARRAY`. -/
structure ColumnCast where
  ordinal : Nat
  target : ValueType

inductive CastElement where
  | number (n : Int64)
  | truth (b : Bool)
  deriving DecidableEq, Repr

namespace ColumnCast

def valuesStructurallyEqual (a b : ColumnCast) : Bool := typesEqual a.target b.target && decide (a.ordinal = b.ordinal)

def castElement (n : Int64) : ValueType → Option CastElement
  | .boolean _ => some (.truth (decide (n ≠ 0)))
  | .int _ | .long _ => some (.number n)
  | .array _ _ => none

/-- `CastValue.Evaluate`: the elements that are not null are cast one by one. -/
def evaluate (row : Nat → List (Option Int64)) (v : ColumnCast) : Option (List (Option CastElement)) :=
  match v.target with
  | .array _ elementType => (row v.ordinal).mapM fun element => element.elim (some none) fun n => (castElement n elementType).map some
  | .boolean _ | .int _ | .long _ => none

end ColumnCast

/-- A `ComparisonPredicate` of `=`. -/
structure CastComparison where
  operand : ColumnCast
  comparand : ColumnCast

namespace CastComparison

def equals (a b : CastComparison) : Bool :=
  a.operand.valuesStructurallyEqual b.operand && a.comparand.valuesStructurallyEqual b.comparand

/-- A cast that fails is left open. -/
def eval (row : Nat → List (Option Int64)) (p : CastComparison) : TriBool :=
  match p.operand.evaluate row, p.comparand.evaluate row with
  | some left, some right => if left = right then .triTrue else .triFalse
  | _, _ => .triUnknown

end CastComparison

/-- `CAST(a AS T ARRAY) = CAST(b AS T ARRAY)`. -/
def castsEqual (a b : Nat) (elementType : ValueType) : Predicate CastComparison :=
  .leaf ⟨⟨a, .array true elementType⟩, ⟨b, .array true elementType⟩⟩

/-- Columns of one number each, 1 in the first and 2 in the others. -/
def oneAndTwo : Nat → List (Option Int64)
  | 0 => [some 1]
  | _ => [some 2]

/-- As numbers the columns differ, as truth values they agree, and one cast absorbs the other. -/
def numbersOrTruths : Predicate CastComparison :=
  .or [castsEqual 0 1 (.long true),
    .not (.or [.not (castsEqual 0 1 (.boolean true)) false, .not (castsEqual 0 0 (.boolean true)) false] false) false] false

theorem absorbed_by_other_element_type :
    numbersOrTruths.eval (CastComparison.eval oneAndTwo) = .triTrue ∧
      (normalizeDNF CastComparison.equals id numbersOrTruths 3000).2 = true ∧
      (normalizeDNF CastComparison.equals id numbersOrTruths 3000).1.eval (CastComparison.eval oneAndTwo) = .triFalse :=
  ⟨rfl, rfl, rfl⟩

end FdbGo.Query
