import FdbGo.Query.Predicate
import Mathlib.Algebra.Ring.Nat

/-! The normal forms of predicates: a major connective of minor ones of variables and
negated variables, where the major one is `OR` for the disjunctive form and `AND` for the
conjunctive one. -/

set_option autoImplicit false

namespace FdbGo.Query

open Foundation

inductive NormalFormMode where
  | normalFormDNF
  | normalFormCNF
  deriving DecidableEq, Repr

variable {Leaf : Type}

namespace NormalFormMode

def isMajor : NormalFormMode → Predicate Leaf → Bool
  | normalFormCNF, .and _ _ => true
  | normalFormDNF, .or _ _ => true
  | _, _ => false

def isMinor : NormalFormMode → Predicate Leaf → Bool
  | normalFormCNF, .or _ _ => true
  | normalFormDNF, .and _ _ => true
  | _, _ => false

end NormalFormMode

def buildAnd : List (Predicate Leaf) → Predicate Leaf
  | [] => .constant .triTrue
  | [p] => p
  | preds => .and preds false

def buildOr : List (Predicate Leaf) → Predicate Leaf
  | [] => .constant .triFalse
  | [p] => p
  | preds => .or preds false

namespace NormalFormMode

def majorWithChildren : NormalFormMode → List (Predicate Leaf) → Predicate Leaf
  | normalFormCNF => buildAnd
  | normalFormDNF => buildOr

def minorWithChildren : NormalFormMode → List (Predicate Leaf) → Predicate Leaf
  | normalFormCNF => buildOr
  | normalFormDNF => buildAnd

end NormalFormMode

def connectiveChildren : Predicate Leaf → List (Predicate Leaf)
  | .and subPredicates _ | .or subPredicates _ => subPredicates
  | .not _ _ | .leaf _ | .constant _ => []

variable (p : Predicate Leaf)

def normalFormVariable : Bool :=
  isAtomic p ||
    match p with
    | .and _ _ | .or _ _ | .not _ _ => false
    | .leaf _ | .constant _ => true

def normalFormVariableOrNot : Bool :=
  normalFormVariable p ||
    match p with
    | .not child _ => normalFormVariable child
    | _ => false

def isInNormalForm (mode : NormalFormMode) : Bool :=
  if normalFormVariableOrNot p then true
  else if mode.isMajor p then
    (connectiveChildren p).all fun child =>
      normalFormVariableOrNot child ||
        (mode.isMinor child && (connectiveChildren child).all normalFormVariableOrNot)
  else if mode.isMinor p then (connectiveChildren p).all normalFormVariableOrNot
  else false

/-! ## Sizes -/

def normalFormSizeSaturated : Nat := 2 ^ 63 - 1

def saturatingAddSize (a b : Nat) : Nat :=
  if a > normalFormSizeSaturated - b then normalFormSizeSaturated else a + b

def saturatingMulSize (a b : Nat) : Nat :=
  if a = 0 ∨ b = 0 then 0 else if a > normalFormSizeSaturated / b then normalFormSizeSaturated else a * b

mutual
def normalFormSizeWithAtomicity (mode : NormalFormMode) (respectAtomicity : Bool) : Predicate Leaf → Bool → Nat
  | .leaf _, _ | .constant _, _ => 1
  | .not child atomic, negate =>
    if respectAtomicity && atomic then 1 else normalFormSizeWithAtomicity mode respectAtomicity child (!negate)
  | .and subPredicates atomic, negate =>
    if respectAtomicity && atomic then 1
    else if mode.isMajor (.and subPredicates atomic) != negate then sumSizes mode respectAtomicity subPredicates negate 0
    else multiplySizes mode respectAtomicity subPredicates negate 1
  | .or subPredicates atomic, negate =>
    if respectAtomicity && atomic then 1
    else if mode.isMajor (.or subPredicates atomic) != negate then sumSizes mode respectAtomicity subPredicates negate 0
    else multiplySizes mode respectAtomicity subPredicates negate 1

def sumSizes (mode : NormalFormMode) (respectAtomicity : Bool) : List (Predicate Leaf) → Bool → Nat → Nat
  | [], _, size => size
  | child :: children, negate, size =>
    sumSizes mode respectAtomicity children negate
      (saturatingAddSize size (normalFormSizeWithAtomicity mode respectAtomicity child negate))

def multiplySizes (mode : NormalFormMode) (respectAtomicity : Bool) : List (Predicate Leaf) → Bool → Nat → Nat
  | [], _, size => size
  | child :: children, negate, size =>
    multiplySizes mode respectAtomicity children negate
      (saturatingMulSize size (normalFormSizeWithAtomicity mode respectAtomicity child negate))
end

def normalFormExpansionSize (negate : Bool) (mode : NormalFormMode) : Nat :=
  normalFormSizeWithAtomicity mode true p negate

/-! ## Distribution -/

def literal (negate : Bool) : List (List (Predicate Leaf)) :=
  if negate then [[.not p false]] else [[p]]

mutual
def toNormalized (mode : NormalFormMode) : Predicate Leaf → Bool → List (List (Predicate Leaf))
  | .leaf leaf, negate => literal (.leaf leaf) negate
  | .constant value, negate => literal (.constant value) negate
  | .not child atomic, negate =>
    if atomic then literal (.not child atomic) negate else toNormalized mode child (!negate)
  | .and subPredicates atomic, negate =>
    if atomic then literal (.and subPredicates atomic) negate
    else if mode.isMinor (.and subPredicates atomic) then
      if negate then majorToNormalized mode subPredicates true else minorToNormalized mode subPredicates false [[]]
    else if negate then minorToNormalized mode subPredicates true [[]]
    else majorToNormalized mode subPredicates false
  | .or subPredicates atomic, negate =>
    if atomic then literal (.or subPredicates atomic) negate
    else if mode.isMinor (.or subPredicates atomic) then
      if negate then majorToNormalized mode subPredicates true else minorToNormalized mode subPredicates false [[]]
    else if negate then minorToNormalized mode subPredicates true [[]]
    else majorToNormalized mode subPredicates false

def majorToNormalized (mode : NormalFormMode) : List (Predicate Leaf) → Bool → List (List (Predicate Leaf))
  | [], _ => []
  | c :: cs, negate => toNormalized mode c negate ++ majorToNormalized mode cs negate

/-- The loop over the children, with the cross product so far. -/
def minorToNormalized (mode : NormalFormMode) :
    List (Predicate Leaf) → Bool → List (List (Predicate Leaf)) → List (List (Predicate Leaf))
  | [], _, product => product
  | child :: children, negate, product =>
    minorToNormalized mode children negate (cross product (toNormalized mode child negate))
end

/-! ## Absorption -/

/-- Equality classes of predicates. A predicate that was seen at an address keeps its
class. -/
structure PredicateClasses (Leaf : Type) where
  byPointer : Option (List (Nat × Nat))
  representatives : List (Predicate Leaf) := []

namespace PredicateClasses

variable (same : Leaf → Leaf → Bool)

def seen (c : PredicateClasses Leaf) (address : Nat) : Option Nat :=
  c.byPointer.bind fun pointers => (pointers.find? fun entry => decide (entry.1 = address)).map Prod.snd

def remember (c : PredicateClasses Leaf) (address id : Nat) : PredicateClasses Leaf :=
  { c with byPointer := c.byPointer.map fun pointers => (address, id) :: pointers }

def id (c : PredicateClasses Leaf) (predicate : Predicate Leaf) (address : Nat) : Nat × PredicateClasses Leaf :=
  match c.seen address with
  | some id => (id, c)
  | none =>
    match c.representatives.findIdx? (predicateEquals same predicate) with
    | some id => (id, c.remember address id)
    | none =>
      (c.representatives.length,
        { c with representatives := c.representatives ++ [predicate] }.remember address c.representatives.length)

end PredicateClasses

def clauseIds (same : Leaf → Leaf → Bool) (address : Nat → Nat) :
    PredicateClasses Leaf → Nat → List (Predicate Leaf) → List Nat × PredicateClasses Leaf
  | classes, _, [] => ([], classes)
  | classes, position, predicate :: clause =>
    let (id, classes) := classes.id same predicate (address position)
    let (ids, classes) := clauseIds same address classes (position + 1) clause
    (id :: ids, classes)

/-- The sets of the classes, clause by clause. The atoms stand at the addresses in turn. -/
def classSets (same : Leaf → Leaf → Bool) (address : Nat → Nat) :
    PredicateClasses Leaf → Nat → List (List (Predicate Leaf)) → List (List Nat)
  | _, _, [] => []
  | classes, position, clause :: clauses =>
    let (ids, classes) := clauseIds same address classes position clause
    ids :: classSets same address classes (position + clause.length) clauses

def containsAll (set subset : List Nat) : Bool := subset.all fun id => decide (id ∈ set)

/-- Whether the clause at `i` is absorbed by the one at `j`. -/
def absorbs (clauses : List (List (Predicate Leaf))) (sets : List (List Nat)) (i j : Nat) : Bool :=
  let ci := clauses[i]?.getD []
  let cj := clauses[j]?.getD []
  decide (i ≠ j) && (decide (cj.length < ci.length) || (decide (ci.length = cj.length) && decide (i < j))) &&
    containsAll (sets[i]?.getD []) (sets[j]?.getD [])

variable (same : Leaf → Leaf → Bool) (address : Nat → Nat)

def absorptionSurvivors (deduped : List (List (Predicate Leaf))) :
    List Nat :=
  let atomCount := (deduped.map List.length).sum
  let sets := classSets same address { byPointer := if atomCount > 16 then some [] else none } 0 deduped
  (List.range deduped.length).filter fun i => !(List.range deduped.length).any (absorbs deduped sets i)

def dedupPredicateSlice (preds : List (Predicate Leaf)) : List (Predicate Leaf) :=
  preds.foldl (fun out p => if out.any (predicateEquals same p) then out else out ++ [p]) []

def applyAbsorption (clauses : List (List (Predicate Leaf))) :
    List (List (Predicate Leaf)) :=
  if clauses.length < 2 then clauses
  else
    let deduped := clauses.map (dedupPredicateSlice same)
    (absorptionSurvivors same address deduped).map fun i => deduped[i]?.getD []

/-! ## The entry points -/

def normalizeInternal (pred : Predicate Leaf) (sizeLimit : Int) (mode : NormalFormMode) :
    Option (List (List (Predicate Leaf))) :=
  if isInNormalForm pred mode then none
  else if sizeLimit < normalFormExpansionSize pred false mode then none
  else some (toNormalized mode pred false)

def rebuildNormalForm (majorOfMinor : List (List (Predicate Leaf))) (mode : NormalFormMode) : Predicate Leaf :=
  mode.majorWithChildren (majorOfMinor.map mode.minorWithChildren)

/-- `normalizeCNF` and `NormalizeDNF`. -/
def normalizeAndSimplify (mode : NormalFormMode)
    (pred : Predicate Leaf) (sizeLimit : Int) : Predicate Leaf × Bool :=
  match normalizeInternal pred sizeLimit mode with
  | none => (pred, false)
  | some majorOfMinor => (rebuildNormalForm (applyAbsorption same address majorOfMinor) mode, true)

def normalizeCNF (pred : Predicate Leaf) (sizeLimit : Int) :
    Predicate Leaf × Bool :=
  normalizeAndSimplify same address .normalFormCNF pred sizeLimit

def normalizeDNF (pred : Predicate Leaf) (sizeLimit : Int) :
    Predicate Leaf × Bool :=
  normalizeAndSimplify same address .normalFormDNF pred sizeLimit

def normalizeDNFWithoutSimplification (pred : Predicate Leaf) (sizeLimit : Int) : Predicate Leaf × Bool :=
  match normalizeInternal pred sizeLimit .normalFormDNF with
  | none => (pred, false)
  | some majorOfMinor => (rebuildNormalForm majorOfMinor .normalFormDNF, true)

end FdbGo.Query
