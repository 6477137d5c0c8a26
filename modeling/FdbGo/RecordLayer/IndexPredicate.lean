import Mathlib.Data.Option.Basic

/-! Stored index predicates: the evaluator that is built from a message, and the message that
`Normalize` makes of it. Normalizing keeps which records are indexed and never takes away a
predicate that may reject one. -/

set_option autoImplicit false

namespace FdbGo.RecordLayer.IndexPredicate

inductive ConstantValue where
  | true_
  | false_
  | null
  | unknown (number : Int)
  deriving DecidableEq, Repr

/-- A pointer to the message `gen.Predicate`: nil, or a message of which each arm is set or
not. A child of an arm may again be nil. -/
inductive Predicate (Leaf : Type) where
  | nil
  | message (and or : Option (List (Predicate Leaf))) (constant : Option (Option ConstantValue))
      (not : Option (Predicate Leaf)) (value window : Option Leaf)

variable {Leaf Record : Type}

/-! ## The evaluator -/

/-- The answer for a record, or none where the call panics, as that of a nil function does. -/
abbrev Evaluator (Record : Type) := Record → Option Bool

def allOf (children : List (Evaluator Record)) (msg : Record) : Option Bool :=
  match children with
  | [] => some true
  | child :: children => (child msg).bind fun accepts => if accepts then allOf children msg else some false

def anyOf (children : List (Evaluator Record)) (msg : Record) : Option Bool :=
  match children with
  | [] => some false
  | child :: children => (child msg).bind fun accepts => if accepts then some true else anyOf children msg

/-- The field `value` has the default TRUE. -/
def constantPredicateFromProto (value : Option ConstantValue) : Except String (Evaluator Record) :=
  match value.getD .true_ with
  | .true_ => .ok fun _ => some true
  | .false_ | .null => .ok fun _ => some false
  | .unknown number => .error ("unknown constant predicate value: " ++ toString number)

/-- The arms that compare a field, and the check of a window's declaration. -/
structure Arms (Leaf Record : Type) where
  valuePredicateFromProto : Leaf → Except String (Evaluator Record)
  rowNumberWindowSpecFromProto : Leaf → Except String Unit

variable (arms : Arms Leaf Record)

mutual

/-- The first arm that is set is the one that is evaluated. -/
def predicateFromProto : Predicate Leaf → Except String (Evaluator Record)
  | .nil => .ok fun _ => none
  | .message (some children) _ _ _ _ _ => (childrenFromProto "and" 0 children).map allOf
  | .message none (some children) _ _ _ _ => (childrenFromProto "or" 0 children).map anyOf
  | .message none none (some constant) _ _ _ => constantPredicateFromProto constant
  | .message none none none (some child) _ _ =>
    ((predicateFromProto child).mapError ("not predicate child: " ++ ·)).map fun child msg => (child msg).map (!·)
  | .message none none none none (some value) _ => arms.valuePredicateFromProto value
  | .message none none none none none (some window) =>
    (arms.rowNumberWindowSpecFromProto window).map fun _ _ => some true
  | .message none none none none none none => .error "empty predicate message"

/-- The loop of `andPredicateFromProto` and of `orPredicateFromProto`. -/
def childrenFromProto (arm : String) (i : Nat) : List (Predicate Leaf) → Except String (List (Evaluator Record))
  | [] => .ok []
  | child :: children => do
    let fn ← (predicateFromProto child).mapError (arm ++ " predicate child " ++ toString i ++ ": " ++ ·)
    let fns ← childrenFromProto arm (i + 1) children
    .ok (fn :: fns)

end

def accepts (p : Predicate Leaf) (msg : Record) : Prop :=
  ∃ fn, predicateFromProto arms p = .ok fn ∧ fn msg = some true

/-! ## Normalization -/

namespace Predicate

def isNil : Predicate Leaf → Bool
  | nil => true
  | message .. => false

def hasNilChild : Predicate Leaf → Bool
  | nil => false
  | message and or _ not _ _ => (and.getD []).any isNil || (or.getD []).any isNil || not.any isNil

def armCount : Predicate Leaf → Nat
  | nil => 0
  | message and or constant not value window =>
    [and.isSome, or.isSome, constant.isSome, not.isSome, value.isSome, window.isSome].count true

/-- `ConstantArmIsTrue` looks at the arm that is evaluated. -/
def constantArmIsTrue : Predicate Leaf → Bool
  | message none none (some constant) _ _ _ => constant.getD .true_ = .true_
  | _ => false

variable (children : List (Predicate Leaf))

def ofAnd : Predicate Leaf := message (some children) none none none none none

def ofOr : Predicate Leaf := message none (some children) none none none none

def ofTrue : Predicate Leaf := message none none (some (some .true_)) none none none

/-- A message of several arms or with a nil child is handed back as it is. -/
def isPlain (p : Predicate Leaf) : Bool := p.armCount = 1 && !p.hasNilChild

/-- A lone child is unwrapped. -/
def collapse (empty : Predicate Leaf) (build : List (Predicate Leaf) → Predicate Leaf) :
    List (Predicate Leaf) → Predicate Leaf
  | [] => empty
  | [kept] => kept
  | kept => build kept

mutual

/-- An AND drops the children that are the constant TRUE; an OR drops none, and an empty one stays. -/
def normalize : Predicate Leaf → Predicate Leaf
  | nil => nil
  | message (some children) or constant not value window =>
    let p := message (some children) or constant not value window
    if p.isPlain then collapse ofTrue ofAnd ((normalizeAll children).filter (!·.constantArmIsTrue)) else p
  | message none (some children) constant not value window =>
    let p := message none (some children) constant not value window
    if p.isPlain then collapse p ofOr (normalizeAll children) else p
  | message none none constant not value window => message none none constant not value window

def normalizeAll : List (Predicate Leaf) → List (Predicate Leaf)
  | [] => []
  | child :: children => child.normalize :: normalizeAll children

end

def isTautology (p : Predicate Leaf) : Bool := p.normalize.constantArmIsTrue

end Predicate

/-! ## What is evaluated -/

def meaning (p : Predicate Leaf) : Option (Evaluator Record) := (predicateFromProto arms p).toOption

/-- The evaluators of the children, if all of them have one. -/
def evaluators : List (Predicate Leaf) → Option (List (Evaluator Record))
  | [] => some []
  | child :: children => (meaning arms child).bind fun fn => (evaluators children).map (fn :: ·)

variable {arms} {p : Predicate Leaf} {children : List (Predicate Leaf)} {or : Option (List (Predicate Leaf))}
  {constant : Option (Option ConstantValue)} {not : Option (Predicate Leaf)} {value window : Option Leaf}

theorem toOption_children (arm : String) (i : Nat) :
    (childrenFromProto arms arm i children).toOption = evaluators arms children := by
  induction children generalizing i with
  | nil => rfl
  | cons child children ih =>
    rw [childrenFromProto, evaluators, meaning, ← ih (i + 1)]
    cases predicateFromProto arms child with
    | error cause => rfl
    | ok fn => cases childrenFromProto arms arm (i + 1) children <;> rfl

private theorem meaning_and :
    meaning arms (.message (some children) or constant not value window) = (evaluators arms children).map allOf := by
  rw [meaning, predicateFromProto, ← toOption_children "and" 0]
  cases childrenFromProto arms "and" 0 children <;> rfl

private theorem meaning_or :
    meaning arms (.message none (some children) constant not value window) = (evaluators arms children).map anyOf := by
  rw [meaning, predicateFromProto, ← toOption_children "or" 0]
  cases childrenFromProto arms "or" 0 children <;> rfl

theorem meaning_of_true (isTrue : p.constantArmIsTrue = true) : meaning arms p = some fun _ => some true := by
  unfold Predicate.constantArmIsTrue at isTrue
  split at isTrue
  case h_1 constant _ _ _ =>
    rw [meaning, predicateFromProto, constantPredicateFromProto, of_decide_eq_true isTrue]
    rfl
  case h_2 => cases isTrue

private theorem allOf_one (fn : Evaluator Record) : allOf [fn] = fn := by
  funext msg
  rw [allOf]
  rcases fn msg with _ | _ | _ <;> rfl

private theorem anyOf_one (fn : Evaluator Record) : anyOf [fn] = fn := by
  funext msg
  rw [anyOf]
  rcases fn msg with _ | _ | _ <;> rfl

variable {empty : Predicate Leaf} {build : List (Predicate Leaf) → Predicate Leaf}

private theorem meaning_collapse {join : List (Evaluator Record) → Evaluator Record} (one : ∀ fn, join [fn] = fn)
    (none_ : children = [] → meaning arms empty = some (join []))
    (built : meaning arms (build children) = (evaluators arms children).map join) :
    meaning arms (Predicate.collapse empty build children) = (evaluators arms children).map join := by
  rcases children with _ | ⟨p, _ | ⟨q, rest⟩⟩
  · exact none_ rfl
  · rw [Predicate.collapse, evaluators, evaluators]
    cases meaning arms p with
    | none => rfl
    | some fn => exact congrArg some (one fn).symm
  · exact built

/-- A conjunct that is the constant TRUE rejects nothing. -/
theorem all_filter (children : List (Predicate Leaf)) :
    (evaluators arms (children.filter (!·.constantArmIsTrue))).map allOf = (evaluators arms children).map allOf := by
  have cons (p : Predicate Leaf) (rest : List (Predicate Leaf)) :
      (evaluators arms (p :: rest)).map allOf = (meaning arms p).bind fun fn => ((evaluators arms rest).map allOf).map
        fun others msg => (fn msg).bind fun accepts => if accepts then others msg else some false := by
    rw [evaluators]
    cases meaning arms p <;> cases evaluators arms rest <;> rfl
  induction children with
  | nil => rfl
  | cons child children ih =>
    rw [List.filter_cons, cons]
    cases isTrue : child.constantArmIsTrue with
    | true =>
      rw [Bool.not_true, if_neg Bool.false_ne_true, ih, meaning_of_true isTrue]
      exact (congrFun Option.map_id _).symm
    | false => rw [Bool.not_false, if_pos rfl, cons, ih]

mutual

theorem meaning_normalize : ∀ p : Predicate Leaf, meaning arms p.normalize = meaning arms p
  | .nil => rfl
  | .message (some children) or constant not value window => by
      rw [Predicate.normalize]
      split
      case isFalse => rfl
      case isTrue =>
        rw [meaning_and, ← evaluators_normalize children, ← all_filter]
        exact meaning_collapse allOf_one (fun _ => rfl) meaning_and
  | .message none (some children) constant not value window => by
      rw [Predicate.normalize]
      split
      case isFalse => rfl
      case isTrue =>
        rw [meaning_or, ← evaluators_normalize children]
        refine meaning_collapse anyOf_one (fun none => ?_) meaning_or
        rw [meaning_or, ← evaluators_normalize children, none]
        rfl
  | .message none none constant not value window => by rw [Predicate.normalize]

theorem evaluators_normalize : ∀ children : List (Predicate Leaf),
    evaluators arms (Predicate.normalizeAll children) = evaluators arms children
  | [] => rfl
  | child :: children => by
      rw [Predicate.normalizeAll, evaluators, evaluators, meaning_normalize child, evaluators_normalize children]

end

/-! ## Normal predicates -/

namespace Predicate

def Normal (p : Predicate Leaf) : Prop := p.normalize = p ∧ p.isNil = false

private theorem normalizeAll_eq_self (normal : ∀ q ∈ children, Normal q) :
    normalizeAll children = children ∧ children.any isNil = false := by
  induction children with
  | nil => exact ⟨rfl, rfl⟩
  | cons child children ih =>
    obtain ⟨same, present⟩ := normal child List.mem_cons_self
    obtain ⟨others, all⟩ := ih fun q later => normal q (List.mem_cons_of_mem _ later)
    exact ⟨by rw [normalizeAll, same, others], by rw [List.any_cons, present, all]; rfl⟩

private theorem normal_collapse (normal : ∀ q ∈ children, Normal q) (none_ : children = [] → Normal empty)
    (many : (∀ other, collapse other build children = build children) → Normal (build children)) :
    Normal (collapse empty build children) := by
  rcases children with _ | ⟨p, _ | ⟨q, rest⟩⟩
  · exact none_ rfl
  · exact normal p List.mem_cons_self
  · exact many fun _ => rfl

mutual

/-- The message keeps an arm, so what is normal is never read as the absence of a predicate. -/
theorem normal_normalize : ∀ p : Predicate Leaf, p.isNil = false → Normal p.normalize
  | .message (some children) or constant not value window, _ => by
      rw [normalize]
      split
      case isFalse unclear => exact ⟨by rw [normalize, if_neg unclear], rfl⟩
      case isTrue plain =>
        rw [isPlain, Bool.and_eq_true, Bool.not_eq_true', hasNilChild, Bool.or_assoc, Bool.or_eq_false_iff] at plain
        have normal : ∀ q ∈ (normalizeAll children).filter (!·.constantArmIsTrue), Normal q :=
          fun q member => normal_all children plain.2.1 q (List.mem_filter.mp member).1
        obtain ⟨same, present⟩ := normalizeAll_eq_self normal
        refine normal_collapse normal (fun _ => ⟨rfl, rfl⟩) fun many => ⟨?_, rfl⟩
        rw [ofAnd, normalize, if_pos (by rw [isPlain, hasNilChild, Option.getD_some, present]; rfl), same,
          List.filter_filter]
        simp only [Bool.and_self]
        exact many _
  | .message none (some children) constant not value window, _ => by
      rw [normalize]
      split
      case isFalse unclear => exact ⟨by rw [normalize, if_neg unclear], rfl⟩
      case isTrue plain =>
        rw [isPlain, Bool.and_eq_true, Bool.not_eq_true', hasNilChild, Bool.or_eq_false_iff, Bool.or_eq_false_iff] at plain
        have normal := normal_all children plain.2.1.2
        obtain ⟨same, present⟩ := normalizeAll_eq_self normal
        refine normal_collapse normal (fun none => ⟨?_, rfl⟩) fun many => ⟨?_, rfl⟩
        · rw [normalize, none]
          exact ite_self _
        · rw [ofOr, normalize, if_pos (by rw [isPlain, hasNilChild, Option.getD_some, present]; rfl), same]
          exact many _
  | .message none none constant not value window, _ => by
      rw [normalize]
      exact ⟨by rw [normalize], rfl⟩

theorem normal_all : ∀ children : List (Predicate Leaf), children.any isNil = false →
    ∀ q ∈ normalizeAll children, Normal q
  | [], _ => List.forall_mem_nil _
  | child :: children, clean => by
      rw [List.any_cons, Bool.or_eq_false_iff] at clean
      rw [normalizeAll]
      exact List.forall_mem_cons.mpr ⟨normal_normalize child clean.1, normal_all children clean.2⟩

end

end Predicate

/-- Normalizing keeps the records that are accepted, once is enough, and a normal predicate
that is called a tautology accepts every record. -/
theorem normalize_sound (arms : Arms Leaf Record) (p : Predicate Leaf) :
    (∀ msg, accepts arms p.normalize msg ↔ accepts arms p msg) ∧ p.normalize.normalize = p.normalize ∧
      (p.normalize.isTautology = true → ∀ msg, accepts arms p.normalize msg) := by
  have once : p.normalize.normalize = p.normalize := by
    cases isNil : p.isNil with
    | true => cases p <;> first | rfl | cases isNil
    | false => exact (p.normal_normalize isNil).1
  have accepted (q : Predicate Leaf) (msg : Record) :
      accepts arms q msg ↔ ∃ fn, meaning arms q = some fn ∧ fn msg = some true := by
    rw [accepts, meaning]
    cases predicateFromProto arms q <;> simp [Except.toOption]
  refine ⟨fun msg => by rw [accepted, accepted, meaning_normalize], once, fun isTrue msg => ?_⟩
  rw [Predicate.isTautology, once] at isTrue
  exact (accepted _ msg).mpr ⟨_, meaning_of_true isTrue, rfl⟩

/-- The conjunction of TRUE and an empty conjunction. -/
theorem normalize_sound_folded :
    accepts (⟨Empty.elim, Empty.elim⟩ : Arms Empty Unit) (.ofAnd [.ofTrue, .ofAnd []]) () := by
  obtain ⟨same, -, every⟩ := normalize_sound (⟨Empty.elim, Empty.elim⟩ : Arms Empty Unit) (.ofAnd [.ofTrue, .ofAnd []])
  exact (same ()).mp (every rfl ())

end FdbGo.RecordLayer.IndexPredicate
