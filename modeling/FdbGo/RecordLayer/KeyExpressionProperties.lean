import FdbGo.Foundation.Outcome
import FdbGo.RecordLayer.KeyExpression
import FdbGo.Tuple.Prefixes

/-! What key expressions evaluate to: tuples with one value for each column, which can be
packed, and when the shortcuts agree with `Evaluate`. -/

set_option autoImplicit false

namespace FdbGo.RecordLayer

open Client Foundation FdbGo.Tuple

/-! ## Tuples -/

/-- A tuple of an index: it can be packed, and has a value for each column. -/
structure Row (columns : Nat) (t : List Element) : Prop where
  length : t.length = columns
  packable : packables (values t) = true

variable {m n : Nat}

theorem Row.append {t u : List Element} (first : Row m t) (second : Row n u) : Row (m + n) (t ++ u) := by
  refine ⟨by rw [List.length_append, first.length, second.length], ?_⟩
  rw [values_append, packables_append, first.packable, second.packable]
  rfl

theorem row_nil : Row 0 [] := ⟨rfl, rfl⟩

variable {element : Element}

theorem row_singleton (packable : element.value.packable = true) : Row 1 [element] := by
  refine ⟨rfl, ?_⟩
  rw [values, packables, packable]
  rfl

theorem scalarToInterface_row (scalar : Scalar) :
    Succeeds (fun element : Element => element.value.packable = true) (scalarToInterface scalar) := by
  intro element converted
  cases scalar <;> cases converted <;> first | rfl | exact packable_int64 _

theorem packables_iff {elements : List Element} :
    packables (values elements) = true ↔ ∀ element ∈ elements, element.value.packable = true := by
  induction elements with
  | nil => exact ⟨fun _ element never => absurd never List.not_mem_nil, fun _ => rfl⟩
  | cons element elements ih => rw [values, packables, Bool.and_eq_true, ih, List.forall_mem_cons]

private theorem rows_nullResult (fanType : FanType) (nullStandin : NullStandin) : ∀ t ∈ getNullResult fanType nullStandin, Row 1 t := by
  intro t member
  have null : Row 1 [.null] := row_singleton rfl
  have empty : Row 1 [.tuple []] := row_singleton rfl
  cases fanType with
  | none => exact List.mem_singleton.mp member ▸ null
  | fanOut => exact absurd member List.not_mem_nil
  | concatenate =>
    simp only [getNullResult] at member
    split_ifs at member
    · exact List.mem_singleton.mp member ▸ empty
    · exact List.mem_singleton.mp member ▸ null

abbrev GivesRows (columns : Nat) (outcome : Except KeyExpressionError (List (List Element))) : Prop :=
  Succeeds (fun tuples => ∀ t ∈ tuples, Row columns t) outcome

private theorem rows_evaluateRepeated (name : String) (fanType : FanType) (scalars : List Scalar) :
    GivesRows 1 (evaluateRepeated name fanType scalars) := by
  cases fanType with
  | none => exact .error
  | fanOut => exact .mapM fun scalar _ => (scalarToInterface_row scalar).map fun _ packable => row_singleton packable
  | concatenate =>
    refine (Succeeds.mapM fun scalar _ => scalarToInterface_row scalar).map fun elements each t member => ?_
    rw [List.mem_singleton.mp member]
    exact row_singleton (packables_iff.mpr each)

private theorem rows_evaluateField (name : String) (fanType : FanType) (nullStandin : NullStandin) (message : Option Message) :
    GivesRows 1 (evaluateField name fanType nullStandin message) := by
  cases message with
  | none => exact .ok (rows_nullResult fanType nullStandin)
  | some message =>
    rw [evaluateField]
    cases message.field? name with
    | none => exact .error
    | some content =>
      dsimp only
      cases content.list? with
      | some scalars => exact rows_evaluateRepeated name fanType scalars
      | none =>
        refine .ite (fun _ => .ok (rows_nullResult fanType nullStandin)) fun _ => ?_
        refine (scalarToInterface_row _).map fun element packable t member => ?_
        exact List.mem_singleton.mp member ▸ row_singleton packable

private theorem row_evaluateScalar (name : String) (nullStandin : NullStandin) (message : Option Message) :
    Succeeds (fun element : Element => element.value.packable = true) (evaluateScalar name nullStandin message) := by
  cases message with
  | none => exact .ok rfl
  | some message =>
    rw [evaluateScalar]
    cases message.field? name with
    | none => exact .error
    | some content =>
      dsimp only
      cases content.list? with
      | some scalars => exact .error
      | none => exact .ite (fun _ => .ok rfl) fun _ => scalarToInterface_row _

namespace KeyExpression

private theorem rows_cross {tuples others : List (List Element)} (first : ∀ t ∈ tuples, Row m t)
    (second : ∀ t ∈ others, Row n t) : ∀ t ∈ cross tuples others, Row (m + n) t := by
  intro t member
  obtain ⟨x, isX, rest⟩ := List.mem_flatMap.mp member
  obtain ⟨y, isY, rfl⟩ := List.mem_map.mp rest
  exact (first x isX).append (second y isY)

mutual

theorem rows_evaluate (expression : KeyExpression) (message : Option Message) :
    GivesRows expression.columnSize (expression.evaluate message) := by
  cases expression with
  | field name fanType nullStandin =>
    rw [evaluate]
    exact rows_evaluateField name fanType nullStandin message
  | empty =>
    rw [evaluate]
    refine .ok fun t member => ?_
    exact List.mem_singleton.mp member ▸ row_nil
  | composite expressions =>
    have fast := row_evaluateFast expressions message
    have slow := rows_evaluateCross expressions message [[]] 0 fun t member => List.mem_singleton.mp member ▸ row_nil
    rw [evaluate]
    refine fast.bind fun result row => ?_
    cases result with
    | some values =>
      refine .ok fun t member => ?_
      exact List.mem_singleton.mp member ▸ row values rfl
    | none =>
      rw [Nat.zero_add] at slow
      exact slow
  | nesting parentField fanType child parentNullStandin =>
    have inner := rows_evaluate child
    rw [evaluate.eq_def]
    cases message with
    | none => exact .ite (fun _ => .ok fun t never => absurd never List.not_mem_nil) fun _ => inner none
    | some message =>
      dsimp only
      cases message.field? parentField with
      | none => exact .error
      | some content =>
        cases content with
        | scalar => exact .error
        | scalars => exact .error
        | messages messages =>
          refine .ite (fun _ => .error) fun _ => ?_
          refine (Succeeds.mapM fun value _ => inner (some value)).map fun results each t member => ?_
          obtain ⟨tuples, isTuples, inside⟩ := List.mem_flatten.mp member
          exact each tuples isTuples t inside
        | message value present => exact .ite (fun _ => inner none) fun _ => inner (some value)

theorem row_evaluateFlat (expression : KeyExpression) (message : Option Message) :
    Succeeds (Row expression.columnSize) (expression.evaluateFlat message) := by
  cases expression with
  | field name fanType nullStandin =>
    rw [evaluateFlat]
    exact (row_evaluateScalar name nullStandin message).map fun _ packable => row_singleton packable
  | empty =>
    rw [evaluateFlat]
    exact .ok row_nil
  | composite expressions =>
    have fast := row_evaluateFast expressions message
    rw [evaluateFlat]
    refine fast.bind fun result row => ?_
    cases result with
    | some values => exact .ok (row values rfl)
    | none => exact .error
  | nesting =>
    rw [evaluateFlat]
    exact .error

theorem row_evaluateFast (expressions : List KeyExpression) (message : Option Message) :
    Succeeds (fun result => ∀ values, result = some values → Row (columnSize.columnSizes expressions) values)
      (evaluateFast expressions message) := by
  cases expressions with
  | nil =>
    rw [evaluateFast]
    refine .ok fun values found => ?_
    cases found
    exact row_nil
  | cons expression expressions =>
    have flat := row_evaluateFlat expression message
    have all := rows_evaluate expression message
    have rest := row_evaluateFast expressions message
    rw [evaluateFast]
    have joined : ∀ values : List Element, Row expression.columnSize values →
        Succeeds (fun result => ∀ found, result = some found → Row (expression.columnSize + columnSize.columnSizes expressions) found)
          (do
            let rest ← evaluateFast expressions message
            Except.ok (rest.map fun fast => values ++ fast)) := by
      intro values row
      refine rest.bind fun result later => .ok fun found same => ?_
      obtain ⟨fast, isFast, rfl⟩ := Option.map_eq_some_iff.mp same
      exact row.append (later fast isFast)
    cases tried : expression.evaluateFlat message with
    | ok values => exact joined values (flat values tried)
    | error cause =>
      refine all.bind fun tuples each => ?_
      match tuples with
      | [] => exact .ok nofun
      | [values] => exact joined values (each values List.mem_cons_self)
      | _ :: _ :: _ => exact .ok nofun

theorem rows_evaluateCross (expressions : List KeyExpression) (message : Option Message) (tuples : List (List Element))
    (columns : Nat) (rows : ∀ t ∈ tuples, Row columns t) :
    GivesRows (columns + columnSize.columnSizes expressions) (evaluateCross expressions message tuples) := by
  cases expressions with
  | nil =>
    rw [evaluateCross]
    exact .ok rows
  | cons expression expressions =>
    have all := rows_evaluate expression message
    have rest := rows_evaluateCross expressions message
    rw [evaluateCross, columnSize.columnSizes, ← Nat.add_assoc]
    exact all.bind fun others each => rest _ _ (rows_cross rows each)

end

/-! ## Shortcuts -/

variable {expressions : List KeyExpression}

section Shortcuts

variable {message : Message} {values : List Element} {value : Int64}

/-- What the fast path returns, both general evaluations return. -/
theorem evaluate_of_fast (fast : evaluateFast expressions (some message) = .ok (some values)) :
    (composite expressions).evaluateFlat (some message) = .ok values ∧
      (composite expressions).evaluate (some message) = .ok [values] := by
  rw [evaluateFlat, evaluate, fast]
  exact ⟨rfl, rfl⟩

theorem evaluate_of_flat_composite (flat : (composite expressions).evaluateFlat (some message) = .ok values) :
    (composite expressions).evaluate (some message) = .ok [values] := by
  rw [evaluateFlat] at flat
  obtain ⟨result, tried, flat⟩ := bind_eq_ok flat
  cases result with
  | none => cases flat
  | some fast =>
    cases flat
    exact (evaluate_of_fast tried).2

variable {nullStandin : NullStandin} {name : String}

/-- Without a fan a singular field gives one tuple; with one, the field has to be repeated. -/
theorem evaluateField_of_scalar {fanType : FanType}
    (fans : fanType = .none ∨ ∀ content, message.field? name = some content → content.list?.isSome)
    (scalar : evaluateScalar name nullStandin (some message) = .ok element) :
    evaluateField name fanType nullStandin (some message) = .ok [[element]] := by
  rw [evaluateScalar] at scalar
  rw [evaluateField]
  cases found : message.field? name with
  | none =>
    rw [found] at scalar
    cases scalar
  | some content =>
    rw [found] at scalar
    dsimp only at scalar ⊢
    cases list : content.list? with
    | some scalars =>
      rw [list] at scalar
      cases scalar
    | none =>
      rw [list] at scalar
      cases fans with
      | inr repeated =>
        have isList := repeated content found
        rw [list] at isList
        cases isList
      | inl isNone =>
        subst isNone
        dsimp only at scalar ⊢
        cases isAbsent : absent nullStandin content with
        | true =>
          rw [isAbsent] at scalar
          cases scalar
          rfl
        | false =>
          rw [isAbsent, if_neg Bool.false_ne_true] at scalar
          rw [if_neg Bool.false_ne_true, scalar]
          rfl

theorem evaluateScalar_of_packDirect (packed : packDirect name nullStandin message = some element) :
    evaluateScalar name nullStandin (some message) = .ok element := by
  rw [packDirect] at packed
  rw [evaluateScalar]
  generalize message.field? name = field at packed ⊢
  cases field with
  | none => cases packed
  | some content =>
    dsimp only at packed ⊢
    generalize content.list? = list at packed ⊢
    cases list with
    | some scalars => cases packed
    | none =>
      generalize absent nullStandin content = missing at packed ⊢
      cases missing with
      | true => cases packed
      | false =>
        simp only [Bool.false_eq_true, if_false] at packed ⊢
        generalize content.get = scalar at packed ⊢
        cases scalar <;> cases packed <;> rfl

theorem packDirect_of_int64 (integer : evaluateInt64 name nullStandin message = some value) :
    packDirect name nullStandin message = some (.int64 value) := by
  rw [evaluateInt64] at integer
  rw [packDirect]
  generalize message.field? name = field at integer ⊢
  cases field with
  | none => cases integer
  | some content =>
    dsimp only at integer ⊢
    generalize content.list? = list at integer ⊢
    cases list with
    | some scalars => cases integer
    | none =>
      generalize absent nullStandin content = missing at integer ⊢
      cases missing with
      | true => cases integer
      | false =>
        simp only [Bool.false_eq_true, if_false] at integer ⊢
        generalize content.get = scalar at integer ⊢
        cases scalar <;> cases integer <;> rfl

end Shortcuts

/-! ## Built expressions -/

/-- The expressions that `Field`, `FanOut`, `Nest`, `NestFanOut` and `Concat` build. A build
refuses a `Concat` with fewer than two children. -/
inductive Built : KeyExpression → Prop where
  | field (name : String) (fanType : FanType) (nullStandin : NullStandin) (fans : fanType ≠ .concatenate) :
      Built (.field name fanType nullStandin)
  | nesting (parentField : String) (fanType : FanType) (parentNullStandin : NullStandin) {child : KeyExpression}
      (inner : Built child) : Built (.nesting parentField fanType child parentNullStandin)
  | concat {expressions : List KeyExpression} (each : ∀ expression ∈ expressions, Built expression)
      (several : 2 ≤ (expressions.flatMap thenChildren).length) : Built (.concat expressions)

namespace Built

variable {expression : KeyExpression}

private theorem thenChildren (built : Built expression) : ∀ child ∈ expression.thenChildren, Built child := by
  induction built with
  | field name fanType nullStandin fans =>
    intro child member
    exact List.mem_singleton.mp member ▸ .field name fanType nullStandin fans
  | nesting parentField fanType parentNullStandin inner _ =>
    intro child member
    exact List.mem_singleton.mp member ▸ .nesting parentField fanType parentNullStandin inner
  | concat each several ih =>
    intro child member
    obtain ⟨expression, isExpression, inside⟩ := List.mem_flatMap.mp member
    exact ih expression isExpression child inside

private theorem columnSizes_pos (some_ : expressions ≠ []) (each : ∀ expression ∈ expressions, 0 < expression.columnSize) :
    0 < columnSize.columnSizes expressions := by
  cases expressions with
  | nil => exact absurd rfl some_
  | cons expression expressions =>
    rw [columnSize.columnSizes]
    exact Nat.add_pos_left (each expression List.mem_cons_self) _

/-- An expression that its constructors built has a column. -/
theorem columnSize_pos (built : Built expression) : 0 < expression.columnSize := by
  have each : ∀ expression, Built expression → (∀ child ∈ expression.thenChildren, 0 < child.columnSize) →
      0 < expression.columnSize := by
    intro expression built children
    cases built with
    | field | nesting => exact children _ List.mem_cons_self
    | concat each several =>
      refine columnSizes_pos (fun none_ => ?_) children
      rw [none_] at several
      cases several
  have children : ∀ child ∈ expression.thenChildren, 0 < child.columnSize := by
    induction built with
    | field name fanType nullStandin fans =>
      intro child member
      rw [List.mem_singleton.mp member, columnSize]
      exact Nat.one_pos
    | nesting parentField fanType parentNullStandin inner ih =>
      intro other member
      rw [List.mem_singleton.mp member, columnSize]
      exact each _ inner ih
    | concat each several ih =>
      intro child member
      obtain ⟨expression, isExpression, inside⟩ := List.mem_flatMap.mp member
      exact ih expression isExpression child inside
  exact each expression built children

theorem children_pos (built : Built expression) : ∀ child ∈ expression.thenChildren, 0 < child.columnSize :=
  fun child member => (built.thenChildren child member).columnSize_pos

end Built

end KeyExpression

end FdbGo.RecordLayer
