import FdbGo.Tuple.Element

/-! Key expressions over protobuf messages: the tuples that a record evaluates to, and the
shortcuts beside `Evaluate` for expressions that give one tuple. -/

set_option autoImplicit false

namespace FdbGo.RecordLayer

open Client FdbGo.Tuple

/-! ## Messages -/

/-- A value of a field that is no message, by the kind of the field; `message` is a message
other than a UUID. -/
inductive Scalar where
  | int (value : Int64)
  | uint32 (value : UInt32)
  | uint64 (value : UInt64)
  | enum (value : Int32)
  | float (bits : UInt32)
  | double (bits : UInt64)
  | bool (value : Bool)
  | string (value : Bytes)
  | bytes (value : Bytes)
  | uuid (value : Vector UInt8 16)
  | message
  deriving DecidableEq

mutual

inductive Message where
  | mk (fields : List (String × FieldContent))

/-- What a message holds for a field of its descriptor. A singular field that is not present
holds its default. The entries of a map are messages. -/
inductive FieldContent where
  | scalar (value : Scalar) (present : Bool)
  | scalars (values : List Scalar)
  | message (value : Message) (present : Bool)
  | messages (values : List Message)

end

namespace Message

def field? : Message → String → Option FieldContent
  | mk fields, name => fields.lookup name

end Message

inductive KeyExpressionError where
  | fieldNotFound (name : String)
  | repeatedWithoutFan (name : String)
  | unsupportedFieldType
  | notAMessage (name : String)
  | mustFanOut (name : String)
  /-- The errors of the shortcuts, after which `Evaluate` is tried. -/
  | notFlat
  deriving DecidableEq, Repr

/-! ## Expressions -/

inductive FanType where
  | none
  | fanOut
  | concatenate
  deriving DecidableEq, Repr

inductive NullStandin where
  | null
  | nullUnique
  | notNull
  deriving DecidableEq, Repr

inductive KeyExpression where
  | field (fieldName : String) (fanType : FanType) (nullStandin : NullStandin)
  | empty
  | composite (expressions : List KeyExpression)
  | nesting (parentField : String) (fanType : FanType) (child : KeyExpression) (parentNullStandin : NullStandin)

namespace KeyExpression

def columnSize : KeyExpression → Nat
  | field _ _ _ => 1
  | empty => 0
  | composite expressions => columnSizes expressions
  | nesting _ _ child _ => child.columnSize
where
  columnSizes : List KeyExpression → Nat
    | [] => 0
    | expression :: expressions => expression.columnSize + columnSizes expressions

def ofField (name : String) : KeyExpression := field name .none .null

def fanOut (name : String) : KeyExpression := field name .fanOut .null

def nestFanOut (parentField : String) (child : KeyExpression) : KeyExpression := nesting parentField .fanOut child .null

/-- The children that a composite contributes to another. -/
def thenChildren : KeyExpression → List KeyExpression
  | composite expressions => expressions
  | expression => [expression]

/-- `Concat`: a composite never holds a composite. -/
def concat (expressions : List KeyExpression) : KeyExpression := composite (expressions.flatMap thenChildren)

end KeyExpression

/-! ## Evaluation -/

section Fields

variable (name : String) (fanType : FanType) (nullStandin : NullStandin)

def scalarToInterface : Scalar → Except KeyExpressionError Element
  | .string value => .ok (.string value)
  | .int value => .ok (.int64 value)
  -- an unsigned field is read as a signed integer of its width
  | .uint32 value => .ok (.int64 value.toInt32.toInt64)
  | .uint64 value => .ok (.int64 value.toInt64)
  | .float bits => .ok (.float32 bits)
  | .double bits => .ok (.float64 bits)
  | .bool value => .ok (.bool value)
  | .bytes value => .ok (.bytes value)
  | .enum value => .ok (.int64 value.toInt64)
  | .uuid value => .ok (.uuid value)
  | .message => .error .unsupportedFieldType

def FieldContent.list? : FieldContent → Option (List Scalar)
  | .scalars values => some values
  | .messages values => some (values.map fun _ => .message)
  | .scalar _ _ | .message _ _ => none

def FieldContent.has : FieldContent → Bool
  | .scalar _ present | .message _ present => present
  | .scalars values => !values.isEmpty
  | .messages values => !values.isEmpty

def FieldContent.get : FieldContent → Scalar
  | .scalar value _ => value
  | .message _ _ | .scalars _ | .messages _ => .message

def absent (nullStandin : NullStandin) (content : FieldContent) : Bool :=
  decide (nullStandin ≠ .notNull) && !content.has

def getNullResult : List (List Element) :=
  match fanType with
  | .fanOut => []
  | .concatenate => if nullStandin = .notNull then [[.tuple []]] else [[.null]]
  | .none => [[.null]]

def evaluateRepeated (values : List Scalar) : Except KeyExpressionError (List (List Element)) :=
  match fanType with
  | .fanOut => values.mapM fun value => (scalarToInterface value).map fun element => [element]
  | .concatenate => (values.mapM scalarToInterface).map fun elements => [[.tuple elements]]
  | .none => .error (.repeatedWithoutFan name)

/-- `FieldKeyExpression.Evaluate`. -/
def evaluateField : Option Message → Except KeyExpressionError (List (List Element))
  | none => .ok (getNullResult fanType nullStandin)
  | some message =>
    match message.field? name with
    | none => .error (.fieldNotFound name)
    | some content =>
      match content.list? with
      | some values => evaluateRepeated name fanType values
      | none =>
        if absent nullStandin content then .ok (getNullResult fanType nullStandin)
        else (scalarToInterface content.get).map fun element => [[element]]

/-- `FieldKeyExpression.EvaluateScalar`. -/
def evaluateScalar : Option Message → Except KeyExpressionError Element
  | none => .ok .null
  | some message =>
    match message.field? name with
    | none => .error (.fieldNotFound name)
    | some content =>
      match content.list? with
      | some _ => .error .notFlat
      | none => if absent nullStandin content then .ok .null else scalarToInterface content.get

/-- The integer that a field of an integer kind holds. -/
def Scalar.int64? : Scalar → Option Int64
  | .int value => some value
  | .uint32 value => some value.toInt32.toInt64
  | .uint64 value => some value.toInt64
  | .enum value => some value.toInt64
  | .float _ | .double _ | .bool _ | .string _ | .bytes _ | .uuid _ | .message => none

/-- `FieldKeyExpression.EvaluateInt64`; none is an invalid value or an error. -/
def evaluateInt64 (message : Message) : Option Int64 :=
  match message.field? name with
  | none => none
  | some content =>
    match content.list? with
    | some _ => none
    | none => if absent nullStandin content then none else content.get.int64?

/-- What `FieldKeyExpression.PackDirect` packs; none is a field that it does not pack. -/
def packDirect (message : Message) : Option Element :=
  match message.field? name with
  | none => none
  | some content =>
    match content.list? with
    | some _ => none
    | none =>
      if absent nullStandin content then none
      else
        match content.get with
        | .string value => some (.string value)
        | value => value.int64?.map .int64

end Fields

namespace KeyExpression

/-- Every tuple so far with every tuple of the next child. -/
def cross (tuples others : List (List Element)) : List (List Element) :=
  tuples.flatMap fun first => others.map fun second => first ++ second

mutual

/-- `Evaluate`. A nil message is an absent parent's. -/
def evaluate : KeyExpression → Option Message → Except KeyExpressionError (List (List Element))
  | field name fanType nullStandin, message => evaluateField name fanType nullStandin message
  | empty, _ => .ok [[]]
  | composite expressions, message => do
    match ← evaluateFast expressions message with
    | some fast => .ok [fast]
    | none => evaluateCross expressions message [[]]
  | nesting parentField fanType child parentNullStandin, message =>
    match message with
    | none => if fanType = .fanOut then .ok [] else child.evaluate none
    | some message =>
      match message.field? parentField with
      | none => .error (.fieldNotFound parentField)
      | some (.scalar _ _) | some (.scalars _) => .error (.notAMessage parentField)
      | some (.messages values) =>
        if fanType ≠ .fanOut then .error (.mustFanOut parentField)
        else (values.mapM fun value => child.evaluate (some value)).map List.flatten
      | some (.message value present) =>
        if present = false ∧ parentNullStandin ≠ .notNull then child.evaluate none else child.evaluate (some value)

/-- `EvaluateFlat` of the expressions that have it; the others fail here. -/
def evaluateFlat : KeyExpression → Option Message → Except KeyExpressionError (List Element)
  | field name _ nullStandin, message => (evaluateScalar name nullStandin message).map fun element => [element]
  | empty, _ => .ok []
  | composite expressions, message => do
    match ← evaluateFast expressions message with
    | some fast => .ok fast
    | none => .error .notFlat
  | nesting _ _ _ _, _ => .error .notFlat

/-- The loop over the children in `EvaluateFlat` and in the fast path of `Evaluate`: none
if a child gives other than one tuple. -/
def evaluateFast : List KeyExpression → Option Message → Except KeyExpressionError (Option (List Element))
  | [], _ => .ok (some [])
  | expression :: expressions, message =>
    match expression.evaluateFlat message with
    | .ok values => do
      let rest ← evaluateFast expressions message
      .ok (rest.map fun fast => values ++ fast)
    | .error _ => do
      match ← expression.evaluate message with
      | [values] =>
        let rest ← evaluateFast expressions message
        .ok (rest.map fun fast => values ++ fast)
      | _ => .ok none

/-- The slow path of `Evaluate`. -/
def evaluateCross : List KeyExpression → Option Message → List (List Element) →
    Except KeyExpressionError (List (List Element))
  | [], _, tuples => .ok tuples
  | expression :: expressions, message, tuples => do
    let others ← expression.evaluate message
    evaluateCross expressions message (cross tuples others)

end

def nonUniqueNullColumns : KeyExpression → List Bool
  | field _ _ nullStandin => [decide (nullStandin = .null)]
  | empty => []
  | composite expressions => columns expressions
  | nesting _ _ child _ => child.nonUniqueNullColumns
where
  columns : List KeyExpression → List Bool
    | [] => []
    | expression :: expressions => expression.nonUniqueNullColumns ++ columns expressions

end KeyExpression

/-- `GroupingKeyExpression`: the last columns are grouped by the others. -/
structure GroupingKeyExpression where
  wholeKey : KeyExpression
  groupedCount : Nat
  inside : groupedCount ≤ wholeKey.columnSize

namespace GroupingKeyExpression

variable (root : GroupingKeyExpression)

def getGroupingCount : Nat := root.wholeKey.columnSize - root.groupedCount

/-- `GroupingKeyExpression.Evaluate`. -/
def evaluate (message : Message) : Except KeyExpressionError (List (List Element)) :=
  root.wholeKey.evaluate (some message)

/-- `GroupingKeyExpression.EvaluateFlat`. A whole key that has no `EvaluateFlat` gives its
first tuple. -/
def evaluateFlat (message : Message) : Except KeyExpressionError (List Element) :=
  match root.wholeKey with
  | .nesting _ _ _ _ => do
    match ← root.wholeKey.evaluate (some message) with
    | [] => .ok []
    | first :: _ => .ok first
  | _ => root.wholeKey.evaluateFlat (some message)

end GroupingKeyExpression

end FdbGo.RecordLayer
