import Defra.Json.Frontier

/-! The values that documents and index keys hold (`normal.rs`, `json_leaf.rs` and `json_path.rs` of the `document` crate,
    `field_kind.rs` of the `schema` crate). -/

namespace Defra.Index

inductive ScalarKind where
  | none | docID
  | nillableBool | nillableInt | nillableFloat64 | nillableFloat32 | nillableDateTime | nillableString | nillableBlob
  | nillableJson
  | bool | int | float64 | float32 | string | dateTime | blob | json
  deriving Repr, DecidableEq

def ScalarKind.baseKind : ScalarKind → ScalarKind
  | .bool => .nillableBool
  | .int => .nillableInt
  | .float64 => .nillableFloat64
  | .float32 => .nillableFloat32
  | .string => .nillableString
  | .dateTime => .nillableDateTime
  | .blob => .nillableBlob
  | .json => .nillableJson
  | kind => kind

inductive FieldKind where
  | scalar (kind : ScalarKind)
  | scalarArray (element : ScalarKind)
  | relation (isArray : Bool)
  deriving Repr, DecidableEq

def FieldKind.asScalar : FieldKind → Option ScalarKind
  | .scalar kind => some kind
  | _ => Option.none

/-- The first and the last second that the time library holds, the years -262143 to 262142. -/
def minSeconds : Int := -8334601228800
def maxSeconds : Int := 8210266876799

/-- Whole seconds since the epoch, and the nanoseconds after them, which go past a second in a leap second. -/
structure Time where
  seconds : Int64
  nanos : UInt32
  inRange : minSeconds ≤ seconds.toInt ∧ seconds.toInt ≤ maxSeconds
  nanos_lt : nanos.toNat < 2000000000
  deriving DecidableEq

def nanosPerSecond : UInt32 := 1000000000

def Time.isLeapSecond (time : Time) : Bool := nanosPerSecond ≤ time.nanos

/-- A plain value. Floats are bit patterns. -/
inductive Scalar where
  | bool (value : Bool)
  | int (value : Int64)
  | float64 (bits : UInt64)
  | float32 (bits : UInt32)
  | string (value : String)
  | bytes (value : Bytes)
  | time (value : Time)
  deriving DecidableEq

/-- A step on the way to a leaf of a JSON value. Every array index is the same step. -/
inductive JsonPathPart where
  | property (name : String)
  | index
  deriving Repr, DecidableEq

abbrev JsonPath := List JsonPathPart

/-- A leaf of a JSON value, or a bound below or above all values of a path. -/
inductive JsonScalarValue where
  | null
  | bool (value : Bool)
  | number (bits : UInt64)
  | string (value : String)
  | pathMin
  | pathMax
  deriving Repr, DecidableEq

structure JsonLeafValue where
  path : JsonPath
  value : JsonScalarValue
  deriving Repr, DecidableEq

/-- The source has one variant for each type of scalar in each of these shapes. -/
inductive NormalValue where
  | null
  | scalar (value : Scalar)
  | nillable (value : Option Scalar)
  | array (items : List Scalar)
  | nillableArray (items : Option (List Scalar))
  | elementArray (items : List (Option Scalar))
  | json (value : Json.Value)
  | jsonArray (items : List Json.Value)
  | jsonLeaf (leaf : JsonLeafValue)
  | document

def NormalValue.isNil : NormalValue → Bool
  | .null | .nillable none | .nillableArray none => true
  | _ => false

end Defra.Index
