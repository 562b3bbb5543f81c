import Defra.Index.Encoding

/-! Numbers and values as queries see them (`encoding.rs` of the `document` crate, `convert.rs` and `mapping.rs` of the `query`
    crate). Of a floating point number, the arithmetic that queries do is on the bit pattern. -/

namespace Defra.Index.FloatFormat
variable (format : FloatFormat)

/-- `n` over `2 ^ shift`, to the nearest whole number, and to the even one of two. -/
def roundShift (n shift : Nat) : Nat :=
  let quotient := n / 2 ^ shift
  let rest := 2 * (n % 2 ^ shift)
  if 2 ^ shift < rest ∨ rest = 2 ^ shift ∧ quotient % 2 = 1 then quotient + 1 else quotient

/-- The number of the format nearest to `n / 2 ^ scale` units of its least positive number. -/
def nearest (n scale : Nat) : Nat :=
  let shift := max scale (n.log2 - format.mantissa)
  roundShift n shift * 2 ^ (shift - scale)

def magnitudeBits (m : Nat) : Nat :=
  let exponent := m.log2 - format.mantissa
  min format.infinity (if m < 2 ^ format.mantissa then m else exponent * 2 ^ format.mantissa + m / 2 ^ exponent)

/-- The bits of the number nearest to `n / 2 ^ scale` units. -/
def ofUnits (n : Int) (scale : Nat) : Nat :=
  (if n < 0 then format.signBit else 0) + format.magnitudeBits (format.nearest n.natAbs scale)

end Defra.Index.FloatFormat

namespace Defra.Query
open Index Json

/-- A unit is 2 to the power of the negated exponent. -/
def unit64 : Nat := 1074
def unit32 : Nat := 149

/-- `i as f64`. -/
def f64OfInt (i : Int) : UInt64 := .ofNat (float64.ofUnits (i * 2 ^ unit64) 0)

/-- `f as f64`. -/
def f64OfF32 (bits : UInt32) : UInt64 := .ofNat (float64.ofUnits (float32.numeric bits.toNat * 2 ^ (unit64 - unit32)) 0)

def asI64 : Number → Option Int64
  | .posInt n => if n.toNat < 2 ^ 63 then some n.toInt64 else none
  | .negInt n => some n
  | .float _ => none

def asF64 : Number → UInt64
  | .posInt n => f64OfInt n.toNat
  | .negInt n => f64OfInt n.toInt
  | .float bits => bits

/-- `Number::from(i)`. -/
def numberOfInt (i : Int64) : Number := if i < 0 then .negInt i else .posInt i.toUInt64

variable (a b : UInt64) (lib : Library) (mapping : DocumentMapping)

/-- `a.partial_cmp(&b)` of numbers that are not NaN. -/
def compareF64 : Ordering := cmp (float64.numeric a.toNat) (float64.numeric b.toNat)

/-- `(a - b).abs() < f64::EPSILON`: the difference is rounded, and the bound is 2 to the power of -52. -/
def closeF64 : Bool :=
  float64.nearest (float64.numeric a.toNat - float64.numeric b.toNat).natAbs 0 < 2 ^ (unit64 - 52)

structure Library where
  /-- `s.parse::<DateTime<Utc>>()`. -/
  parseUtc : String → Option Time
  /-- `DateTime::parse_from_rfc3339(s)`. -/
  parseRfc3339 : String → Option Time
  toLowercase : String → String
  widenF32 : UInt32 → UInt64
  bytesToJson : Bytes → Value
  formatTime : Time → String
  serializeTime : Time → String
  debug : Value → String

def compareTime (a b : Time) : Ordering := (cmp a.seconds.toInt b.seconds.toInt).then (cmp a.nanos.toNat b.nanos.toNat)

def float64ToJson (bits : UInt64) : Option Value :=
  let n := float64.numeric bits.toNat
  if float64.infinity ≤ bits.toNat % float64.signBit then none
  else if n % 2 ^ unit64 = 0 ∧ -(2 ^ 63) ≤ n / 2 ^ unit64 ∧ n / 2 ^ unit64 ≤ 2 ^ 63 then
    -- `f as i64` stops at the highest integer.
    some (.number (numberOfInt (.ofInt (min (n / 2 ^ unit64) (2 ^ 63 - 1)))))
  else some (.number (.float bits))

def scalarToJson : Scalar → Option Value
  | .bool b => some (.bool b)
  | .int i => some (.number (numberOfInt i))
  | .float64 bits => float64ToJson bits
  | .float32 bits => float64ToJson (lib.widenF32 bits)
  | .string s => some (.string s)
  | .bytes b => some (lib.bytesToJson b)
  | .time t => some (.string (lib.formatTime t))

def serialize : Scalar → Value
  | .bool b => .bool b
  | .int i => .number (numberOfInt i)
  | .float64 bits => if float64.infinity ≤ bits.toNat % float64.signBit then .null else .number (.float bits)
  | .float32 bits => if float32.infinity ≤ bits.toNat % float32.signBit then .null else .number (.float (f64OfF32 bits))
  | .string s => .string s
  | .bytes b => .array (b.map fun byte => .number (.posInt (.ofNat byte.toNat)))
  | .time t => .string (lib.serializeTime t)

def innerToJson (value : Scalar) : Option Value :=
  match value with
  | .bytes _ | .time _ => some (serialize lib value)
  | _ => scalarToJson lib value

def normalValueToJson : NormalValue → Option Value
  | .null => some .null
  | .scalar value => scalarToJson lib value
  | .nillable value => value.elim (some .null) (innerToJson lib)
  | .array items => return .array (← items.mapM (innerToJson lib))
  -- An array that may be missing is left to the serializer.
  | .nillableArray items => some (items.elim .null fun items => .array (items.map (serialize lib)))
  | .elementArray items => return .array (← items.mapM fun item => item.elim (some .null) (innerToJson lib))
  | .json value => some value
  | .jsonArray items => some (.array items)
  | .jsonLeaf _ | .document => none

structure DocumentMapping where
  indexesByName : List (String × List Nat)
  renderKeys : List (String × Nat)
  nextIndex : Nat

def DocumentMapping.firstIndexOfName (name : String) : Option Nat :=
  (mapping.indexesByName.lookup name).bind List.head?

def DocumentMapping.tryFindIndexFromRenderKey (key : String) : Option Nat :=
  mapping.renderKeys.lookup key

abbrev PlanFields := List (Option Value)

end Defra.Query
