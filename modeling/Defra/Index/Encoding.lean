import Defra.Lib.Wire
import Defra.Index.Value

/-! The order-preserving encoding of values in index keys (`encoding/` and `field_value.rs` of the `storage` crate). An encoder
    gives the bytes it appends, a decoder takes its value from the front of a byte string. -/

namespace Defra.Index
open Reader

/-! ### Markers -/

def encodedNull : UInt8 := 0
def bytesMarker : UInt8 := 6
def bytesDescMarker : UInt8 := 7
def timeMarker : UInt8 := 8
def falseMarker : UInt8 := 9
def trueMarker : UInt8 := 10
def jsonMarker : UInt8 := 11
def intMin : UInt8 := 0x80
def intMaxWidth : UInt8 := 8
def intZero : UInt8 := intMin + intMaxWidth
def intMax : UInt8 := 0xfd
def intSmall : UInt8 := intMax - intZero - intMaxWidth
def encodedNullDesc : UInt8 := 0xff
def escape : UInt8 := 0x00
def escapedTerm : UInt8 := 0x01
def escaped00 : UInt8 := 0xff

/-- A float format: its bytes, its mantissa's bits, and its markers. -/
structure FloatFormat where
  width : Nat
  mantissa : Nat
  nan : UInt8
  neg : UInt8
  zero : UInt8
  pos : UInt8
  nanDesc : UInt8
  mantissa_pos : 0 < mantissa
  mantissa_lt : mantissa + 1 < 8 * width
  ordered : nan < neg ∧ neg < zero ∧ zero < pos ∧ pos < nanDesc

def float64 : FloatFormat := ⟨8, 52, 1, 2, 3, 4, 5, by decide, by decide, by decide⟩
def float32 : FloatFormat := ⟨4, 23, 12, 13, 14, 15, 16, by decide, by decide, by decide⟩

inductive EncodedType where
  | unknown | null | bool | int | float64 | float32 | bytes | bytesDesc | time | json
  deriving Repr, DecidableEq

def peekType (buf : Bytes) : EncodedType :=
  match buf with
  | [] => .unknown
  | m :: _ =>
    if m = encodedNull ∨ m = encodedNullDesc then .null
    else if m = bytesMarker then .bytes
    else if m = bytesDescMarker then .bytesDesc
    else if intMin ≤ m ∧ m ≤ intMax then .int
    else if float32.nan ≤ m ∧ m ≤ float32.nanDesc then .float32
    else if float64.nan ≤ m ∧ m ≤ float64.nanDesc then .float64
    else if m = timeMarker then .time
    else if m = falseMarker ∨ m = trueMarker then .bool
    else if m = jsonMarker then .json
    else .unknown

/-! ### Plain values -/

def encodeNullAscending : Bytes := [encodedNull]
def encodeNullDescending : Bytes := [encodedNullDesc]

variable (data : Bytes) (leaf : JsonLeafValue) (path : JsonPath) (s : String) (seconds : Int64) (v : Bool)
  (nanos : UInt32)

def encodeBoolAscending : Bytes := [if v then trueMarker else falseMarker]
def encodeBoolDescending : Bytes := encodeBoolAscending !v

def decodeBoolAscending : Reader Bool := fun buf =>
  if peekType buf = .bool then (do return (← byte) == trueMarker : Reader Bool) buf else none

def decodeBoolDescending : Reader Bool := do
  return !(← decodeBoolAscending)

/-- The bytes that a number needs. -/
def widthOf (v : Nat) : Nat :=
  if v ≤ 0xff then 1
  else if v ≤ 0xffff then 2
  else if v ≤ 0xffffff then 3
  else if v ≤ 0xffffffff then 4
  else if v ≤ 0xffffffffff then 5
  else if v ≤ 0xffffffffffff then 6
  else if v ≤ 0xffffffffffffff then 7
  else 8

/-! ### Integers -/

def encodeUvarintAscending (v : UInt64) : Bytes :=
  if v.toNat ≤ intSmall.toNat then [intZero + UInt8.ofNat v.toNat]
  else
    let width := widthOf v.toNat
    (intMax - intMaxWidth + UInt8.ofNat width) :: Wire.toBe width v.toNat

def encodeUvarintDescending (v : UInt64) : Bytes :=
  if v = 0 then [intMin + 8]
  else
    let width := widthOf v.toNat
    (intMin + 8 - UInt8.ofNat width) :: Wire.toBe width (~~~v).toNat

/-- The low bytes of the two's complement, as many as the magnitude takes. -/
def encodeVarintAscending (v : Int64) : Bytes :=
  if v < 0 then
    let width := widthOf v.toInt.natAbs
    (intMin + 8 - UInt8.ofNat width) :: Wire.toBe width v.toUInt64.toNat
  else encodeUvarintAscending v.toUInt64

def encodeVarintDescending (v : Int64) : Bytes := encodeVarintAscending (~~~v)

def decodeUvarintAscending : Reader UInt64 := do
  let marker ← byte
  -- Below `intZero`, the difference is a negative number that is taken for an unsigned one.
  if marker.toNat ≤ intZero.toNat + intSmall.toNat then
    return UInt64.ofNat marker.toNat - UInt64.ofNat intZero.toNat
  else
    let length := marker.toNat - intZero.toNat - intSmall.toNat
    if length > 8 then fail
    else return UInt64.ofNat (← be length)

def decodeUvarintDescending : Reader UInt64 := do
  let marker ← byte
  if intZero < marker ∨ marker < intMin then fail
  else
    let bytes ← take (intZero.toNat - marker.toNat)
    return UInt64.ofNat (Wire.ofBe (bytes.map (~~~·)))

def decodeVarintAscending : Reader Int64 := fun buf =>
  match buf with
  | [] => none
  | marker :: rest =>
    if marker < intZero then
      (do
        let bytes ← take (intZero.toNat - marker.toNat)
        return ~~~(Int64.ofNat (Wire.ofBe (bytes.map (~~~·)))) : Reader Int64) rest
    else
      (do
        let v ← decodeUvarintAscending
        if v.toNat > Int64.maxValue.toInt.toNat then fail else return v.toInt64 : Reader Int64) buf

def decodeVarintDescending : Reader Int64 := do
  return ~~~(← decodeVarintAscending)

/-! ### Bytes and text -/

/-- A zero byte is escaped, and the end is marked. -/
def escapeBytes : Bytes :=
  data.flatMap (fun byte => if byte = escape then [escape, escaped00] else [byte]) ++ [escape, escapedTerm]

def onesComplement (bytes : Bytes) : Bytes := bytes.map (~~~·)

def encodeBytesAscending : Bytes := bytesMarker :: escapeBytes data
def encodeBytesDescending : Bytes := bytesDescMarker :: onesComplement (escapeBytes data)

/-- Read up to the terminator. `unescaped` is the byte that an escape stands for. -/
def decodeBytesInternal (escape escapedTerm escaped00 unescaped : UInt8) : Reader Bytes
  | [] => none
  | [_] => none
  | b :: v :: rest =>
    if b ≠ escape then (decodeBytesInternal escape escapedTerm escaped00 unescaped (v :: rest)).map fun (out, rest) => (b :: out, rest)
    else if v = escapedTerm then some ([], rest)
    else if v ≠ escaped00 then none
    else (decodeBytesInternal escape escapedTerm escaped00 unescaped rest).map fun (out, rest) => (unescaped :: out, rest)

def decodeBytesAscending : Reader Bytes := do
  if (← byte) ≠ bytesMarker then fail else decodeBytesInternal escape escapedTerm escaped00 0x00

def decodeBytesDescending : Reader Bytes := do
  if (← byte) ≠ bytesDescMarker then fail
  else return onesComplement (← decodeBytesInternal (~~~escape) (~~~escapedTerm) (~~~escaped00) 0xff)

def encodeStringAscending : Bytes := encodeBytesAscending (utf8 s)
def encodeStringDescending : Bytes := encodeBytesDescending (utf8 s)

def encodeTimeAscending : Bytes :=
  timeMarker :: (encodeVarintAscending seconds ++ encodeVarintAscending (.ofNat nanos.toNat))

def encodeTimeDescending : Bytes :=
  timeMarker :: (encodeVarintDescending seconds ++ encodeVarintDescending (.ofNat nanos.toNat))

def subSecond (nanos : Int64) : Option UInt32 :=
  if 0 ≤ nanos ∧ nanos.toInt < nanosPerSecond.toNat then some (.ofNat nanos.toInt.toNat) else none

def decodeTime (component : Reader Int64) : Reader (Int64 × UInt32) := do
  if (← byte) ≠ timeMarker then fail
  else
    let seconds ← component
    let nanos ← component
    return (seconds, ← lift (subSecond nanos))

def decodeTimeAscending : Reader (Int64 × UInt32) := decodeTime decodeVarintAscending
def decodeTimeDescending : Reader (Int64 × UInt32) := decodeTime decodeVarintDescending

namespace FloatFormat
variable (format : FloatFormat)

/-! ### Floats -/

def signBit : Nat := 2 ^ (8 * format.width - 1)

def infinity : Nat := format.signBit - 2 ^ format.mantissa

variable (bits : Nat)

def isNan : Bool := format.infinity < bits % format.signBit
def isZero : Bool := bits % format.signBit = 0
def isNegative : Bool := format.signBit ≤ bits

def negate : Nat := if format.isNegative bits then bits - format.signBit else bits + format.signBit

/-- The number that a pattern without sign stands for, in units of the least positive one. -/
def scaled (magnitude : Nat) : Nat :=
  let exponent := magnitude / 2 ^ format.mantissa
  if exponent = 0 then magnitude else (2 ^ format.mantissa + magnitude % 2 ^ format.mantissa) * 2 ^ (exponent - 1)

/-- The value, in units of the smallest positive one. -/
def numeric : Int :=
  if format.isNegative bits then -(format.scaled (bits % format.signBit) : Int) else format.scaled (bits % format.signBit)

def quietNan : Nat := format.infinity + 2 ^ (format.mantissa - 1)

def encodeAscending : Bytes :=
  if format.isNan bits then [format.nan]
  else if format.isZero bits then [format.zero]
  else if format.isNegative bits then format.neg :: Wire.toBe format.width (2 * format.signBit - 1 - bits)
  else format.pos :: Wire.toBe format.width bits

def encodeDescending : Bytes :=
  if format.isNan bits then [format.nanDesc] else format.encodeAscending (format.negate bits)

def decodeAscending : Reader Nat := do
  let marker ← byte
  if marker = format.nan ∨ marker = format.nanDesc then return format.quietNan
  else if marker = format.zero then return 0
  else if marker = format.neg then return 2 * format.signBit - 1 - (← be format.width)
  else if marker = format.pos then be format.width
  else fail

def decodeDescending : Reader Nat := do
  let bits ← format.decodeAscending
  -- Zero stays positive, and a NaN is not negated.
  if format.isZero bits || format.isNan bits then return bits else return format.negate bits

end FloatFormat

/-! ### JSON leaves -/

def jsonPathEnd : UInt8 := 0x2f

def encodePathAscending : Bytes := path.flatMap fun
  | .property name => escapeBytes (utf8 name)
  | .index => encodeUvarintAscending 0

def encodePathDescending : Bytes := path.flatMap fun
  | .property name => onesComplement (escapeBytes (utf8 name))
  | .index => encodeUvarintDescending 0

def encodeScalarAscending : JsonScalarValue → Bytes
  | .null => encodeNullAscending
  | .bool b => encodeBoolAscending b
  | .number bits => float64.encodeAscending bits.toNat
  | .string s => encodeBytesAscending (utf8 s)
  | .pathMin | .pathMax => []

def encodeScalarDescending : JsonScalarValue → Bytes
  | .null => encodeNullDescending
  | .bool b => encodeBoolDescending b
  | .number bits => float64.encodeDescending bits.toNat
  | .string s => encodeBytesDescending (utf8 s)
  | .pathMin | .pathMax => []

def encodeJsonAscending : Bytes :=
  jsonMarker :: (encodePathAscending leaf.path ++
    match leaf.value with
    | .pathMax => [escapedTerm, jsonPathEnd + 1]
    | .pathMin => [escapedTerm, jsonPathEnd] ++ encodeNullAscending
    | value => [escapedTerm, jsonPathEnd] ++ encodeScalarAscending value)

def encodeJsonDescending : Bytes :=
  jsonMarker :: (encodePathDescending leaf.path ++
    match leaf.value with
    | .pathMax => [~~~escapedTerm, ~~~(jsonPathEnd + 1)]
    | .pathMin => [~~~escapedTerm, ~~~jsonPathEnd] ++ encodeNullDescending
    | value => [~~~escapedTerm, ~~~jsonPathEnd] ++ encodeScalarDescending value)

def decodePathStringAscending : Reader String := do
  lift (fromUtf8 (← decodeBytesInternal escape escapedTerm escaped00 0x00))

def decodePathStringDescending : Reader String := do
  lift (fromUtf8 (onesComplement (← decodeBytesInternal (~~~escape) (~~~escapedTerm) (~~~escaped00) 0xff)))

/-- A part whose first byte `isIndex` accepts is read as an index. -/
def decodePathPart (isIndex : UInt8 → Bool) (index : Reader UInt64) (property : Reader String) : Reader JsonPathPart :=
  fun rest =>
    match rest with
    | [] => none
    | first :: _ =>
      if isIndex first then (do let _ ← index; return .index : Reader JsonPathPart) rest
      else (do return .property (← property) : Reader JsonPathPart) rest

/-- The parts of a path, up to the two bytes that end it. A part has a byte at least. -/
def decodePathParts (term pathEnd : UInt8) (part : Reader JsonPathPart) : Nat → Reader JsonPath
  | 0 => fail
  | count + 1 => fun rest =>
    match rest with
    | first :: second :: after =>
      if first = term ∧ second = pathEnd then some ([], after)
      else
        (do
          let head ← part
          let path ← decodePathParts term pathEnd part count
          return head :: path : Reader JsonPath) rest
    | _ => none

def decodeScalarAscending : Reader JsonScalarValue := fun buf =>
  match peekType buf with
  | .null => (do let _ ← byte; return .null : Reader JsonScalarValue) buf
  | .bool => (do return .bool (← decodeBoolAscending) : Reader JsonScalarValue) buf
  | .float64 => (do return .number (.ofNat (← float64.decodeAscending)) : Reader JsonScalarValue) buf
  | .int => (do return .number (← decodeUvarintAscending).toFloat.toBits : Reader JsonScalarValue) buf
  | .bytes | .bytesDesc => (do return .string (← lift (fromUtf8 (← decodeBytesAscending))) : Reader JsonScalarValue) buf
  | _ => none

def decodeScalarDescending : Reader JsonScalarValue := fun buf =>
  match buf with
  | [] => none
  | marker :: rest =>
    if marker = 0xff then some (.null, rest)
    else if marker = ~~~falseMarker then some (.bool false, rest)
    else if marker = ~~~trueMarker then some (.bool true, rest)
    else if float64.nan ≤ ~~~marker ∧ ~~~marker ≤ float64.nanDesc then
      (do return .number (.ofNat (← float64.decodeDescending)) : Reader JsonScalarValue) buf
    else if marker = bytesDescMarker then
      (do return .string (← lift (fromUtf8 (← decodeBytesDescending))) : Reader JsonScalarValue) buf
    else none

def decodePathAscending : Reader JsonPath := fun rest =>
  let part := decodePathPart (fun first => intMin ≤ first ∧ first ≤ intMax) decodeUvarintAscending decodePathStringAscending
  decodePathParts escapedTerm jsonPathEnd part (rest.length + 1) rest

def decodePathDescending : Reader JsonPath := fun rest =>
  let part := decodePathPart (fun first => intMin ≤ ~~~first ∧ ~~~first ≤ intMax) decodeUvarintDescending
    decodePathStringDescending
  decodePathParts (~~~escapedTerm) (~~~jsonPathEnd) part (rest.length + 1) rest

def decodeJsonAscending : Reader JsonLeafValue := do
  if (← byte) ≠ jsonMarker then fail
  else
    let path ← decodePathAscending
    return { path, value := ← decodeScalarAscending }

def decodeJsonDescending : Reader JsonLeafValue := do
  if (← byte) ≠ jsonMarker then fail
  else
    let path ← decodePathDescending
    return { path, value := ← decodeScalarDescending }

/-! ### Fields -/

def encodeTimeValue (value : Time) (descending : Bool) : Option Bytes :=
  if value.isLeapSecond then none
  else some (if descending then encodeTimeDescending value.seconds value.nanos else encodeTimeAscending value.seconds value.nanos)

def encodeScalar (value : Scalar) (descending : Bool) : Option Bytes :=
  match value with
  | .bool v => some (if descending then encodeBoolDescending v else encodeBoolAscending v)
  | .int v => some (if descending then encodeVarintDescending v else encodeVarintAscending v)
  | .float32 v => some (if descending then float32.encodeDescending v.toNat else float32.encodeAscending v.toNat)
  | .float64 v => some (if descending then float64.encodeDescending v.toNat else float64.encodeAscending v.toNat)
  | .string v => some (if descending then encodeStringDescending v else encodeStringAscending v)
  | .bytes v => some (if descending then encodeBytesDescending v else encodeBytesAscending v)
  | .time v => encodeTimeValue v descending

/-- Arrays, documents and whole JSON values are refused. -/
def encodeFieldValue (val : NormalValue) (descending : Bool) : Option Bytes :=
  if val.isNil then some (if descending then encodeNullDescending else encodeNullAscending)
  else
    match val with
    | .scalar v | .nillable (some v) => encodeScalar v descending
    | .jsonLeaf leaf => some (if descending then encodeJsonDescending leaf else encodeJsonAscending leaf)
    | _ => none

def timestampOpt : Option Time :=
  if h : (minSeconds ≤ seconds.toInt ∧ seconds.toInt ≤ maxSeconds) ∧ nanos.toNat < 1000000000 then
    some ⟨seconds, nanos, h.1, by omega⟩
  else none

def decodeFieldValue (descending : Bool) (kind : FieldKind) : Reader NormalValue := fun buf =>
  match peekType buf with
  | .null => (do let _ ← byte; return .null : Reader NormalValue) buf
  | .bool =>
    (do return .scalar (.bool (← if descending then decodeBoolDescending else decodeBoolAscending)) : Reader NormalValue) buf
  | .int =>
    (do return .scalar (.int (← if descending then decodeVarintDescending else decodeVarintAscending)) : Reader NormalValue) buf
  | .float32 =>
    (do return .scalar (.float32 (.ofNat (← if descending then float32.decodeDescending else float32.decodeAscending))) :
      Reader NormalValue) buf
  | .float64 =>
    (do return .scalar (.float64 (.ofNat (← if descending then float64.decodeDescending else float64.decodeAscending))) :
      Reader NormalValue) buf
  | .bytes | .bytesDesc =>
    (do
      let v ← if descending then decodeBytesDescending else decodeBytesAscending
      let isString := kind.asScalar.any fun kind => kind.baseKind = .nillableString
      if isString then return .scalar (.string (← lift (fromUtf8 v))) else return .scalar (.bytes v) : Reader NormalValue) buf
  | .time =>
    (do
      let (seconds, nanos) ← if descending then decodeTimeDescending else decodeTimeAscending
      return .scalar (.time (← lift (timestampOpt seconds nanos))) : Reader NormalValue) buf
  | .json =>
    (do return .jsonLeaf (← if descending then decodeJsonDescending else decodeJsonAscending) : Reader NormalValue) buf
  | .unknown => none

structure IndexField where
  kind : FieldKind
  descending : Bool
  deriving Repr, DecidableEq

def encodeFields : List IndexField → List NormalValue → Option Bytes
  | [], [] => some []
  | field :: fields, val :: vals => do
    let bytes ← encodeFieldValue val field.descending
    let rest ← encodeFields fields vals
    return bytes ++ rest
  | _, _ => none

def decodeFields : List IndexField → Reader (List NormalValue)
  | [] => return []
  | field :: fields => do
    let val ← decodeFieldValue field.descending field.kind
    let vals ← decodeFields fields
    return val :: vals

end Defra.Index
