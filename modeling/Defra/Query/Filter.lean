import Defra.Query.Value

/-! Filters and how they are evaluated against a document (`mapper/filter/` of the `query` crate). A filter is JSON: an object's
    members are read in the order of their names. -/

namespace Defra.Query
open Index Json

inductive FilterOp where
  | eq | ne | gt | gte | lt | lte | in | nin | like | nlike | ilike | nilike | contains | containedIn | hasKey
  | and | or | not
  | any | all | none
  deriving Repr, DecidableEq

def FilterOp.parse (s : String) : Option FilterOp :=
  match s with
  | "_eq" => some .eq
  | "_neq" | "_ne" => some .ne
  | "_gt" => some .gt
  | "_geq" | "_gte" | "_ge" => some .gte
  | "_lt" => some .lt
  | "_leq" | "_lte" | "_le" => some .lte
  | "_in" => some .in
  | "_nin" => some .nin
  | "_like" => some .like
  | "_nlike" => some .nlike
  | "_ilike" => some .ilike
  | "_nilike" => some .nilike
  | "_contains" => some .contains
  | "_contained_in" => some .containedIn
  | "_has_key" => some .hasKey
  | "_and" => some .and
  | "_or" => some .or
  | "_not" => some .not
  | "_any" => some .any
  | "_all" => some .all
  | "_none" => some .none
  | _ => Option.none

def FilterOp.isLogical (op : FilterOp) : Bool := op = .and || op = .or || op = .not

def FilterOp.isArrayElementOp (op : FilterOp) : Bool := op = .any || op = .all || op = .none

inductive QueryError where
  | invalidFilter (msg : String)
  | unknownField (name : String)
  | unexpectedType (property actual : String)
  | internal (msg : String)
  deriving Repr, DecidableEq

abbrev Result := Except QueryError

section
variable (lib : Library)

def datetimesEqual (a b : String) : Bool :=
  match lib.parseUtc a, lib.parseUtc b with
  | some a, some b => compareTime a b = .eq
  | _, _ => false

def numbersEqual (a b : Number) : Bool :=
  match asI64 a, asI64 b with
  | some a, some b => a = b
  | _, _ => closeF64 (asF64 a) (asF64 b)

mutual

def valuesEqual : Value → Value → Bool
  | .null, .null => true
  | .bool a, .bool b => a = b
  | .number a, .number b => numbersEqual a b
  | .string a, .string b => a = b || datetimesEqual lib a b
  | .array a, .array b => itemsEqual a b
  | .object a, .object b => a.length = b.length && membersIn a b
  | _, _ => false

def itemsEqual : List Value → List Value → Bool
  | [], [] => true
  | a :: as, b :: bs => valuesEqual a b && itemsEqual as bs
  | _, _ => false

def membersIn : List (String × Value) → List (String × Value) → Bool
  | [], _ => true
  | (key, a) :: as, bs =>
    (match bs.lookup key with
      | some b => valuesEqual a b
      | none => false) && membersIn as bs

end

def goTypeName : Value → String
  | .null => "nil"
  | .bool _ => "bool"
  | .number _ => "float64"
  | .string _ => "string"
  | .array _ => "[]interface \x7b\x7d"
  | .object _ => "map[string]interface \x7b\x7d"

/-- A null document value compares with null only, and numbers compare as floats. -/
def compareValues (a b : Value) : Result (Option Ordering) :=
  match a, b with
  | .null, .null => .ok (some .eq)
  | _, .null => .ok (some .gt)
  | .null, _ => .ok none
  | .number a, .number b => .ok (some (compareF64 (asF64 a) (asF64 b)))
  | .string a, .string b =>
    match lib.parseUtc a, lib.parseUtc b with
    | some a, some b => .ok (some (compareTime a b))
    | _, _ => .ok (some (compare (utf8 a) (utf8 b)))
  | _, .number _ => .ok none
  | _, b => .error (.unexpectedType "condition" (goTypeName b))

def percent : UInt8 := 37

def likeStart : Bytes → List Bool
  | [] => []
  | p :: pattern => if p = percent then true :: likeStart pattern else (p :: pattern).map fun _ => false

/-- Which beginnings of the pattern match the text up to `byte`: `prev` is the old row's entry before, `cur` the new row's. -/
def likeRow (byte : UInt8) : Bytes → List Bool → Bool → Bool → List Bool
  | p :: pattern, old :: row, prev, cur =>
    let entry := if p = percent then cur || old else if byte = p then prev else false
    entry :: likeRow byte pattern row old entry
  | _, _, _, _ => []

def likeRows (pattern : Bytes) : Bytes → List Bool → Bool → Bool
  | [], row, first => (first :: row).getLast (List.cons_ne_nil _ _)
  | byte :: text, row, first => likeRows pattern text (likeRow byte pattern row first false) false

/-- A `%` stands for any text, every other byte for itself. -/
def likePatternMatch (text pattern : String) : Bool := likeRows (utf8 pattern) (utf8 text) (likeStart (utf8 pattern)) true

def likeMatch (actual pattern : Value) (negate caseInsensitive : Bool) : Result Bool :=
  match actual, pattern with
  | .string actual, .string pattern =>
    let text s := if caseInsensitive then lib.toLowercase s else s
    .ok (xor negate (likePatternMatch (text actual) (text pattern)))
  | .string _, _ =>
    .error (.invalidFilter ((if caseInsensitive then "_ilike" else "_like") ++ " requires string pattern"))
  | _, _ => .ok negate

def asArray (msg : String) : Value → Result (List Value)
  | .array items => .ok items
  | _ => .error (.invalidFilter msg)

mutual

def evalOp (actual : Value) (op : FilterOp) (expected : Value) : Result Bool :=
  match op with
  | .eq => .ok (valuesEqual lib actual expected)
  | .ne => .ok !(valuesEqual lib actual expected)
  | .gt => do return (← compareValues lib actual expected).any Ordering.isGT
  | .gte => do return (← compareValues lib actual expected).any Ordering.isGE
  | .lt => do return (← compareValues lib actual expected).any Ordering.isLT
  | .lte => do return (← compareValues lib actual expected).any Ordering.isLE
  | .in => do return (← asArray "_in requires array" expected).any (valuesEqual lib actual)
  | .nin => do return !(← asArray "_nin requires array" expected).any (valuesEqual lib actual)
  | .like => likeMatch lib actual expected false false
  | .nlike => likeMatch lib actual expected true false
  | .ilike => likeMatch lib actual expected false true
  | .nilike => likeMatch lib actual expected true true
  | .contains =>
    match actual with
    | .null => .ok false
    | _ => do return (← asArray "_contains requires array field" actual).any (valuesEqual lib · expected)
  | .containedIn =>
    match actual with
    | .null => .ok false
    | _ => do
      let items ← asArray "_contained_in requires array field" actual
      let allowed ← asArray "_contained_in requires array value" expected
      return items.all fun item => allowed.any (valuesEqual lib item)
  | .hasKey =>
    match actual, expected with
    | .null, _ => .ok false
    | .object members, .string key => .ok (members.lookup key).isSome
    | _, .string _ => .error (.invalidFilter "_has_key requires object field")
    | _, _ => .error (.invalidFilter "_has_key requires string key")
  | .any =>
    match actual, expected with
    | .array [], _ => .ok false
    | .array items, .object nested => items.anyM fun item => evalConditionsOnValue item nested
    | .array _, _ => .error (.invalidFilter "_any requires object condition")
    | _, _ => .ok false
  | .all =>
    match actual, expected with
    | .array [], _ => .ok true
    | .array items, .object nested => items.allM fun item => evalConditionsOnValue item nested
    | .array _, _ => .error (.invalidFilter "_all requires object condition")
    | _, _ => .ok false
  | .none =>
    match actual, expected with
    | .array [], _ => .ok true
    | .array items, .object nested => do return !(← items.anyM fun item => evalConditionsOnValue item nested)
    | .array _, _ => .error (.invalidFilter "_none requires object condition")
    | _, _ => .ok false
  | .and | .or | .not => .error (.internal "logical ops should be handled at top level")

def evalConditionsOnValue (value : Value) : List (String × Value) → Result Bool
  | [] => .ok true
  | (opStr, expected) :: conditions =>
    match FilterOp.parse opStr with
    | none => .error (.invalidFilter ("unknown operator in array condition: " ++ opStr))
    | some op => do
      if ← evalOp value op expected then evalConditionsOnValue value conditions else return false

end

end

end Defra.Query
