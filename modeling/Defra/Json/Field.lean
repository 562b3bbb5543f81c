import Mathlib.Algebra.GroupWithZero.Nat
import Defra.Json.Read

/-! Writes of a JSON field (`json.rs` of the `crdt` crate, and `diff` in `json_crdt.rs`). -/

namespace Defra.Json

/-- `==` of numbers: the zeros of a float are equal. No number is a NaN. -/
def Number.equal : Number → Number → Bool
  | .float a, .float b => a = b || a.toNat % 2 ^ 63 = 0 && b.toNat % 2 ^ 63 = 0
  | a, b => a = b

mutual

/-- `==` of values. -/
def Value.equal : Value → Value → Bool
  | .null, .null => true
  | .bool a, .bool b => a = b
  | .number a, .number b => a.equal b
  | .string a, .string b => a = b
  | .array a, .array b => equalItems a b
  | .object a, .object b => equalMembers a b
  | _, _ => false

def equalItems : List Value → List Value → Bool
  | [], [] => true
  | a :: as, b :: bs => a.equal b && equalItems as bs
  | _, _ => false

def equalMembers : List (String × Value) → List (String × Value) → Bool
  | [], [] => true
  | (key, a) :: as, (key', b) :: bs => key = key' && a.equal b && equalMembers as bs
  | _, _ => false

end

abbrev Members := List (String × Value)

def Value.asObject : Value → Option Members
  | .object members => some members
  | _ => none

variable (current : Option Value) (members : Members) (value : Option Value) (f : Frontier) (ops : List JsonOp)
  (key : String) (op : FieldOp) (path : Path)

def Members.get : Option Value := (members.find? fun m => m.1 = key).map Prod.snd

def memberKey (member : String × Value) : Bytes := utf8 member.1

def Members.insert (value : Value) : Members :=
  KeyedList.putIn memberKey (key, value) members

def Members.remove : Members := members.filter fun m => m.1 ≠ key

def mapOf (node : Option Value) : Members := (node.bind Value.asObject).getD []

/-- The value at `path`, if every key on the way is in a map. -/
def valueAt : Option Value :=
  path.foldl (fun node key => node.bind fun node => node.asObject.bind fun map => Members.get map key) value

def setAt : Path → Value → Option Value → Value
  | [], new, _ => new
  | key :: path, new, node =>
    let map := mapOf node
    .object (Members.insert map key (setAt path new (Members.get map key)))

def deleteAt : Path → Value → Value
  | key :: path, .object map =>
    if path.isEmpty then .object (Members.remove map key)
    else .object (map.map fun m => if m.1 = key then (m.1, deleteAt path m.2) else m)
  | _, value => value

def applyOp (op : JsonOp) : Option Value :=
  match op.edit with
  | .set new => some (setAt op.path new value)
  | .map => some (setAt op.path (.object []) value)
  | .delete => if op.path.isEmpty then none else value.map (deleteAt op.path)

def applyOps : Option Value := ops.foldl applyOp value

mutual

/-- An object sets each of its leaves at its own path, making each path above a map, and leaves every other key alone. -/
def deepSet (path : Path) (current : Option Value) : Value → List JsonOp
  | .object members =>
    let current := current.bind Value.asObject
    (if current.isNone then [{ path, edit := .map }] else []) ++ deepSetMembers path current members
  | value => [{ path, edit := .set value }]

def deepSetMembers (path : Path) (current : Option Members) : Members → List JsonOp
  | [] => []
  | (key, child) :: members =>
    deepSet (path ++ [key]) (current.bind fun map => Members.get map key) child ++ deepSetMembers path current members

end

def JsonEdit.isSet : JsonEdit → Bool
  | .set _ => true
  | _ => false

/-- Earlier ops at or below `path` are dropped, and a value above it becomes a map. -/
def settleEarlier : List JsonOp :=
  (ops.filter fun op => !path.isPrefixOf op.path).map fun op =>
    if op.path.isPrefixOf path && op.edit.isSet then { op with edit := .map } else op

mutual

def diffAt (path : Path) (old : Option Value) : Value → List JsonOp
  | .object new =>
    match old with
    | some (.object old) =>
      (old.filter fun m => (Members.get new m.1).isNone).map (fun m => { path := path ++ [m.1], edit := .delete }) ++
        diffMembers path (some old) new
    | _ => { path, edit := .map } :: diffMembers path none new
  | new => if old.any (·.equal new) then [] else [{ path, edit := .set new }]

def diffMembers (path : Path) (old : Option Members) : Members → List JsonOp
  | [] => []
  | (key, value) :: members =>
    diffAt (path ++ [key]) (old.bind fun map => Members.get map key) value ++ diffMembers path old members

end

/-- The ops that turn `old` into `new`, both `none` when absent. -/
def diff (old new : Option Value) : List JsonOp :=
  match new with
  | some new => diffAt [] old new
  | none => if old.isSome then [{ path := [], edit := .delete }] else []

/-- What a write does to a field (`field_op.rs`), a value given as its JSON, `none` when nil. -/
inductive FieldOp where
  | set (value : Option Value)
  | increment
  | edit
  | paths (edits : List JsonOp)
  | operand

def FieldOp.name : FieldOp → String
  | .set _ => "set"
  | .increment => "increment"
  | .edit => "edit"
  | .paths _ => "path edits"
  | .operand => "prepared operands"

structure UnsupportedOp where
  crdt : String
  op : String
  deriving Repr, DecidableEq

def editOps (working : Option Value) (edit : JsonOp) : List JsonOp :=
  match edit.edit with
  | .set value => deepSet edit.path (valueAt working edit.path) value
  | _ => [edit]

def pathOps (state : Option Value × List JsonOp) (edit : JsonOp) : Option Value × List JsonOp :=
  let (working, ops) := state
  let new := editOps working edit
  (applyOps working new, settleEarlier ops edit.path ++ new)

def blockOps : Except UnsupportedOp (List JsonOp) :=
  match op with
  | .set value => .ok (diff current value)
  | .paths edits => .ok (edits.foldl pathOps (current, [])).2
  | op => .error { crdt := "Json", op := op.name }

def apply : Except UnsupportedOp (Option Value) := do
  let ops ← blockOps current op
  return applyOps current ops

def Frontier.localDelta (block : Bytes) (priority : Nat) : Frontier :=
  f.delta ops block priority fun _ => true

def maxPriority : Nat := 2 ^ 64 - 1

def landed : Option Value := (f.compose (f.localDelta ops [] maxPriority)).materialize

mutual

/-- The shallowest path where two values differ other than in what two maps hold. -/
def mismatchAt : Value → Option Value → Option Path
  | .object landed, some (.object read) =>
    match mismatchMembers landed read with
    | some path => some path
    | none => (read.find? fun m => (Members.get landed m.1).isNone).map fun m => [m.1]
  | landed, read => if read.any landed.equal then none else some []

def mismatchMembers : Members → Members → Option Path
  | [], _ => none
  | (key, landed) :: rest, read =>
    match mismatchAt landed (Members.get read key) with
    | some path => some (key :: path)
    | none => mismatchMembers rest read

end

def mismatch (landed read : Option Value) : Option Path :=
  match landed with
  | some landed => mismatchAt landed read
  | none => if read.isNone then none else some []

def rewrite (read : Option Value) (ops : List JsonOp) (path : Path) : List JsonOp :=
  (ops.filter fun op => !path.isPrefixOf op.path) ++
    match valueAt read path with
    | some value => (diff none (some value)).map fun op => { op with path := path ++ op.path }
    | none => [{ path, edit := .delete }]

def anchor (f : Frontier) (read : Option Value) : Nat → List JsonOp → Option (List JsonOp)
  | 0, _ => none
  | fuel + 1, ops =>
    match mismatch (landed f ops) read with
    | none => some ops
    | some path => anchor f read fuel (rewrite read ops path)

/-- `fuel` bounds how often a subtree is rewritten. -/
def writeData (fuel : Nat) (f : Frontier) (op : FieldOp) : Except UnsupportedOp (Option (List JsonOp)) := do
  let current := f.materialize
  let ops ← blockOps current op
  return anchor f (applyOps current ops) fuel ops

end Defra.Json
