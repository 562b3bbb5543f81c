import Mathlib.Data.Prod.Lex
import Defra.Lib.KeyedList
import Defra.Json.Path

/-! The frontier of a JSON field: for each path, the edits no later edit of that path or of a path above it has seen (`Frontier`
    in `json_crdt.rs`). Vectors kept in order, ordered maps and sets are lists sorted by their keys. -/

namespace Defra.Json

inductive Number where
  | posInt (n : UInt64)
  | negInt (n : Int64)
  | float (bits : UInt64)
  deriving Repr, DecidableEq

/-- `serde_json::Value`. An object's members are in the order of their names. -/
inductive Value where
  | null
  | bool (value : Bool)
  | number (value : Number)
  | string (value : String)
  | array (items : List Value)
  | object (members : List (String × Value))
  deriving Repr

inductive JsonEdit where
  | set (value : Value)
  | map
  | delete
  deriving Repr

def JsonEdit.isMap : JsonEdit → Bool
  | .map => true
  | _ => false

def JsonEdit.isDelete : JsonEdit → Bool
  | .delete => true
  | _ => false

structure JsonOp where
  path : Path
  edit : JsonEdit
  deriving Repr

/-- The op, the block that made it, and the blocks of the edits above its path that its writer had seen. -/
structure Entry where
  path : Path
  block : Bytes
  priority : Nat
  edit : JsonEdit
  seen : List Bytes
  deriving Repr

def entryKey (entry : Entry) : Bytes ×ₗ Bytes := toLex (encodePath entry.path, entry.block)

def removeKey (remove : Path × Bytes) : Bytes ×ₗ Bytes := toLex (encodePath remove.1, remove.2)

/-- A stored value, or an operand on it: the entries it removes, by path and block, and those it adds. A stored value removes
    nothing. -/
structure Frontier where
  removes : KeyedList removeKey := ∅
  entries : KeyedList entryKey := ∅

namespace Frontier

variable (f : Frontier) (key : Bytes)

/-- One range, since a key prefixes exactly its own path's and those below. -/
def under : List Entry :=
  f.entries.rangeWhile (toLex (key, [])) fun entry => key.isPrefixOf (encodePath entry.path)

/-- The entries at `key`'s path itself. -/
def atKey : List Entry :=
  f.entries.rangeWhile (toLex (key, [])) fun entry => encodePath entry.path = key

/-- Drop what `later` removes, add what it adds. The result removes what either removed. -/
def compose (f later : Frontier) : Frontier where
  removes := later.removes.toList.foldl .add f.removes
  entries := (f.entries.eraseAll (later.removes.toList.map removeKey)).putAll later.entries.toList

def settle : Frontier := { f with removes := ∅ }

/-- The blocks, in the writer's past, of the edits above `path`. -/
def seenAbove (inPast : Bytes → Bool) (path : Path) : KeyedList (id : Bytes → Bytes) :=
  .ofList ((List.range path.length).flatMap fun depth =>
    ((f.atKey (encodePath (path.take depth))).map (·.block)).filter inPast)

/-- The operand that writes `ops`: the edits the block had seen (`inPast`) at an op's path and below leave, and those above
    it are recorded. -/
def delta (ops : List JsonOp) (block : Bytes) (priority : Nat) (inPast : Bytes → Bool) : Frontier where
  removes := .ofList (ops.flatMap fun op =>
    ((f.under (encodePath op.path)).filter fun entry => inPast entry.block).map fun entry => (entry.path, entry.block))
  entries := .ofList (ops.map fun op =>
    { path := op.path, block, priority, edit := op.edit, seen := (f.seenAbove inPast op.path).toList })

end Frontier
end Defra.Json
