import Defra.Stored.Field

/-! The state of a tagged field's whole history: its blocks' operands landed one by one (`fold_history` in `field/tagged.rs` of
    the `crdt` crate), and the Json field's replay (`replay` in `json_crdt.rs` and `field/json.rs`). -/

namespace Defra.Stored
open Json

/-- The priority of the block that made an operation, and its ID. -/
structure Tag where
  priority : UInt64
  id : Bytes

structure TaggedBlock where
  cid : Bytes
  parents : List Bytes
  priority : UInt64
  data : Bytes
  deriving DecidableEq

structure TaggedCrdt where
  opId : UInt64 → List Bytes → Bytes → Bytes
  tags : StoredField → Option (List Tag)
  /-- The operand of a block, given which operations are in the block's past. -/
  effect : Option StoredField → Bytes → Bytes → UInt64 → (Bytes → Bool) → Option StoredField
  merge : StoredField → StoredField → Option (MergeResult × StoredField)
  settle : StoredField → Option StoredField

def TaggedCrdt.land (tagged : TaggedCrdt) (state : Option StoredField) (operand : StoredField) : Option StoredField := do
  let landed ← match state with
    | some state => (tagged.merge state operand).map Prod.snd
    | none => some operand
  tagged.settle landed

abbrev ByteSet := KeyedList (id : Bytes → Bytes)

structure Merged where
  cid : Bytes
  id : Bytes
  priority : UInt64
  parents : List Bytes

abbrev MergedBlocks := KeyedList Merged.cid

abbrev Waiting := KeyedList (id : UInt64 ×ₗ Bytes → UInt64 ×ₗ Bytes)

def visit (merged : MergedBlocks) (met : ByteSet × Waiting) (cid : Bytes) : ByteSet × Waiting :=
  match merged.find? cid with
  | none => met
  | some block =>
    if (met.1.find? cid).isSome then met else (met.1.put cid, met.2.put (toLex (block.priority, cid)))

/-- Each turn visits the highest of the blocks that wait, down to priority `lowest`. -/
def pastIdsLoop (merged : MergedBlocks) (lowest : UInt64) : Nat → List Bytes → ByteSet → Waiting → ByteSet → ByteSet
  | 0, _, _, _, ids => ids
  | turns + 1, next, visited, waiting, ids =>
    let (visited, waiting) := next.foldl (visit merged) (visited, waiting)
    match waiting.toList.getLast? with
    | none => ids
    | some last =>
      let (priority, cid) := ofLex last
      if priority < lowest then ids
      else
        let waiting := waiting.erase last
        match merged.find? cid with
        | none => pastIdsLoop merged lowest turns [] visited waiting ids
        | some block => pastIdsLoop merged lowest turns block.parents visited waiting (ids.put block.id)

/-- Down to priority `lowest`. Every turn visits another block, which bounds the turns. -/
def pastIds (merged : MergedBlocks) (parents : List Bytes) (lowest : UInt64) : ByteSet :=
  pastIdsLoop merged lowest (merged.toList.length + 1) parents ∅ ∅ ∅

def lowestOf (priorities : List UInt64) : UInt64 := priorities.foldl min (.ofNat (2 ^ 64 - 1))

def sortBlocks (history : List TaggedBlock) : List TaggedBlock :=
  history.mergeSort fun a b => (toLex (a.priority, a.cid) : UInt64 ×ₗ Bytes) ≤ toLex (b.priority, b.cid)

/-- The blocks merged, and those that no merged block has as a parent. -/
structure Replayed where
  merged : MergedBlocks := ∅
  tips : ByteSet := ∅

namespace Replayed

def allPast (replayed : Replayed) (block : TaggedBlock) : Bool :=
  (KeyedList.ofList block.parents : ByteSet).toList = replayed.tips.toList

def push (replayed : Replayed) (id : Bytes) (block : TaggedBlock) : Replayed where
  merged := replayed.merged.put { cid := block.cid, id, priority := block.priority, parents := block.parents }
  tips := (replayed.tips.eraseAll (KeyedList.ofList block.parents : ByteSet).toList).put block.cid

end Replayed

structure FoldState extends Replayed where
  state : Option StoredField := none

def FoldState.past (tagged : TaggedCrdt) (s : FoldState) (block : TaggedBlock) : Option ByteSet :=
  match s.state with
  | some state =>
    if s.allPast block then some ∅
    else (tagged.tags state).map fun tags => pastIds s.merged block.parents (lowestOf (tags.map (·.priority)))
  | none => some ∅

def foldBlock (tagged : TaggedCrdt) (s : FoldState) (block : TaggedBlock) : Option FoldState := do
  let id := tagged.opId block.priority block.parents block.data
  let past ← s.past tagged block
  let inPast (tag : Bytes) : Bool := s.allPast block || (past.find? tag).isSome
  let operand ← tagged.effect s.state block.data id block.priority inPast
  let state ← tagged.land s.state operand
  return { toReplayed := s.push id block, state := some state }

/-- The blocks' operands land one by one; no state for no history. -/
def foldHistory (tagged : TaggedCrdt) (history : List TaggedBlock) : Option (Option StoredField) := do
  let s ← (sortBlocks history).foldlM (foldBlock tagged) {}
  return s.state

/-- Its name, and the libraries that hash a block, read its ops and write its frontier. -/
structure JsonType where
  name : String
  blockId : UInt64 → List Bytes → Bytes → Bytes
  decodeOps : Bytes → Option (List JsonOp)
  cbor : Cbor

namespace JsonType
variable (json : JsonType)

def stored (priority : UInt64) (frontier : Frontier) : StoredField where
  name := json.name
  kind := .json
  priority
  value := json.cbor.encode frontier

def frontier : Option StoredField → Option Frontier
  | some state => json.cbor.frontier state.value
  | none => some {}

def tagged : TaggedCrdt where
  opId := json.blockId
  tags state := (json.cbor.frontier state.value).map fun frontier =>
    frontier.entries.toList.map fun entry => { priority := .ofNat entry.priority, id := entry.block }
  effect state data id priority inPast := do
    let ops ← json.decodeOps data
    let frontier ← json.frontier state
    return json.stored priority (frontier.delta ops id priority.toNat inPast)
  merge := (jsonField json.cbor).merge
  settle := (jsonField json.cbor).settle.getD some

end JsonType

/-- At or below the path of an op of the block being replayed, or above it. -/
structure Touched where
  below : Bool
  opIndex : Nat
  entry : Entry

def touchedBy (frontier : Frontier) (ops : List JsonOp) : List Touched :=
  ops.zipIdx.flatMap fun (op, opIndex) =>
    (frontier.under (encodePath op.path)).map (fun entry => ⟨true, opIndex, entry⟩) ++
      (List.range op.path.length).flatMap fun depth =>
        (frontier.atKey (encodePath (op.path.take depth))).map fun entry => ⟨false, opIndex, entry⟩

structure ReplayState extends Replayed where
  entries : KeyedList entryKey := ∅

def removedBy (touched : List Touched) : List (Bytes ×ₗ Bytes) := (touched.filter (·.below)).map fun t => entryKey t.entry

def seenBy (touched : List Touched) (opIndex : Nat) : ByteSet :=
  .ofList ((touched.filter fun t => !t.below && t.opIndex = opIndex).map (·.entry.block))

def replayEntries (entries : KeyedList entryKey) (ops : List JsonOp) (id : Bytes) (priority : UInt64)
    (touched : List Touched) : KeyedList entryKey :=
  (entries.eraseAll (removedBy touched)).putAll (ops.zipIdx.map fun (op, opIndex) =>
    { path := op.path, block := id, priority := priority.toNat, edit := op.edit, seen := (seenBy touched opIndex).toList })

def replayBlock (json : JsonType) (s : ReplayState) (block : TaggedBlock) : Option ReplayState := do
  let id := json.blockId block.priority block.parents block.data
  let ops ← json.decodeOps block.data
  let allPast := s.allPast block
  let touched := touchedBy { entries := s.entries } ops
  let past : ByteSet :=
    if allPast then ∅
    else pastIds s.merged block.parents (lowestOf (touched.map fun t => .ofNat t.entry.priority))
  let touched := touched.filter fun t => allPast || (past.find? t.entry.block).isSome
  return { toReplayed := s.push id block, entries := replayEntries s.entries ops id block.priority touched }

def replay (json : JsonType) (history : List TaggedBlock) : Option (Option StoredField) :=
  match history with
  | [] => some none
  | first :: rest => do
    let priority := rest.foldl (fun highest block => max highest block.priority) first.priority
    let s ← (sortBlocks history).foldlM (replayBlock json) {}
    return some (json.stored priority { entries := s.entries })

end Defra.Stored
