import Defra.Lib.KeyedList
import Defra.Lib.Wire
import Defra.Stored.Tagged

/-! Merging a block into a field that reads its history (`merge_handler/field_causal.rs`, `merge_handler/field_tagged.rs`): the
    walk to a causal field's last critical block, and the walk to the operations in a block's past. -/

namespace Defra.Field
open Stored

/-- The ID of a Json block's operation: a digest of its priority, its parents in order and its plain ops. -/
def blockId (sha256 : Bytes → Bytes) (priority : UInt64) (parents : List Bytes) (data : Bytes) : Bytes :=
  let word (n : Nat) : Bytes := Wire.toBe 8 n
  let sorted := parents.mergeSort (· ≤ ·)
  sha256 (utf8 "defra-json-block" ++ [0] ++ word priority.toNat ++ word parents.length ++
    sorted.flatMap (fun parent => word parent.length ++ parent) ++ word data.length ++ data)

inductive MergeError where
  | storage (message : String)
  | mergeFailed (message : String)
  | blockDecode (message : String)
  | unsupportedDelta (message : String)
  deriving Repr, DecidableEq

/-- What a merge reads of a stored block; the data is its delta's when that is a field's. -/
structure Block (Cid : Type) where
  priority : UInt64
  heads : Option (List Cid)
  data : Option Bytes
  deriving Repr, DecidableEq

def Block.parents {Cid : Type} (block : Block Cid) : List Cid := block.heads.getD []

/-- Whether the type is a tagged one, and the operation that data makes in a history. -/
structure Writer (Op : Type) where
  tagged : Bool
  historyOp : Bytes → Except String Op

/-- The blocks, how their data decrypts, and the types that wrote them. `decryptBlockData` and `delta` read the whole block in the
    source, its encryption link and its delta's type with it; here both are functions of what a merge reads of it. -/
structure Handler (Cid Op : Type) where
  toBytes : Cid → Bytes
  toText : Cid → String
  storedBlock : Cid → Except MergeError (Block Cid)
  blocks : List Cid
  stored_mem : ∀ {cid : Cid} {block : Block Cid}, storedBlock cid = .ok block → cid ∈ blocks
  decryptBlockData : Block Cid → Bytes → Except MergeError Bytes
  delta : Block Cid → Except String (Writer Op)
  blockOp : Bytes → Except String Op

structure CausalBlock (Op : Type) where
  id : Bytes
  parents : List Bytes
  op : Op
  deriving Repr, DecidableEq

abbrev CidSet (Cid : Type) [LinearOrder Cid] := KeyedList (id : Cid → Cid)

/-- The blocks a walk has met, and those of them left to visit, by priority, then CID. -/
structure Met (Cid : Type) [LinearOrder Cid] where
  seen : CidSet Cid := ∅
  frontier : KeyedList (id : UInt64 ×ₗ Cid → UInt64 ×ₗ Cid) := ∅

structure Search (Cid : Type) [LinearOrder Cid] extends Met Cid where
  waiting : KeyedList (Prod.fst : Cid × Block Cid → Cid) := ∅

namespace Handler
variable {Cid Op : Type} [LinearOrder Cid] (handler : Handler Cid Op) (tagged : TaggedCrdt) (cid : Cid)
  (search : Search Cid) (data : Bytes) (block : Block Cid) (id : Cid)

def blockData : Except MergeError Bytes :=
  match block.data with
  | none => .error (.unsupportedDelta "not a field delta")
  | some data => handler.decryptBlockData block data

def meet (met : Met Cid) (cid : Cid) : Except MergeError (Met Cid) :=
  if (met.seen.find? cid).isSome then .ok met
  else do
    let block ← handler.storedBlock cid
    .ok { seen := met.seen.put cid, frontier := met.frontier.put (toLex (block.priority, cid)) }

def meetBlock (cid : Cid) : Except MergeError (Search Cid) :=
  if (search.seen.find? cid).isSome then .ok search
  else do
    let block ← handler.storedBlock cid
    .ok { seen := search.seen.put cid, frontier := search.frontier.put (toLex (block.priority, cid)),
          waiting := search.waiting.put (cid, block) }

/-- The operation of the stored block `id`; the block `cid` being merged carries `data`, decrypted. -/
def causalOp (block : Block Cid) : Except MergeError Op :=
  if id = cid then (handler.blockOp data).mapError .blockDecode
  else do
    let writer ← (handler.delta block).mapError .unsupportedDelta
    (writer.historyOp (← handler.blockData block)).mapError .blockDecode

def causalBlock (block : Block Cid) : Except MergeError (CausalBlock Op) := do
  let op ← handler.causalOp cid data id block
  .ok { id := handler.toBytes id, parents := block.parents.map handler.toBytes, op }

def criticalData (next : Cid) : Except MergeError Bytes :=
  match search.waiting.find? next with
  -- the source indexes the map
  | none => .error (.mergeFailed "no entry found for key")
  | some (_, block) => handler.blockData block

/-- One turn visits the highest of the blocks left, unless it is a root: its parents are met. -/
def visitBlock (search : Search Cid) (last : UInt64 ×ₗ Cid) :
    Except MergeError (Option (Search Cid × CausalBlock Op)) :=
  let next := (ofLex last).2
  match search.waiting.find? next with
  | none => .error (.mergeFailed s!"causal block {handler.toText next} visited twice")
  | some (_, block) =>
    if block.parents.isEmpty then .ok none
    else do
      let popped := { search with frontier := search.frontier.erase last, waiting := search.waiting.erase next }
      let search ← block.parents.foldlM handler.meetBlock popped
      let causal ← handler.causalBlock cid data next block
      .ok (some (search, causal))

def criticalLoop (cid : Cid) (data : Bytes) :
    Nat → Search Cid → List (CausalBlock Op) → Except MergeError (Option (Bytes × List (CausalBlock Op)))
  | 0, _, _ => .ok none
  | turns + 1, search, after =>
    match search.frontier.toList.getLast? with
    | none => .ok none
    | some last =>
      let next := (ofLex last).2
      if search.frontier.toList.length = 1 ∧ after ≠ [] then
        if next = cid then .ok none
        else do
          let critical ← handler.criticalData search next
          .ok (some (critical, after))
      else do
        match ← handler.visitBlock cid data search last with
        | none => .ok none
        | some (search, causal) => criticalLoop cid data turns search (after ++ [causal])

/-- The walk goes down from `tips`, highest priority first, and stops when one block is left to visit and none visited was a
    root. Every turn visits another stored block, which bounds the turns. -/
def criticalBlock (tips : List Cid) (cid : Cid) (data : Bytes) :
    Except MergeError (Option (Bytes × List (CausalBlock Op))) := do
  let search ← tips.foldlM handler.meetBlock {}
  handler.criticalLoop cid data (handler.blocks.length + 1) search []

/-- Whether every block of `all` (each with its parents) comes before or after `critical`, with `below` what is not after it.
    A debug build asserts it. -/
def isCritical (all below : List (Cid × List Cid)) (critical : Cid) : Bool :=
  let isBelow (id : Cid) : Bool := below.any fun entry => entry.1 = id
  (all.filter fun entry => !isBelow entry.1).all fun entry =>
    !entry.2.isEmpty && entry.2.all fun parent => parent = critical || !isBelow parent

abbrev Unresolved := KeyedList (fun tag : Tag => (toLex (tag.priority, tag.id) : UInt64 ×ₗ Bytes))

def isTagged : Bool :=
  match block.data, handler.delta block with
  | some _, .ok writer => writer.tagged
  | _, _ => false

def resolve (unresolved : Unresolved) (past : ByteSet) : Except MergeError (Unresolved × ByteSet) :=
  if handler.isTagged block then do
    let data ← handler.blockData block
    let id := tagged.opId block.priority (block.parents.map handler.toBytes) data
    .ok (unresolved.filter fun tag => tag.id ≠ id, past.put id)
  else .ok (unresolved, past)

def taggedPastLoop (tagged : TaggedCrdt) : Nat → Met Cid → Unresolved → ByteSet → Except MergeError ByteSet
  | 0, _, _, past => .ok past
  | turns + 1, met, unresolved, past =>
    match met.frontier.toList.getLast? with
    | none => .ok past
    | some last =>
      let (priority, next) := ofLex last
      if unresolved.toList.head?.all fun lowest => priority < lowest.priority then .ok past
      else do
        let block ← handler.storedBlock next
        let (unresolved, past) ← handler.resolve tagged block unresolved past
        let met ← block.parents.foldlM handler.meet { met with frontier := met.frontier.erase last }
        taggedPastLoop tagged turns met unresolved past

/-- The IDs, among `tags`, of the operations made below `parents`: the walk stops when no block left could have made one. -/
def taggedPast (parents : List Cid) (tags : List Tag) : Except MergeError ByteSet := do
  let met ← parents.foldlM handler.meet {}
  handler.taggedPastLoop tagged (handler.blocks.length + 1) met (.ofList tags) ∅

/-- Every recorded operation is in the past of a block whose parents are the field's heads. -/
def inPast (heads parents : List Cid) (tags : List Tag) : Except MergeError (Bytes → Bool) :=
  if parents = heads then .ok fun _ => true
  else do
    let past ← handler.taggedPast tagged parents tags
    .ok fun tag => (past.find? tag).isSome

structure Incoming (Cid : Type) where
  cid : Cid
  parents : Option (List Cid)
  priority : UInt64
  data : Bytes

/-- Nothing, for a block merged before, or an operand and the state it leaves. -/
inductive TaggedMerge where
  | unchanged
  | applied (operand landed : StoredField)

/-- A block published before, among the heads `live`, or whose operation the state records, changes nothing. -/
def mergeFieldTagged (name : String) (tagged : TaggedCrdt) (state : Option StoredField) (live : List Cid) (published : Bool)
    (block : Incoming Cid) : Except MergeError TaggedMerge := do
  let heads := live.mergeSort (· ≤ ·)
  let parents ← match block.parents with
    | some parents => .ok parents
    | none => (handler.storedBlock block.cid).map Block.parents
  let parents := parents.mergeSort (· ≤ ·)
  let id := tagged.opId block.priority (parents.map handler.toBytes) block.data
  let tags ← match state.elim (some []) tagged.tags with
    | some tags => .ok tags
    | none => .error (.mergeFailed s!"malformed state of '{name}'")
  if published ∨ heads.contains block.cid ∨ tags.any fun tag => tag.id = id then .ok .unchanged
  else do
    let inPast ← handler.inPast tagged heads parents tags
    match tagged.effect state block.data id block.priority inPast with
    | none => .error (.mergeFailed s!"no effect on '{name}'")
    | some operand =>
      match tagged.land state operand with
      | none => .error (.mergeFailed s!"invalid operand on '{name}'")
      | some landed => .ok (.applied operand landed)

end Handler
end Defra.Field
