import Defra.Heads.Collection
import Mathlib.Logic.Function.Basic

/-! A document's head set under optimistic transactions (`block/heads/document.rs`). A transaction reads one snapshot, and
    commits when nothing committed since wrote an entry it validated or touches a part of the set it validated. -/

namespace Defra.Heads
open Merge.HeadSet

variable {Cid : Type} [DecidableEq Cid]

abbrev PriorityKey (Cid : Type) := UInt64 × Cid

def published : Bytes := []

structure Store (Cid : Type) where
  blockstore : Cid → Option (Block Cid) := fun _ => none
  index : PriorityKey Cid → Option Bytes := fun _ => none
  set : Set := {}

/-- Its snapshot, the entries and the parts of the set its reads validate, the entries it marks published and its write. -/
structure Txn (Cid : Type) where
  snapshot : Store Cid
  validated : List (PriorityKey Cid) := []
  parts : List UInt32 := []
  marks : List (PriorityKey Cid) := []
  merged : Option Write := none

namespace Txn

variable (txn : Txn Cid)

def get (key : PriorityKey Cid) : Option Bytes :=
  if key ∈ txn.marks then some published else txn.snapshot.index key

def isPublished (priority : UInt64) (cid : Cid) : Bool × Txn Cid :=
  (txn.get (priority, cid) = some published, { txn with validated := (priority, cid) :: txn.validated })

/-- Its block is stored, and the entry at the block's own priority says so. -/
def wasPublished (cid : Cid) : Bool :=
  match txn.snapshot.blockstore cid with
  | none => false
  | some block => txn.get (block.priority, cid) = some published

def commit (write : Write) : Txn Cid :=
  if write.isEmpty then txn else { txn with merged := some write }

end Txn

variable (hash : Bytes → UInt64) (text : CidText Cid) (field : Bytes)

def name (cid : Cid) : Bytes := field ++ 0x2f :: text.bytes cid

section
variable (hash : Bytes → UInt64) (text : CidText Cid) (field : Bytes)

/-- A parent is superseded when it is live in `set` or was published; otherwise it is held ahead and its part is read. -/
def publishParent (txn : Txn Cid) (set : Set) (acc : List UInt32 × Write) (parent : Cid) : List UInt32 × Write :=
  let (held, write) := acc
  let name := name text field parent
  if set.isLive name || txn.wasPublished parent then (held, write.supersede name)
  else (held ++ [part hash name], write.supersedeAhead name)

/-- The block becomes a head and its parents stop being heads. Returns whether this call published it. -/
def publish (txn : Txn Cid) (set : Set) (write : Write) (block : Block Cid) : Bool × Write × Txn Cid :=
  let (isPublished, txn) := txn.isPublished block.priority block.cid
  if isPublished then (false, write, txn)
  else
    let (held, write) := block.parents.foldl (publishParent hash text field txn set) ([], write)
    let txn := if held.isEmpty then txn else { txn with parts := (held.mergeSort (· ≤ ·)).dedup ++ txn.parts }
    (true, write.add (name text field block.cid) block.priority,
      { txn with marks := (block.priority, block.cid) :: txn.marks })

def publication (snapshot : Store Cid) (block : Block Cid) : Txn Cid :=
  let (_, write, txn) := publish hash text field { snapshot } snapshot.set {} block
  txn.commit write

end

def touchesParts (write : Write) (parts : List UInt32) : Bool :=
  parts.isEmpty || parts.any (fun id => id &&& namePart = 0) ||
    write.entries.toList.any fun entry => entry.2 ≠ .identity && parts.contains (part hash entry.1)

def Txn.conflicts (txn later : Txn Cid) : Bool :=
  txn.validated.any (· ∈ later.marks) ||
    !txn.parts.isEmpty && later.merged.any fun write => touchesParts hash write txn.parts

/-- The entries are marked, and the write is merged into the set as it is by then. -/
def Store.commit (store : Store Cid) (txn : Txn Cid) : Store Cid :=
  { store with
    index := fun key => if key ∈ txn.marks then some published else store.index key
    set := txn.merged.elim store.set store.set.apply }

/-- One version of the store and what made it: a transaction, or a block that was stored. -/
structure Version (Cid : Type) where
  store : Store Cid
  txn : Option (Txn Cid) := none

def latest (versions : List (Version Cid)) : Store Cid := (versions.head?.map (·.store)).getD {}

/-- A block is stored, or a transaction whose snapshot is `back` versions old publishes a block. -/
inductive Event (Cid : Type) where
  | stored (block : Block Cid)
  | publish (back : Nat) (block : Block Cid)

def Event.block : Event Cid → Block Cid
  | .stored block | .publish _ block => block

def step (versions : List (Version Cid)) : Event Cid → List (Version Cid)
  | .stored block =>
    { store := { latest versions with blockstore := Function.update (latest versions).blockstore block.cid (some block) } }
      :: versions
  | .publish back block =>
    let txn := publication hash text field (latest (versions.drop back)) block
    if (versions.take back).any fun version => version.txn.any (txn.conflicts hash) then versions
    else { store := (latest versions).commit txn, txn } :: versions

def run (events : List (Event Cid)) : List (Version Cid) :=
  events.foldl (step hash text field) []

end Defra.Heads
