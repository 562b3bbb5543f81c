import Defra.Merge.HeadSet
import Mathlib.Data.Finset.Insert

/-! The head set of a branchable collection, under one key, and the guard keys that record which blocks were published
    (`block/heads.rs`). -/

namespace Defra.Heads
open Merge.HeadSet

/-- The text of a CID: no two have the same. -/
structure CidText (Cid : Type) where
  bytes : Cid → Bytes
  injective : Function.Injective bytes

structure Block (Cid : Type) where
  cid : Cid
  priority : UInt64
  parents : List Cid
  deriving DecidableEq

/-- Merge `write` into a set; nothing when it changes nothing. -/
def mergeSet (set : Set) (write : Write) : Set := if write.isEmpty then set else set.apply write

variable {Cid : Type} [DecidableEq Cid]

/-- The keys of one collection: the blocks whose guard is set, and the head set. -/
structure CollectionStore (Cid : Type) where
  published : Finset Cid := ∅
  set : Set := {}

/-- The block becomes a head and its parents stop being heads. A parent that is not live and has no guard is held ahead until
    it arrives. -/
def publishCollectionBlock (text : CidText Cid) (store : CollectionStore Cid) (set : Set) (block : Block Cid) :
    CollectionStore Cid :=
  if block.cid ∈ store.published then store
  else
    let write := block.parents.foldl (fun write parent =>
      let name := text.bytes parent
      if set.isLive name || parent ∈ store.published then write.supersede name else write.supersedeAhead name)
      ({} : Write)
    let write := write.add (text.bytes block.cid) block.priority
    { published := insert block.cid store.published, set := mergeSet store.set write }

def publishAll (text : CidText Cid) (calls : List (Block Cid)) : CollectionStore Cid :=
  calls.foldl (fun store block => publishCollectionBlock text store store.set block) {}

end Defra.Heads
