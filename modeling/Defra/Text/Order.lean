import Mathlib.Algebra.GroupWithZero.Nat
import Defra.Text.Op

/-! The reading order a replay keeps (`Order` in `fugue.rs`): nodes in chunks that count their visible characters, which
    `weight` gives. An index past the end, where the source panics, reads as node 0 or leaves the order as it is. -/

namespace Defra.Text

/-- Where a node sits in an `Order`: its chunk, and its index there. -/
structure Spot where
  chunk : Nat := 0
  index : Nat := 0
  deriving Repr, DecidableEq

structure Chunk where
  nodes : List Nat
  visible : Nat
  deriving Repr, DecidableEq

structure Order where
  chunks : List Chunk
  visible : Nat
  deriving Repr, DecidableEq

/-- Nodes per chunk of an `Order`; a chunk splits in two past twice this. -/
def chunkSize : Nat := 512

/-- `slice::chunks`: the items in runs of `size`, the last one shorter. -/
def chunksOf {α : Type} (size : Nat) (items : List α) : List (List α) :=
  (List.range ((items.length + size - 1) / size)).map fun i => (items.drop (i * size)).take size

namespace Order

def new (nodes : List Nat) (weight : Nat → Nat) : Order :=
  let chunks := (chunksOf chunkSize nodes).map fun nodes => { nodes, visible := (nodes.map weight).sum }
  let chunks := if chunks.isEmpty then [{ nodes := [], visible := 0 }] else chunks
  { chunks, visible := (chunks.map (·.visible)).sum }

variable (order : Order) (spot : Spot)

def chunkNodes (i : Nat) : List Nat := (order.chunks[i]?.map (·.nodes)).getD []

def nodeFrom : Option Nat := (order.chunkNodes spot.chunk)[spot.index]?

def nodeAt : Nat := (order.nodeFrom spot).getD 0

/-- The spot right before `spot`, which is not the first. -/
def before : Spot :=
  if spot.index > 0 then { chunk := spot.chunk, index := spot.index - 1 }
  else { chunk := spot.chunk - 1, index := (order.chunkNodes (spot.chunk - 1)).length - 1 }

/-- The spot right after `spot`: the next node's, or the end. -/
def after : Spot :=
  if spot.index + 1 < (order.chunkNodes spot.chunk).length ∨ spot.chunk + 1 = order.chunks.length then
    { chunk := spot.chunk, index := spot.index + 1 }
  else { chunk := spot.chunk + 1, index := 0 }

/-- The index of the node holding character `k` and `k`'s index inside it, or what is left of `k` past the end. -/
def nthInChunk (weight : Nat → Nat) : Nat → List Nat → Nat → Except Nat (Nat × Nat)
  | _, [], k => .error k
  | index, node :: nodes, k =>
    if k < weight node then .ok (index, k) else nthInChunk weight (index + 1) nodes (k - weight node)

def nthInChunks (weight : Nat → Nat) : Nat → List Chunk → Nat → Except Error (Spot × Nat)
  | _, [], k => .error (.mergeError s!"visible character {k} past the end of the text")
  | chunk, held :: chunks, k =>
    if k ≥ held.visible then nthInChunks weight (chunk + 1) chunks (k - held.visible)
    else match nthInChunk weight 0 held.nodes k with
      | .ok (index, inner) => .ok ({ chunk, index }, inner)
      | .error k => nthInChunks weight (chunk + 1) chunks k

/-- The spot of the node holding visible character `k`, from 0, and `k`'s index inside it. -/
def nthVisible (k : Nat) (weight : Nat → Nat) : Except Error (Spot × Nat) :=
  nthInChunks weight 0 order.chunks k

/-- Put the new `node`, showing `w` characters, at `spot`, and return where it sits. -/
def insert (node w : Nat) (weight : Nat → Nat) : Order × Spot :=
  match order.chunks[spot.chunk]? with
  | none => (order, spot)
  | some held =>
    let nodes := held.nodes.insertIdx spot.index node
    let visible := held.visible + w
    if nodes.length ≤ 2 * chunkSize then
      ({ chunks := order.chunks.set spot.chunk { nodes, visible }, visible := order.visible + w }, spot)
    else
      let tail := nodes.drop chunkSize
      let moved := (tail.map weight).sum
      let chunks := order.chunks.set spot.chunk { nodes := nodes.take chunkSize, visible := visible - moved }
      let chunks := chunks.insertIdx (spot.chunk + 1) { nodes := tail, visible := moved }
      ({ chunks, visible := order.visible + w },
        if spot.index < chunkSize then spot
        else { chunk := spot.chunk + 1, index := spot.index - chunkSize })

/-- The node was deleted, or split and `w` characters moved to the node after it. -/
def hide (w : Nat) : Order :=
  { chunks := order.chunks.modify spot.chunk fun held => { held with visible := held.visible - w }
    visible := order.visible - w }

def intoNodes : List Nat := order.chunks.flatMap (·.nodes)

end Order
end Defra.Text
