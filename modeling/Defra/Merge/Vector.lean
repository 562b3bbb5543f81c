import Mathlib.Data.List.Sort
import Defra.Lib.Wire
import Defra.Merge.Operand

/-! HNSW nodes and metadata: their bytes (`vector.rs`), and the link additions and counts that merge into them
    (`merge/vector.rs`). -/

namespace Defra.Merge.Vector
open Reader

/-- A stored graph node. Vector elements are the bits of their floats. -/
structure Node where
  id : UInt64
  vector : List UInt32
  layers : List (List UInt64)
  deleted : Bool

structure Meta where
  entryPoint : UInt64
  topLayer : Nat
  live : UInt64
  waste : UInt64
  rebuilds : UInt32

def toLe (width n : Nat) : Bytes := (Wire.toBe width n).reverse

variable (info : Meta) (kind : UInt8) (node : Node) (width : Nat) (bytes : Bytes) (operand : Bytes)

def takeLe : Reader Nat := do
  return Wire.ofBe (← take width).reverse

/-- Fails unless `width` more bytes remain. -/
def ensure : Reader Unit := fun input => if width ≤ input.length then some ((), input) else none

def encodeNode : Bytes :=
  [1] ++ toLe 8 node.id.toNat ++ [if node.deleted then 1 else 0] ++ toLe 4 (node.vector.length % 2 ^ 32) ++
    node.vector.flatMap (fun component => toLe 4 component.toNat) ++ toLe 4 (node.layers.length % 2 ^ 32) ++
    node.layers.flatMap fun layer =>
      toLe 4 (layer.length % 2 ^ 32) ++ layer.flatMap fun neighbor => toLe 8 neighbor.toNat

def takeNode : Reader Node := do
  if (← byte) ≠ 1 then fail
  else
    let id ← takeLe 8
    let deleted ← byte
    let dimensions ← takeLe 4
    ensure (dimensions * 4)
    let vector ← times dimensions (takeLe 4)
    let layerCount ← takeLe 4
    ensure (layerCount * 4)
    let layers ← times layerCount do
      let neighborCount ← takeLe 4
      ensure (neighborCount * 8)
      times neighborCount (takeLe 8)
    return { id := UInt64.ofNat id, vector := vector.map UInt32.ofNat, layers := layers.map (·.map UInt64.ofNat),
             deleted := deleted ≠ 0 }

def decodeNode : Option Node := takeNode.all bytes

def encodeMeta : Bytes :=
  [2] ++ toLe 8 info.entryPoint.toNat ++ toLe 4 (info.topLayer % 2 ^ 32) ++ toLe 8 info.live.toNat ++
    toLe 8 info.waste.toNat ++ toLe 4 info.rebuilds.toNat

/-- A value of the current layout, of 33 bytes, or of the older one, of 13. -/
def decodeMeta : Option Meta :=
  if bytes.length ≠ 33 ∧ bytes.length ≠ 13 then none
  else do
    let (version, rest) ← byte bytes
    if version ≠ 2 ∧ version ≠ 1 then none
    else if (version = 2 ∧ bytes.length ≠ 33) ∨ (version = 1 ∧ bytes.length ≠ 13) then none
    else
      let (entryPoint, rest) ← takeLe 8 rest
      let (topLayer, rest) ← takeLe 4 rest
      -- Stored as an `i32`, whose negative values are refused.
      if 2 ^ 31 ≤ topLayer then none
      else if version = 1 then
        return { entryPoint := UInt64.ofNat entryPoint, topLayer, live := 0, waste := 0, rebuilds := 0 }
      else
        let (live, rest) ← takeLe 8 rest
        let (waste, rest) ← takeLe 8 rest
        let (rebuilds, _) ← takeLe 4 rest
        return { entryPoint := UInt64.ofNat entryPoint, topLayer, live := UInt64.ofNat live,
                 waste := UInt64.ofNat waste, rebuilds := UInt32.ofNat rebuilds }

def links (layer : UInt32) (neighbor : UInt64) : Bytes :=
  encode vectorLinks (Wire.toBe 4 layer.toNat ++ Wire.toBe 8 neighbor.toNat)

/-- `live` is the two's complement of what the operand adds. -/
def counts (live : Int64) (waste : UInt64) : Bytes :=
  encode vectorCounts (Wire.toBe 8 live.toUInt64.toNat ++ Wire.toBe 8 waste.toNat)

def additionsIn : Bytes → Option (List (Nat × UInt64))
  | [] => some []
  | b0 :: b1 :: b2 :: b3 :: c0 :: c1 :: c2 :: c3 :: c4 :: c5 :: c6 :: c7 :: rest =>
    (additionsIn rest).map fun additions =>
      (Wire.ofBe [b0, b1, b2, b3], UInt64.ofNat (Wire.ofBe [c0, c1, c2, c3, c4, c5, c6, c7])) :: additions
  | _ => none

def additions : Option (List (Nat × UInt64)) := if bytes.isEmpty then none else additionsIn bytes

/-- A layer above the node's height is refused, and a node never links to itself. -/
def addLink (addition : Nat × UInt64) : Option Node :=
  let (layer, neighbor) := addition
  (node.layers[layer]?).map fun neighbors =>
    let kept := neighbors.filter (· ≠ node.id)
    let kept := if neighbor ≠ node.id then kept ++ [neighbor] else kept
    { node with layers := node.layers.set layer (kept.mergeSort (· ≤ ·)).dedup }

/-- `value` plus a signed number, held between 0 and the largest number there is. -/
def saturatingAddSigned (value : UInt64) (added : Int64) : UInt64 :=
  UInt64.ofNat (min ((value.toNat : Int) + added.toInt).toNat (2 ^ 64 - 1))

def saturatingAdd (value added : UInt64) : UInt64 := UInt64.ofNat (min (value.toNat + added.toNat) (2 ^ 64 - 1))

def addCounts : Option Meta :=
  if bytes.length ≠ 16 then none
  else
    let live := (UInt64.ofNat (Wire.ofBe (bytes.take 8))).toInt64
    let waste := UInt64.ofNat (Wire.ofBe (bytes.drop 8))
    some { info with live := saturatingAddSigned info.live live, waste := saturatingAdd info.waste waste }

def applyLinks : Option Node := do
  (← additions (← body vectorLinks operand)).foldlM addLink node

def applyCounts : Option Meta := do
  addCounts info (← body vectorCounts operand)

def full (base : Option Bytes) (operands : List Bytes) : Option Bytes :=
  if kind = vectorLinks then do
    let node ← decodeNode (← base)
    let node ← operands.foldlM applyLinks node
    return encodeNode node
  else if kind = vectorCounts then do
    let info ← decodeMeta (← base)
    let info ← operands.foldlM applyCounts info
    return encodeMeta info
  else none

def fold (left right : Bytes) : Option Bytes := do
  let left ← body vectorLinks left
  let right ← body vectorLinks right
  let _ ← additions left
  let _ ← additions right
  return encode vectorLinks (left ++ right)

def touches (parts : List UInt32) : Bool :=
  if kind = vectorLinks ∧ (additions bytes).isSome then parts.contains 1
  else if kind = vectorCounts ∧ bytes.length = 16 then parts.contains 1
  else true

end Defra.Merge.Vector
