import Defra.Stored.Document
import Defra.Merge.HeadSet
import Defra.Merge.Vector

/-! The store's merge operator: every value a blind merge writes, and how the store folds it (`merge/mod.rs`). -/

namespace Defra.Merge
open Stored

def counterI64 (delta : Int64) : Bytes := encode int64 (Wire.toBe 8 delta.toUInt64.toNat)

def counterF32 (delta : Float32) : Bytes := encode float32 (Wire.toBe 4 delta.toBits.toNat)

def counterF64 (delta : Float) : Bytes := encode float64 (Wire.toBe 8 delta.toBits.toNat)

def i128Bytes (value : BitVec 128) : Bytes := Wire.toBe 16 value.toNat

def statsDelta (documents fieldLength : BitVec 128) : Bytes :=
  encode stats (i128Bytes documents ++ i128Bytes fieldLength)

def documentParts (cbor : Cbor) (parts : StoredDocument) : Option Bytes := parts.encodeAfter cbor (header document)

def legacyCounter (kind : UInt8) : Option ValueKind :=
  if kind = int64 then some .int64
  else if kind = float32 then some .float32
  else if kind = float64 then some .float64
  else none

/-- `value + delta` for a standalone counter, added as its part kind adds. -/
def addLegacy (kind : ValueKind) (value delta : Bytes) : Option Bytes :=
  let state value : StoredField := { name := "", kind, priority := 0, value }
  (counterField.merge (state value) (state delta)).map fun (_, sum) => sum.value

def addStats (value delta : Bytes) : Option Bytes :=
  if value.length ≠ 32 ∨ delta.length ≠ 32 then none
  else
    let number (bytes : Bytes) : BitVec 128 := BitVec.ofNat 128 (Wire.ofBe bytes)
    let checkedAdd (a b : BitVec 128) : Option (BitVec 128) :=
      let sum := a.toInt + b.toInt
      if -2 ^ 127 ≤ sum ∧ sum < 2 ^ 127 then some (a + b) else none
    do
      let documents ← checkedAdd (number (value.take 16)) (number (delta.take 16))
      let length ← checkedAdd (number (value.drop 16)) (number (delta.drop 16))
      return i128Bytes documents ++ i128Bytes length

def foldExactly (crdts : Crdts) (left right : StoredDocument) : Bool :=
  (left.fields.toList ++ right.fields.toList).all fun (_, field) => (crdts.part field.kind).foldsExactly field

section
variable (crdts : Crdts)

def applyDocument (value : StoredDocument) (operand : Bytes) : Option StoredDocument := do
  value.apply crdts (← StoredDocument.decode crdts.cbor (← body document operand))

def fullDocument (base : Option Bytes) (operands : List Bytes) : Option Bytes := do
  let value ← match base with
    | some bytes => StoredDocument.decode crdts.cbor bytes
    | none => pure {}
  let value ← operands.foldlM (applyDocument crdts) value
  value.encode crdts.cbor

def addSum (kind : UInt8) (value operand : Bytes) : Option Bytes := do
  let delta ← body kind operand
  match legacyCounter kind with
  | some counter => addLegacy counter value delta
  | none => if kind = stats then addStats value delta else none

def zeroSum (kind : UInt8) : Bytes :=
  List.replicate (if kind = int64 ∨ kind = float64 then 8 else if kind = float32 then 4 else if kind = stats then 32 else 0) 0

/-- The operands apply in order; each is of the first one's kind. -/
def fullMerge (base : Option Bytes) : List Bytes → Option Bytes
  | [] => base
  | first :: rest => do
    let (kind, _) ← decode first
    if kind = vectorLinks ∨ kind = vectorCounts then Vector.full kind base (first :: rest)
    else if kind = headSet then HeadSet.full base (first :: rest)
    else if kind = document then fullDocument crdts base (first :: rest)
    else (first :: rest).foldlM (addSum kind) (base.getD (zeroSum kind))

def touches (hash : Bytes → UInt64) (operand : Bytes) (parts : List UInt32) : Bool :=
  match decode operand with
  | none => true
  | some (kind, bytes) =>
    if kind = vectorLinks ∨ kind = vectorCounts then Vector.touches kind bytes parts
    else if kind = headSet then HeadSet.touches hash bytes parts
    else if kind = document then
      (StoredDocument.decode crdts.cbor bytes).all fun value => value.fields.toList.any fun field => parts.contains field.1
    else true

def partialMerge (left right : Bytes) : Option Bytes :=
  if (body headSet left).isSome then HeadSet.fold left right
  else if (body vectorLinks left).isSome then Vector.fold left right
  else match body document left, body document right with
    | some left, some right => do
      let left ← StoredDocument.decode crdts.cbor left
      let right ← StoredDocument.decode crdts.cbor right
      if foldExactly crdts left right then documentParts crdts.cbor (← left.fold crdts right) else none
    | _, _ => do
      let left ← body int64 left
      let right ← body int64 right
      return encode int64 (← addLegacy .int64 left right)

end
end Defra.Merge
