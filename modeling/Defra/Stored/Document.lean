import Defra.Stored.Field

/-! Local document values: their bytes, and how operands apply to them and fold (`stored.rs`). -/

namespace Defra.Stored
open Reader

def documentMagic : Bytes := [68, 70, 86, 1]

def customTag : UInt8 := 6

def ValueKind.tag : ValueKind → UInt8
  | .lww => 0
  | .int64 => 1
  | .float32 => 2
  | .float64 => 3
  | .text => 4
  | .json => 5
  | .custom _ => customTag

def ValueKind.encode (kind : ValueKind) : Bytes :=
  kind.tag :: match kind with
    | .custom name => UInt8.ofNat (utf8 name.asStr).length :: utf8 name.asStr
    | _ => []

def ValueKind.decode : Reader ValueKind := do
  match (← byte) with
  | 0 => return .lww
  | 1 => return .int64
  | 2 => return .float32
  | 3 => return .float64
  | 4 => return .text
  | 5 => return .json
  | 6 =>
    let length ← byte
    let name ← lift (fromUtf8 (← take length.toNat))
    return .custom (← lift (CrdtName.new name))
  | _ => fail

abbrev Fields := KeyedList (Prod.fst : UInt32 × StoredField → UInt32)

structure StoredDocument where
  fields : Fields := ∅

def sized (bytes : Bytes) : Option Bytes :=
  if bytes.length < 2 ^ 32 then some (Wire.toBe 4 bytes.length ++ bytes) else none

def takeSized : Reader Bytes := do
  take (← be 4)

/-- `none` for an ID that does not rise over `previous`, an empty name or a value its kind cannot hold. -/
def encodeFields (cbor : Cbor) : Option UInt32 → List (UInt32 × StoredField) → Option Bytes
  | _, [] => some []
  | previous, (id, part) :: rest =>
    if previous.any (id ≤ ·) || part.name.isEmpty || !part.isValid cbor then none
    else do
      let name ← sized (utf8 part.name)
      let value ← sized part.value
      let rest ← encodeFields cbor (some id) rest
      return Wire.toBe 4 id.toNat ++ part.kind.encode ++ Wire.toBe 8 part.priority.toNat ++ name ++ value ++ rest

/-- `none` where a document of `parts` cannot be stored. -/
def encodeParts (cbor : Cbor) (start : Bytes) (parts : List (UInt32 × StoredField)) : Option Bytes :=
  if parts.length < 2 ^ 32 then do
    let body ← encodeFields cbor none parts
    if (parts.map fun part => part.2.name).Nodup then
      return start ++ documentMagic ++ Wire.toBe 4 parts.length ++ body
    else none
  else none

namespace StoredDocument

variable (cbor : Cbor) (crdts : Crdts) (validateValues : Bool) (document : StoredDocument) (bytes : Bytes)

def encodeAfter (start : Bytes) (document : StoredDocument) : Option Bytes :=
  encodeParts cbor start document.fields.toList

def encode : Option Bytes := document.encodeAfter cbor []

def decodeField : Reader (UInt32 × StoredField) := do
  let id ← be 4
  let kind ← ValueKind.decode
  let priority ← be 8
  let name ← lift (fromUtf8 (← takeSized))
  let value ← takeSized
  return (UInt32.ofNat id, { name, kind, priority := UInt64.ofNat priority, value })

/-- A part of an ID already there is refused. -/
def decodeFields (cbor : Cbor) (validateValues : Bool) : Nat → Fields → Reader Fields
  | 0, fields => pure fields
  | count + 1, fields => do
    let (id, field) ← decodeField
    if field.name.isEmpty || (validateValues && !field.isValid cbor) || (fields.find? id).isSome then fail
    else decodeFields cbor validateValues count (fields.put (id, field))

/-- The parts' count, which the bytes left must be enough for, and the parts. -/
def decodeBody : Reader Fields := do
  let count ← be 4
  if count > (← get).length / 21 then fail else decodeFields cbor validateValues count ∅

def decodeInner : Option StoredDocument := do
  let input ← bytes.dropPrefix? documentMagic
  let fields ← (decodeBody cbor validateValues).all input
  if (fields.toList.map fun part => part.2.name).Nodup then return { fields } else none

def decode : Option StoredDocument := decodeInner cbor true bytes

/-- `none` where the part's name is another part's, or its kind or name is not the ID's. -/
def foldPart (part : UInt32 × StoredField) : Option StoredDocument :=
  let (id, incoming) := part
  let held := document.fields.find? id
  if held.isNone && document.fields.toList.any (fun field => field.2.name == incoming.name) then none
  else
    let current := (held.map Prod.snd).getD { name := incoming.name, kind := incoming.kind, priority := 0, value := [] }
    if current.kind ≠ incoming.kind ∨ current.name ≠ incoming.name then none
    else ((crdts.part incoming.kind).merge current incoming).map fun (_, merged) =>
      { fields := document.fields.put (id, merged) }

def fold (document operand : StoredDocument) : Option StoredDocument :=
  operand.fields.toList.foldlM (foldPart crdts) document

/-- Settle the part `id`, if its type is tagged. -/
def settlePart (id : UInt32) : Option StoredDocument := do
  let (_, part) ← document.fields.find? id
  match (crdts.part part.kind).settle with
  | some settle => (settle part).map fun settled => { fields := document.fields.put (id, settled) }
  | none => return document

/-- The result is a stored value, so its tagged parts settle. -/
def apply (document operand : StoredDocument) : Option StoredDocument := do
  let folded ← document.fold crdts operand
  (operand.fields.toList.map Prod.fst).foldlM (settlePart crdts) folded

end StoredDocument
end Defra.Stored
