import Defra.Lib.Wire
import Defra.Json.Read

/-! The parts of a local document value and how two of them merge: what a part's kind says its bytes are, and the
    CRDT types that store it (`stored.rs`, `field/` and `registry.rs` of the `crdt` crate). -/

namespace Defra.Stored
open Json

def nativeNames : List String :=
  ["none", "lww", "lwwregister", "lww_register", "object", "composite", "pncounter", "pn_counter", "counter", "pcounter",
    "p_counter", "text", "json"]

variable (cbor : Cbor) (name : String)

/-- 1 to 31 bytes of lowercase letters, digits and `_`, the first a letter, and no native name. -/
def isCrdtName : Bool :=
  let bytes := utf8 name
  1 ≤ bytes.length && bytes.length ≤ 31 && bytes.head?.any (fun b => 97 ≤ b && b ≤ 122) &&
    bytes.all (fun b => (97 ≤ b && b ≤ 122) || (48 ≤ b && b ≤ 57) || b == 95) && !nativeNames.contains name

structure CrdtName where
  asStr : String
  valid : isCrdtName asStr = true
  deriving DecidableEq

def CrdtName.new : Option CrdtName :=
  if h : isCrdtName name = true then some ⟨name, h⟩ else none

inductive ValueKind where
  | lww
  | int64
  | float32
  | float64
  | text
  | json
  | custom (name : CrdtName)
  deriving DecidableEq

structure StoredField where
  name : String
  kind : ValueKind
  priority : UInt64
  value : Bytes
  deriving DecidableEq

/-- Which bytes are one value a document can hold, and the bytes of a frontier. What was written reads back when each of its
    edits can be read. -/
structure Cbor where
  isValue : Bytes → Bool
  encode : Frontier → Bytes
  decode : Bytes → Option Frontier
  ReadsEdit : JsonEdit → Prop
  encode_ne_nil : ∀ f, encode f ≠ []
  decode_encode : ∀ f, (∀ e ∈ f.entries, ReadsEdit e.edit) → decode (encode f) = some f
  decode_encode_none : ∀ f, ∀ e ∈ f.entries, ¬ReadsEdit e.edit → decode (encode f) = none
  reads_of_decode : ∀ bytes f, decode bytes = some f → ∀ e ∈ f.entries, ReadsEdit e.edit

inductive MergeResult where
  | applied
  | rejectedLowerPriority (current incoming : UInt64)
  | rejectedTieBreak
  deriving DecidableEq

structure FieldCrdt where
  /-- Whether a part's bytes are a state of the type (`materialize` reads them). -/
  materializes : StoredField → Bool
  /-- Merge a state into another; `none` when either is malformed. -/
  merge : StoredField → StoredField → Option (MergeResult × StoredField)
  foldsExactly : StoredField → Bool
  settle : Option (StoredField → Option StoredField)

def lwwField : FieldCrdt where
  materializes part := part.kind = .lww && (part.value.isEmpty || cbor.isValue part.value)
  merge state incoming :=
    if incoming.priority < state.priority then
      some (.rejectedLowerPriority state.priority incoming.priority, state)
    else if incoming.priority = state.priority ∧ incoming.value ≤ state.value then some (.rejectedTieBreak, state)
    else some (.applied, { state with priority := incoming.priority, value := incoming.value })
  foldsExactly _ := true
  settle := none

/-- Wrapping for integers, IEEE-754 addition for floats. Empty `current` bytes count as zero. -/
def sum (kind : ValueKind) (current increment : Bytes) : Option Bytes :=
  let width := if kind = .float32 then 4 else 8
  let current := if current.isEmpty then List.replicate width 0 else current
  match kind with
  | .int64 =>
    if current.length = 8 ∧ increment.length = 8 then
      some (Wire.toBe 8 ((Wire.ofBe current + Wire.ofBe increment) % 2 ^ 64))
    else none
  | .float32 =>
    if current.length = 4 ∧ increment.length = 4 then
      let value (bytes : Bytes) := Float32.ofBits (UInt32.ofNat (Wire.ofBe bytes))
      some (Wire.toBe 4 (value current + value increment).toBits.toNat)
    else none
  | .float64 =>
    if current.length = 8 ∧ increment.length = 8 then
      let value (bytes : Bytes) := Float.ofBits (UInt64.ofNat (Wire.ofBe bytes))
      some (Wire.toBe 8 (value current + value increment).toBits.toNat)
    else none
  | .lww | .text | .json | .custom _ => none

def counterField : FieldCrdt where
  materializes part :=
    match part.kind with
    | .int64 | .float64 => part.value.length = 8
    | .float32 => part.value.length = 4
    | .lww | .text | .json | .custom _ => false
  merge state incoming :=
    (sum state.kind state.value incoming.value).map fun value =>
      (.applied, { state with value, priority := max state.priority incoming.priority })
  foldsExactly part := part.kind = .int64
  settle := none

def textField : FieldCrdt where
  materializes part := part.kind = .text && (lwwField cbor).materializes { part with kind := .lww }
  merge state incoming :=
    some (.applied, { state with value := incoming.value, priority := max state.priority incoming.priority })
  foldsExactly _ := true
  settle := none

def Cbor.frontier (bytes : Bytes) : Option Frontier := if bytes.isEmpty then some {} else cbor.decode bytes

/-- Operands compose, keeping what both remove for a base not merged yet. -/
def jsonField : FieldCrdt where
  materializes part := part.kind = .json && (part.value.isEmpty || (cbor.decode part.value).isSome)
  merge state incoming := do
    let frontier ← cbor.frontier state.value
    let later ← cbor.frontier incoming.value
    return (.applied, { state with value := cbor.encode (frontier.compose later),
                                   priority := max state.priority incoming.priority })
  foldsExactly _ := true
  settle := some fun state =>
    if state.value.isEmpty then some state
    else (cbor.decode state.value).map fun frontier => { state with value := cbor.encode frontier.settle }

def unregisteredField : FieldCrdt where
  materializes _ := false
  merge _ _ := none
  foldsExactly _ := false
  settle := none

def nativePart : ValueKind → Option FieldCrdt
  | .lww => some (lwwField cbor)
  | .int64 | .float32 | .float64 => some counterField
  | .text => some (textField cbor)
  | .json => some (jsonField cbor)
  | .custom _ => none

structure Crdts where
  cbor : Cbor
  custom : CrdtName → Option FieldCrdt

def Crdts.part (crdts : Crdts) : ValueKind → FieldCrdt
  | .custom name => (crdts.custom name).getD unregisteredField
  | kind => (nativePart crdts.cbor kind).getD unregisteredField

/-- Whether a part's bytes are a state of its kind. A custom kind's bytes are the type's own. -/
def StoredField.isValid (part : StoredField) : Bool :=
  (nativePart cbor part.kind).all fun native => native.materializes part

end Defra.Stored
