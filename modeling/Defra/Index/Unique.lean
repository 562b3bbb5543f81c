import Defra.Index.Range

/-! A unique index's entries in a transaction (`unique.rs` of the `storage` crate). -/

namespace Defra.Index

/-! ### Transactions -/

inductive Write where
  | set (kv : KvPair)
  | delete (key : Bytes)
  deriving Repr, DecidableEq

def Write.key : Write → Bytes
  | .set kv => kv.key
  | .delete key => key

def Write.apply (store : KvStore) : Write → KvStore
  | .set kv => store.put kv
  | .delete key => store.erase key

/-- A store under a transaction, and what the transaction wrote to it so far. -/
structure Txn where
  base : KvStore
  writes : List Write

/-- The store as the transaction reads it. -/
def Txn.store (txn : Txn) : KvStore := txn.writes.foldl Write.apply txn.base

inductive StorageError where
  | other (message : String)
  | uniqueConstraintViolation
  | encoding
  | shortId
  deriving Repr, DecidableEq

abbrev TxnM := EStateM StorageError Txn

namespace TxnM

def get (key : Bytes) : TxnM (Option Bytes) := fun txn => .ok ((txn.store.find? key).map KvPair.value) txn

def has (key : Bytes) : TxnM Bool := fun txn => .ok (txn.store.find? key).isSome txn

def write (w : Write) : TxnM Unit := fun txn => .ok () { txn with writes := txn.writes ++ [w] }

def set (key value : Bytes) : TxnM Unit := write (.set { key, value })

def delete (key : Bytes) : TxnM Unit := write (.delete key)

def ofOption {α : Type} (error : StorageError) : Option α → TxnM α
  | some a => pure a
  | none => throw error

end TxnM

/-! ### The index -/

structure UniqueIndex where
  collectionShortId : UInt32
  desc : IndexDescription
  unique : desc.unique = true

def validateDocShortId (docShortId : UInt64) (indexName : String) : TxnM Unit :=
  if docShortId = 0 then throw (.other s!"index '{indexName}': doc short ID cannot be 0") else pure ()

namespace UniqueIndex
variable (index : UniqueIndex) (docShortId : UInt64) (values : List NormalValue) (newValues : List NormalValue)

def validateFieldCount (docShortId : UInt64) : TxnM Unit :=
  let name := index.desc.name
  let expected := index.desc.fields.length
  let got := values.length
  if got ≠ expected then
    throw (.other s!"index '{name}' field count mismatch for document '{docShortId}': expected {expected} fields, got {got}")
  else pure ()

def buildKey : TxnM Bytes :=
  .ofOption .encoding (Index.buildKey index.collectionShortId index.desc values 0)

def buildKeyWithDocShortId (docShortId : UInt64) : TxnM Bytes :=
  .ofOption .encoding (Index.buildKey index.collectionShortId index.desc values docShortId)

def save : TxnM Unit := do
  validateDocShortId docShortId index.desc.name
  index.validateFieldCount values docShortId
  if hasNilField values then
    let key ← index.buildKeyWithDocShortId values docShortId
    TxnM.set key []
  else
    let key ← index.buildKey values
    if ← TxnM.has key then throw .uniqueConstraintViolation
    else TxnM.set key (encodeDocShortId docShortId)

def checkUnique : TxnM Unit := do
  if !hasNilField newValues then
    let newKey ← index.buildKey newValues
    match ← TxnM.get newKey with
    | some existing =>
      let existingDocShortId ← TxnM.ofOption .shortId (decodeDocShortId existing)
      if existingDocShortId ≠ docShortId then throw .uniqueConstraintViolation else pure ()
    | none => pure ()
  else pure ()

def deleteOld (oldValues : List NormalValue) : TxnM Unit :=
  if hasNilField oldValues then do
    let oldKey ← index.buildKeyWithDocShortId oldValues docShortId
    TxnM.delete oldKey
  else do
    let oldKey ← index.buildKey oldValues
    TxnM.delete oldKey

def insertNew : TxnM Unit :=
  if hasNilField newValues then do
    let key ← index.buildKeyWithDocShortId newValues docShortId
    TxnM.set key []
  else do
    let key ← index.buildKey newValues
    TxnM.set key (encodeDocShortId docShortId)

def update (oldValues newValues : List NormalValue) : TxnM Unit := do
  validateDocShortId docShortId index.desc.name
  index.validateFieldCount oldValues docShortId
  index.validateFieldCount newValues docShortId
  index.checkUnique docShortId newValues
  index.deleteOld docShortId oldValues
  index.insertNew docShortId newValues

def delete : TxnM Unit := do
  validateDocShortId docShortId index.desc.name
  index.validateFieldCount values docShortId
  if hasNilField values then
    let key ← index.buildKeyWithDocShortId values docShortId
    TxnM.delete key
  else
    let key ← index.buildKey values
    let existing ← TxnM.get key
    if existing.any fun existing => !existing.isEmpty && existing ≠ encodeDocShortId docShortId then pure ()
    else TxnM.delete key

/-- The document that an entry's value names, or that a scan reads from the key of an entry without a value. -/
def owner (kv : KvPair) : Option UInt64 :=
  if (indexPrefix index.collectionShortId index.desc.id).isPrefixOf kv.key then
    if kv.value.isEmpty then do
      let iter ← RangeIterator.newPrefix ∅ index.collectionShortId index.desc true [] false
      return (← iter.extractEntry kv).docShortId
    else decodeDocShortId kv.value
  else none

end UniqueIndex

inductive UniqueIndex.Call where
  | save (values : List NormalValue)
  | update (oldValues newValues : List NormalValue)
  | delete (values : List NormalValue)

def UniqueIndex.Call.run (index : UniqueIndex) (docShortId : UInt64) : UniqueIndex.Call → TxnM Unit
  | .save values => index.save docShortId values
  | .update oldValues newValues => index.update docShortId oldValues newValues
  | .delete values => index.delete docShortId values

end Defra.Index
