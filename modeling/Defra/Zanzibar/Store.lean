import Defra.Lib.KeyedList
import Defra.Lib.SepPath
import Defra.Zanzibar.Types
import Mathlib.Data.String.Basic
import Mathlib.Data.List.Lex

/-! The relationship stores: `MemoryZanzibarStore` (`store/memory.rs` of the `zanzibar` crate) and `PersistentZanzibarStore`
    (`zanzibar/store/persistent.rs` of the `acp` crate). Tuples are read back by key prefix. The hash of a subject is a
    parameter. -/

namespace Defra.Zanzibar

abbrev RelationshipMap := KeyedList (Prod.fst : List Char × Relationship → List Char)

variable (map : RelationshipMap) (start : List Char)

/-- The entries whose key starts with `start`. -/
def RelationshipMap.scan : List (List Char × Relationship) :=
  map.toList.filter fun entry => start.isPrefixOf entry.1

/-- The map without the entries whose key starts with `start`. -/
def RelationshipMap.eraseScan : RelationshipMap :=
  map.eraseAll ((map.scan start).map Prod.fst)

section Keys
variable (storageHash : Subject → List Char)

def storageKey (rel : Relationship) : List Char :=
  SepPath.join '/' ["rel".toList, rel.resource.toList, rel.objectId.toList, rel.relation.toList, storageHash rel.subject]

def objectPrefix (resource objectId : String) : List Char :=
  SepPath.join '/' ["rel".toList, resource.toList, objectId.toList] ++ ['/']

def relationPrefix (resource objectId relation : String) : List Char :=
  SepPath.join '/' ["rel".toList, resource.toList, objectId.toList, relation.toList] ++ ['/']

def policyPath (policyId : String) : List Char := SepPath.join '/' ["zanzibar".toList, policyId.toList]

end Keys

def targetsOf (subjects : List Subject) : List ObjectRef :=
  subjects.filterMap fun subject => match subject with
    | .entitySet resource objectId _ => some { resource, objectId }
    | _ => none

/-! ### The store in memory -/

structure MemoryStore where
  relationships : KeyedList (Prod.fst : String × RelationshipMap → String) := ∅

namespace MemoryStore
variable (storageHash : Subject → List Char) (store : MemoryStore) (policyId : String)

def get : Option RelationshipMap := (store.relationships.find? policyId).map Prod.snd

variable (rel : Relationship) (resource objectId relation : String)

def storeRelationship : MemoryStore :=
  let rels := (store.get policyId).getD ∅
  { relationships := store.relationships.put (policyId, rels.put (storageKey storageHash rel, rel)) }

def deleteRelationship : Bool × MemoryStore :=
  let key := storageKey storageHash rel
  match store.get policyId with
  | none => (false, store)
  | some rels => ((rels.find? key).isSome, { relationships := store.relationships.put (policyId, rels.erase key) })

def hasRelationship (subject : Subject) : Bool :=
  match store.get policyId with
  | none => false
  | some rels => (rels.find? (storageKey storageHash { resource, objectId, relation, subject })).isSome

def checkPermissionDirect (subject : String) : Bool :=
  store.hasRelationship storageHash policyId resource objectId relation (.entity subject) ||
    store.hasRelationship storageHash policyId resource objectId relation .wildcard ||
    match store.get policyId with
    | none => false
    | some rels => (rels.scan (relationPrefix resource objectId relation)).any fun entry => entry.2.subject.isTypedWildcard

def getRelationSubjects : List Subject :=
  match store.get policyId with
  | none => []
  | some rels => (rels.scan (relationPrefix resource objectId relation)).map fun entry => entry.2.subject

def getRelationTargets : List ObjectRef :=
  targetsOf (store.getRelationSubjects policyId resource objectId relation)

def deleteObjectRelationships (resource objectId : String) : MemoryStore :=
  match store.get policyId with
  | none => store
  | some rels =>
    { relationships := store.relationships.put (policyId, rels.eraseScan (objectPrefix resource objectId)) }

end MemoryStore

/-! ### The persistent store -/

structure PersistentStore where
  entries : RelationshipMap := ∅

namespace PersistentStore
variable (storageHash : Subject → List Char) (store : PersistentStore) (policyId : String) (rel : Relationship)
  (resource objectId relation : String)

def relationshipKey : List Char := policyPath policyId ++ storageKey storageHash rel

def storeRelationship : PersistentStore :=
  { entries := store.entries.put (relationshipKey storageHash policyId rel, rel) }

def deleteRelationship : Bool × PersistentStore :=
  let key := relationshipKey storageHash policyId rel
  ((store.entries.find? key).isSome, { entries := store.entries.erase key })

def getRelationSubjects : List Subject :=
  (store.entries.scan (policyPath policyId ++ relationPrefix resource objectId relation)).map fun entry => entry.2.subject

def getRelationTargets : List ObjectRef :=
  targetsOf (store.getRelationSubjects policyId resource objectId relation)

def deleteObjectRelationships (resource objectId : String) : PersistentStore :=
  { entries := store.entries.eraseScan (policyPath policyId ++ objectPrefix resource objectId) }

end PersistentStore

/-! ### Runs -/

inductive Call where
  | store (policyId : String) (rel : Relationship)
  | delete (policyId : String) (rel : Relationship)
  | deleteObject (policyId resource objectId : String)
  deriving DecidableEq, Repr

section
variable (storageHash : Subject → List Char)

def MemoryStore.call (store : MemoryStore) : Call → MemoryStore
  | .store policyId rel => store.storeRelationship storageHash policyId rel
  | .delete policyId rel => (store.deleteRelationship storageHash policyId rel).2
  | .deleteObject policyId resource objectId => store.deleteObjectRelationships policyId resource objectId

def PersistentStore.call (store : PersistentStore) : Call → PersistentStore
  | .store policyId rel => store.storeRelationship storageHash policyId rel
  | .delete policyId rel => (store.deleteRelationship storageHash policyId rel).2
  | .deleteObject policyId resource objectId => store.deleteObjectRelationships policyId resource objectId

def MemoryStore.run (calls : List Call) : MemoryStore :=
  calls.foldl (MemoryStore.call storageHash) {}

def PersistentStore.run (calls : List Call) : PersistentStore :=
  calls.foldl (PersistentStore.call storageHash) {}

end

end Defra.Zanzibar
