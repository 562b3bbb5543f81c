import Defra.Zanzibar.Types

/-! The node policy (`nac/permission.rs` and `nac/policy.rs` of the `acp` crate): an owner, admins, and one relation for each
    permission. -/

namespace Defra.Nac
open Zanzibar

inductive NodePermission where
  | dacBypass
  | dacEnable
  | dacDisable
  | dacPurge
  | dacStatus
  | dacRelationAdd
  | dacRelationDelete
  | dacPolicyAdd
  | nacReEnable
  | nacDisable
  | nacPurge
  | nacStatus
  | nacRelationAdd
  | nacRelationDelete
  | collectionPatch
  | collectionGet
  | collectionTruncate
  | documentRead
  | documentUpdate
  | documentDelete
  | indexList
  | indexCreate
  | indexDelete
  | encryptedIndexAdd
  | encryptedIndexList
  | encryptedIndexListAll
  | encryptedIndexDelete
  | p2pPeerInfo
  | p2pPeerConnect
  | p2pPeerDisconnect
  | p2pPeerActive
  | p2pReplicatorAdd
  | p2pReplicatorDelete
  | p2pReplicatorList
  | p2pCollectionAdd
  | p2pCollectionDelete
  | p2pCollectionList
  | p2pDocumentAdd
  | p2pDocumentDelete
  | p2pDocumentList
  | p2pSyncDocuments
  | p2pSyncCollectionVersions
  | p2pSyncBranchableCollection
  | signatureVerify
  | lensCreate
  | lensList
  | actionList
  | viewRefresh
  | viewGc
  | viewAdd
  | migrationSet
  deriving DecidableEq, Repr

namespace NodePermission

def asStr : NodePermission → String
  | dacBypass => "bypass-dac"
  | dacEnable => "enable-dac"
  | dacDisable => "disable-dac"
  | dacPurge => "purge-dac"
  | dacStatus => "get-dac-status"
  | dacRelationAdd => "add-dac-relation"
  | dacRelationDelete => "delete-dac-relation"
  | dacPolicyAdd => "add-dac-policy"
  | nacReEnable => "re-enable-nac"
  | nacDisable => "disable-nac"
  | nacPurge => "purge-nac"
  | nacStatus => "get-nac-status"
  | nacRelationAdd => "add-nac-relation"
  | nacRelationDelete => "delete-nac-relation"
  | collectionPatch => "patch-collection"
  | collectionGet => "get-collection"
  | collectionTruncate => "truncate-collection"
  | documentRead => "read-document"
  | documentUpdate => "update-document"
  | documentDelete => "delete-document"
  | indexList => "list-index"
  | indexCreate => "new-index"
  | indexDelete => "delete-index"
  | encryptedIndexAdd => "new-encrypted-index"
  | encryptedIndexList => "list-encrypted-index"
  | encryptedIndexListAll => "list-all-encrypted-index"
  | encryptedIndexDelete => "delete-encrypted-index"
  | p2pPeerInfo => "get-p2p-peer-info"
  | p2pPeerConnect => "connect-p2p-peer"
  | p2pPeerDisconnect => "disconnect-p2p-peer"
  | p2pPeerActive => "get-p2p-active-peers"
  | p2pReplicatorAdd => "add-p2p-replicator"
  | p2pReplicatorDelete => "delete-p2p-replicator"
  | p2pReplicatorList => "list-p2p-replicator"
  | p2pCollectionAdd => "add-p2p-collection"
  | p2pCollectionDelete => "delete-p2p-collection"
  | p2pCollectionList => "list-p2p-collection"
  | p2pDocumentAdd => "add-p2p-document"
  | p2pDocumentDelete => "delete-p2p-document"
  | p2pDocumentList => "list-p2p-document"
  | p2pSyncDocuments => "sync-p2p-documents"
  | p2pSyncCollectionVersions => "sync-p2p-collection-versions"
  | p2pSyncBranchableCollection => "sync-p2p-branchable-collection"
  | signatureVerify => "verify-signature"
  | lensCreate => "add-lens"
  | lensList => "list-lens"
  | actionList => "list-action"
  | viewRefresh => "refresh-view"
  | viewGc => "gc-view"
  | viewAdd => "add-view"
  | migrationSet => "set-migration"

def all : List NodePermission := [
  .dacBypass, .dacEnable, .dacDisable, .dacPurge, .dacStatus, .dacRelationAdd, .dacRelationDelete, .dacPolicyAdd,
  .nacReEnable, .nacDisable, .nacPurge, .nacStatus, .nacRelationAdd, .nacRelationDelete, .collectionPatch,
  .collectionGet, .collectionTruncate, .documentRead, .documentUpdate, .documentDelete, .indexList, .indexCreate,
  .indexDelete, .encryptedIndexAdd, .encryptedIndexList, .encryptedIndexListAll, .encryptedIndexDelete, .p2pPeerInfo,
  .p2pPeerConnect, .p2pPeerDisconnect, .p2pPeerActive, .p2pReplicatorAdd, .p2pReplicatorDelete, .p2pReplicatorList,
  .p2pCollectionAdd, .p2pCollectionDelete, .p2pCollectionList, .p2pDocumentAdd, .p2pDocumentDelete, .p2pDocumentList,
  .p2pSyncDocuments, .p2pSyncCollectionVersions, .p2pSyncBranchableCollection, .signatureVerify, .lensCreate,
  .lensList, .actionList, .viewRefresh, .viewGc, .viewAdd, .migrationSet]

end NodePermission

def nodePolicyId : String := "defra-nac-policy"

def nodeResourceName : String := "node"

def nodeObjectId : String := "singleton"

def ownerRelation : String := "owner"

def adminRelation : String := "admin"

def disabledRelation : String := "_disabled"

def createNodePolicy : Policy where
  id := nodePolicyId
  resources := [⟨nodeResourceName, ⟨ownerRelation, .this⟩ :: ⟨adminRelation, .union [.this, .computedUserset ownerRelation]⟩ ::
    NodePermission.all.map fun perm =>
      ⟨perm.asStr, .union [.this, .computedUserset ownerRelation, .computedUserset adminRelation]⟩⟩]

def validateNodePolicy (policy : Policy) : Except String Unit :=
  match policy.getResource nodeResourceName with
  | none => .error s!"missing resource '{nodeResourceName}'"
  | some resource => do
    if (resource.getRelation ownerRelation).isNone then throw s!"missing '{ownerRelation}' relation"
    if (resource.getRelation adminRelation).isNone then throw s!"missing '{adminRelation}' relation"
    NodePermission.all.forM fun perm =>
      if (resource.getRelation perm.asStr).isNone then throw s!"missing permission relation '{perm.asStr}'" else pure ()

end Defra.Nac
