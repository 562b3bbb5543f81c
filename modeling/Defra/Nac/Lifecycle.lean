import Defra.Nac.Manager

/-! The lifecycle of `NodeACP` (`nac/node_acp/lifecycle.rs` of the `acp` crate) on a store whose calls may fail, and the start of a
    fresh one on the same store. A call that fails writes nothing. -/

namespace Defra.Nac
open Zanzibar

/-- The store's calls that fail during an operation. -/
structure Faults where
  storePolicy : Bool := false
  storeRelationship : Bool := false
  deleteRelationship : Bool := false
  deleteObjectRelationships : Bool := false
  deletePolicy : Bool := false
  deriving DecidableEq, Repr

inductive LifecycleError where
  | acp (error : AcpError)
  | store
  deriving DecidableEq, Repr

namespace Node

variable (faults : Faults) (node : Node)

def enableOn (owner : String) (node : Node) : Except LifecycleError Unit × Node :=
  if node.acp.status = .enabled then (.ok (), node)
  else if faults.storePolicy then (.error .store, node)
  else
    let node := { node with store := node.store.storePolicy createNodePolicy }.addPolicy createNodePolicy
    if faults.storeRelationship then (.error .store, node)
    else (.ok (),
      { store := node.store.storeRelationship (relationship ownerRelation owner),
        acp := { node.acp with owner := some owner, status := .enabled } })

def disableOn : Except LifecycleError Unit × Node :=
  match node.acp.status with
  | .notConfigured => (.error (.acp (.invalidPolicy "node acp is not configured")), node)
  | .disabledTemporarily => (.error (.acp (.invalidPolicy "node acp is already disabled")), node)
  | .enabled =>
    match node.acp.owner with
    | some owner =>
      if faults.storeRelationship then (.error .store, node)
      else (.ok (),
        { store := node.store.storeRelationship (relationship disabledRelation owner),
          acp := { node.acp with status := .disabledTemporarily } })
    | none => (.ok (), { node with acp := { node.acp with status := .disabledTemporarily } })

def reEnableOn : Except LifecycleError Unit × Node :=
  match node.acp.status with
  | .notConfigured => (.error (.acp (.invalidPolicy "node acp is not configured")), node)
  | .enabled => (.error (.acp (.invalidPolicy "node acp is already enabled")), node)
  | .disabledTemporarily =>
    let store := match node.acp.owner with
      | some owner =>
        if faults.deleteRelationship then node.store
        else node.store.deleteRelationship (relationship disabledRelation owner)
      | none => node.store
    (.ok (), { store, acp := { node.acp with status := .enabled } })

def purgeOn : Except LifecycleError Unit × Node :=
  if faults.deleteObjectRelationships then (.error .store, node)
  else
    let store := node.store.deleteObjectRelationships nodeResourceName nodeObjectId
    if faults.deletePolicy then (.error .store, { node with store })
    else
      let node := { node with store := store.deletePolicy }.removePolicy
      (.ok (), { node with acp := { node.acp with owner := none, status := .notConfigured } })

/-- A fresh `NodeACP` on the same store. -/
def restarted : Node := { store := node.store, acp := {} }

end Node

inductive Lifecycle where
  | enable (owner : String)
  | disable
  | reEnable
  | purge
  deriving DecidableEq, Repr

/-- A call, and the store's calls that fail in it. -/
structure LifecycleCall where
  call : Lifecycle
  faults : Faults := {}
  deriving DecidableEq, Repr

def LifecycleCall.on (c : LifecycleCall) (node : Node) : Except LifecycleError Unit × Node :=
  match c.call with
  | .enable owner => node.enableOn c.faults owner
  | .disable => node.disableOn c.faults
  | .reEnable => node.reEnableOn c.faults
  | .purge => node.purgeOn c.faults

/-- The node after calls that return `Ok` or `Err`, on a store that was empty. -/
def lifecycle (calls : List LifecycleCall) : Node := calls.foldl (fun node c => (c.on node).2) {}

end Defra.Nac
