import Defra.Nac.Policy
import Defra.Zanzibar.Engine

/-! Node access control: `NodeACP` (`nac/node_acp/` of the `acp` crate), `NacManager` (`nac/` of the `db` crate) and the handler
    that enables it (`handlers/nac.rs` of the `http` crate). With a store that has scopes an operation runs in one, on what the
    scope reads, and commits it. -/

namespace Defra.Nac
open Zanzibar

/-- What is stored under the node policy's id. -/
structure Store where
  policy : Option Policy := none
  relationships : List Relationship := []

namespace Store

variable (store : Store) (rel : Relationship)

/-- Only the node policy is ever stored under its id, so nothing is refused. -/
def storePolicy (policy : Policy) : Store := { store with policy := some policy }

def storeRelationship : Store :=
  { store with relationships := rel :: store.relationships.filter (· ≠ rel) }

def deleteRelationship : Store :=
  { store with relationships := store.relationships.filter (· ≠ rel) }

def deleteObjectRelationships (resource objectId : String) : Store :=
  { store with relationships := store.relationships.filter fun rel => ¬(rel.resource = resource ∧ rel.objectId = objectId) }

def deletePolicy : Store := if store.policy.isSome then {} else store

def subjects (relation : String) : List Subject :=
  store.relationships.filterMap fun rel =>
    if rel.resource = nodeResourceName ∧ rel.objectId = nodeObjectId ∧ rel.relation = relation then some rel.subject else none

end Store

/-- The order in which a store lists subjects. -/
structure Listing where
  list : List Subject → List Subject
  mem_list : ∀ {subjects subject}, subject ∈ list subjects ↔ subject ∈ subjects

inductive NacStatus where
  | notConfigured
  | enabled
  | disabledTemporarily
  deriving DecidableEq, Repr

/-- What a manager has in memory. The policies are a snapshot that a scope shares. -/
structure NodeAcp where
  status : NacStatus := .notConfigured
  owner : Option String := none
  policies : List Policy := []

structure Node where
  store : Store := {}
  acp : NodeAcp := {}

inductive AcpError where
  | invalidPolicy (message : String)
  | zanzibar (error : Zanzibar.Error)
  deriving DecidableEq, Repr

namespace Node

variable (node : Node) (identity relation : String)

def addPolicy (policy : Policy) : Node :=
  { node with acp.policies := policy :: node.acp.policies.filter (·.id ≠ policy.id) }

def removePolicy : Node :=
  { node with acp.policies := node.acp.policies.filter (·.id ≠ nodePolicyId) }

/-- Whether the node policy is stored. Its body is read only when the snapshot lacks it. -/
def readPolicy : Except AcpError (Bool × Node) :=
  if node.acp.policies.any (·.id = nodePolicyId) then .ok (node.store.policy.isSome, node)
  else match node.store.policy with
    | none => .ok (false, node)
    | some policy =>
      match validateNodePolicy policy with
      | .error message => .error (.invalidPolicy message)
      | .ok () => .ok (true, node.addPolicy policy)

/-- The state that the store tells. A policy without an owner leaves the state as it is. -/
def load (listing : Listing) (node : Node) : Except AcpError Node := do
  let (configured, node) ← node.readPolicy
  if configured then
    match (listing.list (node.store.subjects ownerRelation)).head? with
    | some (.entity owner) =>
      let status := if (node.store.subjects disabledRelation).isEmpty then .enabled else .disabledTemporarily
      pure { node with acp := { node.acp with owner := some owner, status } }
    | _ => pure node
  else pure { node with acp := { node.acp with owner := none, status := .notConfigured } }

def relationship (relation did : String) : Relationship := ⟨nodeResourceName, nodeObjectId, relation, .entity did⟩

def enable (owner : String) (node : Node) : Node :=
  if node.acp.status = .enabled then node
  else
    let node := { node with store := node.store.storePolicy createNodePolicy }
    let node := node.addPolicy createNodePolicy
    { store := node.store.storeRelationship (relationship ownerRelation owner),
      acp := { node.acp with owner := some owner, status := .enabled } }

def disable : Except AcpError Node :=
  match node.acp.status with
  | .notConfigured => .error (.invalidPolicy "node acp is not configured")
  | .disabledTemporarily => .error (.invalidPolicy "node acp is already disabled")
  | .enabled =>
    let store := match node.acp.owner with
      | some owner => node.store.storeRelationship (relationship disabledRelation owner)
      | none => node.store
    .ok { store, acp := { node.acp with status := .disabledTemporarily } }

def reEnable : Except AcpError Node :=
  match node.acp.status with
  | .notConfigured => .error (.invalidPolicy "node acp is not configured")
  | .enabled => .error (.invalidPolicy "node acp is already enabled")
  | .disabledTemporarily =>
    let store := match node.acp.owner with
      | some owner => node.store.deleteRelationship (relationship disabledRelation owner)
      | none => node.store
    .ok { store, acp := { node.acp with status := .enabled } }

def purge : Node :=
  let store := (node.store.deleteObjectRelationships nodeResourceName nodeObjectId).deletePolicy
  let node := { node with store }.removePolicy
  { node with acp := { node.acp with owner := none, status := .notConfigured } }

def check : Except AcpError Bool :=
  let engine : Engine := { policies := node.acp.policies, tuples := node.store.relationships.map (nodePolicyId, ·) }
  (engine.check nodePolicyId identity nodeResourceName nodeObjectId relation).mapError .zanzibar

def checkPermission (identity : String) (permission : NodePermission) : Except AcpError Bool :=
  if node.acp.status ≠ .enabled then .ok true else node.check identity permission.asStr

def holdsPersisted : Except AcpError Bool :=
  if node.acp.owner = some identity then .ok true else node.check identity relation

def isAdmin (identity : String) : Except AcpError Bool :=
  if node.acp.status ≠ .enabled then .ok true else node.holdsPersisted identity adminRelation

end Node

structure NacConfig where
  enabled : Bool
  devMode : Bool

/-- Who asks: the identity acting, if any, and the node's own. -/
structure NacCaller where
  identity : Option String
  node : Option String
  deriving DecidableEq, Repr

inductive Error where
  | acp (context : String) (error : AcpError)
  | refused (message : String)
  | other (message : String) (error : Option AcpError)
  | notConfigured
  | alreadyDisabled
  | alreadyEnabled
  | notAuthorized (permission : NodePermission)
  | forbidden (message : String)
  deriving DecidableEq, Repr

inductive Toggle where
  | disable
  | reEnable
  deriving DecidableEq, Repr

abbrev Operation := Node → Except Error Unit × Node

namespace Node

/-- The node's own identity passes; an anonymous caller is the wildcard. -/
def require (node : Node) (caller : NacCaller) (permission : NodePermission) : Except Error Unit := do
  if caller.identity.isSome ∧ caller.identity = caller.node then pure ()
  else do
    let identity := caller.identity.getD "*"
    let allowed ← (match permission with
      | .nacReEnable => node.holdsPersisted identity permission.asStr
      | _ => node.checkPermission identity permission).mapError (.acp "")
    if allowed then pure () else throw (.notAuthorized permission)

def decideToggle (caller : NacCaller) (toggle : Toggle) (node : Node) : Except Error Node := do
  let status := node.acp.status
  if status = .notConfigured then throw .notConfigured
  match toggle with
  | .disable => do
    if status = .disabledTemporarily then throw .alreadyDisabled
    node.require caller .nacDisable
    node.disable.mapError (.acp "")
  | .reEnable => do
    node.require caller .nacReEnable
    if status = .enabled then throw .alreadyEnabled
    node.reEnable.mapError (.acp "")

def purgeDirect (config : NacConfig) (requestor : String) (node : Node) : Except Error Node := do
  if !config.devMode then throw (.refused "NAC purge is only allowed in dev mode")
  let admin ← (node.isAdmin requestor).mapError (.acp "admin check failed")
  if !admin then throw (.refused "only admins can purge NAC")
  pure node.purge

def initializeDirect (listing : Listing) (config : NacConfig) (owner : Option String) : Operation := fun node =>
  match node.load listing with
  | .error error => (.error (.other "failed to load NAC state" error), node)
  | .ok node =>
    if config.enabled ∧ node.acp.status = .notConfigured then
      match owner with
      | some owner => (.ok (), node.enable owner)
      | none => (.error (.other "can not start nac without identity" none), node)
    else (.ok (), node)

end Node

def Operation.of (op : Node → Except Error Node) : Operation := fun node =>
  match op node with
  | .error error => (.error error, node)
  | .ok node => (.ok (), node)

def Node.fresh (node : Node) : Node := { node with acp := { policies := node.acp.policies } }

variable (listing : Listing) (op : Operation)

/-- The scope that an operation commits, and the node after it. -/
def committed (node : Node) : Except Error Node × Node :=
  match node.fresh.load listing with
  | .error error => (.error (.acp "" error), node)
  | .ok scope =>
    match op scope with
    | (.error error, scope) => (.error error, { node with acp.policies := scope.acp.policies })
    | (.ok (), scope) => (.ok scope, { store := scope.store, acp := { node.acp with policies := scope.acp.policies } })

def inScope : Operation := fun node =>
  match committed listing op node with
  | (.error error, node) => (.error error, node)
  | (.ok _, node) =>
    match node.load listing with
    | .error error => (.error (.acp "" error), node)
    | .ok node => (.ok (), node)

def inWrite : Operation := fun node =>
  match committed listing op node with
  | (.error error, node) => (.error error, node)
  | (.ok scope, node) =>
    match node.load listing with
    | .error _ => (.ok (), { node with acp := { node.acp with status := scope.acp.status, owner := scope.acp.owner } })
    | .ok node => (.ok (), node)

structure NacManager where
  listing : Listing
  scopes : Bool
  config : NacConfig

namespace NacManager
variable (manager : NacManager)

def initializeNode (owner : Option String) : Operation :=
  let direct := Node.initializeDirect manager.listing manager.config owner
  if manager.scopes then inScope manager.listing direct else direct

def enable (owner : String) : Operation :=
  let direct : Operation := fun node => (.ok (), node.enable owner)
  if manager.scopes then inScope manager.listing direct else direct

variable (caller : NacCaller)

def toggleAs (toggle : Toggle) : Operation :=
  let direct := Operation.of (Node.decideToggle caller toggle)
  if manager.scopes then inWrite manager.listing direct else direct

def disableAs : Operation := manager.toggleAs caller .disable

def reEnableAs : Operation := manager.toggleAs caller .reEnable

def purge (requestor : String) : Operation :=
  let direct := Operation.of (Node.purgeDirect manager.config requestor)
  if manager.scopes then inScope manager.listing direct else direct

def handleEnable (caller : Option String) (ownerDid : String) : Operation := fun node =>
  match caller with
  | none => (.error (.forbidden "authentication required to enable NAC"), node)
  | some caller =>
    if caller ≠ ownerDid then (.error (.forbidden "caller identity must match OwnerDID"), node)
    else manager.enable ownerDid node

end NacManager

inductive Op where
  | initializeNode (owner : Option String)
  | enable (caller : Option String) (ownerDid : String)
  | disableAs (caller : NacCaller)
  | reEnableAs (caller : NacCaller)
  | purge (requestor : String)
  deriving DecidableEq, Repr

namespace NacManager
variable (manager : NacManager)

def operation : Op → Operation
  | .initializeNode owner => manager.initializeNode owner
  | .enable caller ownerDid => manager.handleEnable caller ownerDid
  | .disableAs caller => manager.disableAs caller
  | .reEnableAs caller => manager.reEnableAs caller
  | .purge requestor => manager.purge requestor

def step (node : Node) (op : Op) : Node := (manager.operation op node).2

def run (ops : List Op) : Node := ops.foldl manager.step {}

end NacManager
end Defra.Nac
