import Defra.Push.Backlog

/-! The durable registrations of pending DAGs (`pending_store/` of the `p2p` crate). Each transition is one transaction, and here a
    step from one store to the next. -/

namespace Defra.Pending
open Push

/-- What the transitions read of a registration. -/
structure PersistedPendingDag where
  docId : String
  collectionId : String
  headPriority : Option UInt64
  sourcePeer : Option String

/-- A live record, with the slot that it holds. -/
structure Stored where
  record : PersistedPendingDag
  slot : Option Nat

structure Scope where
  sourcePeer : String
  collectionId : String
  docId : String

def Scope.key (scope : Scope) (keyPrefix : Bytes) : Bytes :=
  keyPrefix ++ [scope.sourcePeer, scope.collectionId, scope.docId].flatMap fun part =>
    utf8 (toString (utf8 part).length ++ ":") ++ utf8 part

def SCOPE_PREFIX : Bytes := utf8 "/p2p/pending_dag_scope/"

inductive ScopeDecision (Cid : Type) where
  | independent
  | current
  | supersedes (older : Cid)

variable {Cid : Type} [LinearOrder Cid]

def ScopeDecision.of (version : HeadVersion Cid) (parents : List Cid) : Option (HeadVersion Cid) → ScopeDecision Cid
  | some head => if head.cid ≠ version.cid ∧ head.cid ∈ parents then .supersedes head.cid else .current
  | none => .current

def scopeHead (root : Cid) (record : PersistedPendingDag) : Option (Scope × HeadVersion Cid) := do
  let sourcePeer ← record.sourcePeer
  let priority ← record.headPriority
  return ({ sourcePeer, collectionId := record.collectionId, docId := record.docId }, { priority, cid := root })

/-- The root that a head retires. -/
def retiredBy (head : Option (Scope × HeadVersion Cid)) (parents : List Cid) (current : Option (HeadVersion Cid)) : Option Cid :=
  head.bind fun head => match ScopeDecision.of head.2 parents current with
    | .supersedes older => some older
    | .current | .independent => none

/-- A charge holds the key of the count that it is in. -/
structure Store (Cid : Type) [LinearOrder Cid] where
  records : KeyedList (Prod.fst : Cid × Stored → Cid) := ∅
  heads : KeyedList (Prod.fst : Bytes × HeadVersion Cid → Bytes) := ∅
  quarantined : KeyedList (Prod.fst : Cid × Bytes → Cid) := ∅
  slots : KeyedList (Prod.fst : Nat × Cid → Nat) := ∅
  counts : KeyedList (Prod.fst : Bytes × Nat → Bytes) := ∅
  charges : KeyedList (Prod.fst : Cid × Bytes → Cid) := ∅
  swept : UInt64 := 0

/-- Slots are probed from `ticket`, which is allocated before the transaction. -/
structure Capacity where
  slots : UInt64
  perPeer : UInt64
  ticket : UInt64

inductive Admission (Cid : Type) where
  | registered (retired : Option Cid)
  | atCapacity
  | atPeerCapacity

namespace Store

variable (store : Store Cid) (slot : Nat) (root : Cid)

def assign : Store Cid := { store with slots := store.slots.put (slot, root) }

def free : Store Cid := { store with slots := store.slots.erase slot }

def claim (ticket capacity : UInt64) : Store Cid × Option Nat :=
  let capacity := max capacity.toNat 1
  let probes := (List.range capacity).map fun probe => (ticket.toNat + probe) % 2 ^ 64 % capacity
  match probes.find? fun slot => (store.slots.get? slot).isNone with
  | some slot => (store.assign slot root, some slot)
  | none => (store, none)

def countKey (sourcePeer : Option String) : Bytes :=
  utf8 "/p2p/pending_dag_peer" ++ (sourcePeer.map fun peer => utf8 "/" ++ utf8 peer).getD []

section
variable (store : Store Cid)

def count (key : Bytes) : Nat := (store.counts.get? key).getD 0

variable (root : Cid) (record : PersistedPendingDag) (capacity : Capacity) (retired : Option Cid)

def charge (sourcePeer : Option String) (held : Nat) : Store Cid :=
  { store with
    counts := store.counts.put (countKey sourcePeer, min (held + 1) (2 ^ 64 - 1))
    charges := store.charges.put (root, countKey sourcePeer) }

def handOver (older root : Cid) : Store Cid :=
  match store.charges.get? older with
  | none => store
  | some key => { store with charges := (store.charges.erase older).put (root, key) }

def giveBack : Store Cid :=
  match store.charges.get? root with
  | none => store
  | some key =>
    { store with
      charges := store.charges.erase root
      counts := match store.count key with
        | 0 | 1 => store.counts.erase key
        | held => store.counts.put (key, held - 1) }

/-- Its scope's head goes when that is the root, and with `release` its slot and its charge. -/
def discharge (release : Bool) : Store Cid × Option Stored :=
  match store.records.get? root with
  | none => (store, none)
  | some stored =>
    let store := { store with records := store.records.erase root }
    let store := if release then ((stored.slot.map store.free).getD store).giveBack root else store
    let key := (scopeHead root stored.record).map fun head => head.1.key SCOPE_PREFIX
    let stale := key.filter fun key => (store.heads.get? key).any (·.cid = root)
    ({ store with heads := (stale.map store.heads.erase).getD store.heads }, some stored)

def takeNew : Store Cid × Except (Admission Cid) Nat :=
  let held := store.count (countKey record.sourcePeer)
  if held ≥ max capacity.perPeer.toNat 1 then (store, .error .atPeerCapacity)
  else match store.claim root capacity.ticket capacity.slots with
    | (store, none) => (store, .error .atCapacity)
    | (store, some slot) => (store.charge root record.sourcePeer held, .ok slot)

/-- That of the root it retires, with its charge, or a free one. -/
def takeOver : Store Cid × Except (Admission Cid) (Option Nat) :=
  match retired.map fun older => (older, store.discharge older false) with
  | some (older, store, some stored) =>
    (((stored.slot.map fun slot => store.assign slot root).getD store).handOver older root, .ok stored.slot)
  | some (_, store, none) => (store.takeNew root record capacity).map id (·.map some)
  | none => (store.takeNew root record capacity).map id (·.map some)

/-- Its own, which a registration of a live root keeps, or one for a new root. -/
def takeSlot : Store Cid × Except (Admission Cid) (Option Nat) :=
  match store.records.get? root with
  | some own => ((retired.map fun older => (store.discharge older true).1).getD store, .ok own.slot)
  | none => store.takeOver root record capacity retired

def register (parents : List Cid) (record : PersistedPendingDag) (capacity : Capacity) : Store Cid × Admission Cid :=
  let head := scopeHead root record
  let current := head.bind fun head => store.heads.get? (head.1.key SCOPE_PREFIX)
  let retired := retiredBy head parents current
  match store.takeSlot root record capacity retired with
  | (store, .error refused) => (store, refused)
  | (store, .ok slot) =>
    let heads := match head with
      | some (scope, version) =>
        if retired.isSome ∨ current.all (· ≤ version) then store.heads.put (scope.key SCOPE_PREFIX, version) else store.heads
      | none => store.heads
    ({ store with records := store.records.put (root, { record, slot }), heads }, .registered retired)

def remove : Store Cid × Bool := ((store.discharge root true).map id (·.isSome))

def quarantine (entry : Bytes) : Store Cid × Bool :=
  let already := (store.quarantined.get? root).isSome
  ((discharge { store with quarantined := store.quarantined.put (root, entry) } root true).1, already)

def sweep : Store Cid × List (Cid × PersistedPendingDag) :=
  ({ store with swept := store.swept + 1 }, store.records.toList.map fun entry => (entry.1, entry.2.record))

end

end Store

inductive Transition (Cid : Type) where
  | register (root : Cid) (parents : List Cid) (record : PersistedPendingDag) (ticket : UInt64)
  | remove (root : Cid)
  | quarantine (root : Cid) (entry : Bytes)
  | sweep

def Store.step (slots perPeer : UInt64) (store : Store Cid) : Transition Cid → Store Cid
  | .register root parents record ticket => (store.register root parents record { slots, perPeer, ticket }).1
  | .remove root => (store.remove root).1
  | .quarantine root entry => (store.quarantine root entry).1
  | .sweep => store.sweep.1

def run (slots perPeer : UInt64) (transitions : List (Transition Cid)) : Store Cid :=
  transitions.foldl (Store.step slots perPeer) {}

end Defra.Pending
