import Mathlib.Algebra.GroupWithZero.Nat
import Mathlib.Data.List.MinMax
import Mathlib.Data.Prod.Lex
import Defra.Bytes
import Defra.Lib.Tally

/-! The backlog of outbound pushes (`sync/push_backlog.rs` of the `p2p` crate): what its owner does with each command. A string is
    its bytes, a hash map a keyed list. The commands carry the time at which they are handled. -/

namespace Defra.Push

abbrev Instant := Nat

structure JobKey where
  peerId : Bytes
  collectionId : Bytes
  docId : Bytes

instance instLinearOrderJobKey : LinearOrder JobKey :=
  LinearOrder.lift' (fun key => toLex (key.peerId, toLex (key.collectionId, key.docId))) fun a b h => by
    cases a
    cases b
    cases h
    rfl

section
variable {Cid : Type}

/-- Versions are in the order of their priority, then of their CID. -/
structure HeadVersion (Cid : Type) where
  priority : UInt64
  cid : Cid

instance instLinearOrderHeadVersion [LinearOrder Cid] : LinearOrder (HeadVersion Cid) :=
  LinearOrder.lift' (fun version => toLex (version.priority, version.cid)) fun a b h => by
    cases a
    cases b
    cases h
    rfl

/-- A push of one head to one peer. Its key has the document's id in `keyDocId`. -/
structure PushJobSpec (Cid : Type) where
  peerId : Bytes
  docId : Bytes
  collectionId : Bytes
  creator : Bytes
  rootCid : Cid
  headBlock : Bytes
  markerGeneration : Option UInt64
  keyDocId : Bytes
  priority : UInt64
  probeOf : Option UInt64

def pushJobFixedOverheadBytes : Nat := 128

namespace PushJobSpec

def cidTag : Bytes := [99, 105, 100, 58]

def new (decode : Bytes → Option UInt64) (cidText : Cid → Bytes) (peerId docId collectionId creator : Bytes) (rootCid : Cid)
    (headBlock : Bytes) : PushJobSpec Cid where
  peerId
  docId
  collectionId
  creator
  rootCid
  headBlock
  markerGeneration := none
  keyDocId := if docId = [] ∨ (decode headBlock).isNone then cidTag ++ cidText rootCid else docId
  priority := (decode headBlock).getD 0
  probeOf := none

variable (job : PushJobSpec Cid)

def residentBytes : Nat :=
  job.headBlock.length + job.docId.length + job.collectionId.length + job.creator.length + job.peerId.length +
    pushJobFixedOverheadBytes

def key : JobKey := ⟨job.peerId, job.collectionId, job.keyDocId⟩

def version : HeadVersion Cid := ⟨job.priority, job.rootCid⟩

end PushJobSpec

inductive EnqueueOutcome where
  | enqueued
  | coalesced
  | retiredStale
  | rejectedItems
  | rejectedBytes
  | closed
  deriving DecidableEq, Repr

inductive JobCompletion where
  | succeeded
  | failed
  | retired
  deriving DecidableEq, Repr

structure PeerCooldown where
  «until» : Instant
  consecutive : Nat
  unreachable : Option UInt64

structure Limits where
  itemCapacity : Nat
  byteCapacity : Nat
  perPeerActiveCap : Nat
  workerCount : Nat
  peerCapacityCooldownBase : Nat
  itemCapacity_pos : 0 < itemCapacity
  byteCapacity_pos : 0 < byteCapacity
  perPeerActiveCap_pos : 0 < perPeerActiveCap
  perPeerActiveCap_le : perPeerActiveCap ≤ workerCount

def defaultPeerCapacityCooldownBase : Nat := 2000000000

def peerCapacityCooldownMaxShift : Nat := 5

def Limits.new (itemCapacity byteCapacity perPeerActiveCap workerCount : Nat) : Limits where
  itemCapacity := max itemCapacity 1
  byteCapacity := max byteCapacity 1
  perPeerActiveCap := min (max perPeerActiveCap 1) (max workerCount 1)
  workerCount := max workerCount 1
  peerCapacityCooldownBase := defaultPeerCapacityCooldownBase
  itemCapacity_pos := by omega
  byteCapacity_pos := by omega
  perPeerActiveCap_pos := by omega
  perPeerActiveCap_le := by omega

def Limits.peerQuota (lim : Limits) : Nat := max (lim.itemCapacity / 4) 1

/-- The jitter of a peer's park, and the order in which the cooldowns are iterated. -/
structure Hashing where
  jitter : Bytes → Nat → Nat
  jitter_lt : ∀ peer consecutive, jitter peer consecutive < 500
  order : List (Bytes × PeerCooldown) → List (Bytes × PeerCooldown)
  perm : ∀ l, (order l).Perm l

structure Inner (Cid : Type) where
  queues : KeyedList (Prod.fst : Bytes × List (PushJobSpec Cid) → Bytes) := ∅
  ready : List Bytes := []
  active : KeyedList (Prod.fst : Bytes × Nat → Bytes) := ∅
  latest : KeyedList (Prod.fst : JobKey × HeadVersion Cid → JobKey) := ∅
  peerCooldowns : KeyedList (Prod.fst : Bytes × PeerCooldown → Bytes) := ∅
  unreachableSpells : UInt64 := 0
  queuedItems : Nat := 0
  queuedBytes : Nat := 0
  activeJobs : Nat := 0
  closed : Bool := false

namespace Inner

variable (hashing : Hashing) (lim : Limits) (inner : Inner Cid) (now : Instant) (job : PushJobSpec Cid) (peer : Bytes)

def removeQueuedJob (key : JobKey) : Inner Cid :=
  let queue := (inner.queues.get? peer).getD []
  match queue.find? (·.key = key) with
  | none => inner
  | some removed =>
    let queue := queue.eraseP (·.key = key)
    { inner with
      queuedItems := inner.queuedItems - 1
      queuedBytes := inner.queuedBytes - removed.residentBytes
      queues := inner.queues.setList peer queue
      ready := if queue.isEmpty then inner.ready.filter (· ≠ peer) else inner.ready }

def replaceKey (job : PushJobSpec Cid) : List (PushJobSpec Cid) → List (PushJobSpec Cid)
  | [] => []
  | queued :: queue => if queued.key = job.key then job :: queue else queued :: replaceKey job queue

def coalesce : Inner Cid :=
  let queue := (inner.queues.get? job.peerId).getD []
  match queue.find? (·.key = job.key) with
  | none => inner
  | some existing =>
    { inner with
      queues := inner.queues.put (job.peerId, replaceKey job queue)
      queuedBytes := inner.queuedBytes - existing.residentBytes + job.residentBytes
      latest := inner.latest.put (job.key, job.version) }

/-- A peer that had no job goes to the back of the ready list. -/
def pushBack : Inner Cid :=
  let queue := (inner.queues.get? job.peerId).getD []
  { inner with
    queues := inner.queues.put (job.peerId, queue ++ [job])
    ready := if queue.isEmpty then inner.ready ++ [job.peerId] else inner.ready
    queuedItems := inner.queuedItems + 1
    queuedBytes := inner.queuedBytes + job.residentBytes
    latest := inner.latest.put (job.key, job.version) }

def admission : EnqueueOutcome × Inner Cid :=
  if lim.itemCapacity ≤ inner.queuedItems then (.rejectedItems, inner)
  else if lim.peerQuota ≤ ((inner.queues.get? job.peerId).getD []).length then (.rejectedItems, inner)
  else if 0 < inner.queuedItems ∧ lim.byteCapacity < inner.queuedBytes + job.residentBytes then (.rejectedBytes, inner)
  else (.enqueued, inner.pushBack job)

def retire : Inner Cid :=
  let inner := inner.removeQueuedJob job.peerId job.key
  { inner with latest := inner.latest.erase job.key }

def enqueue [LinearOrder Cid] : EnqueueOutcome × Inner Cid :=
  if inner.closed then (.closed, inner)
  else match inner.latest.get? job.key with
    | none => inner.admission lim job
    | some current =>
      if job.version < current then (.retiredStale, inner)
      else if job.version = current then (.coalesced, inner.coalesce job)
      else (inner.retire job).admission lim job

/-- Not at all now, not before a time, or as a probe of its spell if it is unreachable. -/
inductive Verdict where
  | held
  | cooling («until» : Instant)
  | free (probeOf : Option UInt64)
  deriving DecidableEq, Repr

def unreachable : Bool :=
  (inner.peerCooldowns.get? peer).any (·.unreachable.isSome)

def unreachableActive : Nat :=
  ((inner.active.toList.filter fun entry => inner.unreachable entry.1).map (·.2)).sum

def verdict (inner : Inner Cid) (peer : Bytes) : Verdict :=
  if (inner.active.get? peer).any (lim.perPeerActiveCap ≤ ·) then .held
  else match inner.peerCooldowns.get? peer with
    | none => .free none
    | some cooldown =>
      if now < cooldown.until then .cooling cooldown.until
      else match cooldown.unreachable with
        | none => .free none
        | some spell => if lim.perPeerActiveCap ≤ inner.unreachableActive then .held else .free (some spell)

/-- `none` is a panic: the peer has no job. -/
def serve (probeOf : Option UInt64) : Option (PushJobSpec Cid × Inner Cid) :=
  match inner.queues.get? peer with
  | none | some [] => none
  | some (job :: queue) =>
    some ({ job with probeOf },
      { inner with
        queues := inner.queues.setList peer queue
        ready := if queue.isEmpty then inner.ready else inner.ready ++ [peer]
        queuedItems := inner.queuedItems - 1
        queuedBytes := inner.queuedBytes - job.residentBytes
        active := inner.active.put (peer, (inner.active.get? peer).getD 0 + 1)
        activeJobs := inner.activeJobs + 1 })

/-- The job taken, or the earliest time at which a peer that only cools down can be served. -/
abbrev Popped (Cid : Type) := Except (Option Instant) (PushJobSpec Cid) × Inner Cid

/-- Tries as many peers as the counter has, and moves those it skips to the back. -/
def popLoop (lim : Limits) (now : Instant) (inner : Inner Cid) : Nat → List Bytes → Option Instant → Option (Popped Cid)
  | 0, ready, wake => some (.error wake, { inner with ready })
  | _ + 1, [], wake => some (.error wake, { inner with ready := [] })
  | n + 1, peer :: ready, wake =>
    match inner.verdict lim now peer with
    | .held => popLoop lim now inner n (ready ++ [peer]) wake
    | .cooling «until» => popLoop lim now inner n (ready ++ [peer]) (some (wake.elim «until» (min · «until»)))
    | .free probeOf => (serve { inner with ready } peer probeOf).map fun popped => (.ok popped.1, popped.2)

def popEligible (inner : Inner Cid) : Option (Popped Cid) :=
  popLoop lim now inner inner.ready.length inner.ready none

/-- The active counts once a peer with `count` jobs has one less. -/
def release (active : KeyedList (Prod.fst : Bytes × Nat → Bytes)) (peer : Bytes) (count : Nat) :
    KeyedList (Prod.fst : Bytes × Nat → Bytes) :=
  if count - 1 = 0 then active.erase peer else active.put (peer, count - 1)

def requeue : Inner Cid :=
  let queue := (inner.queues.get? job.peerId).getD []
  { inner with
    active := match inner.active.get? job.peerId with
      | none => inner.active
      | some count => release inner.active job.peerId count
    activeJobs := inner.activeJobs - 1
    queuedItems := inner.queuedItems + 1
    queuedBytes := inner.queuedBytes + job.residentBytes
    queues := inner.queues.put (job.peerId, job :: queue)
    ready := if queue.isEmpty then job.peerId :: inner.ready else inner.ready }

/-- A newer head of the key stays. -/
def forget [LinearOrder Cid] (latest : KeyedList (Prod.fst : JobKey × HeadVersion Cid → JobKey)) (job : PushJobSpec Cid) :
    KeyedList (Prod.fst : JobKey × HeadVersion Cid → JobKey) :=
  if latest.get? job.key = some job.version then latest.erase job.key else latest

def jobDone [LinearOrder Cid] (inner : Inner Cid) (job : PushJobSpec Cid) (completion : JobCompletion) : Inner Cid :=
  match inner.active.get? job.peerId with
  | none => inner
  | some count =>
    let inner := { inner with
      active := release inner.active job.peerId count, activeJobs := inner.activeJobs - 1, latest := forget inner.latest job }
    if completion = .succeeded ∧ (inner.peerCooldowns.get? job.peerId).any (·.until ≤ now) then
      { inner with peerCooldowns := inner.peerCooldowns.erase job.peerId }
    else inner

/-- The one whose park ended earliest goes, of the peers with nothing queued or running. -/
def retireIdleCooldown : Option (Inner Cid) :=
  let idle := (hashing.order inner.peerCooldowns.toList).filter fun entry =>
    (inner.queues.get? entry.1).isNone ∧ (inner.active.get? entry.1).isNone
  (idle.argmin (·.2.until)).map fun entry => { inner with peerCooldowns := inner.peerCooldowns.erase entry.1 }

def retireIdleCooldowns (hashing : Hashing) (lim : Limits) : Nat → Inner Cid → Inner Cid
  | 0, inner => inner
  | n + 1, inner =>
    if lim.itemCapacity + lim.workerCount < inner.peerCooldowns.toList.length then
      match inner.retireIdleCooldown hashing with
      | none => inner
      | some inner => retireIdleCooldowns hashing lim n inner
    else inner

def parkPeer (inner : Inner Cid) (peer : Bytes) (retryAfter : Option Nat) (unreachable : Bool) : Inner Cid :=
  let current := inner.peerCooldowns.get? peer
  let consecutive := min (current.elim 0 (·.consecutive) + 1) 4294967295
  let spell := if unreachable then some ((current.bind (·.unreachable)).getD (inner.unreachableSpells + 1)) else none
  let spells :=
    if unreachable ∧ (current.bind (·.unreachable)).isNone then inner.unreachableSpells + 1 else inner.unreachableSpells
  let base := lim.peerCapacityCooldownBase * 2 ^ min (consecutive - 1) peerCapacityCooldownMaxShift
  let jittered := base + base * hashing.jitter peer consecutive / 1000
  let cooldown := retryAfter.elim jittered (max · jittered)
  let «until» := max (now + cooldown) (current.elim now (·.until))
  let inner := { inner with
    peerCooldowns := inner.peerCooldowns.put (peer, ⟨«until», consecutive, spell⟩)
    unreachableSpells := spells }
  inner.retireIdleCooldowns hashing lim inner.peerCooldowns.toList.length

def handOver [LinearOrder Cid] (inner : Inner Cid) (job : PushJobSpec Cid) : Inner Cid :=
  { inner with
    queuedItems := inner.queuedItems - 1
    queuedBytes := inner.queuedBytes - job.residentBytes
    latest := forget inner.latest job }

def takeQueuedForPeer [LinearOrder Cid] (inner : Inner Cid) (peer : Bytes) : List (PushJobSpec Cid) × Inner Cid :=
  match inner.queues.get? peer with
  | none => ([], inner)
  | some jobs =>
    (jobs, jobs.foldl handOver { inner with queues := inner.queues.erase peer, ready := inner.ready.filter (· ≠ peer) })

def parkPeerUnreachable [LinearOrder Cid] (hashing : Hashing) (lim : Limits) (now : Instant) (inner : Inner Cid) (peer : Bytes)
    (probeOf : Option UInt64) : List (PushJobSpec Cid) × Inner Cid :=
  let failedProbe := probeOf.isSome ∧ (inner.peerCooldowns.get? peer).bind (·.unreachable) = probeOf
  let inner := inner.parkPeer hashing lim now peer none true
  if failedProbe then inner.takeQueuedForPeer peer else ([], inner)

def peerAnswered : Inner Cid :=
  if inner.unreachable peer then { inner with peerCooldowns := inner.peerCooldowns.erase peer } else inner

def close : Inner Cid :=
  { inner with closed := true, queues := ∅, ready := [], latest := ∅, queuedItems := 0, queuedBytes := 0 }

def isCurrent [LinearOrder Cid] : Bool :=
  inner.latest.get? job.key = some job.version

end Inner

/-- A worker's completion names a job by its place among those running. -/
inductive Command (Cid : Type) where
  | enqueue (job : PushJobSpec Cid)
  | nextJob (now : Instant) (taken : Bool)
  | jobDone (now : Instant) (worker : Nat) (completion : JobCompletion)
  | parkPeerAtCapacity (now : Instant) (peer : Bytes) (retryAfter : Option Nat)
  | parkPeerUnreachable (now : Instant) (peer : Bytes) (probeOf : Option UInt64)
  | peerAnswered (peer : Bytes)
  | takeQueuedForPeer (peer : Bytes)
  | close

/-- Whether a strictly newer head of its key was offered since it was enqueued. -/
structure Running (Cid : Type) where
  job : PushJobSpec Cid
  overtaken : Bool := false

/-- The owner and the jobs its workers run. -/
structure Backlog (Cid : Type) where
  inner : Inner Cid := {}
  running : List (Running Cid) := []
  panicked : Bool := false

namespace Backlog
variable [LinearOrder Cid] (hashing : Hashing) (lim : Limits)

/-- A running job once `job` is offered. -/
def offered (job : PushJobSpec Cid) (run : Running Cid) : Running Cid :=
  { run with overtaken := run.overtaken || (run.job.key = job.key ∧ run.job.version < job.version) }

variable (s : Backlog Cid) (now : Instant)

def nextJob (taken : Bool) : Backlog Cid :=
  if s.inner.closed then s
  else match s.inner.popEligible lim now with
    | none => { s with panicked := true }
    | some (.error _, inner) => { s with inner }
    | some (.ok job, inner) =>
      if taken then { s with inner, running := s.running ++ [{ job }] } else { s with inner := inner.requeue job }

def jobDone (worker : Nat) (completion : JobCompletion) : Backlog Cid :=
  match s.running[worker]? with
  | none => s
  | some run => { s with inner := s.inner.jobDone now run.job completion, running := s.running.eraseIdx worker }

def handle (s : Backlog Cid) : Command Cid → Backlog Cid
  | .enqueue job => { s with inner := (s.inner.enqueue lim job).2, running := s.running.map (offered job) }
  | .nextJob now taken => s.nextJob lim now taken
  | .jobDone now worker completion => s.jobDone now worker completion
  | .parkPeerAtCapacity now peer retryAfter => { s with inner := s.inner.parkPeer hashing lim now peer retryAfter false }
  | .parkPeerUnreachable now peer probeOf => { s with inner := (s.inner.parkPeerUnreachable hashing lim now peer probeOf).2 }
  | .peerAnswered peer => { s with inner := s.inner.peerAnswered peer }
  | .takeQueuedForPeer peer => { s with inner := (s.inner.takeQueuedForPeer peer).2 }
  | .close => { s with inner := s.inner.close }

def step (command : Command Cid) : Backlog Cid := if s.panicked then s else s.handle hashing lim command

def run (commands : List (Command Cid)) : Backlog Cid := commands.foldl (step hashing lim) {}

end Backlog
end
end Defra.Push
