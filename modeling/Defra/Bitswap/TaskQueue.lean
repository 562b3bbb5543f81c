import Mathlib.Algebra.GroupWithZero.Nat
import Mathlib.Algebra.Ring.Int.Defs
import Mathlib.Order.Defs.LinearOrder

/-! The task queue of the bitswap server (`server/peer_task_queue/` of the `bitswap` crate). A keyed priority queue is the list of
    its items, each replaced at the end, and the item that it pops is a parameter. -/

namespace Defra.Bitswap

/-- Of the items, no two are out of order with each other or with a third. -/
structure Preordered {α : Type} (cmp : α → α → Ordering) (items : List α) : Prop where
  total : ∀ x ∈ items, ∀ y ∈ items, cmp x y ≠ .gt ∨ cmp y x ≠ .gt
  trans : ∀ x ∈ items, ∀ y ∈ items, ∀ z ∈ items, cmp x y ≠ .gt → cmp y z ≠ .gt → cmp x z ≠ .gt

/-- What `KeyedPriorityQueue::pop` takes: an item that no other exceeds, where the order has one. -/
structure Heap where
  top {α : Type} (cmp : α → α → Ordering) : List α → Option α
  mem {α : Type} {cmp : α → α → Ordering} {items : List α} {x : α} : top cmp items = some x → x ∈ items
  isSome {α : Type} {cmp : α → α → Ordering} {items : List α} : items ≠ [] → (top cmp items).isSome
  max {α : Type} {cmp : α → α → Ordering} {items : List α} {x : α} :
    Preordered cmp items → top cmp items = some x → ∀ y ∈ items, cmp y x ≠ .gt

/-- A sum that the source keeps in a `usize`. Overflow checks are on in release builds too, so that a larger one panics. -/
def checkedWork (work : Nat) : Option Nat := if work < 2 ^ 64 then some work else none

/-- A freeze level, an `isize`. -/
def checkedLevel (level : Int) : Option Int := if level < 2 ^ 63 then some level else none

variable (Topic Data : Type)

structure Task where
  topic : Topic
  priority : Int
  work : Nat
  data : Data
  deriving DecidableEq

structure QueueTask where
  task : Task Topic Data
  created : Nat

structure TaskMerger where
  hasNewInfo (task : Task Topic Data) (existing : List (Task Topic Data)) : Bool
  merge (task existing : Task Topic Data) : Task Topic Data

/-- The active tasks are in one list: a topic without one has no entry in the source's map. -/
structure PeerTracker where
  pendingTasks : List (Topic × QueueTask Topic Data) := []
  activeTasks : List (Task Topic Data) := []
  activeWork : Nat := 0
  maxActiveWorkPerPeer : Nat
  freezeVal : Int := 0

variable {Topic Data : Type} [DecidableEq Topic] [DecidableEq Data]

/-- `created` tells the older of two tasks of one priority. -/
def QueueTask.cmp (a b : QueueTask Topic Data) : Ordering :=
  if a.task.priority ≠ b.task.priority then compare a.task.priority b.task.priority else compare b.created a.created

namespace PeerTracker
variable (merger : TaskMerger Topic Data) (heap : Heap) (tracker : PeerTracker Topic Data)

def isIdle : Bool := tracker.pendingTasks.isEmpty && tracker.activeTasks.isEmpty

def pushTask (now : Nat) (task : Task Topic Data) : PeerTracker Topic Data :=
  let active := tracker.activeTasks.filter (·.topic = task.topic)
  if !active.isEmpty && !merger.hasNewInfo task active then tracker
  else
    let rest := tracker.pendingTasks.filter (·.1 ≠ task.topic)
    match tracker.pendingTasks.find? (·.1 = task.topic) with
    | some (key, existing) =>
      let raised := { existing.task with priority := max existing.task.priority task.priority }
      { tracker with pendingTasks := rest ++ [(key, { existing with task := merger.merge task raised })] }
    | none => { tracker with pendingTasks := rest ++ [(task.topic, { task, created := now })] }

def pushTasksTruncated (n now : Nat) (tasks : List (Task Topic Data)) : PeerTracker Topic Data :=
  (tasks.take (n - tracker.pendingTasks.length)).foldl (fun tracker => tracker.pushTask merger now) tracker

def startTask (task : Task Topic Data) : Option (PeerTracker Topic Data) := do
  let activeWork ← checkedWork (tracker.activeWork + task.work)
  return { tracker with activeWork, activeTasks := tracker.activeTasks ++ [task] }

/-- The loop of `pop_tasks`, each turn of which takes a pending task. -/
def popLoop (targetMinWork : Nat) : Nat → PeerTracker Topic Data → Nat → List (Task Topic Data) →
    Option (PeerTracker Topic Data × List (Task Topic Data))
  | 0, tracker, _, out => some (tracker, out)
  | fuel + 1, tracker, work, out =>
    if tracker.freezeVal ≠ 0 ∨ work ≥ targetMinWork ∨
        (tracker.maxActiveWorkPerPeer > 0 ∧ tracker.activeWork ≥ tracker.maxActiveWorkPerPeer) then some (tracker, out)
    else match heap.top (fun a b => a.2.cmp b.2) tracker.pendingTasks with
      | none => some (tracker, out)
      | some (key, { task, .. }) => do
        let tracker := { tracker with pendingTasks := tracker.pendingTasks.filter (·.1 ≠ key) }
        let tracker ← tracker.startTask task
        let work ← checkedWork (work + task.work)
        popLoop targetMinWork fuel tracker work (out ++ [task])

def popTasks (targetMinWork : Nat) : Option (PeerTracker Topic Data × List (Task Topic Data)) :=
  popLoop heap targetMinWork tracker.pendingTasks.length tracker 0 []

def getPendingWork : Option Nat := checkedWork (tracker.pendingTasks.map (·.2.task.work)).sum

def taskDone (task : Task Topic Data) : Option (PeerTracker Topic Data) := do
  let workDone ← checkedWork (task.work * tracker.activeTasks.count task)
  return { tracker with activeWork := tracker.activeWork - workDone, activeTasks := tracker.activeTasks.filter (· ≠ task) }

def remove (topic : Topic) : PeerTracker Topic Data × Bool :=
  ({ tracker with pendingTasks := tracker.pendingTasks.filter (·.1 ≠ topic) }, tracker.pendingTasks.any (·.1 = topic))

def freeze : Option (PeerTracker Topic Data) := do
  return { tracker with freezeVal := ← checkedLevel (tracker.freezeVal + 1) }

def thaw : Option (PeerTracker Topic Data) := do
  return { tracker with freezeVal := tracker.freezeVal - (← checkedLevel (tracker.freezeVal + 1)).tdiv 2 }

def fullThaw : Option (PeerTracker Topic Data) := some { tracker with freezeVal := 0 }

def isFrozen : Bool := tracker.freezeVal > 0

def cmp (a b : PeerTracker Topic Data) : Ordering :=
  if a.pendingTasks.isEmpty then .lt
  else if b.pendingTasks.isEmpty then .gt
  else if a.freezeVal > b.freezeVal then .lt
  else if a.activeWork = b.activeWork then compare a.pendingTasks.length b.pendingTasks.length
  else compare b.activeWork a.activeWork

end PeerTracker

structure PeerTaskQueue (Peer Topic Data : Type) where
  peerQueue : List (Peer × PeerTracker Topic Data) := []
  frozenPeers : List Peer := []

structure Config where
  ignoreFreezing : Bool
  maxOutstandingWorkPerPeer : Nat

namespace PeerTaskQueue
variable {Peer : Type} [DecidableEq Peer] (heap : Heap) (config : Config) (merger : TaskMerger Topic Data)
  (queue : PeerTaskQueue Peer Topic Data) (peer : Peer)

def tracker? : Option (PeerTracker Topic Data) := (queue.peerQueue.find? (·.1 = peer)).map Prod.snd

/-- Takes the peer's tracker off the queue and pushes `tracker`. -/
def push (tracker : PeerTracker Topic Data) : PeerTaskQueue Peer Topic Data :=
  { queue with peerQueue := queue.peerQueue.filter (·.1 ≠ peer) ++ [(peer, tracker)] }

def pushTasksTruncated (now n : Nat) (tasks : List (Task Topic Data)) : PeerTaskQueue Peer Topic Data :=
  let tracker := (queue.tracker? peer).getD { maxActiveWorkPerPeer := config.maxOutstandingWorkPerPeer }
  queue.push peer (tracker.pushTasksTruncated merger n now tasks)

def popTasks (targetMinWork : Nat) :
    Option (PeerTaskQueue Peer Topic Data × Option (Peer × List (Task Topic Data) × Nat)) :=
  match heap.top (fun a b => a.2.cmp b.2) queue.peerQueue with
  | none => some (queue, none)
  | some (peer, tracker) => do
    let (tracker, out) ← tracker.popTasks heap targetMinWork
    let pendingWork ← tracker.getPendingWork
    let queue := if tracker.isIdle then
        { peerQueue := queue.peerQueue.filter (·.1 ≠ peer), frozenPeers := queue.frozenPeers.filter (· ≠ peer) }
      else queue.push peer tracker
    return (queue, some (peer, out, pendingWork))

def tasksDone (tasks : List (Task Topic Data)) : Option (PeerTaskQueue Peer Topic Data) :=
  match queue.tracker? peer with
  | none => some queue
  | some tracker => (tasks.foldlM PeerTracker.taskDone tracker).map (queue.push peer)

def remove (topic : Topic) : Option (PeerTaskQueue Peer Topic Data) :=
  match (queue.tracker? peer).map (·.remove topic) with
  | none => some queue
  | some (tracker, removed) =>
    if removed && !config.ignoreFreezing then
      let frozenPeers := if tracker.isFrozen then queue.frozenPeers else queue.frozenPeers.filter (· ≠ peer) ++ [peer]
      tracker.freeze.map fun tracker => { queue.push peer tracker with frozenPeers }
    else some (queue.push peer tracker)

/-- The turn of a thaw that is `peer`'s. -/
def thawPeer (thaw : PeerTracker Topic Data → Option (PeerTracker Topic Data)) : Option (PeerTaskQueue Peer Topic Data) :=
  match queue.tracker? peer with
  | none => some queue
  | some tracker => (thaw tracker).map fun tracker =>
    let frozenPeers := if tracker.freezeVal ≤ 0 then queue.frozenPeers.filter (· ≠ peer) else queue.frozenPeers
    { queue.push peer tracker with frozenPeers }

def fullThaw : Option (PeerTaskQueue Peer Topic Data) :=
  queue.frozenPeers.foldlM (fun queue peer => queue.thawPeer peer PeerTracker.fullThaw) queue

def thawRound : Option (PeerTaskQueue Peer Topic Data) :=
  queue.frozenPeers.foldlM (fun queue peer => queue.thawPeer peer PeerTracker.thaw) queue

inductive Call (Peer Topic Data : Type) where
  | pushTasks (now n : Nat) (peer : Peer) (tasks : List (Task Topic Data))
  | popTasks (targetMinWork : Nat)
  | tasksDone (peer : Peer) (tasks : List (Task Topic Data))
  | remove (topic : Topic) (peer : Peer)
  | thawRound
  | fullThaw

def step : Call Peer Topic Data → Option (PeerTaskQueue Peer Topic Data)
  | .pushTasks now n peer tasks => some (queue.pushTasksTruncated config merger peer now n tasks)
  | .popTasks targetMinWork => (queue.popTasks heap targetMinWork).map Prod.fst
  | .tasksDone peer tasks => queue.tasksDone peer tasks
  | .remove topic peer => queue.remove config peer topic
  | .thawRound => queue.thawRound
  | .fullThaw => queue.fullThaw

/-- The state that the calls reach from an empty queue, unless one of them panics. -/
def run (calls : List (Call Peer Topic Data)) : Option (PeerTaskQueue Peer Topic Data) :=
  calls.foldlM (step heap config merger) {}

end PeerTaskQueue
end Defra.Bitswap
