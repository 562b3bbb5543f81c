import Mathlib.Algebra.GroupWithZero.Nat
import Mathlib.Data.Prod.Lex
import Defra.Lib.KeyedList

/-! The bitswap client (`client/` of the `bitswap` crate). A hash map or set is a keyed list that is iterated in the order a
    `HashOrder` gives. A block is told by its cid. The client also keeps a log of what happened to each get, which nothing in it
    reads. -/

namespace Defra.Bitswap

abbrev FetchId := Nat

abbrev Instant := Nat

/-- The order in which a hash map or set is iterated. -/
structure HashOrder where
  list : {α : Type} → List α → List α
  perm : ∀ {α : Type} (l : List α), (list l).Perm l

inductive Kind where
  | haveBlock
  | block
  deriving DecidableEq, Repr

structure Slot where
  kind : Kind
  seq : Nat
  deadline : Option Instant
  queued : Bool
  deriving DecidableEq, Repr

inductive Answer where
  | haveBlock
  | dontHave
  | timedOut
  | failed
  deriving DecidableEq, Repr

def Answer.cancels : Answer → Bool
  | .dontHave | .timedOut => true
  | .haveBlock | .failed => false

section
variable {Peer Cid : Type} [LinearOrder Peer] [LinearOrder Cid]

variable (Peer) in
structure Get where
  waiters : List FetchId := []
  requests : KeyedList (Prod.fst : Peer × Slot → Peer) := ∅
  asked : KeyedList (id : Peer → Peer) := ∅
  candidates : List Peer := []
  blocking : Bool := false

namespace Get

/-- A block request while none is in flight, a have request otherwise. -/
def provide (get : Get Peer) : List Peer → Get Peer × List (Peer × Kind)
  | [] => (get, [])
  | peer :: providers =>
    if (get.asked.find? peer).isSome then get.provide providers
    else
      let rest := provide { get with asked := get.asked.put peer, blocking := true } providers
      (rest.1, (peer, if get.blocking then .haveBlock else .block) :: rest.2)

/-- Records the answer to a request that `peer` had and gives the peer to ask for the block next. -/
def answered (get : Get Peer) (kind : Kind) (peer : Peer) (have_ : Bool) : Get Peer × Option Peer :=
  let blocking := if kind = .block then false else get.blocking
  let candidates := if have_ then peer :: get.candidates else get.candidates
  match blocking, candidates with
  | true, _ => ({ get with blocking := true, candidates }, none)
  | false, [] => ({ get with blocking := false, candidates := [] }, none)
  | false, next :: rest => ({ get with blocking := true, candidates := rest }, some next)

end Get

inductive Intent where
  | want (kind : Kind) (seq : Nat)
  | cancel
  deriving DecidableEq, Repr

inductive ProtocolId where
  | legacy
  | bitswap100
  | bitswap110
  | bitswap120
  deriving DecidableEq, Repr

def ProtocolId.supportsHave : ProtocolId → Bool
  | .bitswap120 => true
  | _ => false

variable (Cid) in
structure Entry where
  cid : Cid
  priority : Nat
  wantType : Kind
  sendDontHave : Bool
  cancel : Bool
  deriving DecidableEq, Repr

variable (Peer Cid) in
structure Outgoing where
  peer : Peer
  message : List (Entry Cid)
  requests : List (Cid × Nat)
  deriving DecidableEq, Repr

variable (Peer Cid) in
structure Outbox where
  queued : KeyedList (Prod.fst : Peer × KeyedList (Prod.fst : Cid × Intent → Cid) → Peer) := ∅
  busy : KeyedList (id : Peer → Peer) := ∅

def maxEntriesPerMessage : Nat := 4096

namespace Outbox

variable (outbox : Outbox Peer Cid) (peer : Peer) (cid : Cid)

def queue (intent : Intent) : Outbox Peer Cid :=
  { outbox with queued := outbox.queued.put (peer, ((outbox.queued.get? peer).getD ∅).put (cid, intent)) }

def want (kind : Kind) (seq : Nat) : Outbox Peer Cid :=
  outbox.queue peer cid (.want kind seq)

def cancel : Outbox Peer Cid := outbox.queue peer cid .cancel

def forget : Outbox Peer Cid :=
  { outbox with queued := outbox.queued.erase peer }

def done : Outbox Peer Cid := { outbox with busy := outbox.busy.erase peer }

/-- A have want goes out as a block want to a peer known not to speak have. -/
def message (haveOk : Bool) (batch : List (Cid × Intent)) : List (Entry Cid) :=
  batch.map fun (cid, intent) => match intent with
    | .cancel => { cid, priority := 0, wantType := .block, sendDontHave := false, cancel := true }
    | .want kind _ =>
      { cid, priority := 1, wantType := if kind = .haveBlock ∧ haveOk then .haveBlock else .block, sendDontHave := true,
        cancel := false }

def carried (batch : List (Cid × Intent)) : List (Cid × Nat) :=
  batch.filterMap fun (cid, intent) => match intent with
    | .cancel => none
    | .want _ seq => some (cid, seq)

def takeReady (order : HashOrder) (outbox : Outbox Peer Cid) (protocol : Peer → Option ProtocolId) :
    Outbox Peer Cid × List (Outgoing Peer Cid) :=
  (order.list outbox.queued.toList).foldl (fun (outbox, ready) (peer, entries) =>
    if (outbox.busy.find? peer).isSome then ({ outbox with queued := outbox.queued.put (peer, entries) }, ready)
    else
      let batch := (order.list entries.toList).take maxEntriesPerMessage
      let left := entries.eraseAll (batch.map Prod.fst)
      let haveOk := (protocol peer).all ProtocolId.supportsHave
      ({ queued := if left.toList = [] then outbox.queued else outbox.queued.put (peer, left), busy := outbox.busy.put peer },
        ready ++ [{ peer, message := message haveOk batch, requests := carried batch }]))
    ({ outbox with queued := ∅ }, [])

end Outbox

variable (Cid) in
/-- The channel has room for every cid, so a send fails only once the receiver is gone. -/
structure Fetch where
  pending : KeyedList (id : Cid → Cid)
  closed : Bool := false

variable (Cid) in
structure Window where
  used : Nat := 0
  backlog : List (Cid × Nat) := []
  deriving DecidableEq, Repr

def maxOutstandingWantsPerPeer : Nat := 512

def requestTimeout : Nat := 10000

variable (Peer) in
inductive KeepAlive where
  | protect (peer : Peer)
  | unprotect (peer : Peer)
  deriving DecidableEq, Repr

variable (Peer) in
/-- What can happen to the get of a cid. It is released with the block or without. -/
inductive Act where
  | opened
  | given (peer : Peer)
  | asked (peer : Peer) (kind : Kind)
  | ended (peer : Peer) (kind : Kind) (answer : Answer)
  | released (waiters : List FetchId) (delivered : Bool)
  deriving DecidableEq, Repr

variable (Peer Cid) in
structure Event where
  cid : Cid
  act : Act Peer
  deriving DecidableEq, Repr

variable (Peer Cid) in
structure Client where
  nextFetch : FetchId := 0
  nextSeq : Nat := 0
  fetches : KeyedList (Prod.fst : FetchId × Fetch Cid → FetchId) := ∅
  gets : KeyedList (Prod.fst : Cid × Get Peer → Cid) := ∅
  byPeer : KeyedList (Prod.fst : Peer × KeyedList (id : Cid → Cid) → Peer) := ∅
  windows : KeyedList (Prod.fst : Peer × Window Cid → Peer) := ∅
  refill : KeyedList (id : Peer → Peer) := ∅
  deadlines : KeyedList (Prod.fst : (Instant ×ₗ Nat) × (Peer × Cid) → Instant ×ₗ Nat) := ∅
  outbox : Outbox Peer Cid := {}
  keepAlive : List (KeepAlive Peer) := []
  log : List (Event Peer Cid) := []

namespace Client

variable (order : HashOrder) (client : Client Peer Cid) (id : FetchId) (peer : Peer) (cid : Cid) (get : Get Peer)

def record (act : Act Peer) : Client Peer Cid :=
  { client with log := ⟨cid, act⟩ :: client.log }

def issue (cid : Cid) (peer : Peer) (kind : Kind) : Client Peer Cid × Get Peer :=
  let seq := client.nextSeq
  let window := (client.windows.get? peer).getD {}
  let queued := decide (maxOutstandingWantsPerPeer ≤ window.used ∨ window.backlog ≠ [])
  let window := if queued then { window with backlog := window.backlog ++ [(cid, seq)] }
    else { window with used := window.used + 1 }
  let cids := (client.byPeer.get? peer).getD ∅
  ({ client.record cid (.asked peer kind) with
      nextSeq := seq + 1
      windows := client.windows.put (peer, window)
      outbox := if queued then client.outbox else client.outbox.want peer cid kind seq
      byPeer := client.byPeer.put (peer, cids.put cid)
      keepAlive := if cids.toList = [] then client.keepAlive ++ [.protect peer] else client.keepAlive },
    { get with requests := get.requests.put (peer, { kind, seq, deadline := none, queued }) })

def issueAll (client : Client Peer Cid) (get : Get Peer) (cid : Cid) : List (Peer × Kind) → Client Peer Cid × Get Peer
  | [] => (client, get)
  | (peer, kind) :: issued =>
    let next := client.issue get cid peer kind
    next.1.issueAll next.2 cid issued

def leavePeer : Client Peer Cid :=
  match client.byPeer.get? peer with
  | none => client
  | some cids =>
    if (cids.erase cid).toList = [] then
      { client with byPeer := client.byPeer.erase peer, keepAlive := client.keepAlive ++ [.unprotect peer] }
    else { client with byPeer := client.byPeer.put (peer, cids.erase cid) }

def freeSlot (cancel : Bool) : Client Peer Cid :=
  { client with
    outbox := if cancel then client.outbox.cancel peer cid else client.outbox
    windows := match client.windows.get? peer with
      | none => client.windows
      | some window => client.windows.put (peer, { window with used := window.used - 1 }) }

/-- Sends a cancel when the remote may still hold the want, and frees the window slot. -/
def endRequest (slot : Slot) (cancel : Bool) : Client Peer Cid :=
  let client := match slot.deadline with
    | none => client
    | some deadline => { client with deadlines := client.deadlines.erase (toLex (deadline, slot.seq)) }
  let client := client.leavePeer peer cid
  let client := if slot.queued then client else client.freeSlot peer cid cancel
  { client with refill := client.refill.put peer }

/-- Resolves `cid` for a waiting fetch that took the block, or that gets none. -/
def resolve (fetch : Fetch Cid) (cid : Cid) : Client Peer Cid :=
  if (fetch.pending.erase cid).toList = [] then { client with fetches := client.fetches.erase id }
  else { client with fetches := client.fetches.put (id, { fetch with pending := fetch.pending.erase cid }) }

def drain (delivered : Option Peer) : Client Peer Cid :=
  (order.list get.requests.toList).foldl (fun client (peer, slot) =>
    client.endRequest peer cid slot (decide (delivered ≠ some peer))) client

def releaseEmpty : Client Peer Cid :=
  get.waiters.foldl (fun client id => match client.fetches.get? id with
    | none => client
    | some fetch => client.resolve id fetch cid)
    ((client.drain order cid get none).record cid (.released get.waiters false))

/-- Takes `cid` from a fetch that is cancelled; a get that no fetch waits for is released. -/
def leaveGet (client : Client Peer Cid) (cid : Cid) : Client Peer Cid :=
  match client.gets.get? cid with
  | none => client
  | some get =>
    let client := { client with gets := client.gets.erase cid }
    let get := { get with waiters := get.waiters.filter (· ≠ id) }
    if get.waiters = [] then client.releaseEmpty order cid get
    else { client with gets := client.gets.put (cid, get) }

def cancelFetch : Client Peer Cid × Bool :=
  match client.fetches.get? id with
  | none => (client, false)
  | some fetch =>
    ((order.list fetch.pending.toList).foldl (leaveGet order id) { client with fetches := client.fetches.erase id }, true)

/-- A fetch whose receiver is gone is cancelled. -/
def releaseBlock (peer : Peer) : Client Peer Cid :=
  get.waiters.foldl (fun client id => match client.fetches.get? id with
    | none => client
    | some fetch => if fetch.closed then (client.cancelFetch order id).1 else client.resolve id fetch cid)
    ((client.drain order cid get (some peer)).record cid (.released get.waiters true))

def cancelAbandoned : Client Peer Cid :=
  match client.gets.get? cid with
  | none => client
  | some get =>
    (get.waiters.filter fun id => (client.fetches.get? id).all Fetch.closed).foldl
      (fun client id => (client.cancelFetch order id).1) client

def sendQueued (seq : Nat) : Client Peer Cid :=
  match client.gets.get? cid with
  | none => client
  | some get => match get.requests.get? peer with
    | none => client
    | some slot =>
      if slot.queued ∧ slot.seq = seq then
        { client with
          gets := client.gets.put (cid, { get with requests := get.requests.put (peer, { slot with queued := false }) })
          outbox := client.outbox.want peer cid slot.kind seq
          windows := match client.windows.get? peer with
            | none => client.windows
            | some window => client.windows.put (peer, { window with used := window.used + 1 }) }
      else client

/-- Each turn takes one entry off the backlog, whose length bounds the turns. -/
def refillLoop (order : HashOrder) (peer : Peer) : Nat → Client Peer Cid → Client Peer Cid
  | 0, client => client
  | turns + 1, client => match client.windows.get? peer with
    | none => client
    | some window => match window.backlog with
      | [] => client
      | (cid, seq) :: backlog =>
        if window.used < maxOutstandingWantsPerPeer then
          let client := { client with windows := client.windows.put (peer, { window with backlog }) }
          refillLoop order peer turns ((client.cancelAbandoned order cid).sendQueued peer cid seq)
        else client

def refillPeer : Client Peer Cid :=
  let turns := ((client.windows.get? peer).map fun window => window.backlog.length).getD 0
  let client := refillLoop order peer turns client
  match client.windows.get? peer with
  | none => client
  | some window =>
    if window.used = 0 ∧ window.backlog = [] then { client with windows := client.windows.erase peer } else client

def settleLoop (order : HashOrder) : Nat → Client Peer Cid → Client Peer Cid
  | 0, client => client
  | turns + 1, client => match (order.list client.refill.toList).head? with
    | none => client
    | some peer => settleLoop order turns (refillPeer order { client with refill := client.refill.erase peer } peer)

def requestCount : Nat := (client.gets.toList.map fun x => x.2.requests.toList.length).sum

/-- Issues backlogged requests into freed slots. A peer is refilled again only when a request to it ends, which bounds the
    turns. -/
def settle : Client Peer Cid :=
  settleLoop order (client.refill.toList.length + client.requestCount) client

def dedup {α : Type} [DecidableEq α] (items : List α) : List α :=
  (items.foldl (fun kept item => if item ∈ kept then kept else item :: kept) []).reverse

def fetchCid (providers : List Peer) (client : Client Peer Cid) (cid : Cid) : Client Peer Cid :=
  let (client, get) := match client.gets.get? cid with
    | some get => ({ client with gets := client.gets.erase cid }, get)
    | none => (client.record cid .opened, {})
  let client := providers.foldl (fun client peer => client.record cid (.given peer)) client
  let provided := { get with waiters := get.waiters ++ [id] }.provide providers
  let issued := client.issueAll provided.1 cid provided.2
  { issued.1 with gets := issued.1.gets.put (cid, issued.2) }

def fetch (cids : List Cid) (providers : List Peer) : Client Peer Cid × FetchId :=
  let id := client.nextFetch
  let client := { client with nextFetch := id + 1 }
  let cids := dedup cids
  let providers := dedup providers
  if cids = [] ∨ providers = [] then (client, id)
  else
    (cids.foldl (fetchCid id providers)
      { client with fetches := client.fetches.put (id, { pending := KeyedList.ofList cids }) }, id)

def cancel : Client Peer Cid × Bool :=
  let cancelled := client.cancelFetch order id
  (cancelled.1.settle order, cancelled.2)

/-- A have from a block request, and any answer but a failure to a request not sent yet, is ignored. -/
def counts (answer : Answer) (slot : Slot) : Bool :=
  (answer = .failed ∨ slot.queued = false) ∧ ¬(slot.kind = .block ∧ answer = .haveBlock)

def issueNext (cid : Cid) : Option Peer → Client Peer Cid × Get Peer
  | none => (client, get)
  | some next => client.issue get cid next .block

def answer (order : HashOrder) (client : Client Peer Cid) (peer : Peer) (cid : Cid) (answer : Answer) : Client Peer Cid :=
  match client.gets.get? cid with
  | none => client
  | some get => match (get.requests.get? peer).filter (counts answer) with
    | none => client
    | some slot =>
      let client := { client with gets := client.gets.erase cid }
      let get := { get with requests := get.requests.erase peer }
      let client := (client.endRequest peer cid slot answer.cancels).record cid (.ended peer slot.kind answer)
      let answered := get.answered slot.kind peer (decide (answer = .haveBlock))
      let issued := client.issueNext answered.1 cid answered.2
      if issued.2.requests.toList = [] then issued.1.releaseEmpty order cid issued.2
      else { issued.1 with gets := issued.1.gets.put (cid, issued.2) }

def deliver (client : Client Peer Cid) (cid : Cid) : Client Peer Cid :=
  match client.gets.get? cid with
  | none => client
  | some get => { client with gets := client.gets.erase cid }.releaseBlock order cid get peer

def onMessage (blocks : List Cid) (presences : List (Cid × Bool)) : Client Peer Cid :=
  if client.gets.toList = [] then client
  else
    let client := blocks.foldl (deliver order peer) client
    let client := presences.foldl (fun client presence =>
      client.answer order peer presence.1 (if presence.2 then .haveBlock else .dontHave)) client
    client.settle order

def onPeerDisconnected : Client Peer Cid :=
  let cids := ((client.byPeer.get? peer).map fun cids => order.list cids.toList).getD []
  let client := { client with outbox := client.outbox.forget peer }
  let client := cids.foldl (fun client cid => client.answer order peer cid .failed) client
  client.settle order

def onResponsive : Client Peer Cid :=
  if (client.byPeer.get? peer).isSome then { client with keepAlive := client.keepAlive ++ [.protect peer] } else client

def sent (ok : Bool) (sentAt : Instant) (client : Client Peer Cid) (request : Cid × Nat) : Client Peer Cid :=
  match client.gets.get? request.1 with
  | none => client
  | some get => match (get.requests.get? peer).filter fun slot => slot.seq = request.2 with
    | none => client
    | some slot =>
      if ok then
        let deadline := sentAt + requestTimeout
        let slot := { slot with deadline := some deadline }
        { client with
          gets := client.gets.put (request.1, { get with requests := get.requests.put (peer, slot) })
          deadlines := client.deadlines.put (toLex (deadline, request.2), (peer, request.1)) }
      else client.answer order peer request.1 .failed

/-- On success each request starts its response deadline, on failure it counts as a no. -/
def sendDone (requests : List (Cid × Nat)) (ok : Bool) (sentAt : Instant) : Client Peer Cid :=
  (requests.foldl (sent order peer ok sentAt) { client with outbox := client.outbox.done peer }).settle order

/-- Each turn takes off one deadline, so their number bounds the turns. -/
def expireLoop (order : HashOrder) (now : Instant) : Nat → Client Peer Cid → Client Peer Cid
  | 0, client => client
  | turns + 1, client => match client.deadlines.toList.head? with
    | none => client
    | some (due, peer, cid) =>
      if now < (ofLex due).1 then client
      else
        expireLoop order now turns
          ({ client with deadlines := client.deadlines.erase due }.answer order peer cid .timedOut)

def expire (now : Instant) : Client Peer Cid :=
  (expireLoop order now client.deadlines.toList.length client).settle order

def takeReady (protocol : Peer → Option ProtocolId) : Client Peer Cid × List (Outgoing Peer Cid) :=
  let taken := client.outbox.takeReady order protocol
  ({ client with outbox := taken.1 }, taken.2)

def takeKeepAlive : Client Peer Cid × List (KeepAlive Peer) :=
  ({ client with keepAlive := [] }, client.keepAlive)

def dropReceiver : Client Peer Cid :=
  match client.fetches.get? id with
  | none => client
  | some fetch => { client with fetches := client.fetches.put (id, { fetch with closed := true }) }

end Client

variable (Peer Cid) in
inductive Call where
  | fetch (cids : List Cid) (providers : List Peer)
  | cancel (id : FetchId)
  | onMessage (peer : Peer) (blocks : List Cid) (presences : List (Cid × Bool))
  | onPeerDisconnected (peer : Peer)
  | onResponsive (peer : Peer)
  | sendDone (peer : Peer) (requests : List (Cid × Nat)) (ok : Bool) (sentAt : Instant)
  | expire (now : Instant)
  | takeReady (protocol : Peer → Option ProtocolId)
  | takeKeepAlive
  | dropReceiver (id : FetchId)

namespace Client

def step (order : HashOrder) (client : Client Peer Cid) : Call Peer Cid → Client Peer Cid
  | .fetch cids providers => (client.fetch cids providers).1
  | .cancel id => (client.cancel order id).1
  | .onMessage peer blocks presences => client.onMessage order peer blocks presences
  | .onPeerDisconnected peer => client.onPeerDisconnected order peer
  | .onResponsive peer => client.onResponsive peer
  | .sendDone peer requests ok sentAt => client.sendDone order peer requests ok sentAt
  | .expire now => client.expire order now
  | .takeReady protocol => (client.takeReady order protocol).1
  | .takeKeepAlive => client.takeKeepAlive.1
  | .dropReceiver id => client.dropReceiver id

/-- Each call finds its hash maps in an order of its own. -/
def run (calls : List (HashOrder × Call Peer Cid)) : Client Peer Cid :=
  calls.foldl (fun client call => client.step call.1 call.2) {}

end Client
end

end Defra.Bitswap
