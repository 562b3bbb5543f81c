import Defra.Push.Backlog

/-! # The push backlog: what each operation does

An operation on the queues changes the queue of one peer (`flat_setList_perm`), a pop serves the first ready peer that may be
served, and parking touches nothing but the cooldowns. -/

namespace Defra.Push
open List

section
variable {Cid : Type} {lim : Limits} {hashing : Hashing}

namespace Inner
variable {q : Inner Cid} {peer : Bytes} {job : PushJobSpec Cid} {old : PushJobSpec Cid}

/-! ### Queues -/

/-- The queued jobs of a peer. -/
def queue (q : Inner Cid) (peer : Bytes) : List (PushJobSpec Cid) := (q.queues.get? peer).getD []

variable {before after : List (PushJobSpec Cid)} {key : JobKey} {queue : List (PushJobSpec Cid)}
  (jobs : List (PushJobSpec Cid))

/-- The bytes of the jobs. -/
def cost : Nat := (jobs.map PushJobSpec.residentBytes).sum

theorem cost_append (as bs : List (PushJobSpec Cid)) : cost (as ++ bs) = cost as + cost bs := by
  rw [cost, map_append, sum_append]
  rfl

theorem cost_cons (job : PushJobSpec Cid) (jobs : List (PushJobSpec Cid)) :
    cost (job :: jobs) = job.residentBytes + cost jobs := rfl

theorem queue_of_get? (h : q.queues.get? peer = some queue) : q.queue peer = queue := by
  rw [Inner.queue, h]
  rfl

theorem find?_split {jobs : List (PushJobSpec Cid)} (h : jobs.find? (·.key = key) = some old) :
    old.key = key ∧ ∃ before after, jobs = before ++ old :: after ∧ ∀ other ∈ before, other.key ≠ key := by
  obtain ⟨hk, before, after, hsp, hb⟩ := find?_eq_some_iff_append.mp h
  refine ⟨of_decide_eq_true hk, before, after, hsp, fun other ho => ?_⟩
  simpa using hb other ho

theorem eraseP_split (hk : old.key = key) (hb : ∀ other ∈ before, other.key ≠ key) :
    (before ++ old :: after).eraseP (·.key = key) = before ++ after := by
  rw [eraseP_append_right _ (by simpa using hb), eraseP_cons_of_pos (by simpa using hk)]

theorem replaceKey_split (hk : old.key = job.key) (hb : ∀ other ∈ before, other.key ≠ job.key) :
    replaceKey job (before ++ old :: after) = before ++ job :: after := by
  induction before with
  | nil => rw [nil_append, replaceKey, if_pos hk, nil_append]
  | cons other before ih =>
    rw [cons_append, replaceKey, if_neg (hb other mem_cons_self),
      ih fun x hx => hb x (mem_cons_of_mem other hx), cons_append]

/-! ### Enqueueing -/

theorem admission_cases (lim : Limits) (q : Inner Cid) (job : PushJobSpec Cid) :
    (q.admission lim job).2 = q ∨
    (q.admission lim job).2 = q.pushBack job ∧ q.queuedItems < lim.itemCapacity ∧
      (q.queue job.peerId).length < lim.peerQuota ∧
      (q.queuedItems = 0 ∨ q.queuedBytes + job.residentBytes ≤ lim.byteCapacity) := by
  rw [admission, ← queue]
  split_ifs with hitems hquota hbytes
  · exact .inl rfl
  · exact .inl rfl
  · exact .inl rfl
  · exact .inr ⟨rfl, by omega, by omega, by omega⟩

/-- Nothing, the replacement of a queued job of the same head, or an admission, before which an older head is retired. -/
theorem enqueue_cases [LinearOrder Cid] (lim : Limits) (q : Inner Cid) (job : PushJobSpec Cid) :
    (q.enqueue lim job).2 = q ∧ (q.closed ∨ ∃ current, q.latest.get? job.key = some current ∧ job.version < current) ∨
    (q.enqueue lim job).2 = q.coalesce job ∧ q.latest.get? job.key = some job.version ∨
    (q.enqueue lim job).2 = (q.admission lim job).2 ∧ q.latest.get? job.key = none ∨
    (q.enqueue lim job).2 = ((q.retire job).admission lim job).2 ∧
      ∃ current, q.latest.get? job.key = some current ∧ current < job.version := by
  rw [enqueue]
  split_ifs with hc
  · exact .inl ⟨rfl, .inl hc⟩
  cases hl : q.latest.get? job.key with
  | none => exact .inr (.inr (.inl ⟨rfl, rfl⟩))
  | some current =>
    simp only
    split_ifs with hlt heq
    · exact .inl ⟨rfl, .inr ⟨current, rfl, hlt⟩⟩
    · exact .inr (.inl ⟨rfl, congrArg some heq.symm⟩)
    · exact .inr (.inr (.inr ⟨rfl, current, rfl, lt_of_le_of_ne (not_lt.mp hlt) (Ne.symm heq)⟩))

theorem admission_active (lim : Limits) (q : Inner Cid) (job : PushJobSpec Cid) :
    (q.admission lim job).2.active = q.active ∧ (q.admission lim job).2.activeJobs = q.activeJobs := by
  rcases admission_cases lim q job with heq | ⟨heq, -⟩ <;> rw [heq]
  · exact ⟨rfl, rfl⟩
  · exact ⟨rfl, rfl⟩

theorem retire_active (q : Inner Cid) (job : PushJobSpec Cid) :
    (q.retire job).active = q.active ∧ (q.retire job).activeJobs = q.activeJobs := by
  simp only [retire, removeQueuedJob]
  split <;> exact ⟨rfl, rfl⟩

theorem coalesce_active (q : Inner Cid) (job : PushJobSpec Cid) :
    (q.coalesce job).active = q.active ∧ (q.coalesce job).activeJobs = q.activeJobs := by
  simp only [coalesce]
  split <;> exact ⟨rfl, rfl⟩

theorem enqueue_active [LinearOrder Cid] (q : Inner Cid) (job : PushJobSpec Cid) :
    (q.enqueue lim job).2.active = q.active ∧ (q.enqueue lim job).2.activeJobs = q.activeJobs := by
  rcases enqueue_cases lim q job with ⟨heq, -⟩ | ⟨heq, -⟩ | ⟨heq, -⟩ | ⟨heq, -⟩ <;> rw [heq]
  · exact ⟨rfl, rfl⟩
  · exact coalesce_active q job
  · exact admission_active lim q job
  · obtain ⟨ha, hjobs⟩ := admission_active lim (q.retire job) job
    exact ⟨ha.trans (retire_active q job).1, hjobs.trans (retire_active q job).2⟩

/-! ### Popping -/

/-- The peer may be served. -/
def Free (lim : Limits) (now : Instant) (q : Inner Cid) (peer : Bytes) : Prop :=
  ∃ probeOf, q.verdict lim now peer = .free probeOf

theorem popLoop_of_held {now : Instant} {tried : List Bytes} (h : ∀ peer ∈ tried, ¬ q.Free lim now peer) (rest : List Bytes)
    (wake : Option Instant) : ∃ wake', popLoop lim now q tried.length (tried ++ rest) wake =
      some (.error wake', { q with ready := rest ++ tried }) := by
  induction tried generalizing rest wake with
  | nil => exact ⟨wake, by rw [append_nil]; rfl⟩
  | cons peer tried ih =>
    have ht := fun wake => ih (fun p hp => h p (mem_cons_of_mem peer hp)) (rest ++ [peer]) wake
    simp only [append_assoc, cons_append, nil_append] at ht
    rw [length_cons, cons_append, popLoop, append_assoc]
    cases hv : q.verdict lim now peer with
    | held => exact ht wake
    | cooling deadline => exact ht _
    | free probeOf => exact absurd ⟨probeOf, hv⟩ (h peer mem_cons_self)

theorem popLoop_of_free {now : Instant} {probeOf : Option UInt64} {skipped rest : List Bytes}
    (hs : ∀ peer ∈ skipped, ¬ q.Free lim now peer) (hf : q.verdict lim now peer = .free probeOf)
    (behind : List Bytes) (wake : Option Instant) :
    popLoop lim now q (skipped ++ peer :: rest).length (skipped ++ peer :: rest ++ behind) wake =
      (serve { q with ready := rest ++ behind ++ skipped } peer probeOf).map fun popped => (.ok popped.1, popped.2) := by
  induction skipped generalizing behind wake with
  | nil =>
    rw [nil_append, length_cons, cons_append, popLoop, hf, append_nil]
  | cons other skipped ih =>
    have hr := fun wake => ih (fun p hp => hs p (mem_cons_of_mem other hp)) (behind ++ [other]) wake
    simp only [append_assoc, cons_append, nil_append] at hr ⊢
    rw [length_cons, popLoop]
    simp only [append_assoc, cons_append]
    cases hv : q.verdict lim now other with
    | held => exact hr wake
    | cooling deadline => exact hr _
    | free probe => exact absurd ⟨probe, hv⟩ (hs other mem_cons_self)

/-- It leaves the backlog as it is when no ready peer may be served, and else serves the first that may. -/
theorem popEligible_cases (lim : Limits) (now : Instant) (q : Inner Cid) :
    ((∀ peer ∈ q.ready, ¬ q.Free lim now peer) ∧ ∃ wake, q.popEligible lim now = some (.error wake, q)) ∨
    ∃ skipped peer rest probeOf, q.ready = skipped ++ peer :: rest ∧ (∀ other ∈ skipped, ¬ q.Free lim now other) ∧
      q.verdict lim now peer = .free probeOf ∧ q.popEligible lim now =
        (serve { q with ready := rest ++ skipped } peer probeOf).map fun popped => (.ok popped.1, popped.2) := by
  classical
  cases hf : q.ready.find? (fun peer => q.Free lim now peer) with
  | none =>
    have hheld : ∀ peer ∈ q.ready, ¬ q.Free lim now peer := by simpa using find?_eq_none.mp hf
    obtain ⟨wake, hloop⟩ := popLoop_of_held hheld [] none
    rw [append_nil] at hloop
    exact .inl ⟨hheld, wake, hloop⟩
  | some peer =>
    obtain ⟨hfree, skipped, rest, hr, hs⟩ := find?_eq_some_iff_append.mp hf
    obtain ⟨probeOf, hv⟩ := of_decide_eq_true hfree
    have hheld : ∀ other ∈ skipped, ¬ q.Free lim now other := fun other ho => by simpa using hs other ho
    have hloop : popLoop lim now q (skipped ++ peer :: rest).length (skipped ++ peer :: rest ++ []) none = _ :=
      popLoop_of_free hheld hv [] none
    rw [append_nil, append_nil, ← hr] at hloop
    exact .inr ⟨skipped, peer, rest, probeOf, hr, hheld, hv, hloop⟩

/-- Those skipped stand behind the rest, and the peer last if it has more. -/
def served (q : Inner Cid) (skipped rest : List Bytes) (peer : Bytes) (first : PushJobSpec Cid)
    (queue : List (PushJobSpec Cid)) : Inner Cid :=
  { q with
    queues := q.queues.setList peer queue
    ready := if queue.isEmpty then rest ++ skipped else rest ++ skipped ++ [peer]
    queuedItems := q.queuedItems - 1
    queuedBytes := q.queuedBytes - first.residentBytes
    active := q.active.put (peer, (q.active.get? peer).getD 0 + 1)
    activeJobs := q.activeJobs + 1 }

theorem serve_eq {first : PushJobSpec Cid} (h : q.queues.get? peer = some (first :: queue))
    (skipped rest : List Bytes) (probeOf : Option UInt64) :
    serve { q with ready := rest ++ skipped } peer probeOf =
      some ({ first with probeOf }, q.served skipped rest peer first queue) := by
  rw [serve, h]
  rfl

/-! ### Parking -/

/-- Two states that differ in their cooldowns only. -/
structure SameButParked (q inner' : Inner Cid) : Prop where
  queues : inner'.queues = q.queues
  ready : inner'.ready = q.ready
  active : inner'.active = q.active
  latest : inner'.latest = q.latest
  queuedItems : inner'.queuedItems = q.queuedItems
  queuedBytes : inner'.queuedBytes = q.queuedBytes
  activeJobs : inner'.activeJobs = q.activeJobs
  closed : inner'.closed = q.closed

theorem SameButParked.of_cooldowns (q : Inner Cid) (cooldowns : KeyedList (Prod.fst : Bytes × PeerCooldown → Bytes))
    (spells : UInt64) : SameButParked q { q with peerCooldowns := cooldowns, unreachableSpells := spells } :=
  ⟨rfl, rfl, rfl, rfl, rfl, rfl, rfl, rfl⟩

theorem SameButParked.trans {a b c : Inner Cid} (h : SameButParked a b) (h' : SameButParked b c) : SameButParked a c where
  queues := h'.queues.trans h.queues
  ready := h'.ready.trans h.ready
  active := h'.active.trans h.active
  latest := h'.latest.trans h.latest
  queuedItems := h'.queuedItems.trans h.queuedItems
  queuedBytes := h'.queuedBytes.trans h.queuedBytes
  activeJobs := h'.activeJobs.trans h.activeJobs
  closed := h'.closed.trans h.closed

theorem retireIdleCooldowns_same (n : Nat) (q : Inner Cid) :
    SameButParked q (q.retireIdleCooldowns hashing lim n) := by
  induction n generalizing q with
  | zero => exact .of_cooldowns q q.peerCooldowns q.unreachableSpells
  | succ n ih =>
    rw [retireIdleCooldowns]
    split
    · split
      · exact .of_cooldowns q q.peerCooldowns q.unreachableSpells
      · rename_i inner' hretire
        obtain ⟨e, -, rfl⟩ := Option.map_eq_some_iff.mp hretire
        exact (SameButParked.of_cooldowns q _ _).trans (ih _)
    · exact .of_cooldowns q q.peerCooldowns q.unreachableSpells

theorem parkPeer_same (now : Instant) (q : Inner Cid) (peer : Bytes) (retryAfter : Option Nat) (unreachable : Bool) :
    SameButParked q (q.parkPeer hashing lim now peer retryAfter unreachable) :=
  (SameButParked.of_cooldowns q _ _).trans (retireIdleCooldowns_same ..)

theorem peerAnswered_same (q : Inner Cid) (peer : Bytes) : SameButParked q (q.peerAnswered peer) := by
  rw [peerAnswered]
  split
  · exact .of_cooldowns q _ _
  · exact .of_cooldowns q q.peerCooldowns q.unreachableSpells

/-- A completion of a peer with active jobs frees one of its slots and forgets its head. -/
theorem jobDone_same [LinearOrder Cid] {count : Nat} (h : q.active.get? job.peerId = some count) (now : Instant)
    (done : JobCompletion) : SameButParked
      { q with
        active := release q.active job.peerId count, activeJobs := q.activeJobs - 1, latest := forget q.latest job }
      (q.jobDone now job done) := by
  rw [jobDone, h]
  simp only
  split_ifs
  · exact .of_cooldowns _ _ _
  · exact .of_cooldowns _ q.peerCooldowns q.unreachableSpells

theorem foldl_handOver [LinearOrder Cid] (q : Inner Cid) :
    jobs.foldl handOver q = { q with
      queuedItems := q.queuedItems - jobs.length
      queuedBytes := q.queuedBytes - cost jobs
      latest := jobs.foldl forget q.latest } := by
  induction jobs generalizing q with
  | nil => rfl
  | cons job jobs ih =>
    rw [foldl_cons, ih, length_cons, cost_cons, Nat.add_comm jobs.length, ← Nat.sub_sub, ← Nat.sub_sub]
    rfl

def taken [LinearOrder Cid] (q : Inner Cid) (peer : Bytes) (jobs : List (PushJobSpec Cid)) : Inner Cid :=
  { q with
    queues := q.queues.erase peer
    ready := q.ready.filter (· ≠ peer)
    queuedItems := q.queuedItems - jobs.length
    queuedBytes := q.queuedBytes - cost jobs
    latest := jobs.foldl forget q.latest }

theorem takeQueuedForPeer_cases [LinearOrder Cid] (q : Inner Cid) (peer : Bytes) :
    q.queues.get? peer = none ∧ (q.takeQueuedForPeer peer).2 = q ∨
    ∃ jobs, q.queues.get? peer = some jobs ∧ (q.takeQueuedForPeer peer).2 = q.taken peer jobs := by
  rw [takeQueuedForPeer]
  cases hg : q.queues.get? peer with
  | none => exact .inl ⟨rfl, rfl⟩
  | some jobs => exact .inr ⟨jobs, rfl, foldl_handOver jobs _⟩

theorem parkPeerUnreachable_cases [LinearOrder Cid] (hashing : Hashing) (lim : Limits) (now : Instant) (q : Inner Cid)
    (peer : Bytes) (probeOf : Option UInt64) : ∃ parked, SameButParked q parked ∧
      ((q.parkPeerUnreachable hashing lim now peer probeOf).2 = parked ∨
        (q.parkPeerUnreachable hashing lim now peer probeOf).2 = (parked.takeQueuedForPeer peer).2) := by
  refine ⟨q.parkPeer hashing lim now peer none true, parkPeer_same now q peer none true, ?_⟩
  rw [parkPeerUnreachable]
  split_ifs
  · exact .inr rfl
  · exact .inl rfl

end Inner

def plainHashing : Hashing where
  jitter _ _ := 0
  jitter_lt _ _ := by decide
  order l := l
  perm _ := .rfl

end
end Defra.Push
