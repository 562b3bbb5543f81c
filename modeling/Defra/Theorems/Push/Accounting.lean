import Mathlib.Data.List.Perm.Basic
import Defra.Theorems.Push.Operations
import Defra.Lib.Run

/-! # The push backlog keeps its counts

The queues, the ready list, the counts of items and of bytes and the active jobs agree after every command, so a pop always finds
the job of a ready peer. -/

namespace Defra.Push
open Defra.Push.Inner KeyedList List Option

section
variable {Cid : Type} {lim : Limits} {hashing : Hashing}

namespace Inner
variable {q inner' : Inner Cid} {peer : Bytes} {job : PushJobSpec Cid} {jobs : List (PushJobSpec Cid)}

/-- The counts and the ready list tell the queues, which keep their limits. -/
structure Queues (lim : Limits) (q : Inner Cid) : Prop where
  items : q.queuedItems = (q.queues.toList.map fun e => e.2.length).sum
  items_le : q.queuedItems ≤ lim.itemCapacity
  bytes : q.queuedBytes = (q.queues.toList.map fun e => (e.2.map PushJobSpec.residentBytes).sum).sum
  mem_ready : ∀ peer, peer ∈ q.ready ↔ ∃ queue, q.queues.get? peer = some queue ∧ queue ≠ []
  nodup_ready : q.ready.Nodup
  ne_nil : ∀ {peer queue}, q.queues.get? peer = some queue → queue ≠ []
  quota : ∀ {peer queue}, q.queues.get? peer = some queue → queue.length ≤ max (lim.itemCapacity / 4) 1
  owner : ∀ {peer queue}, q.queues.get? peer = some queue → ∀ job ∈ queue, job.peerId = peer

/-- The active jobs are counted peer by peer, and no peer has more than its share. -/
structure Active (lim : Limits) (q : Inner Cid) : Prop where
  jobs : q.activeJobs = (q.active.toList.map Prod.snd).sum
  pos : ∀ {peer count}, q.active.get? peer = some count → 0 < count
  le : ∀ {peer count}, q.active.get? peer = some count → count ≤ lim.perPeerActiveCap

/-- The queues and the active jobs are counted right. -/
structure Accounted (lim : Limits) (q : Inner Cid) : Prop where
  queues : Queues lim q
  active : Active lim q

section
variable (h : Queues lim q)
include h

/-! ### Queues -/

theorem Queues.items_eq (peer : Bytes) :
    q.queuedItems = (q.queue peer).length + (q.queues.erase peer).flat.length := by
  rw [h.items, ← length_flat, (q.queues.flat_perm peer).length_eq, length_append, queue]

theorem Queues.bytes_eq (peer : Bytes) :
    q.queuedBytes = cost (q.queue peer) + cost (q.queues.erase peer).flat := by
  rw [h.bytes, ← sum_flat, ((q.queues.flat_perm peer).map _).sum_nat, ← cost, cost_append, queue]

theorem Queues.mem_ready_iff : peer ∈ q.ready ↔ q.queue peer ≠ [] := by
  rw [h.mem_ready, queue]
  cases hg : q.queues.get? peer with
  | none => simp
  | some jobs => simp

theorem Queues.owner_of_mem (hj : job ∈ q.queue peer) : job.peerId = peer := by
  rw [queue] at hj
  cases hg : q.queues.get? peer with
  | none =>
    rw [hg] at hj
    exact absurd hj not_mem_nil
  | some jobs =>
    rw [hg] at hj
    exact h.owner hg job hj

theorem Queues.set (peer : Bytes) (jobs : List (PushJobSpec Cid))
    (hq : inner'.queues = q.queues.setList peer jobs)
    (hitems : inner'.queuedItems + (q.queue peer).length = q.queuedItems + jobs.length)
    (hle : inner'.queuedItems ≤ lim.itemCapacity)
    (hbytes : inner'.queuedBytes + cost (q.queue peer) = q.queuedBytes + cost jobs)
    (hr : ∀ p, p ∈ inner'.ready ↔ if p = peer then jobs ≠ [] else p ∈ q.ready) (hnodup : inner'.ready.Nodup)
    (hquota : jobs.length ≤ max (lim.itemCapacity / 4) 1) (ho : ∀ job ∈ jobs, job.peerId = peer) : Queues lim inner' := by
  have hflat := q.queues.flat_setList_perm peer jobs
  have hg : ∀ {p queue}, inner'.queues.get? p = some queue →
      p = peer ∧ queue = jobs ∧ jobs ≠ [] ∨ p ≠ peer ∧ q.queues.get? p = some queue := by
    intro p queue hp
    rw [hq, get?_setList] at hp
    by_cases hpeer : p = peer
    · rw [if_pos hpeer] at hp
      cases jobs with
      | nil => cases hp
      | cons first rest =>
        cases hp
        exact .inl ⟨hpeer, rfl, cons_ne_nil first rest⟩
    · rw [if_neg hpeer] at hp
      exact .inr ⟨hpeer, hp⟩
  refine ⟨?_, hle, ?_, fun p => ?_, hnodup, fun hp => ?_, fun hp => ?_, fun hp => ?_⟩
  · have := h.items_eq peer
    rw [hq, ← length_flat, hflat.length_eq, length_append]
    omega
  · have := h.bytes_eq peer
    rw [hq, ← sum_flat, (hflat.map _).sum_nat, ← cost, cost_append]
    omega
  · rw [hr]
    by_cases hpeer : p = peer
    · rw [if_pos hpeer, hq, get?_setList, if_pos hpeer]
      cases jobs <;> simp
    · rw [if_neg hpeer, h.mem_ready, hq, get?_setList, if_neg hpeer]
  · rcases hg hp with ⟨-, rfl, hne⟩ | ⟨-, hold⟩
    · exact hne
    · exact h.ne_nil hold
  · rcases hg hp with ⟨-, rfl, -⟩ | ⟨-, hold⟩
    · exact hquota
    · exact h.quota hold
  · rcases hg hp with ⟨rfl, rfl, -⟩ | ⟨-, hold⟩
    · exact ho
    · exact h.owner hold

omit h in
theorem setList_of_ne_nil (h : jobs ≠ []) : q.queues.setList peer jobs = q.queues.put (peer, jobs) := by
  rw [setList, if_neg (by simpa using h)]

theorem Queues.quota_queue (peer : Bytes) : (q.queue peer).length ≤ max (lim.itemCapacity / 4) 1 := by
  rw [queue]
  cases hg : q.queues.get? peer with
  | none => exact Nat.zero_le _
  | some jobs => exact h.quota hg

theorem Queues.ready_of_ne_nil (hq : q.queue peer ≠ [])
    (hj : jobs ≠ []) (p : Bytes) : p ∈ q.ready ↔ if p = peer then jobs ≠ [] else p ∈ q.ready := by
  split
  · rename_i hp
    rw [hp, h.mem_ready_iff]
    exact ⟨fun _ => hj, fun _ => hq⟩
  · rfl

omit h in
theorem ready_of_nil (ready : List Bytes) (p : Bytes) :
    p ∈ ready.filter (· ≠ peer) ↔ if p = peer then ([] : List (PushJobSpec Cid)) ≠ [] else p ∈ ready := by
  by_cases hp : p = peer <;> simp [hp]

theorem Queues.removeQueuedJob (peer : Bytes) (key : JobKey) : Queues lim (q.removeQueuedJob peer key) := by
  rw [Inner.removeQueuedJob, ← queue]
  cases hf : (q.queue peer).find? (·.key = key) with
  | none => exact h
  | some removed =>
    obtain ⟨hk, before, after, hs, hb⟩ := find?_split hf
    simp only [show (q.queue peer).eraseP (·.key = key) = before ++ after by rw [hs, eraseP_split hk hb]]
    have hitems := h.items_eq peer
    have hbytes := h.bytes_eq peer
    have hle := h.items_le
    have hquota := h.quota_queue peer
    have howner : ∀ job ∈ before ++ after, job.peerId = peer := fun job hj =>
      h.owner_of_mem (hs ▸ mem_append.mpr ((mem_append.mp hj).imp_right (mem_cons_of_mem removed)))
    rw [hs] at hitems hbytes hquota
    simp only [length_append, length_cons, cost_append, cost_cons] at hitems hbytes hquota
    refine h.set peer (before ++ after) rfl ?_ ?_ ?_ (fun p => ?_) ?_ ?_ howner
    · rw [hs]
      simp only [length_append, length_cons]
      omega
    · change q.queuedItems - 1 ≤ _
      omega
    · rw [hs]
      simp only [cost_append, cost_cons]
      omega
    · split
      · rename_i hempty
        rw [isEmpty_iff.mp hempty]
        exact ready_of_nil q.ready p
      · rename_i hempty
        exact h.ready_of_ne_nil (by rw [hs]; simp) (by simpa using hempty) p
    · split
      · exact h.nodup_ready.filter _
      · exact h.nodup_ready
    · simp only [length_append]
      omega

theorem Queues.coalesce (job : PushJobSpec Cid) : Queues lim (q.coalesce job) := by
  rw [Inner.coalesce, ← queue]
  cases hf : (q.queue job.peerId).find? (·.key = job.key) with
  | none => exact h
  | some old =>
    obtain ⟨hk, before, after, hsp, hb⟩ := find?_split hf
    have hne : before ++ job :: after ≠ [] := by simp
    have hreplace : replaceKey job (q.queue job.peerId) = before ++ job :: after := by
      rw [hsp, replaceKey_split hk hb]
    have hbytes := h.bytes_eq job.peerId
    have hquota := h.quota_queue job.peerId
    rw [hsp] at hbytes hquota
    refine h.set job.peerId (before ++ job :: after) ?_ ?_ h.items_le ?_
      (h.ready_of_ne_nil (by rw [hsp]; simp) hne) h.nodup_ready ?_ fun other ho => ?_
    · rw [setList_of_ne_nil hne, ← hreplace]
    · rw [hsp]
      simp only [length_append, length_cons]
    · rw [hsp]
      simp only [cost_append, cost_cons] at hbytes ⊢
      omega
    · simpa using hquota
    · rcases mem_append.mp ho with ho | ho
      · exact h.owner_of_mem (hsp ▸ mem_append_left _ ho)
      rcases mem_cons.mp ho with rfl | ho
      · rfl
      · exact h.owner_of_mem (hsp ▸ mem_append_right _ (mem_cons_of_mem old ho))

theorem Queues.pushBack (hitems : q.queuedItems < lim.itemCapacity)
    (hquota : (q.queue job.peerId).length < lim.peerQuota) : Queues lim (q.pushBack job) := by
  have hne : q.queue job.peerId ++ [job] ≠ [] := by simp
  refine h.set job.peerId (q.queue job.peerId ++ [job]) (setList_of_ne_nil hne).symm ?_ hitems ?_ (fun p => ?_) ?_ ?_
    fun other ho => ?_
  · simp only [length_append, length_singleton, Inner.pushBack]
    omega
  · simp only [cost_append, cost_cons, Inner.pushBack]
    change _ = q.queuedBytes + (_ + (job.residentBytes + 0))
    omega
  · change p ∈ (if (q.queue job.peerId).isEmpty then q.ready ++ [job.peerId] else q.ready) ↔ _
    split
    · by_cases hp : p = job.peerId <;> simp [hp]
    · rename_i hempty
      exact h.ready_of_ne_nil (by simpa using hempty) hne p
  · change (if (q.queue job.peerId).isEmpty then q.ready ++ [job.peerId] else q.ready).Nodup
    split
    · rename_i hempty
      have hr : job.peerId ∉ q.ready := fun hmem => h.mem_ready_iff.mp hmem (isEmpty_iff.mp hempty)
      exact nodup_append.mpr ⟨h.nodup_ready, nodup_singleton _, fun a ha b hb hab =>
        hr (mem_singleton.mp hb ▸ hab ▸ ha)⟩
    · exact h.nodup_ready
  · rw [Limits.peerQuota] at hquota
    simp only [length_append, length_singleton]
    omega
  · rcases mem_append.mp ho with ho | ho
    · exact h.owner_of_mem ho
    · rw [mem_singleton.mp ho]

theorem Queues.admission (job : PushJobSpec Cid) : Queues lim (q.admission lim job).2 := by
  rcases admission_cases lim q job with heq | ⟨heq, hitems, hquota, -⟩
  · rw [heq]
    exact h
  · rw [heq]
    exact h.pushBack hitems hquota

theorem Queues.retire (job : PushJobSpec Cid) : Queues lim (q.retire job) :=
  { h.removeQueuedJob job.peerId job.key with }

omit h in
theorem Queues.enqueue [LinearOrder Cid] (h : Queues lim q) (job : PushJobSpec Cid) :
    Queues lim (q.enqueue lim job).2 := by
  rcases enqueue_cases lim q job with ⟨heq, -⟩ | ⟨heq, -⟩ | ⟨heq, -⟩ | ⟨heq, -⟩ <;> rw [heq]
  · exact h
  · exact h.coalesce job
  · exact h.admission job
  · exact (h.retire job).admission job

/-- A pop of a backlog whose ready list tells the queues always finds the job it takes. -/
theorem Queues.popEligible (now : Instant) :
    ((∀ peer ∈ q.ready, ¬ q.Free lim now peer) ∧ ∃ wake, q.popEligible lim now = some (.error wake, q)) ∨
    ∃ skipped peer rest probeOf first queue, q.ready = skipped ++ peer :: rest ∧
      (∀ other ∈ skipped, ¬ q.Free lim now other) ∧ q.verdict lim now peer = .free probeOf ∧
      q.queues.get? peer = some (first :: queue) ∧
      q.popEligible lim now = some (.ok { first with probeOf }, q.served skipped rest peer first queue) := by
  rcases popEligible_cases lim now q with hheld | ⟨skipped, peer, rest, probeOf, hr, hs, hv, hpop⟩
  · exact .inl hheld
  · obtain ⟨jobs, hg, hne⟩ := (h.mem_ready peer).mp (by rw [hr]; simp)
    obtain ⟨first, queue, rfl⟩ := exists_cons_of_ne_nil hne
    refine .inr ⟨skipped, peer, rest, probeOf, first, queue, hr, hs, hv, hg, ?_⟩
    rw [hpop, serve_eq hg]
    rfl

theorem Queues.served {skipped rest : List Bytes} {first : PushJobSpec Cid}
    (hr : q.ready = skipped ++ peer :: rest)
    (hg : q.queues.get? peer = some (first :: jobs)) : Queues lim (q.served skipped rest peer first jobs) := by
  have hqueue := queue_of_get? hg
  have hitems := h.items_eq peer
  have hbytes := h.bytes_eq peer
  have hle := h.items_le
  have hq := h.quota hg
  have hnodup := h.nodup_ready
  rw [hqueue, length_cons] at hitems
  rw [hqueue, cost_cons] at hbytes
  rw [length_cons] at hq
  rw [hr, nodup_middle, nodup_cons] at hnodup
  have hmem : ∀ p, p ∈ rest ++ skipped ↔ p ≠ peer ∧ p ∈ q.ready := by
    intro p
    rw [hr]
    constructor
    · intro hp
      have hp' := mem_append.mpr (mem_append.mp hp).symm
      exact ⟨fun he => hnodup.1 (he ▸ hp'), mem_append.mpr ((mem_append.mp hp').imp_right (mem_cons_of_mem peer))⟩
    · rintro ⟨hne, hp⟩
      simpa [hne, or_comm] using hp
  have hnodup' : (rest ++ skipped).Nodup := (perm_append_comm.nodup_iff).mp hnodup.2
  refine h.set peer jobs rfl ?_ ?_ ?_ (fun p => ?_) ?_ (by omega) fun job hj =>
    h.owner hg job (mem_cons_of_mem first hj)
  · rw [hqueue]
    simp only [Inner.served, length_cons]
    omega
  · simp only [Inner.served]
    omega
  · rw [hqueue]
    simp only [Inner.served, cost_cons]
    omega
  · simp only [Inner.served]
    split
    · rename_i hempty
      rw [hmem, isEmpty_iff.mp hempty]
      by_cases hp : p = peer <;> simp [hp]
    · rename_i hempty
      rw [mem_append, hmem]
      by_cases hp : p = peer <;> simp [hp, isEmpty_iff.not.mp hempty]
  · simp only [Inner.served]
    split
    · exact hnodup'
    · refine nodup_append.mpr ⟨hnodup', nodup_singleton peer, fun a ha b hb hab => ?_⟩
      exact ((hmem a).mp ha).1 (hab.trans (mem_singleton.mp hb))

end

/-! ### Active jobs -/

theorem Active.congr (h : Active lim q) (ha : inner'.active = q.active)
    (hj : inner'.activeJobs = q.activeJobs) : Active lim inner' where
  jobs := by rw [ha, hj, h.jobs]
  pos hp := h.pos (ha ▸ hp)
  le hp := h.le (ha ▸ hp)

theorem Active.served (h : Active lim q) {now : Instant} {probeOf : Option UInt64} (hf : q.verdict lim now peer = .free probeOf)
    (skipped rest : List Bytes) (first : PushJobSpec Cid) (jobs : List (PushJobSpec Cid)) :
    Active lim (q.served skipped rest peer first jobs) := by
  have hcap : (q.active.get? peer).getD 0 < lim.perPeerActiveCap := by
    rw [verdict] at hf
    split at hf
    · cases hf
    · rename_i hcap
      cases hg : q.active.get? peer with
      | none => exact lim.perPeerActiveCap_pos
      | some count =>
        rw [hg] at hcap
        simpa using hcap
  have ht := q.active.total_eq peer
  refine ⟨?_, fun {p n} hp => ?_, fun {p n} hp => ?_⟩
  · rw [← total]
    simp only [Inner.served, total_put, h.jobs]
    rw [← total]
    omega
  · simp only [Inner.served, get?_put] at hp
    split at hp
    · cases hp
      omega
    · exact h.pos hp
  · simp only [Inner.served, get?_put] at hp
    split at hp
    · cases hp
      omega
    · exact h.le hp

theorem Active.release (h : Active lim q) {count : Nat} (hg : q.active.get? peer = some count)
    (ha : inner'.active = release q.active peer count) (hj : inner'.activeJobs = q.activeJobs - 1) :
    Active lim inner' := by
  have hpos := h.pos hg
  have hle := h.le hg
  have ht := q.active.total_eq peer
  have hsum : q.activeJobs = q.active.total := h.jobs
  rw [hg, getD_some] at ht
  have hkept : ∀ {p n}, inner'.active.get? p = some n → n = count - 1 ∧ count ≠ 1 ∨ q.active.get? p = some n := by
    intro p n hp
    rw [ha, Inner.release] at hp
    split at hp
    · rw [get?_erase] at hp
      split at hp
      · cases hp
      · exact .inr hp
    · rw [get?_put] at hp
      split at hp
      · cases hp
        exact .inl ⟨rfl, by omega⟩
      · exact .inr hp
  refine ⟨?_, fun hp => ?_, fun hp => ?_⟩
  · rw [ha, ← total, Inner.release]
    split
    · omega
    · rw [total_put]
      omega
  · rcases hkept hp with ⟨rfl, hone⟩ | hold
    · omega
    · exact h.pos hold
  · rcases hkept hp with ⟨rfl, -⟩ | hold
    · omega
    · exact h.le hold

theorem Queues.requeue (h : Queues lim q) (hitems : q.queuedItems < lim.itemCapacity)
    (hquota : (q.queue job.peerId).length < max (lim.itemCapacity / 4) 1) : Queues lim (q.requeue job) := by
  have hne : job :: q.queue job.peerId ≠ [] := cons_ne_nil _ _
  refine h.set job.peerId (job :: q.queue job.peerId) (setList_of_ne_nil hne).symm ?_ hitems ?_ (fun p => ?_) ?_ hquota
    fun other ho => ?_
  · simp only [length_cons, Inner.requeue]
    omega
  · simp only [cost_cons, Inner.requeue]
    omega
  · change p ∈ (if (q.queue job.peerId).isEmpty then job.peerId :: q.ready else q.ready) ↔ _
    split
    · by_cases hp : p = job.peerId <;> simp [hp]
    · rename_i hempty
      exact h.ready_of_ne_nil (by simpa using hempty) hne p
  · change (if (q.queue job.peerId).isEmpty then job.peerId :: q.ready else q.ready).Nodup
    split
    · rename_i hempty
      exact nodup_cons.mpr ⟨fun hmem => h.mem_ready_iff.mp hmem (isEmpty_iff.mp hempty), h.nodup_ready⟩
    · exact h.nodup_ready
  · rcases mem_cons.mp ho with rfl | ho
    · rfl
    · exact h.owner_of_mem ho

theorem Queues.taken [LinearOrder Cid] (h : Queues lim q)
    (hg : q.queues.get? peer = some jobs) : Queues lim (q.taken peer jobs) := by
  have hqueue := queue_of_get? hg
  have hitems := h.items_eq peer
  have hbytes := h.bytes_eq peer
  have hle := h.items_le
  rw [hqueue] at hitems hbytes
  refine h.set peer [] rfl ?_ ?_ ?_ (ready_of_nil q.ready) (h.nodup_ready.filter _) (Nat.zero_le _)
    fun _ hmem => absurd hmem not_mem_nil
  · rw [hqueue]
    simp only [Inner.taken, length_nil]
    omega
  · simp only [Inner.taken]
    omega
  · rw [hqueue]
    simp only [Inner.taken]
    change _ = q.queuedBytes + 0
    omega

theorem SameButParked.accounted (hsame : SameButParked q inner') (h : Accounted lim q) : Accounted lim inner' := by
  obtain ⟨queues, ready, active, latest, cooldowns, spells, items, bytes, jobs, closed⟩ := inner'
  obtain ⟨rfl, rfl, rfl, rfl, rfl, rfl, rfl, rfl⟩ := hsame
  exact ⟨{ h.queues with }, { h.active with }⟩

theorem Accounted.takeQueuedForPeer [LinearOrder Cid] (h : Accounted lim q) (peer : Bytes) :
    Accounted lim (q.takeQueuedForPeer peer).2 := by
  rcases takeQueuedForPeer_cases q peer with ⟨-, heq⟩ | ⟨jobs, hget, heq⟩
  · rw [heq]
    exact h
  · rw [heq]
    exact ⟨h.queues.taken hget, { h.active with }⟩

theorem Accounted.jobDone [LinearOrder Cid] (h : Accounted lim q) (now : Instant) (job : PushJobSpec Cid)
    (done : JobCompletion) : Accounted lim (q.jobDone now job done) := by
  cases hg : q.active.get? job.peerId with
  | none =>
    rw [Inner.jobDone, hg]
    exact h
  | some count => exact (jobDone_same hg now done).accounted ⟨{ h.queues with }, h.active.release hg rfl rfl⟩

theorem Accounted.close (h : Accounted lim q) : Accounted lim q.close where
  queues :=
    { items := rfl, items_le := Nat.zero_le _, bytes := rfl, mem_ready := fun p => by simp [Inner.close],
      nodup_ready := .nil, ne_nil := fun hp => (by cases hp), quota := fun hp => (by cases hp), owner := fun hp => (by cases hp) }
  active := { h.active with }

theorem Accounted.served (h : Accounted lim q) {now : Instant} {skipped rest : List Bytes} {probeOf : Option UInt64}
    {first : PushJobSpec Cid} (hr : q.ready = skipped ++ peer :: rest)
    (hf : q.verdict lim now peer = .free probeOf) (hg : q.queues.get? peer = some (first :: jobs)) :
    Accounted lim (q.served skipped rest peer first jobs) ∧
      Accounted lim ((q.served skipped rest peer first jobs).requeue { first with probeOf }) := by
  have hs := h.queues.served hr hg
  have ha := h.active.served hf skipped rest first jobs
  have ho : first.peerId = peer := h.queues.owner hg first mem_cons_self
  have hq : (q.served skipped rest peer first jobs).queue peer = jobs := by
    rw [queue, Inner.served, get?_setList, if_pos rfl]
    cases jobs <;> rfl
  have hcnt : (q.served skipped rest peer first jobs).active.get? first.peerId =
      some ((q.active.get? peer).getD 0 + 1) := by
    rw [Inner.served, get?_put, if_pos ho]
  have hquota := h.queues.quota hg
  have hitems := h.queues.items_eq peer
  have hle := h.queues.items_le
  rw [queue_of_get? hg] at hitems
  rw [length_cons] at hquota hitems
  refine ⟨⟨hs, ha⟩, hs.requeue ?_ ?_, ha.release hcnt ?_ rfl⟩
  · simp only [Inner.served]
    omega
  · rw [show ({ first with probeOf } : PushJobSpec Cid).peerId = peer from ho, hq]
    omega
  · rw [requeue]
    simp only [hcnt]

end Inner

namespace Backlog

/-! ### The backlog -/

/-- The counts agree and no pop has panicked. -/
structure Sound (lim : Limits) (s : Backlog Cid) : Prop where
  accounted : s.inner.Accounted lim
  running : s.panicked = false

variable {s : Backlog Cid}

theorem Sound.nextJob (h : Sound lim s) (now : Instant) (taken : Bool) : Sound lim (s.nextJob lim now taken) := by
  rw [Backlog.nextJob]
  split
  · exact h
  rcases h.accounted.queues.popEligible now with ⟨-, wake, hpop⟩ | ⟨skipped, peer, rest, probeOf, first, queue, hready, -, hfree,
    hget, hpop⟩
  · rw [hpop]
    exact h
  · obtain ⟨ht, hback⟩ := h.accounted.served hready hfree hget
    rw [hpop]
    simp only
    split
    · exact ⟨ht, h.running⟩
    · exact ⟨hback, h.running⟩

theorem Sound.empty : Sound lim ({} : Backlog Cid) where
  accounted :=
    { queues :=
        { items := rfl, items_le := Nat.zero_le _, bytes := rfl, mem_ready := fun p => by simp, nodup_ready := .nil,
          ne_nil := fun hp => (by cases hp), quota := fun hp => (by cases hp), owner := fun hp => (by cases hp) }
      active := { jobs := rfl, pos := fun hp => (by cases hp), le := fun hp => (by cases hp) } }
  running := rfl

/-! ### Running jobs -/

/-- The active jobs of each peer are its running jobs. -/
def Slots (s : Backlog Cid) : Prop :=
  ∀ peer, (s.inner.active.get? peer).getD 0 = s.running.countP (·.job.peerId = peer)

theorem getD_release (active : KeyedList (Prod.fst : Bytes × Nat → Bytes)) (peer p : Bytes) (count : Nat) :
    ((release active peer count).get? p).getD 0 = if p = peer then count - 1 else (active.get? p).getD 0 := by
  rw [release]
  split
  · rename_i hzero
    rw [get?_erase, hzero]
    split <;> rfl
  · rw [get?_put]
    split <;> rfl

theorem Slots.active (h : Slots s) {run : Running Cid} (hr : run ∈ s.running) :
    ∃ count, s.inner.active.get? run.job.peerId = some count := by
  have hc := h run.job.peerId
  have hpos : 0 < s.running.countP (·.job.peerId = run.job.peerId) := countP_pos_iff.mpr ⟨run, hr, decide_eq_true rfl⟩
  cases hg : s.inner.active.get? run.job.peerId with
  | none =>
    rw [hg, getD_none] at hc
    omega
  | some count => exact ⟨count, rfl⟩

theorem Slots.congr {q : Inner Cid} (h : Slots s) (ha : q.active = s.inner.active) :
    Slots { s with inner := q } := fun peer => (congrArg (fun active => (active.get? peer).getD 0) ha).trans (h peer)

theorem Slots.nextJob (hs : Sound lim s) (h : Slots s) (now : Instant) (taken : Bool) : Slots (s.nextJob lim now taken) := by
  rw [Backlog.nextJob]
  split
  · exact h
  rcases hs.accounted.queues.popEligible now with ⟨-, wake, hpop⟩ | ⟨skipped, peer, rest, probeOf, first, queue, -, -, -,
    hg, hpop⟩
  · rw [hpop]
    exact h
  · obtain rfl : first.peerId = peer := hs.accounted.queues.owner hg first mem_cons_self
    have hserved : (s.inner.served skipped rest first.peerId first queue).active =
        s.inner.active.put (first.peerId, (s.inner.active.get? first.peerId).getD 0 + 1) := rfl
    rw [hpop]
    simp only
    split
    · intro p
      rw [hserved, get?_put, countP_append, countP_singleton, ← h p]
      by_cases hp : p = first.peerId
      · rw [if_pos hp, if_pos (decide_eq_true hp.symm), hp, getD_some]
      · rw [if_neg hp, if_neg (by simpa using Ne.symm hp), Nat.add_zero]
    · intro p
      simp only [requeue, hserved, get?_put, if_true, getD_release, ← h p]
      split
      · rename_i hp
        rw [hp, Nat.add_sub_cancel]
      · rfl

section
variable [LinearOrder Cid]

theorem Sound.step {cmd : Command Cid} (h : Sound lim s) : Sound lim (step hashing lim s cmd) := by
  rw [Backlog.step, if_neg (by rw [h.running]; exact Bool.false_ne_true)]
  cases cmd with
  | enqueue job =>
    obtain ⟨ha, hjobs⟩ := enqueue_active s.inner job
    exact ⟨⟨h.accounted.queues.enqueue job, h.accounted.active.congr ha hjobs⟩, h.running⟩
  | nextJob now taken => exact h.nextJob now taken
  | jobDone now worker done =>
    rw [handle, Backlog.jobDone]
    split
    · exact h
    · exact ⟨h.accounted.jobDone now _ done, h.running⟩
  | parkPeerAtCapacity now peer retryAfter => exact ⟨(parkPeer_same ..).accounted h.accounted, h.running⟩
  | parkPeerUnreachable now peer probeOf =>
    obtain ⟨parked, hsame, heq | heq⟩ := parkPeerUnreachable_cases hashing lim now s.inner peer probeOf <;> rw [handle, heq]
    · exact ⟨hsame.accounted h.accounted, h.running⟩
    · exact ⟨(hsame.accounted h.accounted).takeQueuedForPeer peer, h.running⟩
  | peerAnswered peer => exact ⟨(peerAnswered_same ..).accounted h.accounted, h.running⟩
  | takeQueuedForPeer peer => exact ⟨h.accounted.takeQueuedForPeer peer, h.running⟩
  | close => exact ⟨h.accounted.close, h.running⟩

theorem Sound.run (cmds : List (Command Cid)) : Sound lim (run hashing lim cmds) :=
  Run.always Sound.step cmds Sound.empty

/-- After every sequence of commands the counts are the sums they stand for, the ready list holds exactly the peers with
    queued jobs, each once, the limits hold, and no pop has panicked. -/
theorem backlog_accounted (hashing : Hashing) (lim : Limits) (cmds : List (Command Cid)) :
    (run hashing lim cmds).inner.Accounted lim ∧ (run hashing lim cmds).panicked = false :=
  ⟨(Sound.run cmds).accounted, (Sound.run cmds).running⟩

theorem Slots.jobDone (h : Slots s) (now : Instant) (worker : Nat) (done : JobCompletion) :
    Slots (s.jobDone now worker done) := by
  rw [Backlog.jobDone]
  cases hr : s.running[worker]? with
  | none => exact h
  | some run =>
    obtain ⟨hlt, rfl⟩ := List.getElem?_eq_some_iff.mp hr
    obtain ⟨count, hget⟩ := h.active (getElem_mem hlt)
    intro p
    have hs := (getElem_cons_eraseIdx_perm hlt).countP_eq (·.job.peerId = p)
    have hp := h p
    simp only [(jobDone_same hget now done).active, getD_release]
    rw [countP_cons] at hs
    split
    · rename_i heq
      subst heq
      rw [hget, getD_some] at hp
      rw [if_pos (decide_eq_true rfl)] at hs
      omega
    · rename_i hne
      rw [if_neg (by simpa using Ne.symm hne)] at hs
      omega

theorem Slots.step (hs : Sound lim s) (h : Slots s) (cmd : Command Cid) : Slots (step hashing lim s cmd) := by
  rw [Backlog.step, if_neg (by rw [hs.running]; exact Bool.false_ne_true)]
  have htake : ∀ (q : Inner Cid) peer, (q.takeQueuedForPeer peer).2.active = q.active := by
    intro q peer
    rcases takeQueuedForPeer_cases q peer with ⟨-, heq⟩ | ⟨jobs, -, heq⟩ <;> rw [heq]
    rfl
  cases cmd with
  | enqueue job =>
    intro peer
    simp only [handle, (enqueue_active s.inner job).1, countP_map]
    exact h peer
  | nextJob now taken => exact h.nextJob hs now taken
  | jobDone now worker done => exact h.jobDone now worker done
  | parkPeerAtCapacity now peer retryAfter => exact h.congr (parkPeer_same ..).active
  | parkPeerUnreachable now peer probeOf =>
    obtain ⟨parked, hsame, heq | heq⟩ := parkPeerUnreachable_cases hashing lim now s.inner peer probeOf <;> rw [handle, heq]
    · exact h.congr hsame.active
    · exact h.congr ((htake parked peer).trans hsame.active)
  | peerAnswered peer => exact h.congr (peerAnswered_same ..).active
  | takeQueuedForPeer peer => exact h.congr (htake s.inner peer)
  | close => exact h

theorem Slots.run (cmds : List (Command Cid)) : Slots (run hashing lim cmds) := by
  have hinit : Slots ({} : Backlog Cid) := fun _ => rfl
  exact (Run.always (P := fun s => Sound lim s ∧ Slots s) (fun h => ⟨h.1.step, h.2.step h.1 _⟩) cmds ⟨Sound.empty, hinit⟩).2

end
end Backlog
end
end Defra.Push
