import Mathlib.Data.List.Induction
import Defra.Theorems.Push.Accounting

/-! # The bytes of the push backlog

Admission keeps the queued bytes within the cap, or the job alone in the queue. The replacement of a queued job by another of
the same head does not look at the cap. -/

namespace Defra.Push
open List Option

section
variable {Cid : Type} {lim : Limits} {hashing : Hashing}

namespace Inner
variable {q inner' : Inner Cid} {peer : Bytes} {job : PushJobSpec Cid}

def largest (q : Inner Cid) : Nat := (q.queues.flat.map PushJobSpec.residentBytes).foldr max 0

def Bounded (lim : Limits) (q : Inner Cid) : Prop := q.queuedBytes ≤ max lim.byteCapacity q.largest

def Within (lim : Limits) (q : Inner Cid) : Prop := q.queuedBytes ≤ lim.byteCapacity ∨ q.queuedItems ≤ 1

theorem foldr_max_le_sum (sizes : List Nat) : sizes.foldr max 0 ≤ sizes.sum := by
  induction sizes with
  | nil => exact Nat.le_refl 0
  | cons size sizes ih =>
    rw [foldr_cons, sum_cons]
    omega

theorem length_le_one_of_sum_le {sizes : List Nat} (hpos : ∀ size ∈ sizes, 0 < size) (h : sizes.sum ≤ sizes.foldr max 0) :
    sizes.length ≤ 1 := by
  rcases sizes with - | ⟨first, - | ⟨second, sizes⟩⟩
  · exact Nat.zero_le 1
  · exact Nat.le_refl 1
  · have hf := hpos first mem_cons_self
    have hs := hpos second (mem_cons_of_mem first mem_cons_self)
    have hrest := foldr_max_le_sum sizes
    simp only [sum_cons, foldr_cons] at h
    omega

theorem Queues.bounded_iff (h : Queues lim q) : q.Bounded lim ↔ q.Within lim := by
  have hi : q.queuedItems = (q.queues.flat.map PushJobSpec.residentBytes).length := by
    rw [length_map, KeyedList.length_flat, h.items]
  have hb : q.queuedBytes = (q.queues.flat.map PushJobSpec.residentBytes).sum := by
    rw [KeyedList.sum_flat, h.bytes]
  have hpos : ∀ size ∈ q.queues.flat.map PushJobSpec.residentBytes, 0 < size := by
    intro size hs
    obtain ⟨job, -, rfl⟩ := mem_map.mp hs
    exact Nat.lt_add_left _ (by decide)
  rw [Bounded, largest]
  constructor
  · intro hle
    rcases Nat.le_total (q.queues.flat.map PushJobSpec.residentBytes |>.foldr max 0) lim.byteCapacity with hcap | hcap
    · exact .inl (by omega)
    · exact .inr (hi ▸ length_le_one_of_sum_le hpos (by omega))
  · rintro (hle | hle)
    · omega
    · rw [hi] at hle
      rw [hb]
      generalize q.queues.flat.map PushJobSpec.residentBytes = sizes at hle
      rcases sizes with - | ⟨first, - | ⟨second, sizes⟩⟩
      · exact Nat.zero_le _
      · simp
      · simp at hle

theorem Within.of_le (h : q.Within lim) (hbytes : inner'.queuedBytes ≤ q.queuedBytes)
    (hitems : inner'.queuedItems ≤ q.queuedItems) : inner'.Within lim :=
  h.imp (Nat.le_trans hbytes) (Nat.le_trans hitems)

theorem retire_le (q : Inner Cid) (job : PushJobSpec Cid) :
    (q.retire job).queuedBytes ≤ q.queuedBytes ∧ (q.retire job).queuedItems ≤ q.queuedItems := by
  simp only [retire, removeQueuedJob]
  split
  · exact ⟨Nat.le_refl _, Nat.le_refl _⟩
  · exact ⟨Nat.sub_le .., Nat.sub_le ..⟩

theorem Within.admission (h : q.Within lim) (job : PushJobSpec Cid) : (q.admission lim job).2.Within lim := by
  rcases admission_cases lim q job with heq | ⟨heq, -, -, hbytes⟩ <;> rw [heq]
  · exact h
  · rcases hbytes with hitems | hbytes
    · exact .inr (by simp only [pushBack, hitems]; exact Nat.le_refl 1)
    · exact .inl hbytes

/-- It stays within the cap, or the job is the only one. -/
def Fits [LinearOrder Cid] (lim : Limits) (q : Inner Cid) (job : PushJobSpec Cid) : Prop :=
  q.latest.get? job.key = some job.version → ∀ old, (q.queue job.peerId).find? (·.key = job.key) = some old →
    q.queuedItems ≤ 1 ∨ q.queuedBytes - old.residentBytes + job.residentBytes ≤ lim.byteCapacity

theorem within_coalesce_iff [LinearOrder Cid] (h : q.Within lim) (hl : q.latest.get? job.key = some job.version) :
    (q.coalesce job).Within lim ↔ q.Fits lim job := by
  rw [coalesce, ← queue, Fits]
  cases hf : (q.queue job.peerId).find? (·.key = job.key) with
  | none => simp [h]
  | some old =>
    simp only [Within, hl, some.injEq, forall_const, forall_eq']
    exact or_comm

theorem within_enqueue_iff [LinearOrder Cid] (h : q.Within lim) (hopen : q.closed = false) :
    (q.enqueue lim job).2.Within lim ↔ q.Fits lim job := by
  have hfits : q.latest.get? job.key ≠ some job.version → q.Fits lim job := fun hne heq => absurd heq hne
  rcases enqueue_cases lim q job with ⟨heq, hc | ⟨current, hcur, hlt⟩⟩ | ⟨heq, hl⟩ | ⟨heq, hnone⟩ |
    ⟨heq, current, hcur, hlt⟩ <;> rw [heq]
  · rw [hopen] at hc
    cases hc
  · exact ⟨fun _ => hfits (by rw [hcur]; exact fun he => hlt.ne (some.inj he).symm), fun _ => h⟩
  · exact within_coalesce_iff h hl
  · exact ⟨fun _ => hfits (by rw [hnone]; exact (some_ne_none _).symm), fun _ => h.admission job⟩
  · refine ⟨fun _ => hfits (by rw [hcur]; exact fun he => hlt.ne (some.inj he)), fun _ => ?_⟩
    exact (h.of_le (retire_le q job).1 (retire_le q job).2).admission job

theorem SameButParked.within (hsame : SameButParked q inner') (h : q.Within lim) : inner'.Within lim :=
  h.of_le hsame.queuedBytes.le hsame.queuedItems.le

theorem Within.takeQueuedForPeer [LinearOrder Cid] (h : q.Within lim) (peer : Bytes) :
    (q.takeQueuedForPeer peer).2.Within lim := by
  rcases takeQueuedForPeer_cases q peer with ⟨-, heq⟩ | ⟨jobs, -, heq⟩ <;> rw [heq]
  · exact h
  · exact h.of_le (Nat.sub_le ..) (Nat.sub_le ..)

theorem Within.jobDone [LinearOrder Cid] (h : q.Within lim) (now : Instant) (job : PushJobSpec Cid)
    (completion : JobCompletion) : (q.jobDone now job completion).Within lim := by
  cases hg : q.active.get? job.peerId with
  | none =>
    rw [Inner.jobDone, hg]
    exact h
  | some count => exact (jobDone_same hg now completion).within h

end Inner

namespace Backlog

theorem within_nextJob {s : Backlog Cid} (hs : Sound lim s) (h : s.inner.Within lim) (now : Instant) (taken : Bool) :
    (s.nextJob lim now taken).inner.Within lim := by
  rw [nextJob]
  split
  · exact h
  rcases hs.accounted.queues.popEligible now with ⟨-, wake, hpop⟩ | ⟨skipped, peer, rest, probeOf, first, queue, -, -, -,
    hget, hpop⟩
  · rw [hpop]
    exact h
  · have hitems := hs.accounted.queues.items_eq peer
    have hbytes := hs.accounted.queues.bytes_eq peer
    rw [Inner.queue_of_get? hget] at hitems hbytes
    rw [length_cons] at hitems
    rw [Inner.cost_cons] at hbytes
    rw [hpop]
    simp only
    split
    · exact h.of_le (Nat.sub_le ..) (Nat.sub_le ..)
    · -- The job that goes back is the one that left.
      refine h.of_le ?_ ?_
      · change s.inner.queuedBytes - first.residentBytes + first.residentBytes ≤ _
        omega
      · change s.inner.queuedItems - 1 + 1 ≤ _
        omega

section
variable [LinearOrder Cid]

def Fits (lim : Limits) (s : Backlog Cid) : Command Cid → Prop
  | .enqueue job => s.inner.closed = false → s.inner.Fits lim job
  | _ => True

theorem within_step_iff {s : Backlog Cid} (hs : Sound lim s) (h : s.inner.Within lim) (cmd : Command Cid) :
    (step hashing lim s cmd).inner.Within lim ↔ Fits lim s cmd := by
  rw [step, if_neg (by rw [hs.running]; exact Bool.false_ne_true)]
  cases cmd with
  | enqueue job =>
    cases hc : s.inner.closed with
    | false => exact (Inner.within_enqueue_iff h hc).trans ⟨fun hfits _ => hfits, fun hfits => hfits hc⟩
    | true =>
      have heq : (s.inner.enqueue lim job).2 = s.inner := by rw [Inner.enqueue, if_pos hc]
      rw [handle, heq]
      exact ⟨fun _ hopen => absurd (hc.symm.trans hopen) (by decide), fun _ => h⟩
  | nextJob now taken => exact iff_of_true (within_nextJob hs h now taken) trivial
  | jobDone now worker completion =>
    refine iff_of_true ?_ trivial
    rw [handle, jobDone]
    split
    · exact h
    · exact h.jobDone now _ completion
  | parkPeerAtCapacity now peer retryAfter => exact iff_of_true ((Inner.parkPeer_same ..).within h) trivial
  | parkPeerUnreachable now peer probeOf =>
    refine iff_of_true ?_ trivial
    obtain ⟨parked, hsame, heq | heq⟩ := Inner.parkPeerUnreachable_cases hashing lim now s.inner peer probeOf <;> rw [handle, heq]
    · exact hsame.within h
    · exact (hsame.within h).takeQueuedForPeer peer
  | peerAnswered peer => exact iff_of_true ((Inner.peerAnswered_same ..).within h) trivial
  | takeQueuedForPeer peer => exact iff_of_true (h.takeQueuedForPeer peer) trivial
  | close => exact iff_of_true (.inl (Nat.zero_le _)) trivial

/-- The queued bytes stay within the larger of the cap and the largest queued job exactly when every replacement of a job by
    one of the same head stays within the cap or is of the only job. -/
theorem bytes_bounded_iff (hashing : Hashing) (lim : Limits) (cmds : List (Command Cid)) :
    (∀ done, done <+: cmds → (run hashing lim done).inner.Bounded lim) ↔
      ∀ done cmd, done ++ [cmd] <+: cmds → Fits lim (run hashing lim done) cmd := by
  have hstep : ∀ (done : List (Command Cid)) (cmd : Command Cid), (run hashing lim done).inner.Within lim →
      ((run hashing lim (done ++ [cmd])).inner.Within lim ↔ Fits lim (run hashing lim done) cmd) := by
    intro done cmd hd
    rw [run, foldl_append]
    exact within_step_iff (Sound.run done) hd cmd
  have hbounded : ∀ done : List (Command Cid),
      (run hashing lim done).inner.Bounded lim ↔ (run hashing lim done).inner.Within lim :=
    fun done => (Sound.run done).accounted.queues.bounded_iff
  simp only [hbounded]
  constructor
  · intro h done cmd hc
    exact (hstep done cmd (h done ((prefix_append done [cmd]).trans hc))).mp (h _ hc)
  · intro h done
    induction done using reverseRecOn with
    | nil => exact fun _ => .inl (Nat.zero_le _)
    | append_singleton done cmd ih =>
      intro hc
      exact (hstep done cmd (ih ((prefix_append done [cmd]).trans hc))).mpr (h done cmd hc)

end

def pushOf (peer doc : UInt8) (creator : Bytes) : PushJobSpec Nat :=
  .new (fun _ => some 1) (fun _ => []) [peer] [doc] [] creator 0 [0]

/-- Two heads of 131 bytes fit a cap of 270; the first, offered again with a creator of 10 bytes, takes the queue to 272. -/
theorem longer_creator_unbounded : ¬ (run plainHashing (Limits.new 8 270 1 1)
    [.enqueue (pushOf 1 1 []), .enqueue (pushOf 1 2 []), .enqueue (pushOf 1 1 (.replicate 10 0))]).inner.Bounded
      (Limits.new 8 270 1 1) := by
  rw [Inner.Bounded]
  decide

end Backlog
end
end Defra.Push
