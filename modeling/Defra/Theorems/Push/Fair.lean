import Defra.Theorems.Push.Accounting

/-! # The push backlog serves its peers in turn

A pop serves the first ready peer that may be served and moves those before it behind the rest, so every pop brings a peer that
stays eligible nearer to the front. Only a newer head for the one job it has queued moves it back. -/

namespace Defra.Push
open Defra.Push.Inner List

section
variable {Cid : Type} {lim : Limits} {hashing : Hashing}

namespace Inner
variable {q inner' : Inner Cid} {peer : Bytes} {job : PushJobSpec Cid} {k : Nat}

def Eligible (lim : Limits) (now : Instant) (q : Inner Cid) (peer : Bytes) : Prop :=
  q.queue peer ≠ [] ∧ (q.active.get? peer).getD 0 < lim.perPeerActiveCap ∧
    (q.peerCooldowns.get? peer).all fun cooldown => cooldown.until ≤ now ∧ cooldown.unreachable = none

theorem Eligible.free {now : Instant} (h : q.Eligible lim now peer) : q.Free lim now peer := by
  obtain ⟨-, ha, hc⟩ := h
  refine ⟨none, ?_⟩
  have hcap : ¬ (q.active.get? peer).any (lim.perPeerActiveCap ≤ ·) = true := by
    cases hg : q.active.get? peer with
    | none => simp
    | some count =>
      rw [hg] at ha
      simpa using ha
  rw [verdict, if_neg hcap]
  cases hg : q.peerCooldowns.get? peer with
  | none => rfl
  | some cooldown =>
    rw [hg] at hc
    obtain ⟨hu, hreachable⟩ : cooldown.until ≤ now ∧ cooldown.unreachable = none := by simpa using hc
    simp only [if_neg (Nat.not_lt.mpr hu), hreachable]

def Placed (k : Nat) (ready : List Bytes) (peer : Bytes) : Prop := ∃ before after, ready = before ++ peer :: after ∧ before.length ≤ k

theorem Placed.append {ready : List Bytes} (h : Placed k ready peer) (others : List Bytes) : Placed k (ready ++ others) peer := by
  obtain ⟨before, after, rfl, hle⟩ := h
  exact ⟨before, after ++ others, by rw [append_assoc, cons_append], hle⟩

theorem Placed.filter {ready : List Bytes} (h : Placed k ready peer) {other : Bytes} (hne : peer ≠ other) :
    Placed k (ready.filter (· ≠ other)) peer := by
  obtain ⟨before, after, rfl, hle⟩ := h
  refine ⟨before.filter (· ≠ other), after.filter (· ≠ other), ?_, (length_filter_le ..).trans hle⟩
  rw [filter_append, filter_cons_of_pos (by simpa using hne)]

theorem Placed.rotate {skipped rest : List Bytes} {served : Bytes} (h : Placed k (skipped ++ served :: rest) peer)
    (hskipped : peer ∉ skipped) (hs : peer ≠ served) : ∃ j, k = j + 1 ∧ Placed j rest peer := by
  obtain ⟨before, after, hsp, hle⟩ := h
  rcases append_eq_append_iff.mp hsp with ⟨middle, rfl, hr⟩ | ⟨middle, rfl, hr⟩
  · cases middle with
    | nil =>
      cases hr
      exact absurd rfl hs
    | cons first middle =>
      obtain ⟨rfl, rfl⟩ := cons.inj hr
      rw [length_append, length_cons] at hle
      exact ⟨k - 1, by omega, middle, after, rfl, by omega⟩
  · cases middle with
    | nil =>
      cases hr
      exact absurd rfl hs
    | cons first middle =>
      obtain ⟨rfl, -⟩ := cons.inj hr
      exact absurd (by simp) hskipped

def LosesPlace [LinearOrder Cid] (q : Inner Cid) (job : PushJobSpec Cid) : Prop :=
  ∃ queued, q.queue job.peerId = [queued] ∧ queued.key = job.key ∧
    ∃ current, q.latest.get? job.key = some current ∧ current < job.version

theorem Placed.admission (h : Placed k q.ready peer) (job : PushJobSpec Cid) :
    Placed k (q.admission lim job).2.ready peer := by
  rcases admission_cases lim q job with heq | ⟨heq, -⟩ <;> rw [heq]
  · exact h
  · rw [pushBack]
    split
    · exact h.append [job.peerId]
    · exact h

theorem Placed.enqueue [LinearOrder Cid] (h : Placed k q.ready peer)
    (hplace : job.peerId = peer → ¬ q.LosesPlace job) : Placed k (q.enqueue lim job).2.ready peer := by
  rcases enqueue_cases lim q job with ⟨heq, -⟩ | ⟨heq, -⟩ | ⟨heq, -⟩ | ⟨heq, hnewer⟩ <;> rw [heq]
  · exact h
  · have hr : (q.coalesce job).ready = q.ready := by
      rw [coalesce]
      split <;> rfl
    rw [hr]
    exact h
  · exact h.admission job
  · refine Placed.admission ?_ job
    rw [retire, removeQueuedJob, ← queue]
    cases hf : (q.queue job.peerId).find? (·.key = job.key) with
    | none => exact h
    | some removed =>
      obtain ⟨hk, before, after, hs, hb⟩ := find?_split hf
      have herase : (q.queue job.peerId).eraseP (·.key = job.key) = before ++ after := by
        rw [hs, eraseP_split hk hb]
      simp only [herase]
      split
      · rename_i hempty
        obtain ⟨rfl, rfl⟩ := append_eq_nil_iff.mp (isEmpty_iff.mp hempty)
        exact h.filter fun he => hplace he.symm ⟨removed, hs, hk, hnewer⟩
      · exact h

end Inner

namespace Backlog
variable {s : Backlog Cid} {peer : Bytes} {k : Nat}

def servedPeer (lim : Limits) (s : Backlog Cid) : Command Cid → Option Bytes
  | .nextJob now _ =>
    if s.inner.closed then none
    else match s.inner.popEligible lim now with
      | some (.ok job, _) => some job.peerId
      | _ => none
  | _ => none

def EligibleAt (lim : Limits) (peer : Bytes) (s : Backlog Cid) : Command Cid → Prop
  | .nextJob now _ => s.inner.Eligible lim now peer
  | _ => s.inner.queue peer ≠ []

theorem EligibleAt.queue_ne_nil {cmd : Command Cid} (h : EligibleAt lim peer s cmd) : s.inner.queue peer ≠ [] := by
  cases cmd with
  | nextJob now taken => exact h.1
  | _ => exact h

theorem nextJob_placed (hs : Sound lim s) {now : Instant} {served : Bytes}
    (hserved : servedPeer lim s (.nextJob now true) = some served) (hne : peer ≠ served)
    (helig : s.inner.Eligible lim now peer) (h : Placed k s.inner.ready peer) :
    ∃ j, k = j + 1 ∧ Placed j (s.nextJob lim now true).inner.ready peer := by
  rw [servedPeer] at hserved
  rw [nextJob]
  split at hserved
  · cases hserved
  rename_i hopen
  rw [if_neg hopen]
  rcases hs.accounted.queues.popEligible now with ⟨-, wake, hpop⟩ | ⟨skipped, front, rest, probeOf, first, queue, hready, hskipped,
    -, hget, hpop⟩
  · rw [hpop] at hserved
    cases hserved
  · rw [hpop] at hserved ⊢
    obtain rfl : first.peerId = served := Option.some.inj hserved
    obtain rfl : first.peerId = front := hs.accounted.queues.owner hget first mem_cons_self
    rw [hready] at h
    obtain ⟨j, rfl, hr⟩ := h.rotate (fun hmem => hskipped peer hmem helig.free) hne
    refine ⟨j, rfl, ?_⟩
    simp only [if_true, served]
    split
    · exact hr.append skipped
    · exact (hr.append skipped).append [first.peerId]

section
variable [LinearOrder Cid]

def serves (hashing : Hashing) (lim : Limits) (s : Backlog Cid) : List (Command Cid) → List Bytes
  | [] => []
  | cmd :: cmds => (servedPeer lim s cmd).toList ++ serves hashing lim (step hashing lim s cmd) cmds

def UntilServed (hashing : Hashing) (lim : Limits) (peer : Bytes) (P : Backlog Cid → Command Cid → Prop) (s : Backlog Cid) :
    List (Command Cid) → Prop
  | [] => True
  | cmd :: cmds => P s cmd ∧
    (servedPeer lim s cmd ≠ some peer → UntilServed hashing lim peer P (step hashing lim s cmd) cmds)

def KeepsPlace (peer : Bytes) (s : Backlog Cid) : Command Cid → Prop
  | .enqueue job => job.peerId = peer → ¬ s.inner.LosesPlace job
  | _ => True

theorem step_placed (hs : Sound lim s) {cmd : Command Cid} (hserved : servedPeer lim s cmd = none)
    (hplace : KeepsPlace peer s cmd) (hq : (step hashing lim s cmd).inner.queue peer ≠ [])
    (h : Placed k s.inner.ready peer) : Placed k (step hashing lim s cmd).inner.ready peer := by
  have htake : ∀ (q : Inner Cid) other, (q.takeQueuedForPeer other).2.queue peer ≠ [] →
      Placed k q.ready peer → Placed k (q.takeQueuedForPeer other).2.ready peer := by
    intro q other hq h
    rcases takeQueuedForPeer_cases q other with ⟨-, heq⟩ | ⟨jobs, -, heq⟩ <;> rw [heq] at hq ⊢
    · exact h
    · refine h.filter fun he => hq ?_
      rw [queue, taken, KeyedList.get?_erase, if_pos he]
      rfl
  rw [step, if_neg (by rw [hs.running]; exact Bool.false_ne_true)] at hq ⊢
  cases cmd with
  | enqueue job => exact h.enqueue hplace
  | nextJob now taken =>
    rw [servedPeer] at hserved
    rw [handle, nextJob]
    split
    · exact h
    rename_i hopen
    rw [if_neg hopen] at hserved
    rcases hs.accounted.queues.popEligible now with ⟨-, wake, hpop⟩ | ⟨skipped, front, rest, probeOf, first, queue, -, -, -, -, hpop⟩
    · rw [hpop]
      exact h
    · rw [hpop] at hserved
      cases hserved
  | jobDone now worker done =>
    rw [handle, jobDone]
    split
    · exact h
    · rename_i run _
      cases hg : s.inner.active.get? run.job.peerId with
      | none =>
        simp only [Inner.jobDone, hg]
        exact h
      | some count =>
        simp only [(jobDone_same hg now done).ready]
        exact h
  | parkPeerAtCapacity now other retryAfter =>
    rw [handle, (parkPeer_same ..).ready]
    exact h
  | parkPeerUnreachable now other probeOf =>
    obtain ⟨parked, hsame, heq | heq⟩ := parkPeerUnreachable_cases hashing lim now s.inner other probeOf <;>
      rw [handle, heq] at hq ⊢
    · rw [hsame.ready]
      exact h
    · exact htake parked other hq (hsame.ready ▸ h)
  | peerAnswered other =>
    rw [handle, (peerAnswered_same ..).ready]
    exact h
  | takeQueuedForPeer other => exact htake s.inner other hq h
  | close => exact absurd rfl hq

theorem served_of_placed {cmds : List (Command Cid)} (hs : Sound lim s) (hplaced : Placed k s.inner.ready peer)
    (ht : ∀ now, .nextJob now false ∉ cmds) (helig : UntilServed hashing lim peer (EligibleAt lim peer) s cmds)
    (hplace : UntilServed hashing lim peer (KeepsPlace peer) s cmds) (hpops : k < (serves hashing lim s cmds).length) :
    peer ∈ (serves hashing lim s cmds).take (k + 1) := by
  induction cmds generalizing s k with
  | nil => exact absurd hpops (Nat.not_lt_zero k)
  | cons cmd cmds ih =>
    have ht' : ∀ now, .nextJob now false ∉ cmds := fun now hmem => ht now (mem_cons_of_mem cmd hmem)
    rw [serves] at hpops ⊢
    by_cases hp : servedPeer lim s cmd = some peer
    · rw [hp]
      simp
    have hn := helig.2 hp
    cases hserved : servedPeer lim s cmd with
    | none =>
      rw [hserved] at hpops
      -- The peer still has a job at the next command, of which there is one.
      have hq : (step hashing lim s cmd).inner.queue peer ≠ [] := by
        cases cmds with
        | nil => exact absurd hpops (Nat.not_lt_zero k)
        | cons command' cmds => exact hn.1.queue_ne_nil
      exact ih hs.step (step_placed hs hserved hplace.1 hq hplaced) ht' hn (hplace.2 hp) hpops
    | some served =>
      rw [hserved] at hpops hp
      rw [Option.toList_some, singleton_append] at hpops ⊢
      have hne : peer ≠ served := fun he => hp (congrArg some he.symm)
      cases cmd with
      | nextJob now taken =>
        cases taken with
        | false => exact absurd mem_cons_self (ht now)
        | true =>
          have hstep : step hashing lim s (.nextJob now true) = s.nextJob lim now true := by
            rw [step, if_neg (by rw [hs.running]; exact Bool.false_ne_true), handle]
          obtain ⟨j, rfl, hplaced'⟩ := nextJob_placed hs hserved hne helig.1 hplaced
          rw [← hstep] at hplaced'
          rw [length_cons] at hpops
          refine mem_cons_of_mem served (ih hs.step hplaced' ht' hn (hplace.2 ?_) (by omega))
          rw [hserved]
          exact hp
      | _ => cases hserved

/-- A peer at place `k` that stays eligible is served within the next `k + 1` pops, as long as no newer head is offered for
    the only job that it has queued. -/
theorem served_within {cmds : List (Command Cid)} (hs : Sound lim s) (hready : s.inner.ready[k]? = some peer)
    (htaken : ∀ now, .nextJob now false ∉ cmds) (heligible : UntilServed hashing lim peer (EligibleAt lim peer) s cmds)
    (hplace : UntilServed hashing lim peer (KeepsPlace peer) s cmds) (hpops : k < (serves hashing lim s cmds).length) :
    peer ∈ (serves hashing lim s cmds).take (k + 1) := by
  obtain ⟨hlt, hget⟩ := List.getElem?_eq_some_iff.mp hready
  refine served_of_placed hs ⟨s.inner.ready.take k, s.inner.ready.drop (k + 1), ?_, length_take_le ..⟩ htaken heligible
    hplace hpops
  rw [← hget, getElem_cons_drop, take_append_drop]

end

def jobFor (peer doc : UInt8) (priority : UInt64) : PushJobSpec Nat :=
  .new (fun _ => some priority) (fun _ => []) [peer] [doc] [] [] 0 [0]

def twoPeers : Backlog Nat := run plainHashing (Limits.new 8 1000 2 4) [.enqueue (jobFor 1 1 1), .enqueue (jobFor 2 1 1)]

/-- The second of two peers is served by the second pop. -/
theorem second_peer_served : [2] ∈ (serves plainHashing (Limits.new 8 1000 2 4) twoPeers
    [.nextJob 0 true, .enqueue (jobFor 1 2 1), .nextJob 0 true]).take 2 :=
  served_within (k := 1) (Sound.run _) rfl (by simp)
    ⟨by rw [EligibleAt, Eligible]; decide, fun _ => ⟨by change queue _ [2] ≠ []; decide, fun _ =>
      ⟨by rw [EligibleAt, Eligible]; decide, fun _ => trivial⟩⟩⟩
    ⟨trivial, fun _ => ⟨fun hpeer => absurd hpeer (by decide), fun _ => ⟨trivial, fun _ => trivial⟩⟩⟩ (by decide)

/-- Peer 1 is first and stays eligible; a newer head for its only job is enqueued, and the next pop serves peer 2. -/
theorem first_peer_overtaken : twoPeers.inner.ready[0]? = some [1] ∧
    UntilServed plainHashing (Limits.new 8 1000 2 4) [1] (EligibleAt (Limits.new 8 1000 2 4) [1]) twoPeers
      [.enqueue (jobFor 1 1 2), .nextJob 0 true] ∧
    serves plainHashing (Limits.new 8 1000 2 4) twoPeers [.enqueue (jobFor 1 1 2), .nextJob 0 true] = [[2]] := by
  refine ⟨rfl, ⟨?_, fun _ => ⟨?_, fun _ => trivial⟩⟩, by decide⟩
  · change queue _ [1] ≠ []
    decide
  · rw [EligibleAt, Eligible]
    decide

end Backlog
end
end Defra.Push
