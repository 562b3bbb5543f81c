import Mathlib.Data.List.Induction
import Defra.Theorems.Push.Accounting

/-! # Which pushes of the backlog are current

The live heads name each queued job and each running job that no newer head has overtaken, as long as no completion comes from
an overtaken job whose head was enqueued again. -/

namespace Defra.Push
open PushJobSpec Defra.Push.Inner KeyedList List

section
variable {Cid : Type} {lim : Limits} {hashing : Hashing} {jobs : List (PushJobSpec Cid)}

/-! ### Heads and their names -/

def PushJobSpec.head (job : PushJobSpec Cid) : JobKey × HeadVersion Cid := (job.key, job.version)

/-- The map names each of the heads, and they have different keys. -/
structure Named (latest : KeyedList (Prod.fst : JobKey × HeadVersion Cid → JobKey)) (heads : List (JobKey × HeadVersion Cid)) :
    Prop where
  get : ∀ head ∈ heads, latest.get? head.1 = some head.2
  nodup : (heads.map Prod.fst).Nodup

namespace Named
variable {latest : KeyedList (Prod.fst : JobKey × HeadVersion Cid → JobKey)} {heads fewer : List (JobKey × HeadVersion Cid)}
  {job : PushJobSpec Cid}

theorem of_subperm (h : Named latest heads) (hsub : fewer.Subperm heads) : Named latest fewer where
  get head hh := h.get head (hsub.subset hh)
  nodup := by
    obtain ⟨l, hperm, hsub⟩ := hsub
    exact (hperm.map Prod.fst).nodup_iff.mp (h.nodup.sublist (hsub.map Prod.fst))

theorem key_ne (h : Named latest heads) {key : JobKey} (hn : latest.get? key = none) : ∀ head ∈ heads, head.1 ≠ key := by
  intro head hh hk
  rw [← hk, h.get head hh] at hn
  cases hn

theorem put (h : Named latest heads) (hk : ∀ head ∈ heads, head.1 ≠ job.key) :
    Named (latest.put (job.key, job.version)) (job.head :: heads) where
  get head hh := by
    rw [get?_put]
    rcases mem_cons.mp hh with rfl | hh
    · exact if_pos rfl
    · rw [if_neg (hk head hh)]
      exact h.get head hh
  nodup := by
    refine nodup_cons.mpr ⟨fun hmem => ?_, h.nodup⟩
    obtain ⟨head, hh, hfst⟩ := mem_map.mp hmem
    exact hk head hh hfst

theorem erase (h : Named latest heads) {key : JobKey} (hk : ∀ head ∈ heads, head.1 ≠ key) : Named (latest.erase key) heads where
  get head hh := by
    rw [get?_erase, if_neg (hk head hh)]
    exact h.get head hh
  nodup := h.nodup

section
variable [LinearOrder Cid]

/-- Another of its key would have its version. -/
theorem forget (h : Named latest heads) (hj : job.head ∉ heads) : Named (forget latest job) heads := by
  rw [Inner.forget]
  split
  · rename_i hl
    refine h.erase fun head hh hkey => hj ?_
    have hver := h.get head hh
    rw [hkey, hl] at hver
    rwa [show job.head = head from Prod.ext hkey.symm (Option.some.inj hver)]
  · exact h

theorem foldl_forget (h : Named latest heads) (hj : ∀ job ∈ jobs, job.head ∉ heads) :
    Named (jobs.foldl Inner.forget latest) heads := by
  induction jobs generalizing latest with
  | nil => exact h
  | cons job jobs ih =>
    exact ih (h.forget (hj job mem_cons_self)) fun other ho => hj other (mem_cons_of_mem job ho)

end
end Named

namespace Inner
variable {q : Inner Cid} {peer : Bytes} {job : PushJobSpec Cid}

/-! ### Queued heads -/

/-- The heads of the queued jobs. -/
def heads (q : Inner Cid) : List (JobKey × HeadVersion Cid) := q.queues.flat.map head

theorem heads_perm (q : Inner Cid) (peer : Bytes) :
    q.heads.Perm ((q.queue peer).map head ++ (q.queues.erase peer).flat.map head) := by
  rw [← map_append]
  exact (q.queues.flat_perm peer).map _

theorem flat_setList_heads (peer : Bytes) (jobs : List (PushJobSpec Cid)) :
    ((q.queues.setList peer jobs).flat.map head).Perm
      (jobs.map head ++ (q.queues.erase peer).flat.map head) := by
  rw [← map_append]
  exact (q.queues.flat_setList_perm peer jobs).map _

theorem heads_pushBack (q : Inner Cid) (job : PushJobSpec Cid) : (q.pushBack job).heads.Perm (job.head :: q.heads) := by
  have hset : (q.pushBack job).queues = q.queues.setList job.peerId (q.queue job.peerId ++ [job]) :=
    (setList_of_ne_nil (by simp)).symm
  rw [heads, hset]
  refine (flat_setList_heads ..).trans ?_
  rw [map_append, append_assoc]
  exact perm_middle.trans ((q.heads_perm job.peerId).symm.cons job.head)

theorem heads_requeue (q : Inner Cid) (job : PushJobSpec Cid) : (q.requeue job).heads.Perm (job.head :: q.heads) := by
  have hset : (q.requeue job).queues = q.queues.setList job.peerId (job :: q.queue job.peerId) :=
    (setList_of_ne_nil (cons_ne_nil _ _)).symm
  rw [heads, hset]
  exact (flat_setList_heads ..).trans ((q.heads_perm job.peerId).symm.cons job.head)

theorem heads_served {first : PushJobSpec Cid}
    (h : q.queues.get? peer = some (first :: jobs)) (skipped rest : List Bytes) :
    q.heads.Perm (first.head :: (q.served skipped rest peer first jobs).heads) := by
  refine (q.heads_perm peer).trans ?_
  rw [queue_of_get? h, map_cons]
  exact (flat_setList_heads peer jobs).symm.cons first.head

theorem heads_taken [LinearOrder Cid] (h : q.queues.get? peer = some jobs) :
    q.heads.Perm (jobs.map head ++ (q.taken peer jobs).heads) := by
  have hperm := q.heads_perm peer
  rwa [queue_of_get? h] at hperm

theorem heads_coalesce (hh : ∀ old ∈ q.queue job.peerId, old.key = job.key → old.version = job.version) :
    (q.coalesce job).heads.Perm q.heads := by
  rw [coalesce, ← queue]
  cases hf : (q.queue job.peerId).find? (·.key = job.key) with
  | none => exact .rfl
  | some old =>
    obtain ⟨hk, before, after, hsp, hb⟩ := find?_split hf
    have hset : q.queues.put (job.peerId, replaceKey job (q.queue job.peerId)) =
        q.queues.setList job.peerId (before ++ job :: after) := by
      rw [hsp, replaceKey_split hk hb, setList_of_ne_nil (by simp)]
    have hsame : job.head = old.head :=
      Prod.ext hk.symm (hh old (by rw [hsp]; simp) hk).symm
    refine Perm.trans ?_ (q.heads_perm job.peerId).symm
    simp only [heads, hset]
    refine (flat_setList_heads ..).trans (.of_eq ?_)
    rw [hsp, map_append, map_append, map_cons, map_cons, hsame]

theorem Queues.mem_queue (h : Queues lim q) {other : PushJobSpec Cid} (ho : other ∈ q.queues.flat)
    (hk : other.key = job.key) : other ∈ q.queue job.peerId := by
  obtain ⟨p, jobs, hget, hmem⟩ := mem_flat.mp ho
  have hpeer : other.peerId = job.peerId := congrArg JobKey.peerId hk
  rw [← hpeer, h.owner hget other hmem, queue_of_get? hget]
  exact hmem

/-- None is left, and the map has nothing for the key. -/
theorem Queues.named_retire (h : Queues lim q) {others : List (JobKey × HeadVersion Cid)}
    (hnamed : Named q.latest (q.heads ++ others)) (ho : ∀ head ∈ others, head.1 ≠ job.key) :
    Named (q.retire job).latest ((q.retire job).heads ++ others) ∧ (q.retire job).latest.get? job.key = none := by
  have hn : (q.latest.erase job.key).get? job.key = none := by rw [get?_erase, if_pos rfl]
  rw [Inner.retire, Inner.removeQueuedJob, ← queue]
  cases hf : (q.queue job.peerId).find? (·.key = job.key) with
  | none =>
    refine ⟨hnamed.erase fun head hh => ?_, hn⟩
    rcases mem_append.mp hh with hh | hh
    · obtain ⟨other, hother, rfl⟩ := mem_map.mp hh
      intro hk
      exact find?_eq_none.mp hf other (h.mem_queue hother hk) (decide_eq_true hk)
    · exact ho head hh
  | some old =>
    obtain ⟨hk, before, after, hsp, hb⟩ := find?_split hf
    have hperm : q.heads.Perm
        (old.head :: (q.queues.setList job.peerId (before ++ after)).flat.map head) := by
      refine (q.heads_perm job.peerId).trans ?_
      rw [hsp, map_append, map_cons, append_assoc, cons_append]
      refine perm_middle.trans (.cons _ ?_)
      rw [← append_assoc, ← map_append]
      exact (flat_setList_heads ..).symm
    have hrest := hnamed.of_subperm (hperm.append_right others).symm.subperm
    have hdistinct := (nodup_cons.mp hrest.nodup).1
    simp only [heads, show (q.queue job.peerId).eraseP (·.key = job.key) = before ++ after by
      rw [hsp, eraseP_split hk hb]]
    refine ⟨(hrest.of_subperm (sublist_cons_self ..).subperm).erase fun head hh he => hdistinct ?_, hn⟩
    exact mem_map.mpr ⟨head, hh, he.trans hk.symm⟩

end Inner

namespace Backlog
variable {s : Backlog Cid} {job : PushJobSpec Cid}

/-! ### Live heads -/

/-- The heads of the running jobs that no newer head has overtaken. -/
def unmet (running : List (Running Cid)) : List (JobKey × HeadVersion Cid) :=
  (running.filter (!·.overtaken)).map (·.job.head)

/-- The heads of the queued jobs and of the running jobs that no newer head has overtaken. -/
def live (s : Backlog Cid) : List (JobKey × HeadVersion Cid) := s.inner.heads ++ unmet s.running

theorem mem_unmet {running : List (Running Cid)} {head : JobKey × HeadVersion Cid} :
    head ∈ unmet running ↔ ∃ run ∈ running, run.overtaken = false ∧ run.job.head = head := by
  simp [unmet, and_assoc]

/-- The latest versions name the live heads. -/
def Fresh (s : Backlog Cid) : Prop := Named s.inner.latest s.live

theorem Fresh.congr {t : Backlog Cid} (h : Fresh s) (hl : t.inner.latest = s.inner.latest) (hlive : t.live.Subperm s.live) :
    Fresh t := by
  rw [Fresh, hl]
  exact h.of_subperm hlive

theorem Fresh.parked {q : Inner Cid} (h : Fresh s) (hsame : s.inner.SameButParked q) : Fresh { s with inner := q } :=
  h.congr hsame.latest (by rw [live, heads, hsame.queues]; exact Subperm.refl _)

theorem Fresh.admission (h : Fresh s) (hn : s.inner.latest.get? job.key = none) :
    Fresh { s with inner := (s.inner.admission lim job).2 } := by
  rcases admission_cases lim s.inner job with heq | ⟨heq, -⟩ <;> rw [heq]
  · exact h
  · refine (h.put (h.key_ne hn)).of_subperm (Perm.subperm ?_)
    exact (s.inner.heads_pushBack job).append_right (unmet s.running)

theorem Fresh.nextJob (hs : Sound lim s) (h : Fresh s) (now : Instant) (taken : Bool) : Fresh (s.nextJob lim now taken) := by
  rw [Backlog.nextJob]
  split
  · exact h
  rcases hs.accounted.queues.popEligible now with ⟨-, wake, hpop⟩ | ⟨skipped, peer, rest, probeOf, first, queue, -, -, -,
    hget, hpop⟩
  · rw [hpop]
    exact h
  · have hserved := heads_served hget skipped rest
    rw [hpop]
    simp only
    split
    · -- The job goes from the queued to the running ones.
      refine h.congr rfl (Perm.subperm ?_)
      rw [live, unmet, filter_append, map_append, ← append_assoc]
      refine (perm_append_singleton first.head _).trans ?_
      exact (hserved.append_right (unmet s.running)).symm
    · refine h.congr rfl (Perm.subperm (Perm.append_right _ ?_))
      exact (heads_requeue ..).trans hserved.symm

section
variable [LinearOrder Cid]

theorem unmet_offered (job : PushJobSpec Cid) (running : List (Running Cid)) :
    (unmet (running.map (offered job))).Sublist (unmet running) := by
  induction running with
  | nil => exact Sublist.refl _
  | cons run running ih =>
    rw [map_cons, unmet, unmet, filter_cons, filter_cons]
    cases ho : run.overtaken with
    | true =>
      rw [if_neg (by simp [offered, ho])]
      exact ih
    | false =>
      split
      · exact ih.cons_cons _
      · exact ih.cons _

theorem key_ne_of_offered {latest : KeyedList (Prod.fst : JobKey × HeadVersion Cid → JobKey)} {running : List (Running Cid)}
    {current : HeadVersion Cid} (h : Named latest (unmet running)) (hc : latest.get? job.key = some current)
    (hlt : current < job.version) : ∀ head ∈ unmet (running.map (offered job)), head.1 ≠ job.key := by
  intro head hh hk
  have hv := h.get head ((unmet_offered job running).subset hh)
  obtain ⟨run, hr, hover, rfl⟩ := mem_unmet.mp hh
  obtain ⟨run, -, rfl⟩ := mem_map.mp hr
  rw [hk, hc] at hv
  have hnot : ¬ (run.job.key = job.key ∧ run.job.version < job.version) := by
    simpa [offered] using (Bool.or_eq_false_iff.mp hover).2
  exact hnot ⟨hk, lt_of_eq_of_lt (Option.some.inj hv).symm hlt⟩

theorem Fresh.enqueue (hs : Sound lim s) (h : Fresh s) (job : PushJobSpec Cid) :
    Fresh { s with inner := (s.inner.enqueue lim job).2, running := s.running.map (offered job) } := by
  have hr : (s.inner.heads ++ unmet (s.running.map (offered job))).Subperm s.live :=
    ((unmet_offered job s.running).append_left s.inner.heads).subperm
  rcases enqueue_cases lim s.inner job with ⟨heq, -⟩ | ⟨heq, hl⟩ | ⟨heq, hnone⟩ | ⟨heq, current, hc, hlt⟩ <;>
    rw [heq]
  · exact h.congr rfl hr
  · have hv : ∀ old ∈ s.inner.queue job.peerId, old.key = job.key → old.version = job.version := by
      intro old he hk
      have hmem : old.head ∈ s.live := by
        refine mem_append_left _ (mem_map_of_mem ?_)
        exact (s.inner.queues.flat_perm job.peerId).mem_iff.mpr (mem_append_left _ he)
      have hg := h.get _ hmem
      change s.inner.latest.get? old.key = some old.version at hg
      rw [hk, hl] at hg
      exact (Option.some.inj hg).symm
    have hsame : (s.inner.coalesce job).latest = s.inner.latest := by
      rw [coalesce]
      split
      · rfl
      · exact put_of_get? hl
    exact h.congr hsame (((heads_coalesce hv).append_right _).subperm.trans hr)
  · have ho : Fresh { s with running := s.running.map (offered job) } := h.congr rfl hr
    exact ho.admission hnone
  · have hu : Named s.inner.latest (unmet s.running) := h.of_subperm (sublist_append_right ..).subperm
    obtain ⟨hretired, hnone⟩ := hs.accounted.queues.named_retire (h.of_subperm hr) (key_ne_of_offered hu hc hlt)
    have hfresh : Fresh { s with inner := s.inner.retire job, running := s.running.map (offered job) } := hretired
    exact hfresh.admission hnone

theorem Fresh.takeQueuedForPeer (h : Fresh s) (peer : Bytes) : Fresh { s with inner := (s.inner.takeQueuedForPeer peer).2 } := by
  rcases takeQueuedForPeer_cases s.inner peer with ⟨-, heq⟩ | ⟨jobs, hget, heq⟩ <;> rw [heq]
  · exact h
  · have hperm : s.live.Perm (jobs.map head ++ ((s.inner.taken peer jobs).heads ++ unmet s.running)) := by
      rw [← append_assoc]
      exact (heads_taken hget).append_right _
    have hall := h.of_subperm hperm.symm.subperm
    refine (hall.of_subperm (sublist_append_right ..).subperm).foldl_forget fun job hj hmem => ?_
    -- A head of the jobs taken would be named twice.
    have hn := hall.nodup
    rw [map_append] at hn
    exact disjoint_of_nodup_append hn (mem_map_of_mem (mem_map_of_mem hj)) (mem_map_of_mem hmem)

/-- A completion keeps the heads named when no other live job has the head that it forgets. -/
theorem Fresh.jobDone (h : Fresh s) {now : Instant} {worker : Nat} {completion : JobCompletion}
    (hother : ∀ run, s.running[worker]? = some run → run.job.head ∉ live { s with running := s.running.eraseIdx worker }) :
    Fresh (s.jobDone now worker completion) := by
  rw [Backlog.jobDone]
  cases hr : s.running[worker]? with
  | none => exact h
  | some run =>
    have hfewer : (live { s with running := s.running.eraseIdx worker }).Subperm s.live :=
      ((((eraseIdx_sublist s.running worker).filter _).map _).append_left s.inner.heads).subperm
    cases hg : s.inner.active.get? run.job.peerId with
    | none =>
      simp only [Inner.jobDone, hg]
      exact h.congr rfl hfewer
    | some count =>
      have hsame := jobDone_same hg now completion
      have hf := (h.of_subperm hfewer).forget (hother run hr)
      rw [Fresh, live, heads, hsame.latest, hsame.queues]
      exact hf

/-- No completion forgets the head of another live job, and no close comes over a job that may be current. -/
def Undisturbed (s : Backlog Cid) : Command Cid → Prop
  | .jobDone _ worker _ =>
    ∀ run, s.running[worker]? = some run → run.job.head ∉ live { s with running := s.running.eraseIdx worker }
  | .close => ∀ run ∈ s.running, run.overtaken = true
  | _ => True

theorem Fresh.step (hs : Sound lim s) (h : Fresh s) {cmd : Command Cid} (hc : Undisturbed s cmd) :
    Fresh (step hashing lim s cmd) := by
  rw [Backlog.step, if_neg (by rw [hs.running]; exact Bool.false_ne_true)]
  cases cmd with
  | enqueue job => exact h.enqueue hs job
  | nextJob now taken => exact h.nextJob hs now taken
  | jobDone now worker completion => exact h.jobDone hc
  | parkPeerAtCapacity now peer retryAfter => exact h.parked (parkPeer_same ..)
  | parkPeerUnreachable now peer probeOf =>
    obtain ⟨parked, hsame, heq | heq⟩ := parkPeerUnreachable_cases hashing lim now s.inner peer probeOf <;> rw [handle, heq]
    · exact h.parked hsame
    · exact (h.parked hsame).takeQueuedForPeer peer
  | peerAnswered peer => exact h.parked (peerAnswered_same ..)
  | takeQueuedForPeer peer => exact h.takeQueuedForPeer peer
  | close =>
    have hnone : unmet s.running = [] := by
      rw [unmet, filter_eq_nil_iff.mpr fun run hr => by simp [hc run hr]]
      rfl
    have hl : live { s with inner := s.inner.close } = [] := hnone
    rw [handle, Fresh, hl]
    exact ⟨fun head hh => absurd hh not_mem_nil, .nil⟩

/-- Every queued job is the one live head of its key, and a running job is current unless a strictly newer head was offered
    since it was enqueued. -/
structure Current (s : Backlog Cid) : Prop where
  queued : ∀ job ∈ s.inner.queues.flat, s.inner.latest.get? job.key = some job.version
  single : (s.inner.queues.flat.map key).Nodup
  running : ∀ run ∈ s.running, s.inner.isCurrent run.job = false → run.overtaken = true

theorem Fresh.current (h : Fresh s) : Current s where
  queued job hj := h.get job.head (mem_append_left _ (mem_map_of_mem hj))
  single := by
    have hn := h.nodup
    rw [live, heads, map_append, map_map] at hn
    exact (nodup_append.mp hn).1
  running run hr hc := by
    cases ho : run.overtaken with
    | true => rfl
    | false =>
      have hg := h.get run.job.head (mem_append_right _ (mem_unmet.mpr ⟨run, hr, ho, rfl⟩))
      exact absurd (decide_eq_true hg) (Bool.eq_false_iff.mp hc)

theorem Current.undisturbed (hs : Sound lim s) (hslots : Slots s) (h : Current s) {cmd : Command Cid}
    (hnext : Current (step hashing lim s cmd)) : Undisturbed s cmd := by
  rw [Backlog.step, if_neg (by rw [hs.running]; exact Bool.false_ne_true)] at hnext
  cases cmd with
  | jobDone now worker completion =>
    intro run hr hlive
    obtain ⟨count, hg⟩ := hslots.active (mem_of_getElem? hr)
    have hsame := jobDone_same hg now completion
    rw [handle, Backlog.jobDone, hr] at hnext
    have hforgot : ∀ other : PushJobSpec Cid, other.head = run.job.head → s.inner.latest.get? other.key = some other.version →
        (s.inner.jobDone now run.job completion).latest.get? other.key = none := by
      intro other hh ho
      obtain ⟨hk, hv⟩ := Prod.ext_iff.mp hh
      simp only [PushJobSpec.head] at hk hv
      rw [hk, hv] at ho
      rw [hsame.latest, hk]
      simp only [forget, if_pos ho, get?_erase, if_true]
    rcases mem_append.mp hlive with hq | hunmet
    · obtain ⟨other, ho, hh⟩ := mem_map.mp hq
      have hnamed := hnext.queued other (by simpa only [hsame.queues] using ho)
      rw [hforgot other hh (h.queued other ho)] at hnamed
      cases hnamed
    · obtain ⟨other, ho, hover, hh⟩ := mem_unmet.mp hunmet
      have hcur : s.inner.latest.get? other.job.key = some other.job.version := by
        by_contra hnot
        have := h.running other ((eraseIdx_sublist ..).subset ho) (decide_eq_false hnot)
        rw [hover] at this
        cases this
      have hstale := hnext.running other ho (by rw [isCurrent, hforgot other.job hh hcur]; rfl)
      rw [hover] at hstale
      cases hstale
  | close => exact fun run hr => hnext.running run hr rfl
  | _ => trivial

/-- In a run every queued job is the live head of its key and a running job is current until a newer head is offered, exactly
    when no job completes while another live job has its head, and no close comes over a running job that none has overtaken. -/
theorem pushes_current_iff (hashing : Hashing) (lim : Limits) (cmds : List (Command Cid)) :
    (∀ done, done <+: cmds → Current (run hashing lim done)) ↔
      ∀ done cmd, done ++ [cmd] <+: cmds → Undisturbed (run hashing lim done) cmd := by
  have hr : ∀ (done : List (Command Cid)) (cmd : Command Cid),
      run hashing lim (done ++ [cmd]) = step hashing lim (run hashing lim done) cmd :=
    fun done cmd => foldl_append
  constructor
  · intro h done cmd hc
    have hnext := h _ hc
    rw [hr] at hnext
    exact (h done ((prefix_append done [cmd]).trans hc)).undisturbed (Sound.run done) (Slots.run done) hnext
  · intro h
    suffices hfresh : ∀ done, done <+: cmds → Fresh (run hashing lim done) from fun done hd => (hfresh done hd).current
    intro done
    induction done using reverseRecOn with
    | nil => exact fun _ => ⟨fun head hh => absurd hh not_mem_nil, .nil⟩
    | append_singleton done cmd ih =>
      intro hc
      rw [hr]
      exact (ih ((prefix_append done [cmd]).trans hc)).step (Sound.run done) (h done cmd hc)

end

/-! ### A head enqueued again -/

def headOf (priority : UInt64) : PushJobSpec Nat := .new (fun _ => some priority) (fun _ => []) [1] [1] [] [] 0 [0]

/-- A newer head is refused while one runs; enqueued again, that one is forgotten when the first completes. -/
def enqueuedAgain : List (Command Nat) :=
  [.enqueue (headOf 1), .nextJob 0 true, .enqueue (.new (fun _ => some 1) (fun _ => []) [2] [1] [] [] 0 [0]),
    .enqueue (headOf 2), .nextJob 0 true, .enqueue (headOf 1), .jobDone 0 0 .succeeded]

/-- The job enqueued again is queued without a live head, and not current when it is popped. -/
theorem enqueuedAgain_not_current : ¬ Current (run plainHashing (Limits.new 1 1000 2 2) enqueuedAgain) ∧
    ∃ popped ∈ (run plainHashing (Limits.new 1 1000 2 2) (enqueuedAgain ++ [.nextJob 0 true])).running,
      popped.overtaken = false ∧
      (run plainHashing (Limits.new 1 1000 2 2) (enqueuedAgain ++ [.nextJob 0 true])).inner.isCurrent popped.job = false := by
  constructor
  · intro h
    have hq := h.queued (headOf 1) (mem_of_mem_head? rfl)
    exact absurd hq (by decide)
  · exact ⟨⟨headOf 1, false⟩, mem_of_mem_getLast? rfl, rfl, by decide⟩

end Backlog
end
end Defra.Push
