import Mathlib.Algebra.GroupWithZero.Nat
import Defra.Bitswap.TaskQueue
import Defra.Lib.Run

/-! A queue pops a task when some peer can run and the peers' order puts it above the frozen ones: its first peer is then not
    frozen and has the least active work. The order puts a frozen peer below every other, but not always the others above it, so
    that a frozen peer may stand in their way. -/

namespace Defra.Bitswap
open List PeerTracker Option
variable {Peer Topic Data : Type} {heap : Heap} {config : Config}
  {merger : TaskMerger Topic Data} {queue : PeerTaskQueue Peer Topic Data} {t : PeerTracker Topic Data} {cap : Nat}

/-! ### One peer -/

namespace PeerTracker

/-- No call makes the freeze level negative or changes the cap. -/
structure Sound (cap : Nat) (t : PeerTracker Topic Data) : Prop where
  freeze : 0 ≤ t.freezeVal
  cap : t.maxActiveWorkPerPeer = cap

/-- Among peers of which none with a pending task is frozen, the order is a preorder. -/
theorem cmp_ne_gt {a b : PeerTracker Topic Data} (ha : a.pendingTasks ≠ [] → a.freezeVal = 0)
    (hb : b.pendingTasks ≠ [] → b.freezeVal = 0) : a.cmp b ≠ .gt ↔ a.pendingTasks = [] ∨ (b.pendingTasks ≠ [] ∧
      (b.activeWork < a.activeWork ∨ b.activeWork = a.activeWork ∧ a.pendingTasks.length ≤ b.pendingTasks.length)) := by
  by_cases hpa : a.pendingTasks = []
  · simp [cmp, hpa]
  · by_cases hpb : b.pendingTasks = []
    · simp [cmp, hpa, hpb]
    · simp only [cmp, List.isEmpty_iff, hpa, hpb, if_false, ha hpa, hb hpb, gt_iff_lt, Int.lt_irrefl, false_or, ne_eq,
        not_false_eq_true, true_and]
      split
      · rw [Nat.compare_eq_gt]
        omega
      · rw [Nat.compare_eq_gt]
        omega

variable {after : PeerTracker Topic Data}

theorem Sound.of_eq (h : Sound cap t) (hf : after.freezeVal = t.freezeVal)
    (hc : after.maxActiveWorkPerPeer = t.maxActiveWorkPerPeer) : Sound cap after :=
  ⟨hf ▸ h.freeze, hc.trans h.cap⟩

theorem Sound.thaw (h : Sound cap t) (ht : t.thaw = some after) : Sound cap after := by
  obtain ⟨level, hl, ha⟩ := bind_eq_some_iff.mp ht
  cases ha
  obtain ⟨-, hl⟩ := ite_none_right_eq_some.mp hl
  cases hl
  refine ⟨?_, h.cap⟩
  have := h.freeze
  simp only [Int.tdiv_eq_ediv_of_nonneg (by omega : 0 ≤ t.freezeVal + 1)]
  omega

theorem Sound.freeze_of_some (h : Sound cap t) (hf : t.freeze = some after) : Sound cap after := by
  obtain ⟨level, hl, ha⟩ := bind_eq_some_iff.mp hf
  cases ha
  obtain ⟨-, hl⟩ := ite_none_right_eq_some.mp hl
  cases hl
  exact ⟨Int.le_add_one h.freeze, h.cap⟩

variable [DecidableEq Topic]

theorem Sound.pushTasksTruncated (h : Sound cap t) (n now : Nat) (tasks : List (Task Topic Data)) :
    Sound cap (t.pushTasksTruncated merger n now tasks) := by
  refine Run.always (fun {t task} h => ?_) _ h
  simp only [pushTask]
  split
  · exact h
  · split <;> exact h.of_eq rfl rfl

theorem Sound.popLoop (targetMinWork fuel : Nat) : ∀ {t : PeerTracker Topic Data} {work : Nat} {out : List (Task Topic Data)}
    {popped : PeerTracker Topic Data × List (Task Topic Data)}, Sound cap t →
    popLoop heap targetMinWork fuel t work out = some popped → Sound cap popped.1 := by
  induction fuel with
  | zero =>
    intro t work out popped h hpop
    cases hpop
    exact h
  | succ fuel ih =>
    intro t work out popped h hpop
    rw [PeerTracker.popLoop] at hpop
    split at hpop
    · cases hpop
      exact h
    · split at hpop
      · cases hpop
        exact h
      · obtain ⟨started, hstart, hpop⟩ := bind_eq_some_iff.mp hpop
        obtain ⟨work', -, hpop⟩ := bind_eq_some_iff.mp hpop
        obtain ⟨activeWork, -, hstart⟩ := bind_eq_some_iff.mp hstart
        cases hstart
        refine ih ?_ hpop
        exact ⟨h.freeze, h.cap⟩

/-- The work of all pending tasks. -/
def pendingWork (t : PeerTracker Topic Data) : Nat := (t.pendingTasks.map (·.2.task.work)).sum

theorem add_sum_filter_le {α : Type} (f : α → Nat) {p : α → Bool} {l : List α} {x : α} (hx : x ∈ l) (hp : p x = false) :
    f x + ((l.filter p).map f).sum ≤ (l.map f).sum := by
  obtain ⟨before, after, rfl⟩ := append_of_mem hx
  have hle : ∀ l : List α, ((l.filter p).map f).sum ≤ (l.map f).sum := fun l => by
    induction l with
    | nil => exact Nat.le_refl _
    | cons a l ih =>
      rw [filter_cons, map_cons, sum_cons]
      split
      · rw [map_cons, sum_cons]
        omega
      · omega
  have := hle before
  have := hle after
  simp only [filter_append, filter_cons, hp, map_append, map_cons, sum_append, sum_cons, Bool.false_eq_true, if_false]
  omega

section
variable {targetMinWork fuel work : Nat} {out : List (Task Topic Data)}

/-- The popped tasks are more than `out`, and the work left fits. -/
def Pops (least : Nat) (popped : Option (PeerTracker Topic Data × List (Task Topic Data))) : Prop :=
  ∃ after tasks, popped = some (after, tasks) ∧ least ≤ tasks.length ∧ after.pendingWork < 2 ^ 64

/-- A turn moves a task's work from the pending work to the active work. -/
theorem popTurn (heap : Heap) (ih : ∀ {t : PeerTracker Topic Data} {work : Nat} {out : List (Task Topic Data)},
      t.activeWork + t.pendingWork < 2 ^ 64 → work + t.pendingWork < 2 ^ 64 →
      Pops out.length (popLoop heap targetMinWork fuel t work out))
    {key : Topic} {task : Task Topic Data} {created : Nat} (hmem : (key, ⟨task, created⟩) ∈ t.pendingTasks)
    (hactive : t.activeWork + t.pendingWork < 2 ^ 64) (hw : work + t.pendingWork < 2 ^ 64) :
    Pops (out.length + 1) (do
      let t ← startTask { t with pendingTasks := t.pendingTasks.filter (·.1 ≠ key) } task
      let work ← checkedWork (work + task.work)
      popLoop heap targetMinWork fuel t work (out ++ [task])) := by
  have hle : task.work + ((t.pendingTasks.filter (·.1 ≠ key)).map (·.2.task.work)).sum ≤ t.pendingWork :=
    add_sum_filter_le (·.2.task.work) hmem (decide_eq_false (not_not_intro rfl))
  rw [startTask, checkedWork, if_pos (show t.activeWork + task.work < 2 ^ 64 by omega), checkedWork,
    if_pos (show work + task.work < 2 ^ 64 by omega), show out.length + 1 = (out ++ [task]).length by simp]
  refine @ih { t with pendingTasks := t.pendingTasks.filter (·.1 ≠ key), activeWork := t.activeWork + task.work,
                            activeTasks := t.activeTasks ++ [task] } (work + task.work) (out ++ [task]) ?_ ?_
  · simp only [pendingWork]
    omega
  · simp only [pendingWork]
    omega

theorem popLoop_pops : ∀ {t : PeerTracker Topic Data} {work : Nat} {out : List (Task Topic Data)},
    t.activeWork + t.pendingWork < 2 ^ 64 → work + t.pendingWork < 2 ^ 64 →
    Pops out.length (popLoop heap targetMinWork fuel t work out) := by
  induction fuel with
  | zero => exact fun hactive _ => ⟨_, _, rfl, Nat.le_refl _, by omega⟩
  | succ fuel ih =>
    intro t work out hactive hw
    rw [popLoop]
    split
    · exact ⟨_, _, rfl, Nat.le_refl _, by omega⟩
    · split
      · exact ⟨_, _, rfl, Nat.le_refl _, by omega⟩
      · rename_i htop
        obtain ⟨after, tasks, hpop, hlen, ha⟩ := popTurn heap ih (heap.mem htop) hactive hw
        exact ⟨after, tasks, hpop, Nat.le_of_succ_le hlen, ha⟩

end

/-- The peer has a pending task, is not frozen and has active work below its cap, or no cap. -/
structure CanRun (t : PeerTracker Topic Data) : Prop where
  pending : t.pendingTasks ≠ []
  unfrozen : t.freezeVal ≤ 0
  below : t.maxActiveWorkPerPeer = 0 ∨ t.activeWork < t.maxActiveWorkPerPeer

theorem CanRun.popTasks (h : CanRun t) (hsound : Sound cap t) (hfits : t.activeWork + t.pendingWork < 2 ^ 64)
    {n : Nat} (hn : 1 ≤ n) : Pops 1 (t.popTasks heap n) := by
  have ht : (heap.top (fun a b => a.2.cmp b.2) t.pendingTasks).isSome := heap.isSome h.pending
  obtain ⟨⟨key, task, created⟩, ht⟩ := isSome_iff_exists.mp ht
  obtain ⟨fuel, hf⟩ := Nat.exists_eq_succ_of_ne_zero (length_eq_zero_iff.not.mpr h.pending)
  have hgo : ¬ (t.freezeVal ≠ 0 ∨ 0 ≥ n ∨
      (t.maxActiveWorkPerPeer > 0 ∧ t.activeWork ≥ t.maxActiveWorkPerPeer)) := by
    have := h.below
    have := h.unfrozen
    have := hsound.freeze
    omega
  rw [PeerTracker.popTasks, hf, popLoop, if_neg hgo, ht]
  exact popTurn heap popLoop_pops (heap.mem ht) hfits (by omega)

end PeerTracker

/-! ### The queue -/

namespace PeerTaskQueue

def Sound (cap : Nat) (queue : PeerTaskQueue Peer Topic Data) : Prop := ∀ e ∈ queue.peerQueue, e.2.Sound cap

/-- No peer with a pending task is frozen, or the order of the peers is a preorder. -/
def Ordered (queue : PeerTaskQueue Peer Topic Data) : Prop :=
  (∀ e ∈ queue.peerQueue, e.2.pendingTasks ≠ [] → e.2.isFrozen = false) ∨
    Preordered (fun a b : Peer × PeerTracker Topic Data => a.2.cmp b.2) queue.peerQueue

theorem Ordered.preordered (h : queue.Ordered) (hsound : Sound cap queue) :
    Preordered (fun a b : Peer × PeerTracker Topic Data => a.2.cmp b.2) queue.peerQueue := by
  refine h.elim (fun hunfrozen => ?_) id
  have hzero : ∀ e ∈ queue.peerQueue, e.2.pendingTasks ≠ [] → e.2.freezeVal = 0 := by
    intro e he hpending
    have := (hsound e he).freeze
    have := hunfrozen e he hpending
    simp only [isFrozen, decide_eq_false_iff_not] at this
    omega
  have hle := fun a ha b hb => cmp_ne_gt (hzero a ha) (hzero b hb)
  constructor
  · intro a ha b hb
    rw [hle a ha b hb, hle b hb a ha]
    by_cases ha : a.2.pendingTasks = []
    · exact .inl (.inl ha)
    · by_cases hb : b.2.pendingTasks = []
      · exact .inr (.inl hb)
      · simp only [ha, hb, false_or, ne_eq, not_false_eq_true, true_and]
        omega
  · intro a ha b hb c hc hab hbc
    rw [hle a ha b hb] at hab
    rw [hle b hb c hc] at hbc
    rw [hle a ha c hc]
    rcases hab with hab | ⟨hb, hab⟩
    · exact .inl hab
    · obtain ⟨hc, hbc⟩ := hbc.resolve_left hb
      exact .inr ⟨hc, by omega⟩

variable [DecidableEq Peer]

theorem Sound.push (h : Sound cap queue) (peer : Peer) (ht : t.Sound cap) : Sound cap (queue.push peer t) := by
  intro e he
  rcases mem_append.mp he with he | he
  · exact h e (mem_filter.mp he).1
  · exact mem_singleton.mp he ▸ ht

variable {after : PeerTaskQueue Peer Topic Data} {peer : Peer}

theorem Sound.of_tracker (h : Sound cap queue) (ht : queue.tracker? peer = some t) : t.Sound cap := by
  obtain ⟨e, he, rfl⟩ := map_eq_some_iff.mp ht
  exact h e (mem_of_find?_eq_some he)

theorem Sound.thawPeer {thaw : PeerTracker Topic Data → Option (PeerTracker Topic Data)}
    (hthaw : ∀ {t after}, PeerTracker.Sound cap t → thaw t = some after → PeerTracker.Sound cap after)
    (h : Sound cap queue) (ha : queue.thawPeer peer thaw = some after) : Sound cap after := by
  rw [PeerTaskQueue.thawPeer] at ha
  split at ha
  · cases ha
    exact h
  · rename_i t ht
    obtain ⟨thawed, hthawed, rfl⟩ := map_eq_some_iff.mp ha
    exact h.push peer (hthaw (h.of_tracker ht) hthawed)

variable [DecidableEq Topic] [DecidableEq Data]

theorem Sound.step (h : Sound config.maxOutstandingWorkPerPeer queue) {call : Call Peer Topic Data}
    (ha : queue.step heap config merger call = some after) : Sound config.maxOutstandingWorkPerPeer after := by
  cases call with
  | pushTasks now n peer tasks =>
    cases ha
    refine h.push peer (.pushTasksTruncated ?_ n now tasks)
    cases ht : queue.tracker? peer with
    | none => exact ⟨Int.le_refl 0, rfl⟩
    | some t => exact h.of_tracker ht
  | popTasks n =>
    obtain ⟨popped, hp, rfl⟩ := map_eq_some_iff.mp ha
    rw [popTasks] at hp
    split at hp
    · cases hp
      exact h
    · rename_i peer t htop
      obtain ⟨tracker', hpop, hp⟩ := bind_eq_some_iff.mp hp
      obtain ⟨work, -, hp⟩ := bind_eq_some_iff.mp hp
      cases hp
      dsimp only
      split
      · exact fun e he => h e (mem_filter.mp he).1
      · exact h.push peer (.popLoop n _ (h _ (heap.mem htop)) hpop)
  | tasksDone peer tasks =>
    simp only [PeerTaskQueue.step, tasksDone] at ha
    split at ha
    · cases ha
      exact h
    · rename_i t ht
      obtain ⟨done, hd, rfl⟩ := map_eq_some_iff.mp ha
      refine h.push peer (Run.alwaysSome (fun {t task after} ht hd => ?_) (h.of_tracker ht) hd)
      obtain ⟨work, -, hd⟩ := bind_eq_some_iff.mp hd
      cases hd
      exact ⟨ht.freeze, ht.cap⟩
  | remove topic peer =>
    simp only [PeerTaskQueue.step, remove] at ha
    cases ht : queue.tracker? peer with
    | none =>
      rw [ht] at ha
      cases ha
      exact h
    | some t =>
      have hrem : (t.remove topic).1.Sound config.maxOutstandingWorkPerPeer := (h.of_tracker ht).of_eq rfl rfl
      rw [ht, map_some] at ha
      dsimp only at ha
      split at ha
      · obtain ⟨frozen, hf, rfl⟩ := map_eq_some_iff.mp ha
        exact h.push peer (hrem.freeze_of_some hf)
      · cases ha
        exact h.push peer hrem
  | thawRound => exact Run.alwaysSome (fun h => h.thawPeer .thaw) h ha
  | fullThaw =>
    refine Run.alwaysSome (fun h => h.thawPeer fun ht hthawed => ?_) h ha
    cases hthawed
    exact ⟨Int.le_refl 0, ht.cap⟩

/-- In every reachable state in which the peers are ordered and no overflow threatens, a peer that can run and is above the
    frozen ones makes `pop_tasks` give a task. -/
theorem popTasks_runs (heap : Heap) (config : Config) (merger : TaskMerger Topic Data) (calls : List (Call Peer Topic Data))
    (queue : PeerTaskQueue Peer Topic Data) (hqueue : run heap config merger calls = some queue) (n : Nat) (hn : 1 ≤ n)
    (hfits : ∀ e ∈ queue.peerQueue, e.2.activeWork + e.2.pendingWork < 2 ^ 64) (hordered : queue.Ordered)
    (hrun : ∃ e ∈ queue.peerQueue, e.2.CanRun ∧ ∀ other ∈ queue.peerQueue, other.2.pendingTasks ≠ [] →
      other.2.isFrozen = true → e.2.cmp other.2 = .gt) :
    ∃ after peer tasks left, queue.popTasks heap n = some (after, some (peer, tasks, left)) ∧ tasks ≠ [] := by
  have hsound : Sound config.maxOutstandingWorkPerPeer queue := Run.alwaysSome (fun h => h.step) (fun _ h => absurd h not_mem_nil) hqueue
  obtain ⟨e, he, hc, habove⟩ := hrun
  have hs : (heap.top (fun a b => a.2.cmp b.2) queue.peerQueue).isSome := heap.isSome (ne_nil_of_mem he)
  obtain ⟨⟨peer, t⟩, ht⟩ := isSome_iff_exists.mp hs
  have hf := heap.mem ht
  have hm : e.2.cmp t ≠ .gt := heap.max (hordered.preordered hsound) ht e he
  -- The first peer is neither without tasks nor frozen, so its active work is at most that of the peer that can run.
  have hp : t.pendingTasks ≠ [] := by
    intro hnil
    refine hm ?_
    rw [PeerTracker.cmp, if_neg (by simpa using hc.pending), if_pos (by simpa using hnil)]
  have hu : t.freezeVal ≤ 0 := by
    by_contra hfrozen
    exact hm (habove _ hf hp (decide_eq_true (Int.not_le.mp hfrozen)))
  have hzero : ∀ other ∈ queue.peerQueue, other.2.freezeVal ≤ 0 → other.2.freezeVal = 0 := fun other ho hle =>
    Int.le_antisymm hle (hsound other ho).freeze
  have hw := (((cmp_ne_gt (fun _ => hzero _ he hc.unfrozen) fun _ => hzero _ hf hu).mp hm).resolve_left
    hc.pending).2
  have hcaps : t.maxActiveWorkPerPeer = e.2.maxActiveWorkPerPeer :=
    ((hsound _ hf).cap).trans ((hsound e he).cap).symm
  have htracker : CanRun t := by
    have := hc.below
    dsimp only at hw
    exact ⟨hp, hu, by omega⟩
  obtain ⟨after, tasks, hpop, hlen, hl⟩ : Pops 1 (t.popTasks heap n) :=
    htracker.popTasks (hsound _ hf) (hfits _ hf) hn
  have hl : after.getPendingWork = some after.pendingWork := if_pos hl
  simp only [popTasks, ht, hpop, hl, bind_eq_bind, bind_some]
  exact ⟨_, peer, tasks, _, rfl, length_pos_iff.mp hlen⟩

/-- Of two items that are not ordered, the one put in last. -/
def latest {α : Type} (cmp : α → α → Ordering) : List α → Option α
  | [] => none
  | x :: items =>
    match latest cmp items with
    | none => some x
    | some best => if cmp x best = .gt then some x else some best

theorem latest_spec {α : Type} {cmp : α → α → Ordering} : ∀ {items : List α}, items ≠ [] → ∃ x ∈ items, latest cmp items = some x ∧
    (Preordered cmp items → ∀ y ∈ items, cmp y x ≠ .gt)
  | [x], _ => by
    refine ⟨x, mem_cons_self, rfl, fun h y hy => ?_⟩
    rw [mem_singleton.mp hy]
    exact (h.total x mem_cons_self x mem_cons_self).elim id id
  | x :: z :: items, _ => by
    obtain ⟨best, hbest, hl, hmax⟩ := latest_spec (cons_ne_nil z items)
    have hsub := fun y (hy : y ∈ z :: items) => mem_cons_of_mem x hy
    have htail := fun h : Preordered cmp (x :: z :: items) => hmax ⟨fun a ha b hb => h.total a (hsub a ha) b (hsub b hb),
      fun a ha b hb c hc => h.trans a (hsub a ha) b (hsub b hb) c (hsub c hc)⟩
    rw [latest, hl]
    by_cases hgt : cmp x best = .gt
    · refine ⟨x, mem_cons_self, if_pos hgt, fun h y hy => ?_⟩
      have hx := (h.total x mem_cons_self best (hsub best hbest)).resolve_left (not_not_intro hgt)
      rcases mem_cons.mp hy with rfl | hz
      · exact (h.total y mem_cons_self y mem_cons_self).elim id id
      · exact h.trans y hy best (hsub best hbest) x mem_cons_self (htail h y hz) hx
    · refine ⟨best, hsub best hbest, if_neg hgt, fun h y hy => ?_⟩
      rcases mem_cons.mp hy with rfl | hz
      · exact hgt
      · exact htail h y hz

def latestHeap : Heap where
  top := latest
  mem {_ _ items _} h := by
    obtain ⟨y, hy, htop, -⟩ := latest_spec (fun hnil : items = [] => by simp [hnil, latest] at h)
    exact some.inj (htop.symm.trans h) ▸ hy
  isSome h := by
    obtain ⟨y, -, htop, -⟩ := latest_spec h
    exact isSome_of_eq_some htop
  max {_ _ items _} hpre h := by
    obtain ⟨y, -, htop, hmax⟩ := latest_spec (fun hnil : items = [] => by simp [hnil, latest] at h)
    exact some.inj (htop.symm.trans h) ▸ hmax hpre

/-- Tasks do not replace each other. -/
def plainMerger : TaskMerger Nat Unit := ⟨fun _ _ => false, fun _ old => old⟩

def oneTask (topic : Nat) : Task Nat Unit := ⟨topic, 1, 1, ()⟩

/-- Peer 1 can run, but the frozen peer 2 has more tasks and comes first. -/
theorem popTasks_behind_frozen : ∃ (heap : Heap) (config : Config) (merger : TaskMerger Nat Unit) (calls : List (Call Nat Nat Unit))
    (queue : PeerTaskQueue Nat Nat Unit), run heap config merger calls = some queue ∧
    (∃ e ∈ queue.peerQueue, e.2.CanRun) ∧
      ∃ after peer left, queue.popTasks heap 1 = some (after, some (peer, [], left)) :=
  ⟨latestHeap, ⟨false, 0⟩, plainMerger, [.pushTasks 0 9 1 [oneTask 1], .pushTasks 0 9 2 [oneTask 2, oneTask 3, oneTask 4],
    .remove 4 2], _, rfl, ⟨_, mem_cons_self, ⟨cons_ne_nil _ _, by decide, by decide⟩⟩, _, 2, 2, rfl⟩

/-- Peer 0 is at its cap, peer 2 is frozen, and peer 1, with more tasks than peer 2, can run. -/
def threePeers : List (Call Nat Nat Unit) :=
  [.pushTasks 0 9 0 [⟨1, 2, 2, ()⟩, oneTask 2], .popTasks 1, .pushTasks 0 9 1 [oneTask 3, oneTask 4],
    .pushTasks 0 9 2 [oneTask 5, oneTask 6], .remove 6 2]

theorem popTasks_runs_threePeers : ∃ queue, run latestHeap ⟨false, 2⟩ plainMerger threePeers = some queue ∧
    (queue.peerQueue.map fun e => (e.2.isFrozen, e.2.activeWork)) = [(false, 2), (false, 0), (true, 0)] ∧
    ∃ after peer tasks left, queue.popTasks latestHeap 1 = some (after, some (peer, tasks, left)) ∧ tasks ≠ [] := by
  refine ⟨_, rfl, rfl, popTasks_runs latestHeap ⟨false, 2⟩ plainMerger threePeers _ rfl 1 (Nat.le_refl 1) (by decide)
    (.inr ⟨by decide, by decide⟩) ⟨_, .tail _ mem_cons_self, ⟨cons_ne_nil _ _, by decide, by decide⟩, by decide⟩⟩

end PeerTaskQueue
end Defra.Bitswap
