import Defra.Lib.Run
import Defra.Theorems.Bitswap.Get

/-! Every call keeps each get in step with the log, so that a get with a fetch waiting gives up only when every provider it was
    given has been asked to the end. -/

namespace Defra.Bitswap
open KeyedList
variable {Peer Cid : Type} [LinearOrder Peer] [LinearOrder Cid] {order : HashOrder} {cl : Client Peer Cid}
  {log : List (Event Peer Cid)} {cid : Cid} {act : Act Peer}

/-! ### Logs -/

/-- Each get has at most one block request outstanding, and one with waiters was released without the block only once given
    up. -/
def Sound : List (Event Peer Cid) → Prop
  | [] => True
  | event :: log => Sound log ∧ (∀ cid, (view cid (event :: log)).AtMostOne) ∧
    ∀ waiters, event.act = .released waiters false → waiters ≠ [] → (view event.cid log).GivenUp

theorem Sound.atMostOne (h : Sound log) (cid : Cid) : (view cid log).AtMostOne := by
  cases log with
  | nil => exact fun p q hp => by cases hp
  | cons event log => exact h.2.1 cid

theorem Sound.of_suffix {earlier : List (Event Peer Cid)} (h : Sound log) (hsuf : earlier <:+ log) : Sound earlier := by
  induction log with
  | nil => exact List.suffix_nil.mp hsuf ▸ h
  | cons event log ih =>
    rcases List.suffix_cons_iff.mp hsuf with rfl | hsuf
    · exact h
    · exact ih h.1 hsuf

theorem Sound.cons (h : Sound log) (hone : ((view cid log).after act).AtMostOne)
    (hup : ∀ waiters, act = .released waiters false → waiters ≠ [] → (view cid log).GivenUp) :
    Sound (⟨cid, act⟩ :: log) := by
  refine ⟨h, fun other => ?_, hup⟩
  by_cases hne : cid = other
  · subst hne
    rw [view_cons_self]
    exact hone
  · rw [view_cons_of_ne act log hne]
    exact h.atMostOne other

/-! ### The invariant -/

/-- Between calls, the get is in step with the log and waits for no one without need. -/
structure Rests (view : View Peer) (get : Get Peer) : Prop where
  working : Working view get []
  waits : get.Waits

namespace Client

/-- The log is sound, and every get is in step with it. -/
structure Inv (cl : Client Peer Cid) : Prop where
  sound : Sound cl.log
  rests : ∀ cid get, cl.gets.get? cid = some get → Rests (view cid cl.log) get

/-- A get taken out of the client, with requests to issue. -/
structure Holds (cl : Client Peer Cid) (cid : Cid) (get : Get Peer) (todo : List (Peer × Kind)) : Prop where
  inv : cl.Inv
  absent : cl.gets.get? cid = none
  working : Working (view cid cl.log) get todo

variable {get : Get Peer}

namespace Inv

theorem congr (h : cl.Inv) {client' : Client Peer Cid} (hg : client'.gets = cl.gets) (hl : client'.log = cl.log) :
    client'.Inv :=
  ⟨hl ▸ h.sound, fun cid get hget => hl ▸ h.rests cid get (hg ▸ hget)⟩

theorem erase (h : cl.Inv) (cid : Cid) : Inv { cl with gets := cl.gets.erase cid } where
  sound := h.sound
  rests other get hg := by
    rw [get?_erase] at hg
    split_ifs at hg
    exact h.rests other get hg

theorem put (h : cl.Inv) (hget : Rests (view cid cl.log) get) :
    Inv { cl with gets := cl.gets.put (cid, get) } where
  sound := h.sound
  rests other got hg := by
    rw [get?_put] at hg
    split_ifs at hg with heq
    · cases hg
      exact heq ▸ hget
    · exact h.rests other got hg

theorem record (h : cl.Inv) (habs : cl.gets.get? cid = none) (hone : ((view cid cl.log).after act).AtMostOne)
    (hup : ∀ waiters, act = .released waiters false → waiters ≠ [] → (view cid cl.log).GivenUp) :
    (cl.record cid act).Inv where
  sound := h.sound.cons hone hup
  rests other get hg := by
    have hne : cid ≠ other := by
      rintro rfl
      cases habs.symm.trans hg
    rw [Client.record, view_cons_of_ne act cl.log hne]
    exact h.rests other get hg

theorem get_erased (h : cl.Inv) (hg : cl.gets.get? cid = some get) :
    Holds { cl with gets := cl.gets.erase cid } cid get [] ∧ get.Waits :=
  ⟨⟨h.erase cid, by rw [get?_erase, if_pos rfl], (h.rests cid get hg).working⟩, (h.rests cid get hg).waits⟩

end Inv

theorem Holds.put (h : cl.Holds cid get []) (hwaits : get.Waits) :
    Inv { cl with gets := cl.gets.put (cid, get) } := h.inv.put ⟨h.working, hwaits⟩

variable {todo : List (Peer × Kind)}

theorem Holds.congr (h : cl.Holds cid get todo)
    {client' : Client Peer Cid} (hg : client'.gets = cl.gets) (hl : client'.log = cl.log) :
    client'.Holds cid get todo :=
  ⟨h.inv.congr hg hl, hg ▸ h.absent, hl ▸ h.working⟩

theorem Holds.record {get' : Get Peer} {todo' : List (Peer × Kind)} (h : cl.Holds cid get todo)
    (hw : Working ((view cid cl.log).after act) get' todo')
    (ha : ∀ waiters, act ≠ .released waiters false) : (cl.record cid act).Holds cid get' todo' where
  inv := h.inv.record h.absent hw.atMostOne fun waiters heq => absurd heq (ha waiters)
  absent := h.absent
  working := by
    rw [Client.record, view_cons_self]
    exact hw

/-! ### Parts of a call -/

@[simp] theorem leavePeer_gets (cl : Client Peer Cid) (peer : Peer) (cid : Cid) :
    (cl.leavePeer peer cid).gets = cl.gets := by
  unfold leavePeer
  split
  · rfl
  · split <;> rfl

@[simp] theorem leavePeer_log (cl : Client Peer Cid) (peer : Peer) (cid : Cid) :
    (cl.leavePeer peer cid).log = cl.log := by
  unfold leavePeer
  split
  · rfl
  · split <;> rfl

@[simp] theorem endRequest_gets (cl : Client Peer Cid) (peer : Peer) (cid : Cid) (slot : Slot) (cancel : Bool) :
    (cl.endRequest peer cid slot cancel).gets = cl.gets := by
  unfold endRequest
  cases slot.deadline <;> cases slot.queued <;> simp [freeSlot]

@[simp] theorem endRequest_log (cl : Client Peer Cid) (peer : Peer) (cid : Cid) (slot : Slot) (cancel : Bool) :
    (cl.endRequest peer cid slot cancel).log = cl.log := by
  unfold endRequest
  cases slot.deadline <;> cases slot.queued <;> simp [freeSlot]

theorem drain_gets_log (order : HashOrder) (cl : Client Peer Cid) (cid : Cid) (get : Get Peer) (delivered : Option Peer) :
    (cl.drain order cid get delivered).gets = cl.gets ∧ (cl.drain order cid get delivered).log = cl.log := by
  refine Run.always (P := fun c : Client Peer Cid => c.gets = cl.gets ∧ c.log = cl.log) ?_ _ ⟨rfl, rfl⟩
  rintro c request ⟨hg, hl⟩
  exact ⟨(endRequest_gets ..).trans hg, (endRequest_log ..).trans hl⟩

theorem Holds.issue {peer : Peer} {kind : Kind} (h : cl.Holds cid get ((peer, kind) :: todo)) :
    (cl.issue get cid peer kind).1.Holds cid (cl.issue get cid peer kind).2 todo :=
  (h.record (h.working.issue rfl) nofun).congr rfl rfl

theorem Holds.issueAll : ∀ {todo : List (Peer × Kind)} {cl : Client Peer Cid} {get : Get Peer},
    cl.Holds cid get todo → get.Waits →
    (cl.issueAll get cid todo).1.Holds cid (cl.issueAll get cid todo).2 [] ∧ (cl.issueAll get cid todo).2.Waits
  | [], _, _, h, hwaits => ⟨h, hwaits⟩
  | (peer, kind) :: _, cl, get, h, hwaits => by
    have hsame : (cl.issue get cid peer kind).2.Waits := hwaits
    have hrest := Holds.issueAll h.issue hsame
    exact hrest

theorem Holds.issueNext (next : Option Peer)
    (h : cl.Holds cid get (next.toList.map fun next => (next, .block))) (hwaits : get.Waits) :
    (cl.issueNext get cid next).1.Holds cid (cl.issueNext get cid next).2 [] ∧
      (cl.issueNext get cid next).2.Waits := by
  cases next with
  | none => exact ⟨h, hwaits⟩
  | some peer => exact ⟨h.issue, hwaits⟩

@[simp] theorem resolve_gets (cl : Client Peer Cid) (id : FetchId) (fetch : Fetch Cid) (cid : Cid) :
    (cl.resolve id fetch cid).gets = cl.gets := by
  unfold resolve
  split <;> rfl

@[simp] theorem resolve_log (cl : Client Peer Cid) (id : FetchId) (fetch : Fetch Cid) (cid : Cid) :
    (cl.resolve id fetch cid).log = cl.log := by
  unfold resolve
  split <;> rfl

theorem Holds.released (h : cl.Holds cid get []) (delivered : Option Peer)
    (hup : delivered = none → get.waiters ≠ [] → (view cid cl.log).GivenUp) :
    ((cl.drain order cid get delivered).record cid (.released get.waiters delivered.isSome)).Inv := by
  obtain ⟨hgets, hl⟩ := drain_gets_log order cl cid get delivered
  refine (h.inv.congr hgets hl).record (hgets ▸ h.absent) (fun p q hp => by cases hp) ?_
  intro waiters heq hne
  cases delivered with
  | some peer => cases heq
  | none =>
    obtain ⟨rfl, -⟩ := Act.released.inj heq
    rw [hl]
    exact hup rfl hne

theorem Holds.releaseEmpty (h : cl.Holds cid get [])
    (hup : get.waiters ≠ [] → (view cid cl.log).GivenUp) : (cl.releaseEmpty order cid get).Inv := by
  refine Run.always (P := Inv) ?_ _ (h.released none fun _ => hup)
  intro c id hc
  split
  · exact hc
  · exact hc.congr (resolve_gets ..) (resolve_log ..)

section
variable (h : cl.Inv)
include h

/-! ### Calls -/

theorem Inv.leaveGet (id : FetchId) (cid : Cid) : (leaveGet order id cl cid).Inv := by
  unfold Client.leaveGet
  split
  · exact h
  next get hg =>
    obtain ⟨hh, hwaits⟩ := h.get_erased hg
    have hleft : Holds { cl with gets := cl.gets.erase cid } cid
        { get with waiters := get.waiters.filter (· ≠ id) } [] := ⟨hh.inv, hh.absent, hh.working.waiters _⟩
    dsimp only
    split_ifs with he
    · exact hleft.releaseEmpty (absurd he)
    · exact hleft.put hwaits

theorem Inv.cancelFetch (id : FetchId) : (cl.cancelFetch order id).1.Inv := by
  unfold Client.cancelFetch
  split
  · exact h
  · exact Run.always (P := Inv) (fun hc => hc.leaveGet id _) _ (h.congr rfl rfl)

omit h in
theorem Holds.releaseBlock (h : cl.Holds cid get []) (peer : Peer) : (cl.releaseBlock order cid get peer).Inv := by
  refine Run.always (P := Inv) ?_ _ (h.released (some peer) nofun)
  intro c id hc
  split
  · exact hc
  · split_ifs
    · exact hc.cancelFetch id
    · exact hc.congr (resolve_gets ..) (resolve_log ..)

theorem Inv.cancelAbandoned (cid : Cid) : (cl.cancelAbandoned order cid).Inv := by
  unfold Client.cancelAbandoned
  split
  · exact h
  · exact Run.always (P := Inv) (fun hc => hc.cancelFetch _) _ h

theorem Inv.restore (hg : cl.gets.get? cid = some get) {peer : Peer}
    {slot : Slot} (slot' : Slot) (hs : get.requests.get? peer = some slot) (hk : slot'.kind = slot.kind) :
    Inv { cl with gets := cl.gets.put (cid, { get with requests := get.requests.put (peer, slot') }) } :=
  h.put ⟨(h.rests cid get hg).working.restore hs hk, (h.rests cid get hg).waits⟩

variable (peer : Peer)

theorem Inv.sendQueued (cid : Cid) (seq : Nat) : (cl.sendQueued peer cid seq).Inv := by
  unfold Client.sendQueued
  split
  · exact h
  next get hg =>
    split
    · exact h
    next slot hs =>
      split_ifs
      · exact (h.restore hg { slot with queued := false } hs rfl).congr rfl rfl
      · exact h

omit h in
theorem Inv.refillLoop (peer : Peer) : ∀ (turns : Nat) {cl : Client Peer Cid}, cl.Inv →
    (refillLoop order peer turns cl).Inv
  | 0, _, h => h
  | turns + 1, cl, h => by
    rw [Client.refillLoop]
    split
    · exact h
    · split
      · exact h
      · split_ifs
        · refine Inv.refillLoop peer turns (Inv.sendQueued (Inv.cancelAbandoned ?_ _) peer _ _)
          exact h.congr rfl rfl
        · exact h

theorem Inv.refillPeer : (cl.refillPeer order peer).Inv := by
  unfold Client.refillPeer
  dsimp only
  split
  · exact h.refillLoop peer _
  · split_ifs
    · exact (h.refillLoop peer _).congr rfl rfl
    · exact h.refillLoop peer _

omit h in
theorem Inv.settleLoop : ∀ (turns : Nat) {cl : Client Peer Cid}, cl.Inv → (settleLoop order turns cl).Inv
  | 0, _, h => h
  | turns + 1, cl, h => by
    rw [Client.settleLoop]
    split
    · exact h
    next peer _ =>
      refine Inv.settleLoop turns (Inv.refillPeer ?_ peer)
      exact h.congr rfl rfl

theorem Inv.settle : (cl.settle order).Inv := Inv.settleLoop _ h

omit h in
theorem Holds.give : ∀ {ps : List Peer} {cl : Client Peer Cid},
    cl.Holds cid get todo → (∀ peer ∈ ps, peer ∈ get.asked) →
    (ps.foldl (fun cl peer => cl.record cid (.given peer)) cl).Holds cid get todo
  | [], _, h, _ => h
  | peer :: ps, cl, h, ha => by
    rw [List.foldl_cons]
    exact Holds.give (h.record (h.working.give (ha peer List.mem_cons_self)) nofun)
      fun q hq => ha q (List.mem_cons_of_mem peer hq)

omit h in
theorem Holds.provided (h : cl.Holds cid get []) (hwaits : get.Waits) (ps : List Peer) :
    let provided := get.provide ps
    let issued := (ps.foldl (fun cl peer => cl.record cid (.given peer)) cl).issueAll provided.1 cid provided.2
    Inv { issued.1 with gets := issued.1.gets.put (cid, issued.2) } := by
  intro provided issued
  have hp : cl.Holds cid provided.1 provided.2 := ⟨h.inv, h.absent, h.working.provide ps⟩
  have ha : ∀ peer ∈ ps, peer ∈ provided.1.asked := fun peer hpeer => Get.mem_asked_provide ps (.inr hpeer)
  have hall := (hp.give ha).issueAll (Get.waits_provide ps hwaits)
  exact hall.1.put hall.2

theorem Inv.fetchCid (id : FetchId) (ps : List Peer) (cid : Cid) : (fetchCid id ps cl cid).Inv := by
  unfold Client.fetchCid
  cases hg : cl.gets.get? cid with
  | some get =>
    obtain ⟨hh, hwaits⟩ := h.get_erased hg
    have hjoined : Holds { cl with gets := cl.gets.erase cid } cid { get with waiters := get.waiters ++ [id] } [] :=
      ⟨hh.inv, hh.absent, hh.working.waiters _⟩
    exact hjoined.provided hwaits ps
  | none =>
    have ho : (cl.record cid .opened).Holds cid { waiters := [id] } [] :=
      ⟨h.record hg (fun p q hp => by cases hp) nofun, hg, by
        rw [Client.record, view_cons_self]
        exact Working.new.waiters [id]⟩
    exact ho.provided (fun _ => rfl) ps

theorem Inv.fetch (cids : List Cid) (ps : List Peer) : (cl.fetch cids ps).1.Inv := by
  unfold Client.fetch
  dsimp only
  split_ifs
  · exact h.congr rfl rfl
  · exact Run.always (P := Inv) (fun hc => hc.fetchCid _ _ _) _ (h.congr rfl rfl)

theorem Inv.answer (peer : Peer) (cid : Cid) (answer : Answer) : (cl.answer order peer cid answer).Inv := by
  unfold Client.answer
  split
  · exact h
  next get hg =>
    split
    · exact h
    next slot hs =>
      obtain ⟨hs, -⟩ := Option.filter_eq_some_iff.mp hs
      obtain ⟨hh, -⟩ := h.get_erased hg
      obtain ⟨hw, hwaits⟩ := hh.working.answer answer hs rfl
      have hcore : Holds ({ cl with gets := cl.gets.erase cid }.endRequest peer cid slot answer.cancels) cid get [] :=
        hh.congr (endRequest_gets ..) (endRequest_log ..)
      rw [← endRequest_log { cl with gets := cl.gets.erase cid } peer cid slot answer.cancels] at hw
      have hended := hcore.record hw nofun
      obtain ⟨hissued, hwaits⟩ := hended.issueNext _ hwaits
      dsimp only
      split_ifs with he
      · exact hissued.releaseEmpty fun _ => hissued.working.givenUp hwaits he
      · exact hissued.put hwaits

theorem Inv.deliver (peer : Peer) (cid : Cid) : (deliver order peer cl cid).Inv := by
  unfold Client.deliver
  split
  · exact h
  next get hg => exact (h.get_erased hg).1.releaseBlock peer

theorem Inv.onMessage (bs : List Cid) (presences : List (Cid × Bool)) :
    (cl.onMessage order peer bs presences).Inv := by
  unfold Client.onMessage
  split_ifs
  · exact h
  · refine Inv.settle (Run.always (P := Inv) (fun hc => hc.answer peer _ _) presences ?_)
    exact Run.always (P := Inv) (fun hc => hc.deliver peer _) bs h

theorem Inv.onPeerDisconnected : (cl.onPeerDisconnected order peer).Inv :=
  Inv.settle (Run.always (P := Inv) (fun hc => hc.answer peer _ _) _ (h.congr rfl rfl))

theorem Inv.sent (peer : Peer) (ok : Bool) (sentAt : Instant) (request : Cid × Nat) :
    (sent order peer ok sentAt cl request).Inv := by
  unfold Client.sent
  split
  · exact h
  next get hg =>
    split
    · exact h
    next slot hs =>
      obtain ⟨hs, -⟩ := Option.filter_eq_some_iff.mp hs
      split_ifs
      · exact (h.restore hg { slot with deadline := some (sentAt + requestTimeout) } hs rfl).congr rfl rfl
      · exact h.answer peer request.1 .failed

omit h in
theorem Inv.expireLoop (now : Instant) : ∀ (turns : Nat) {cl : Client Peer Cid}, cl.Inv →
    (expireLoop order now turns cl).Inv
  | 0, _, h => h
  | turns + 1, cl, h => by
    rw [Client.expireLoop]
    split
    · exact h
    · split_ifs
      · exact h
      · refine Inv.expireLoop now turns (Inv.answer ?_ _ _ _)
        exact h.congr rfl rfl

/-- Every call keeps the gets in step with the log. -/
theorem Inv.step (call : Call Peer Cid) : (cl.step order call).Inv := by
  cases call with
  | fetch cids ps => exact h.fetch cids ps
  | cancel id => exact (h.cancelFetch id).settle
  | onMessage peer bs presences => exact h.onMessage peer bs presences
  | onPeerDisconnected peer => exact h.onPeerDisconnected peer
  | onResponsive peer =>
    rw [Client.step, Client.onResponsive]
    split_ifs
    · exact h.congr rfl rfl
    · exact h
  | sendDone peer requests ok sentAt =>
    exact Inv.settle (Run.always (P := Inv) (fun hc => hc.sent peer ok sentAt _) requests (h.congr rfl rfl))
  | expire now => exact Inv.settle (h.expireLoop now _)
  | takeReady protocol => exact h.congr rfl rfl
  | takeKeepAlive => exact h.congr rfl rfl
  | dropReceiver id =>
    rw [Client.step, Client.dropReceiver]
    split
    · exact h
    · exact h.congr rfl rfl

end

variable (calls : List (HashOrder × Call Peer Cid))

/-! ### Runs -/

theorem run_inv : (run calls).Inv :=
  Run.always (P := Inv) (fun hc => hc.step _) calls ⟨trivial, fun cid get hg => by cases hg⟩

/-- After any calls each get has at most one block request outstanding, and so it was at every point of the log. A get with a
    fetch waiting was released without the block only when every provider it was given had been asked, and the last request
    to each had ended with a no, a timeout or a failure. -/
theorem get_complete :
    (∀ cid get, (run calls).gets.get? cid = some get → ∀ p q slot slot', get.requests.get? p = some slot →
      get.requests.get? q = some slot' → slot.kind = .block → slot'.kind = .block → p = q) ∧
    (∀ log, log <:+ (run calls).log → ∀ cid, (view cid log).AtMostOne) ∧
    ∀ log cid waiters, ⟨cid, .released waiters false⟩ :: log <:+ (run calls).log → waiters ≠ [] →
      (view cid log).GivenUp := by
  have hinv := run_inv calls
  refine ⟨fun cid get hg p q slot slot' hp hq hk hk' => ?_, fun log hl => (hinv.sound.of_suffix hl).atMostOne, ?_⟩
  · have hr := (hinv.rests cid get hg).working
    exact hr.atMostOne p q ((hr.outstanding p .block).mpr ⟨slot, hp, hk⟩)
      ((hr.outstanding q .block).mpr ⟨slot', hq, hk'⟩)
  · intro log cid waiters hl hne
    exact (hinv.sound.of_suffix hl).2.2 waiters rfl hne

def inOrder : HashOrder := ⟨id, List.Perm.refl⟩

def backwards : HashOrder := ⟨List.reverse, List.reverse_perm⟩

/-- The second provider has the block and is asked once the first says no. -/
def twoProviders : List (HashOrder × Call Nat Nat) :=
  [(inOrder, .fetch [7] [1, 2]), (backwards, .onMessage 2 [] [(7, true)]), (inOrder, .onMessage 1 [] [(7, false)]),
    (backwards, .onMessage 2 [] [(7, false)])]

/-- The fetch still waits when the second provider says no after all. -/
theorem twoProviders_givenUp : (run twoProviders).log = ⟨7, .released [0] false⟩ :: (run twoProviders).log.tail ∧
    (view 7 (run twoProviders).log.tail).answeredHave 2 = true ∧
    (view 7 (run twoProviders).log.tail).GivenUp :=
  ⟨rfl, rfl, (get_complete twoProviders).2.2 _ 7 [0] ⟨[], rfl⟩ (by simp)⟩

end Client
end Defra.Bitswap
