import Defra.Bitswap.Client

/-! What the log says of a get, and how the get keeps in step with it: `Working` ties the requests, the candidates and the
    blocking flag to the last request made to each peer. -/

namespace Defra.Bitswap
open KeyedList List
variable {Peer Cid : Type} [LinearOrder Peer] [LinearOrder Cid]

/-! ### What the log says -/

/-- How far the last request to a peer is. -/
inductive Phase where
  | outstanding (kind : Kind)
  | ended (kind : Kind) (answer : Answer)
  deriving DecidableEq, Repr

variable (Peer) in
/-- A get as its history tells it. -/
structure View where
  phase : Peer → Option Phase := fun _ => none
  given : Peer → Bool := fun _ => false
  answeredHave : Peer → Bool := fun _ => false

/-- What an act changes in the log's view. -/
def View.after (view : View Peer) : Act Peer → View Peer
  | .opened => {}
  | .given peer => { view with given := Function.update view.given peer true }
  | .asked peer kind => { view with phase := Function.update view.phase peer (some (.outstanding kind)) }
  | .ended peer kind answer =>
    { view with
      phase := Function.update view.phase peer (some (.ended kind answer))
      answeredHave :=
        if answer = .haveBlock then Function.update view.answeredHave peer true else view.answeredHave }
  | .released _ _ => {}

/-- What the log says of a block's get. -/
def view (cid : Cid) : List (Event Peer Cid) → View Peer
  | [] => {}
  | event :: log => if event.cid = cid then (view cid log).after event.act else view cid log

@[simp] theorem view_cons_self (cid : Cid) (act : Act Peer) (log : List (Event Peer Cid)) :
    view cid (⟨cid, act⟩ :: log) = (view cid log).after act := if_pos rfl

theorem view_cons_of_ne {cid other : Cid} (act : Act Peer) (log : List (Event Peer Cid)) (hne : other ≠ cid) :
    view cid (⟨other, act⟩ :: log) = view cid log := if_neg hne

variable (get : Get Peer) (ps : List Peer) (view : View Peer)

def View.AtMostOne : Prop :=
  ∀ p q, view.phase p = some (.outstanding .block) → view.phase q = some (.outstanding .block) → p = q

/-- Every provider was asked, and the last request to it ended without the block; where it answered that it has it, that was
    for the block. -/
def View.GivenUp : Prop :=
  ∀ peer, view.given peer = true → ∃ kind answer, view.phase peer = some (.ended kind answer) ∧ answer ≠ .haveBlock ∧
    (view.answeredHave peer = true → kind = .block)

/-- The peer is asked for the block, or about to be. -/
def Wanted (todo : List (Peer × Kind)) (peer : Peer) : Prop :=
  view.phase peer = some (.outstanding .block) ∨ (peer, .block) ∈ todo

/-! ### In step with the log -/

/-- A get and its history, with the requests in `todo` decided on and not issued yet. -/
structure Working (view : View Peer) (get : Get Peer) (todo : List (Peer × Kind)) : Prop where
  outstanding : ∀ peer kind, view.phase peer = some (.outstanding kind) ↔
    ∃ slot, get.requests.get? peer = some slot ∧ slot.kind = kind
  given : ∀ peer, view.given peer = true → peer ∈ get.asked
  asked : ∀ peer ∈ get.asked, peer ∈ todo.map Prod.fst ∨ peer ∈ get.candidates ∨
    (∃ kind, view.phase peer = some (.outstanding kind)) ∨
    ∃ kind answer, view.phase peer = some (.ended kind answer) ∧ answer ≠ .haveBlock
  known : ∀ peer, view.phase peer ≠ none → peer ∈ get.asked
  due : ∀ peer, peer ∈ get.candidates ++ todo.map Prod.fst → peer ∈ get.asked
  idle : ∀ peer, peer ∈ get.candidates ++ todo.map Prod.fst → ∀ kind, view.phase peer ≠ some (.outstanding kind)
  distinct : (get.candidates ++ todo.map Prod.fst).Nodup
  single : ∀ p q, Wanted view todo p → Wanted view todo q → p = q
  blocking : get.blocking = true ↔ ∃ peer, Wanted view todo peer
  fresh : ∀ peer, (peer, .haveBlock) ∈ todo → view.answeredHave peer = false
  answered : ∀ peer, view.answeredHave peer = true → peer ∈ get.candidates ∨ Wanted view todo peer ∨
    ∃ answer, view.phase peer = some (.ended .block answer)

/-- Without a request for the block, no candidate is left. -/
def Get.Waits : Prop := get.blocking = false → get.candidates = []

theorem Get.answered_cases (kind : Kind) (peer : Peer) (have_ : Bool) :
    let got := { get with
      blocking := if kind = .block then false else get.blocking
      candidates := if have_ = true then peer :: get.candidates else get.candidates }
    got.Waits ∧ get.answered kind peer have_ = (got, none) ∨
    ∃ next rest, got.blocking = false ∧ got.candidates = next :: rest ∧
      get.answered kind peer have_ = ({ got with blocking := true, candidates := rest }, some next) := by
  intro got
  rw [Get.answered]
  split
  next hb => exact .inl ⟨fun hfree => (by cases hb.symm.trans hfree), by simp only [got, hb]⟩
  next hb hc => exact .inl ⟨fun _ => hc, by rw [← hb, ← hc]⟩
  next next rest hb hc => exact .inr ⟨next, rest, hb, hc, rfl⟩

/-! ### What each act keeps -/

namespace Working
variable {view : View Peer} {get : Get Peer} {todo : List (Peer × Kind)} {peer : Peer} {slot : Slot}

theorem new : Working ({} : View Peer) {} [] where
  outstanding peer kind := by simp
  given peer h := by simp at h
  asked peer h := by simp at h
  known peer h := by simp at h
  due peer h := by simp at h
  idle peer h := by simp at h
  distinct := by simp
  single p q h := by simp [Wanted] at h
  blocking := by simp [Wanted]
  fresh peer h := by simp at h
  answered peer h := by simp at h

section
variable (h : Working view get todo)
include h

theorem atMostOne : view.AtMostOne := fun p q hp hq => h.single p q (.inl hp) (.inl hq)

theorem waiters (waiters : List FetchId) : Working view { get with waiters } todo :=
  ⟨h.outstanding, h.given, h.asked, h.known, h.due, h.idle, h.distinct, h.single, h.blocking, h.fresh, h.answered⟩

theorem give (ha : peer ∈ get.asked) : Working (view.after (.given peer)) get todo where
  __ := h
  given q hq := by
    by_cases hqp : q = peer
    · exact hqp ▸ ha
    · exact h.given q (by simpa [View.after, Function.update_of_ne hqp] using hq)

theorem answeredHave_of_not_asked (hnot : peer ∉ get.asked) : view.answeredHave peer = false := by
  rw [Bool.eq_false_iff]
  intro hhave
  rcases h.answered peer hhave with hcand | (hphase | htodo) | ⟨answer, hphase⟩
  · exact hnot (h.due peer (mem_append_left _ hcand))
  · exact hnot (h.known peer (by simp [hphase]))
  · exact hnot (h.due peer (mem_append_right _ (mem_map_of_mem htodo)))
  · exact hnot (h.known peer (by simp [hphase]))

theorem add (hnot : peer ∉ get.asked) :
    Working view { get with asked := get.asked.put peer, blocking := true }
      (todo ++ [(peer, if get.blocking then .haveBlock else .block)]) := by
  have hold : ∀ p, Wanted view todo p → get.blocking = true := fun p hp => h.blocking.mpr ⟨p, hp⟩
  have hm : (todo ++ [(peer, if get.blocking then Kind.haveBlock else .block)]).map Prod.fst = todo.map Prod.fst ++ [peer] := by
    simp
  have hn : view.phase peer = none := by
    by_contra hsome
    exact hnot (h.known peer hsome)
  have hwanted : ∀ p, Wanted view (todo ++ [(peer, if get.blocking then .haveBlock else .block)]) p ↔
      Wanted view todo p ∨ p = peer ∧ get.blocking = false := by
    cases hb : get.blocking <;> simp [Wanted, or_assoc]
  constructor
  · exact h.outstanding
  · exact fun q hq => mem_put_id.mpr (.inr (h.given q hq))
  · intro q hq
    rcases mem_put_id.mp hq with rfl | hq
    · exact .inl (by simp)
    · rcases h.asked q hq with ht | hrest
      · exact .inl (by rw [hm]; exact mem_append_left _ ht)
      · exact .inr hrest
  · exact fun q hq => mem_put_id.mpr (.inr (h.known q hq))
  · intro q hq
    rw [hm, ← append_assoc, mem_append, mem_singleton] at hq
    exact mem_put_id.mpr (hq.elim (fun hq => .inr (h.due q hq)) .inl)
  · intro q hq kind
    rw [hm, ← append_assoc, mem_append, mem_singleton] at hq
    rcases hq with hq | rfl
    · exact h.idle q hq kind
    · simp [hn]
  · rw [hm, ← append_assoc]
    refine nodup_append.mpr ⟨h.distinct, nodup_singleton peer, ?_⟩
    rintro q hq _ hpeer rfl
    exact hnot (mem_singleton.mp hpeer ▸ h.due q hq)
  · intro p q hp hq
    rcases (hwanted p).mp hp with hp | ⟨hp, hfree⟩ <;> rcases (hwanted q).mp hq with hq | ⟨hq, hfree'⟩
    · exact h.single p q hp hq
    · cases (hold p hp).symm.trans hfree'
    · cases (hold q hq).symm.trans hfree
    · exact hp.trans hq.symm
  · refine ⟨fun _ => ?_, fun _ => rfl⟩
    cases hb : get.blocking with
    | true => exact (h.blocking.mp hb).imp fun p hp => hb ▸ (hwanted p).mpr (.inl hp)
    | false => exact ⟨peer, hb ▸ (hwanted peer).mpr (.inr ⟨rfl, hb⟩)⟩
  · intro q hq
    rcases mem_append.mp hq with hq | hq
    · exact h.fresh q hq
    · have hqp : q = peer := (Prod.ext_iff.mp (mem_singleton.mp hq)).1
      exact hqp ▸ h.answeredHave_of_not_asked hnot
  · intro q hq
    rcases h.answered q hq with hcand | hw | hended
    · exact .inl hcand
    · exact .inr (.inl ((hwanted q).mpr (.inl hw)))
    · exact .inr (.inr hended)

omit h in
theorem provide (ps : List Peer) : ∀ {get : Get Peer} {todo : List (Peer × Kind)}, Working view get todo →
    Working view (get.provide ps).1 (todo ++ (get.provide ps).2) := by
  induction ps with
  | nil => exact fun h => by simpa [Get.provide] using h
  | cons peer ps ih =>
    intro get todo h
    rw [Get.provide]
    split
    next hasked => exact ih h
    next hasked => simpa using ih (h.add (fun hmem => hasked (isSome_find?_id.mpr hmem)))

omit h in
theorem issue {kind : Kind} (h : Working view get ((peer, kind) :: todo)) (hk : slot.kind = kind) :
    Working (view.after (.asked peer kind)) { get with requests := get.requests.put (peer, slot) } todo := by
  have hi : ∀ kind, view.phase peer ≠ some (.outstanding kind) := h.idle peer (by simp)
  have hd : peer ∉ get.candidates ++ todo.map Prod.fst := by
    have hperm : (get.candidates ++ (peer :: todo.map Prod.fst)).Perm (peer :: (get.candidates ++ todo.map Prod.fst)) :=
      perm_middle
    exact (nodup_cons.mp (hperm.nodup_iff.mp h.distinct)).1
  have hself : (view.after (.asked peer kind)).phase peer = some (.outstanding kind) := Function.update_self ..
  have ho : ∀ q, q ≠ peer → (view.after (.asked peer kind)).phase q = view.phase q :=
    fun q hq => Function.update_of_ne hq ..
  have hwanted : ∀ p, Wanted (view.after (.asked peer kind)) todo p ↔ Wanted view ((peer, kind) :: todo) p := by
    intro p
    by_cases hp : p = peer
    · subst hp
      have hnot : (p, Kind.block) ∉ todo := fun hmem =>
        hd (mem_append_right _ (mem_map_of_mem hmem))
      simp only [Wanted, hself, hi, mem_cons, Prod.mk.injEq, true_and, false_or, Option.some.injEq,
        Phase.outstanding.injEq]
      rw [eq_comm]
    · simp [Wanted, ho p hp, hp]
  have hless : ∀ q, q ∈ get.candidates ++ todo.map Prod.fst → q ≠ peer ∧ q ∈ get.candidates ++ ((peer, kind) :: todo).map Prod.fst :=
    fun q hq => ⟨fun hqp => hd (hqp ▸ hq), by
      rcases mem_append.mp hq with hq | hq
      · exact mem_append_left _ hq
      · exact mem_append_right _ (mem_cons_of_mem _ hq)⟩
  constructor
  · intro q k
    by_cases hq : q = peer
    · subst hq
      rw [hself, get?_put, if_pos rfl]
      simp [hk]
    · rw [ho q hq, get?_put, if_neg hq]
      exact h.outstanding q k
  · exact h.given
  · intro q hq
    by_cases hqp : q = peer
    · exact .inr (.inr (.inl ⟨kind, hqp ▸ hself⟩))
    · rw [ho q hqp]
      rcases h.asked q hq with ht | hrest
      · rcases mem_cons.mp ht with rfl | ht
        · exact absurd rfl hqp
        · exact .inl ht
      · exact .inr hrest
  · intro q hq
    by_cases hqp : q = peer
    · exact hqp ▸ h.due peer (by simp)
    · exact h.known q (ho q hqp ▸ hq)
  · exact fun q hq => h.due q (hless q hq).2
  · intro q hq k
    rw [ho q (hless q hq).1]
    exact h.idle q (hless q hq).2 k
  · have hperm : (get.candidates ++ (peer :: todo.map Prod.fst)).Perm (peer :: (get.candidates ++ todo.map Prod.fst)) :=
      perm_middle
    exact (nodup_cons.mp (hperm.nodup_iff.mp h.distinct)).2
  · exact fun p q hp hq => h.single p q ((hwanted p).mp hp) ((hwanted q).mp hq)
  · rw [h.blocking]
    exact exists_congr fun p => (hwanted p).symm
  · exact fun q hq => h.fresh q (mem_cons_of_mem _ hq)
  · intro q hq
    rcases h.answered q hq with hcand | hw | ⟨answer, hended⟩
    · exact .inl hcand
    · exact .inr (.inl ((hwanted q).mpr hw))
    · by_cases hqp : q = peer
      · -- A peer that once answered is asked again for the block only.
        subst hqp
        cases kind with
        | block => exact .inr (.inl (.inl hself))
        | haveBlock => cases (h.fresh q mem_cons_self).symm.trans hq
      · exact .inr (.inr ⟨answer, (ho q hqp).trans hended⟩)

theorem restore {slot' : Slot} (hs : get.requests.get? peer = some slot) (hk : slot'.kind = slot.kind) :
    Working view { get with requests := get.requests.put (peer, slot') } todo where
  __ := h
  outstanding q k := by
    rw [h.outstanding q k, get?_put]
    by_cases hq : q = peer
    · subst hq
      simp [hs, hk]
    · simp [hq]

end

theorem ended (h : Working view get []) (answer : Answer) (hs : get.requests.get? peer = some slot) :
    Working (view.after (.ended peer slot.kind answer))
      { get with
        requests := get.requests.erase peer
        blocking := if slot.kind = .block then false else get.blocking
        candidates := if answer = .haveBlock then peer :: get.candidates else get.candidates } [] := by
  have hphase : view.phase peer = some (.outstanding slot.kind) := (h.outstanding peer slot.kind).mpr ⟨slot, hs, rfl⟩
  have hnot : peer ∉ get.candidates := fun hmem => h.idle peer (by simpa using hmem) slot.kind hphase
  have hself : (view.after (.ended peer slot.kind answer)).phase peer = some (.ended slot.kind answer) :=
    Function.update_self ..
  have ho : ∀ q, q ≠ peer → (view.after (.ended peer slot.kind answer)).phase q = view.phase q :=
    fun q hq => Function.update_of_ne hq ..
  have hcand : ∀ q, q ∈ (if answer = .haveBlock then peer :: get.candidates else get.candidates) ↔
      q ∈ get.candidates ∨ q = peer ∧ answer = .haveBlock := by
    split_ifs with ha <;> simp [ha, or_comm]
  have hwanted : ∀ p, Wanted (view.after (.ended peer slot.kind answer)) [] p ↔ Wanted view [] p ∧ p ≠ peer := by
    intro p
    by_cases hp : p = peer
    · simp [Wanted, hp, hself]
    · simp [Wanted, ho p hp, hp]
  constructor
  · intro q k
    rw [get?_erase]
    by_cases hq : q = peer
    · subst hq
      simp [hself]
    · simp only [ho q hq, hq, if_false]
      exact h.outstanding q k
  · exact h.given
  · intro q hq
    by_cases hqp : q = peer
    · subst hqp
      by_cases ha : answer = .haveBlock
      · exact .inr (.inl ((hcand q).mpr (.inr ⟨rfl, ha⟩)))
      · exact .inr (.inr (.inr ⟨slot.kind, answer, hself, ha⟩))
    · rw [ho q hqp]
      rcases h.asked q hq with htodo | hc | hrest
      · exact .inl htodo
      · exact .inr (.inl ((hcand q).mpr (.inl hc)))
      · exact .inr (.inr hrest)
  · intro q hq
    by_cases hqp : q = peer
    · exact hqp ▸ h.known peer (by simp [hphase])
    · exact h.known q (ho q hqp ▸ hq)
  · intro q hq
    rw [map_nil, append_nil, hcand] at hq
    rcases hq with hq | ⟨rfl, -⟩
    · exact h.due q (by simpa using hq)
    · exact h.known q (by simp [hphase])
  · intro q hq k
    rw [map_nil, append_nil, hcand] at hq
    rcases hq with hq | ⟨rfl, -⟩
    · rw [ho q (fun hqp => hnot (hqp ▸ hq))]
      exact h.idle q (by simpa using hq) k
    · simp [hself]
  · have hnodup : get.candidates.Nodup := by simpa using h.distinct
    rw [map_nil, append_nil]
    by_cases ha : answer = .haveBlock
    · simpa only [ha, if_true] using nodup_cons.mpr ⟨hnot, hnodup⟩
    · simpa only [ha, if_false] using hnodup
  · exact fun p q hp hq => h.single p q ((hwanted p).mp hp).1 ((hwanted q).mp hq).1
  · by_cases hk : slot.kind = .block
    · -- The peer was the one asked for the block.
      simp only [hk, if_true, Bool.false_eq_true, false_iff, not_exists]
      intro p hp
      rw [← hk, hwanted] at hp
      exact hp.2 (h.single p peer hp.1 (.inl (hk ▸ hphase)))
    · simp only [hk, if_false, h.blocking]
      refine exists_congr fun p => ⟨fun hp => (hwanted p).mpr ⟨hp, ?_⟩, fun hp => ((hwanted p).mp hp).1⟩
      rintro rfl
      rcases hp with hp | hp
      · exact hk (Phase.outstanding.inj (Option.some.inj (hphase.symm.trans hp)))
      · cases hp
  · exact fun q hq => by cases hq
  · intro q hq
    by_cases hqp : q = peer
    · subst hqp
      by_cases ha : answer = .haveBlock
      · exact .inl ((hcand q).mpr (.inr ⟨rfl, ha⟩))
      · have hbef : view.answeredHave q = true := by simpa [View.after, ha] using hq
        rcases h.answered q hbef with hc | (hw | hw) | ⟨a, he⟩
        · exact absurd hc hnot
        · have hk : slot.kind = .block := Phase.outstanding.inj (Option.some.inj (hphase.symm.trans hw))
          exact .inr (.inr ⟨answer, hself.trans (by rw [hk])⟩)
        · cases hw
        · cases hphase.symm.trans he
    · have hbef : view.answeredHave q = true := by
        rw [View.after] at hq
        dsimp only at hq
        split_ifs at hq with ha
        · rwa [Function.update_of_ne hqp] at hq
        · exact hq
      rcases h.answered q hbef with hc | hw | ⟨a, he⟩
      · exact .inl ((hcand q).mpr (.inl hc))
      · exact .inr (.inl ((hwanted q).mpr ⟨hw, hqp⟩))
      · exact .inr (.inr ⟨a, (ho q hqp).trans he⟩)

theorem next (h : Working view get []) {rest : List Peer} (hi : get.blocking = false)
    (hcand : get.candidates = peer :: rest) :
    Working view { get with blocking := true, candidates := rest } [(peer, .block)] := by
  have hnone : ∀ p, view.phase p ≠ some (.outstanding .block) := by
    intro p hp
    cases hi.symm.trans (h.blocking.mpr ⟨p, .inl hp⟩)
  have hmem : ∀ q, q ∈ rest ++ [((peer, Kind.block) : Peer × Kind)].map Prod.fst ↔ q ∈ get.candidates := by
    simp [hcand, or_comm]
  have hwanted : ∀ p, Wanted view [(peer, .block)] p ↔ p = peer := by
    simp [Wanted, hnone]
  constructor
  · exact h.outstanding
  · exact h.given
  · intro q hq
    rcases h.asked q hq with htodo | hc | hr
    · cases htodo
    · rw [hcand] at hc
      exact (mem_cons.mp hc).elim (fun heq => .inl (by simp [heq])) (fun hc => .inr (.inl hc))
    · exact .inr (.inr hr)
  · exact h.known
  · exact fun q hq => h.due q (by simpa using (hmem q).mp hq)
  · exact fun q hq => h.idle q (by simpa using (hmem q).mp hq)
  · have hnodup : (peer :: rest).Nodup := by simpa [hcand] using h.distinct
    exact (perm_append_singleton peer rest).nodup_iff.mpr hnodup
  · exact fun p q hp hq => ((hwanted p).mp hp).trans ((hwanted q).mp hq).symm
  · exact ⟨fun _ => ⟨peer, (hwanted peer).mpr rfl⟩, fun _ => rfl⟩
  · exact fun q hq => by simp at hq
  · intro q hq
    rcases h.answered q hq with hc | (hw | hw) | hended
    · rw [hcand] at hc
      rcases mem_cons.mp hc with heq | hc
      · exact .inr (.inl ((hwanted q).mpr heq))
      · exact .inl hc
    · exact absurd hw (hnone q)
    · cases hw
    · exact .inr (.inr hended)

/-- An answer, with the request that `answered` asks for. -/
theorem answer (h : Working view get []) (answer : Answer)
    (hs : get.requests.get? peer = some slot) {after : Get Peer} {next : Option Peer}
    (ha : { get with requests := get.requests.erase peer }.answered slot.kind peer
      (decide (answer = Answer.haveBlock)) = (after, next)) :
    Working (view.after (.ended peer slot.kind answer)) after (next.toList.map fun next => (next, .block)) ∧ after.Waits := by
  have he := h.ended answer hs
  rcases Get.answered_cases { get with requests := get.requests.erase peer } slot.kind peer (decide (answer = .haveBlock)) with
    ⟨hwaits, heq⟩ | ⟨q, rest, hfree, hcand, heq⟩ <;> obtain ⟨rfl, rfl⟩ := Prod.ext_iff.mp (heq.symm.trans ha)
  · simp only [decide_eq_true_eq] at hwaits ⊢
    exact ⟨he, hwaits⟩
  · simp only [decide_eq_true_eq] at hfree hcand
    exact ⟨he.next hfree hcand, fun hb => by cases hb⟩

theorem givenUp (h : Working view get []) (hwaits : get.Waits) (hempty : get.requests.toList = []) : view.GivenUp := by
  have hnone : ∀ peer kind, view.phase peer ≠ some (.outstanding kind) := by
    intro peer kind hphase
    obtain ⟨slot, hs, -⟩ := (h.outstanding peer kind).mp hphase
    simp [KeyedList.get?, KeyedList.find?, hempty] at hs
  have hcand : get.candidates = [] := by
    refine hwaits (Bool.eq_false_iff.mpr fun hb => ?_)
    obtain ⟨peer, hp | hp⟩ := h.blocking.mp hb
    · exact hnone peer _ hp
    · cases hp
  intro peer hg
  rcases h.asked peer (h.given peer hg) with htodo | hc | ⟨kind, hphase⟩ | ⟨kind, answer, hphase, hne⟩
  · cases htodo
  · cases hcand ▸ hc
  · exact absurd hphase (hnone peer kind)
  · refine ⟨kind, answer, hphase, hne, fun hh => ?_⟩
    rcases h.answered peer hh with hc | (hp | hp) | ⟨answer', hp'⟩
    · cases hcand ▸ hc
    · exact absurd hp (hnone peer _)
    · cases hp
    · exact (Phase.ended.inj (Option.some.inj (hphase.symm.trans hp'))).1

end Working

theorem Get.waits_provide : ∀ {get : Get Peer}, get.Waits → (get.provide ps).1.Waits := by
  induction ps with
  | nil => exact fun h => h
  | cons peer ps ih =>
    intro get h
    rw [Get.provide]
    split
    · exact ih h
    · exact ih fun hb => by cases hb

theorem Get.mem_asked_provide : ∀ {get : Get Peer} {peer : Peer},
    peer ∈ get.asked ∨ peer ∈ ps → peer ∈ (get.provide ps).1.asked := by
  induction ps with
  | nil => simp [Get.provide]
  | cons first ps ih =>
    intro get peer hp
    rw [Get.provide]
    split
    next ha =>
      refine ih ?_
      rcases hp with hp | hp
      · exact .inl hp
      · rcases mem_cons.mp hp with rfl | hp
        · exact .inl (isSome_find?_id.mp ha)
        · exact .inr hp
    next =>
      refine ih ?_
      rw [mem_put_id]
      rcases hp with hp | hp
      · exact .inl (.inr hp)
      · exact (mem_cons.mp hp).imp .inl id

end Defra.Bitswap
