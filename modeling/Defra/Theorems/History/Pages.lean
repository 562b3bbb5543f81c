import Defra.Theorems.History.Walk

/-! Call after call, a history that is walked in pages comes to its end: all that was not applied is merged, each block after
    its parents, or a cycle is reported. -/

namespace Defra.History
open KeyedList List DepthFirst Option

variable {Cid : Type} [LinearOrder Cid] {env : Env Cid} {start store : Store Cid} {nodes : Finset Cid} {budget : Nat}
  {s : State Cid}

def cyclicHistory : MergeError Cid := .unsupportedDelta "cyclic composite history"

/-! ### One call -/

theorem Walking.steps (hw : Walkable env nodes) (budget : Nat) {page : Page Cid} (h : Walking env start page s) :
    (∃ page' s', Page.steps env budget page = .ok page' ∧ Walking env start page' s' ∧
      work env.parents nodes s' + budget ≤ work env.parents nodes s) ∨
    (∃ page' s', Page.steps env budget page = .ok page' ∧ Ended env start page' s') ∨
    (Page.steps env budget page = .error cyclicHistory ∧ ∃ c, Under env.parents env.root c ∧ OnCycle env.parents c) := by
  induction budget generalizing page s with
  | zero => exact .inl ⟨page, s, rfl, h, le_rfl⟩
  | succ budget ih =>
    have hs := h.step hw
    rw [Page.steps]
    generalize page.step env = flow at hs
    cases hs with
    | stop hended => exact .inr (.inl ⟨_, _, rfl, hended⟩)
    | cyclic hc => exact .inr (.inr ⟨rfl, h.inv.onCycle hc⟩)
    | next hwalk hless =>
      refine (ih hwalk).imp_left ?_
      rintro ⟨page', s', hsteps, hwalk', hwork⟩
      exact ⟨page', s', hsteps, hwalk', by omega⟩

/-- The stored progress is that of a walk that goes on. -/
def Paused (env : Env Cid) (start store : Store Cid) (s : State Cid) : Prop :=
  ∃ progress, store.progress = some progress ∧ Walking env start { progress, store } s

/-- The stored progress is that of a walk that has ended. -/
def Complete (env : Env Cid) (start store : Store Cid) (s : State Cid) : Prop :=
  ∃ progress, store.progress = some progress ∧ Ended env start { progress, store } s

inductive Turned (env : Env Cid) (start : Store Cid) (nodes : Finset Cid) (budget : Nat) (s : State Cid) :
    Except (MergeError Cid) (MergeOutcome × Store Cid) → Prop
  | paused {store s'} (paused : Paused env start store s')
      (less : work env.parents nodes s' + budget ≤ work env.parents nodes s) :
      Turned env start nodes budget s (.ok (.yielded, store))
  | complete {store s'} (complete : Complete env start store s') : Turned env start nodes budget s (.ok (.yielded, store))
  | cyclic {c} (under : Under env.parents env.root c) (cycle : OnCycle env.parents c) :
      Turned env start nodes budget s (.error cyclicHistory)

theorem turned_resume (hw : Walkable env nodes) (generation : Bytes) {progress : Progress}
    (h : Walking env start { progress, store } s) :
    Turned env start nodes budget s (env.resume budget generation progress store) := by
  have hcontext : progress.context = env.context := h.logged.context
  have ho : progress.outcome = none := h.outcome
  unfold Env.resume
  rw [if_pos hcontext]
  dsimp only
  rw [ho]
  rcases h.steps hw budget with ⟨page, s', hs, hwalk, hwork⟩ | ⟨page, s', hs, hended⟩ | ⟨hs, c, hc, hcycle⟩
  · rw [hs]
    dsimp only
    rw [hwalk.logged.waiting]
    refine .paused ⟨_, rfl, ?_⟩ hwork
    exact { hwalk with stored := { hwalk.stored with }, logged := { hwalk.logged with waiting := rfl } }
  · rw [hs]
    dsimp only
    rw [hended.logged.waiting]
    refine .complete (⟨_, rfl, ?_⟩ : Complete env start _ s')
    exact { hended with stored := { hended.stored with }, logged := { hended.logged with waiting := rfl } }
  · rw [hs]
    exact .cyclic hc hcycle

theorem Paused.turned (hw : Walkable env nodes) (h : Paused env start store s) :
    Turned env start nodes budget s (env.turn budget store) := by
  obtain ⟨progress, hp, hwalk⟩ := h
  unfold Env.turn Env.historyPage
  rw [hp]
  exact turned_resume hw _ hwalk

structure Env.Admitted (env : Env Cid) : Prop where
  roots : env.admissions.length < maxRoots
  sender : ∀ sender, env.senderPeer = some sender →
    (env.admissions.filter fun root => root.2 = some sender).length < maxRootsPerPeer

/-! ### All calls -/

structure Store.Fresh (store : Store Cid) : Prop where
  progress : store.progress = none
  marks : store.marks = ∅
  frames : store.frames = ∅

theorem admission_eq (hw : Walkable env nodes) (h : env.Admitted) (generation : Bytes) (store : Store Cid) :
    env.admission generation store = .ok (env.begin generation store) := by
  have hlive : env.liveRoots = .ok env.admissions := if_neg (Nat.not_lt.mpr h.roots.le)
  have hpeer : (env.senderPeer.any fun sender =>
      maxRootsPerPeer ≤ (env.admissions.filter fun root => root.2 = some sender).length) = false := by
    cases hs : env.senderPeer with
    | none => rfl
    | some sender => simpa using h.sender sender hs
  unfold Env.admission
  rw [hlive]
  dsimp only
  rw [if_neg (Nat.not_le.mpr h.roots), hpeer]
  cases env.docId.filter fun doc => !env.fromCollection && !doc.isEmpty with
  | none => rfl
  | some doc =>
    dsimp only
    rw [hw.prepare _ _ hw.root]
    rfl

theorem walking_begin (hfresh : start.Fresh) (generation : Bytes) : ∃ progress store,
    env.begin generation start = .admitted progress store ∧ Walking env start { progress, store } ⟨[(env.root, 0)], []⟩ := by
  refine ⟨_, _, rfl, rfl, rfl, ⟨rfl, ?_, ?_⟩, ?_, .start env.root⟩
  · have hp := @Frames.put Cid start.frames [] (fun i _ => by rw [hfresh.frames]; rfl) (env.root, 0)
    exact hp
  · refine ⟨fun c hc => ?_, fun c hc _ => ?_, fun c hc _ => ?_⟩
    · cases hc
    · cases mem_singleton.mp hc
      rw [get?_put, if_pos rfl]
    · rw [get?_put, if_neg (mt mem_singleton.mpr hc), hfresh.marks]
      rfl
  · refine ⟨fun _ => rfl, fun doc hd => ?_, (append_nil _).symm, fun x hx => hx, fun x hx => .inl hx, rfl, rfl⟩
    cases hd

theorem Store.Fresh.turned (hfresh : start.Fresh) (hw : Walkable env nodes) (h : env.Admitted) :
    Turned env start nodes budget ⟨[(env.root, 0)], []⟩ (env.turn budget start) := by
  obtain ⟨progress, store, hbegin, hwalk⟩ := @walking_begin Cid _ env start hfresh env.generation
  unfold Env.turn Env.historyPage
  rw [hfresh.progress, map_none, getD_none]
  rw [admission_eq hw h, hbegin]
  exact turned_resume hw _ hwalk

theorem turns_succ {store' : Store Cid} {outcome : MergeOutcome} (h : env.turn budget store = .ok (outcome, store')) (count : Nat) :
    env.turns budget (count + 1) store = (env.turns budget count store').map fun rest => (outcome :: rest.1, rest.2) := by
  rw [Env.turns, h]

theorem turns_walk (hw : Walkable env nodes) (hb : 1 ≤ budget) (left : Nat) : ∀ (store : Store Cid) (s : State Cid),
    Turned env start nodes budget s (env.turn budget store) → work env.parents nodes s ≤ left →
      (∃ count ≤ left + 1, ∃ store' s', env.turns budget count store = .ok (replicate count .yielded, store') ∧
        Complete env start store' s') ∨
      ∃ count ≤ left, ∃ store' c, env.turns budget count store = .ok (replicate count .yielded, store') ∧
        env.turn budget store' = .error cyclicHistory ∧ Under env.parents env.root c ∧ OnCycle env.parents c := by
  induction left with
  | zero =>
    intro store s h hwork
    generalize ht : env.turn budget store = result at h
    cases h with
    | paused hp hless => omega
    | @complete store' s' hcomplete =>
      exact .inl ⟨1, le_rfl, store', s', by rw [turns_succ ht]; rfl, hcomplete⟩
    | cyclic hc hcycle => exact .inr ⟨0, le_rfl, store, _, rfl, ht, hc, hcycle⟩
  | succ left ih =>
    intro store s h hwork
    generalize ht : env.turn budget store = result at h
    cases h with
    | @complete store' s' hcomplete =>
      exact .inl ⟨1, by omega, store', s', by rw [turns_succ ht]; rfl, hcomplete⟩
    | cyclic hc hcycle => exact .inr ⟨0, Nat.zero_le _, store, _, rfl, ht, hc, hcycle⟩
    | @paused store₁ s₁ hp hless =>
      rcases ih store₁ s₁ (hp.turned hw) (by omega) with
        ⟨count, hcnt, store', s', hturns, hcomplete⟩ | ⟨count, hcnt, store', c, hturns, hlast, hc⟩
      · refine .inl ⟨count + 1, by omega, store', s', ?_, hcomplete⟩
        rw [turns_succ ht, hturns]
        rfl
      · refine .inr ⟨count + 1, by omega, store', c, ?_, hlast, hc⟩
        rw [turns_succ ht, hturns]
        rfl

/-! ### The work of the walk is released -/

/-- Only the marks of a walk that merged are left, or some of them. -/
structure Releasing (env : Env Cid) (store : Store Cid) : Prop where
  progress : ∃ progress, store.progress = some progress ∧ progress.context = env.context ∧ progress.outcome = some .merged
  frames : store.frames.toList = []

theorem Releasing.turn (h : Releasing env store) : ∃ progress, progress.context = env.context ∧
    progress.outcome = some .merged ∧ env.turn budget store = .ok (env.release budget progress .merged store) := by
  obtain ⟨progress, hp, hc, ho⟩ := h.progress
  refine ⟨progress, hc, ho, ?_⟩
  unfold Env.turn Env.historyPage
  rw [hp]
  dsimp only
  unfold Env.resume
  rw [if_pos hc]
  dsimp only
  rw [ho]

theorem Releasing.turn_more (h : Releasing env store) (hmore : budget < store.marks.toList.length) : ∃ store',
    env.turn budget store = .ok (.yielded, store') ∧ Releasing env store' ∧
      store'.marks.toList.length = store.marks.toList.length - budget ∧ store'.log = store.log := by
  obtain ⟨progress, hcontext, houtcome, ht⟩ := @Releasing.turn Cid _ env store budget h
  let cleaned : Store Cid := { store with
    marks := store.marks.drop budget
    frames := store.frames.drop (budget - store.marks.toList.length) }
  have hc : store.cleanup budget = (true, cleaned) := by simp [Store.cleanup, h.frames, hmore, cleaned]
  have hr : env.release budget progress .merged store = (.yielded, { cleaned with progress := some progress }) := by
    rw [Env.release, hc]
    rfl
  refine ⟨_, ht.trans (congrArg _ hr), ⟨⟨progress, rfl, hcontext, houtcome⟩, ?_⟩, length_drop, rfl⟩
  show store.frames.toList.drop _ = []
  rw [h.frames, drop_nil]

theorem Releasing.turn_last (h : Releasing env store) (hlast : store.marks.toList.length ≤ budget) : ∃ store',
    env.turn budget store = .ok (.merged, store') ∧ store'.Fresh ∧ store'.log = store.log := by
  obtain ⟨progress, hcontext, houtcome, ht⟩ := @Releasing.turn Cid _ env store budget h
  let cleaned : Store Cid := { store with
    marks := store.marks.drop budget
    frames := store.frames.drop (budget - store.marks.toList.length)
    progress := none
    admission := none }
  have hc : store.cleanup budget = (false, cleaned) := by
    simp [Store.cleanup, h.frames, Nat.not_lt.mpr hlast, cleaned]
  have hr : env.release budget progress .merged store =
      (.merged, { cleaned with batchMerged := store.batchMerged.add env.root }) := by
    rw [Env.release, hc]
    rfl
  refine ⟨_, ht.trans (congrArg _ hr), ⟨rfl, toList_inj ?_, toList_inj ?_⟩, rfl⟩
  · exact drop_eq_nil_of_le hlast
  · show store.frames.toList.drop _ = []
    rw [h.frames, drop_nil]

/-- The calls after the end release what is left, and the last says that the root merged. -/
theorem turns_release (hb : 1 ≤ budget) (left : Nat) : ∀ store : Store Cid, Releasing env store →
    store.marks.toList.length ≤ left → ∃ count ≤ left, ∃ store',
      env.turns budget (count + 1) store = .ok (replicate count .yielded ++ [.merged], store') ∧
        store'.log = store.log ∧ store'.Fresh := by
  have hlast : ∀ {store : Store Cid}, Releasing env store → store.marks.toList.length ≤ budget →
      ∃ store', env.turns budget 1 store = .ok ([.merged], store') ∧ store'.log = store.log ∧ store'.Fresh := by
    intro store h hle
    obtain ⟨store', hturn, hfresh, hl⟩ := h.turn_last hle
    exact ⟨store', by rw [turns_succ hturn]; rfl, hl, hfresh⟩
  induction left with
  | zero => exact fun store h hle => ⟨0, le_rfl, hlast h (hle.trans (Nat.zero_le _))⟩
  | succ left ih =>
    intro store h hle
    by_cases hmore : budget < store.marks.toList.length
    · obtain ⟨store₁, hturn, hreleasing, hlength, hl⟩ := h.turn_more hmore
      obtain ⟨count, hc, store', ht, hl', hfresh⟩ := ih store₁ hreleasing (by omega)
      refine ⟨count + 1, by omega, store', ?_, hl'.trans hl, hfresh⟩
      rw [turns_succ hturn, ht]
      rfl
    · exact ⟨0, Nat.zero_le _, hlast h (Nat.not_lt.mp hmore)⟩

theorem Complete.releasing (hw : Walkable env nodes) (h : Complete env start store s) :
    Releasing env store ∧ store.marks.toList.length ≤ nodes.card := by
  obtain ⟨progress, hp, hended⟩ := h
  have hframes : store.frames.toList = [] := by
    refine eq_nil_iff_forall_not_mem.mpr fun f hf => ?_
    have hg : store.frames.get? f.1 = _ := hended.stored.frames f.1
    rw [get?_of_mem hf, hended.stack] at hg
    cases hg
  refine ⟨⟨⟨progress, hp, hended.logged.context, hended.outcome⟩, hframes⟩, ?_⟩
  have hnodup : (store.marks.toList.map Prod.fst).Nodup := pairwise_map.mpr (store.marks.sorted.imp ne_of_lt)
  have hmarks : Marks store.marks s := hended.stored.marks
  rw [← length_map Prod.fst, ← toFinset_card_of_nodup hnodup]
  refine Finset.card_le_card fun c hc => ?_
  obtain ⟨m, hm, rfl⟩ := mem_map.mp (mem_toFinset.mp hc)
  refine hw.mem (hended.inv.under m.1 (mem_append_right _ ?_))
  by_contra hnot
  have hnone := hmarks.unmet m.1 (by rw [State.path, hended.stack]; exact not_mem_nil) hnot
  cases (get?_of_mem hm).symm.trans hnone

/-! ### What is merged -/

/-- The walk merged what was not applied for a document: each block once, after its parents. -/
structure Merged (env : Env Cid) (start : Store Cid) (doc : String) (order : List Cid) : Prop where
  names : env.Names doc
  nodup : order.Nodup
  mem_iff : ∀ c, c ∈ order ↔ Under env.parents env.root c ∧ (doc, c) ∉ start.published
  follows : ∀ l c r, order = l ++ c :: r → ∀ p ∈ env.parents c, (doc, p) ∉ start.published → p ∈ l

/-- What is applied of a document has its parents applied. -/
def AncestorClosed (env : Env Cid) (start : Store Cid) : Prop :=
  ∀ doc, env.Names doc → ∀ c, Under env.parents env.root c → (doc, c) ∈ start.published →
    ∀ p ∈ env.parents c, (doc, p) ∈ start.published

theorem applied_eq_false {published : List (String × Cid)} {doc : String} {c : Cid} :
    applied published (some doc) c = false ↔ (doc, c) ∉ published := by
  rw [applied, any_some, ← Bool.not_eq_true, contains_iff_mem]

theorem AncestorClosed.skip (h : AncestorClosed env start) {doc : String} (hname : env.Names doc) (a : Cid)
    (ha : Under env.parents env.root a) (happlied : applied start.published (some doc) a = true) (p : Cid)
    (hp : p ∈ env.parents a) : applied start.published (some doc) p = true := by
  rw [applied, any_some, contains_iff_mem] at happlied ⊢
  exact h doc hname a ha happlied p hp

theorem Ended.doc {page : Page Cid} (h : Ended env start page s) : ∃ doc, page.progress.doc = some doc ∧ env.Names doc := by
  cases hd : page.progress.doc with
  | some doc => exact ⟨doc, rfl, h.logged.names doc hd⟩
  | none =>
    have hr := h.inv.root
    rw [State.path, h.stack, h.logged.unknown hd] at hr
    cases hr

theorem Complete.merged (hclosed : AncestorClosed env start) (h : Complete env start store s) :
    ∃ doc order, store.log = start.log ++ order ∧ Merged env start doc order := by
  obtain ⟨progress, -, hended⟩ := h
  obtain ⟨doc, hd, hname⟩ := hended.doc
  have hi := hended.inv
  have hlog := hended.logged.log
  rw [hd] at hi hlog
  refine ⟨doc, _, hlog, hname, ?_, fun c => ?_, fun l c r hl p hp hnew => ?_⟩
  · exact ((nodup_append.mp hi.nodup).2.1).filter _
  · rw [mem_filter, Bool.not_eq_true', applied_eq_false]
    refine and_congr_left fun hnew => ⟨fun hc => hi.under c (mem_append_right _ hc), fun hc => ?_⟩
    exact hi.mem_done (hclosed.skip hname) hended.stack hc (applied_eq_false.mpr hnew)
  · obtain ⟨l₁, l₂, hdone, rfl, hl₂⟩ := filter_eq_append_iff.mp hl
    obtain ⟨l₃, l₄, rfl, hl₃, hc, -⟩ := filter_eq_cons_iff.mp hl₂
    have hnew' := applied_eq_false.mpr hnew
    have hb := hi.before (l₁ ++ l₃) c l₄ (hdone.trans (append_assoc ..).symm) (by simpa using hc) p hp
    refine mem_filter.mpr ⟨(mem_append.mp hb).resolve_right fun hin => hl₃ p hin ?_, ?_⟩
    · rw [hnew']
      rfl
    · rw [hnew']
      rfl

/-- A history without a cycle is merged in a number of calls that its blocks and their parents bound, and the calls that
    clean up end with that outcome. A cycle among what was not applied is reported. -/
theorem history_merged_in_pages (env : Env Cid) (nodes : Finset Cid) (hw : Walkable env nodes) (hadmitted : env.Admitted)
    (start : Store Cid) (hfresh : start.Fresh) (hclosed : AncestorClosed env start) (budget : Nat) (hbudget : 1 ≤ budget) :
    ((∀ c, Under env.parents env.root c → ¬OnCycle env.parents c) →
      ∃ walked ≤ 2 * nodes.card + ∑ c ∈ nodes, (env.parents c).length, ∃ cleaned ≤ nodes.card, ∃ complete store doc order,
        env.turns budget walked start = .ok (replicate walked .yielded, complete) ∧
        complete.progress.bind Progress.outcome = some .merged ∧
        env.turns budget (cleaned + 1) complete = .ok (replicate cleaned .yielded ++ [.merged], store) ∧
        complete.log = start.log ++ order ∧ store.log = start.log ++ order ∧ Merged env start doc order) ∧
    ((∃ c, Under env.parents env.root c ∧ OnCycle env.parents c ∧ ∀ doc, env.Names doc → (doc, c) ∉ start.published) →
      ∃ walked ≤ 2 * nodes.card + ∑ c ∈ nodes, (env.parents c).length, ∃ store,
        env.turns budget walked start = .ok (replicate walked .yielded, store) ∧
        env.turn budget store = .error (.unsupportedDelta "cyclic composite history")) := by
  have hwork := @work_start Cid env.parents env.root _ nodes hw.root
  have hwalk := turns_walk hw hbudget (work env.parents nodes ⟨[(env.root, 0)], []⟩) start _ (hfresh.turned hw hadmitted) le_rfl
  constructor
  · intro ha
    rcases hwalk with ⟨walked, hcnt, complete, s, ht, hcomplete⟩ | ⟨_, -, _, c, -, -, hc, hcycle⟩
    · obtain ⟨hr, hmarks⟩ := hcomplete.releasing hw
      obtain ⟨cleaned, hle, store, hrelease, hl, -⟩ := turns_release hbudget nodes.card complete hr hmarks
      obtain ⟨doc, order, ho, hm⟩ := hcomplete.merged hclosed
      obtain ⟨progress, hp, -, houtcome⟩ := hr.progress
      refine ⟨walked, by omega, cleaned, hle, complete, store, doc, order, ht, ?_, hrelease, ho, hl.trans ho, hm⟩
      rw [hp]
      exact houtcome
    · exact absurd hcycle (ha c hc)
  · rintro ⟨c, hc, hcycle, hnew⟩
    rcases hwalk with ⟨_, -, _, s, -, _, -, hended⟩ | ⟨walked, hcnt, store, _, ht, hlast, -⟩
    · obtain ⟨doc, hd, hname⟩ := hended.doc
      have hi := hended.inv
      rw [hd] at hi
      exact absurd hcycle
        (hi.acyclic (hclosed.skip hname) hended.stack hc (applied_eq_false.mpr (hnew doc hname)))
    · exact ⟨walked, by omega, store, ht, hlast⟩

variable (admissions : List (Nat × Option String))

/-! ### Two edits -/

/-- An edit of a document that was made and edited before. -/
def twoEdits : Env Nat where
  root := 2
  rootBlock := ⟨true, some [0, 1]⟩
  stored c := if c = 0 then some (.ok ⟨true, none⟩) else if c = 1 then some (.ok ⟨true, some [0]⟩) else none
  owners _ := []
  deriveDocId _ := "doc"
  prepare _ _ _ := .ok .ready
  process _ _ _ := .ok .merged
  docId := none
  senderPeer := none
  fromCollection := false
  admissions
  reclaimIdle := .ok false
  context := []
  generation := []
  now := 0
  text _ := ""
  debug _ := ""

theorem twoEdits_walkable : Walkable (twoEdits admissions) {0, 1, 2} where
  root := by
    show 2 ∈ ({0, 1, 2} : Finset Nat)
    decide
  closed := by
    show ∀ c ∈ ({0, 1, 2} : Finset Nat), ∀ p ∈ (twoEdits []).parents c, p ∈ ({0, 1, 2} : Finset Nat)
    decide
  present c hc := by
    rcases Finset.mem_insert.mp hc with rfl | hc
    · exact ⟨_, rfl, rfl⟩
    · rcases Finset.mem_insert.mp hc with rfl | hc
      · exact ⟨_, rfl, rfl⟩
      · cases Finset.mem_singleton.mp hc
        exact ⟨_, rfl, rfl⟩
  prepare _ _ _ _ := rfl
  process _ _ _ _ := rfl
  card := by decide

theorem twoEdits_acyclic (c : Nat) (hc : Under (twoEdits admissions).parents (twoEdits admissions).root c)
    : ¬OnCycle (twoEdits admissions).parents c := by
  have hlt : ∀ a ∈ ({0, 1, 2} : Finset Nat), ∀ p ∈ (twoEdits []).parents a, p < a := by decide
  have hbelow : ∀ {a b}, Under (twoEdits admissions).parents (twoEdits admissions).root a →
      Relation.TransGen (fun a p => p ∈ (twoEdits admissions).parents a) a b → b < a := by
    intro a b ha hab
    induction hab with
    | single hp => exact hlt a ((twoEdits_walkable admissions).mem ha) _ hp
    | tail hab hp ih =>
      exact (hlt _ ((twoEdits_walkable admissions).mem (ha.trans hab.to_reflTransGen)) _ hp).trans ih
  exact fun hcycle => lt_irrefl c (hbelow hc hcycle)

/-- With the first block applied, the two edits are merged, one step a page. -/
theorem twoEdits_merged : ∃ walked ≤ 9, ∃ cleaned ≤ 3, ∃ complete store doc order,
    (twoEdits []).turns 1 walked { published := [("doc", 0)] } = .ok (replicate walked .yielded, complete) ∧
      complete.progress.bind Progress.outcome = some .merged ∧
      (twoEdits []).turns 1 (cleaned + 1) complete = .ok (replicate cleaned .yielded ++ [.merged], store) ∧
      complete.log = [] ++ order ∧ store.log = [] ++ order ∧
      Merged (twoEdits []) { published := [("doc", 0)] } doc order := by
  have hclosed : AncestorClosed (twoEdits []) { published := [("doc", 0)] } := by
    intro doc _ c _ hpub p hp
    cases mem_singleton.mp hpub
    cases hp
  exact (history_merged_in_pages (twoEdits []) {0, 1, 2} (twoEdits_walkable []) ⟨by decide, fun _ h => by cases h⟩
    { published := [("doc", 0)] } ⟨rfl, rfl, rfl⟩ hclosed 1 le_rfl).1 (twoEdits_acyclic [])

/-- Sixty-four other roots are live. -/
def fullQuota : List (Nat × Option String) := (range maxRoots).map fun n => (n + 3, none)

/-- While there is no room for the root, nothing is walked. -/
theorem fullQuota_never_merged : Walkable (twoEdits fullQuota) {0, 1, 2} ∧
    (∀ c, Under (twoEdits fullQuota).parents (twoEdits fullQuota).root c → ¬OnCycle (twoEdits fullQuota).parents c) ∧
      ∀ count, (twoEdits fullQuota).turns 1 count {} =
        .ok (replicate count (.retryableSkip "history admission quota reached"), {}) := by
  refine ⟨twoEdits_walkable fullQuota, twoEdits_acyclic fullQuota, fun count => ?_⟩
  have ht : (twoEdits fullQuota).turn 1 {} = .ok (.retryableSkip "history admission quota reached", {}) := rfl
  induction count with
  | zero => rfl
  | succ count ih =>
    rw [turns_succ ht, ih]
    rfl

end Defra.History
