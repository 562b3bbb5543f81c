import Defra.Lib.Checked
import Defra.Nac.Manager
import Mathlib.Data.Set.Insert

/-! An operation changes the stored owners only when it sees an unconfigured node or purges it, with one exception: enabling
    asks whether the checks are on, so a node whose checks are off takes a further owner. -/

namespace Defra.Nac
open Node Zanzibar Store Option List Except

/-! ### The stored owners -/

def Store.owners (store : Store) : Set Subject := {subject | subject ∈ store.subjects ownerRelation}

namespace Store
variable {store : Store} {rel : Relationship} {subject : Subject}

theorem mem_subjects {relation : String} :
    subject ∈ store.subjects relation ↔ ⟨nodeResourceName, nodeObjectId, relation, subject⟩ ∈ store.relationships := by
  constructor
  · intro h
    obtain ⟨⟨resource, objectId, name, held⟩, hrel, heq⟩ := mem_filterMap.mp h
    simp only [ite_none_right_eq_some, some.injEq] at heq
    obtain ⟨⟨rfl, rfl, rfl⟩, rfl⟩ := heq
    exact hrel
  · exact fun h => mem_filterMap.mpr ⟨_, h, by simp⟩

theorem mem_owners : subject ∈ store.owners ↔ ⟨nodeResourceName, nodeObjectId, ownerRelation, subject⟩ ∈ store.relationships :=
  mem_subjects

theorem owners_storeOwner (did : String) :
    (store.storeRelationship (relationship ownerRelation did)).owners = insert (.entity did) store.owners := by
  ext subject
  simp only [mem_owners, storeRelationship, relationship, mem_cons, mem_filter, Set.mem_insert_iff]
  grind

theorem owners_storeDisabled (did : String) :
    (store.storeRelationship (relationship disabledRelation did)).owners = store.owners := by
  ext subject
  simp [mem_owners, storeRelationship, relationship, ownerRelation, disabledRelation]

theorem owners_deleteDisabled (did : String) :
    (store.deleteRelationship (relationship disabledRelation did)).owners = store.owners := by
  ext subject
  simp [mem_owners, deleteRelationship, relationship, ownerRelation, disabledRelation]

theorem owners_purged : ((store.deleteObjectRelationships nodeResourceName nodeObjectId).deletePolicy).owners = ∅ := by
  ext subject
  simp only [mem_owners, deletePolicy, Set.mem_empty_iff_false, iff_false]
  split
  · exact not_mem_nil
  · simp [deleteObjectRelationships]

theorem policy_purged : ((store.deleteObjectRelationships nodeResourceName nodeObjectId).deletePolicy).policy = none := by
  unfold deletePolicy
  split
  · rfl
  case isFalse h => simpa using h

end Store

namespace Node
variable {ls : Listing} {node loaded : Node}

theorem readPolicy_ok {configured : Bool} (h : node.readPolicy = .ok (configured, loaded)) :
    configured = node.store.policy.isSome ∧ loaded.store = node.store ∧ loaded.acp.status = node.acp.status ∧
      loaded.acp.owner = node.acp.owner := by
  unfold readPolicy at h
  split at h
  · cases h
    exact ⟨rfl, rfl, rfl, rfl⟩
  · split at h
    case h_1 hp =>
      cases h
      exact ⟨by rw [hp]; rfl, rfl, rfl, rfl⟩
    case h_2 hp =>
      split at h
      · cases h
      · cases h
        exact ⟨by rw [hp]; rfl, rfl, rfl, rfl⟩

/-- The status that a node loads from what is stored. -/
def statusOf (ls : Listing) (store : Store) (status : NacStatus) : NacStatus :=
  if store.policy.isSome then
    match (ls.list (store.subjects ownerRelation)).head? with
    | some (.entity _) => if (store.subjects disabledRelation).isEmpty then .enabled else .disabledTemporarily
    | _ => status
  else .notConfigured

theorem load_ok (h : node.load ls = .ok loaded) :
    loaded.store = node.store ∧ loaded.acp.status = statusOf ls node.store node.acp.status := by
  unfold load at h
  cases hr : node.readPolicy with
  | error e =>
    rw [hr] at h
    cases h
  | ok read =>
    obtain ⟨configured, next⟩ := read
    obtain ⟨rfl, hs, hstat, _⟩ := readPolicy_ok hr
    rw [hr] at h
    replace h : (if node.store.policy.isSome then _ else _) = ok loaded := h
    unfold statusOf
    split at h
    case isTrue hp =>
      rw [if_pos hp, ← hs]
      generalize (ls.list (next.store.subjects ownerRelation)).head? = first at h ⊢
      rcases first with _ | (owner | _ | _ | _) <;> cases h
      -- Only an entity becomes the owner.
      case some.entity => exact ⟨rfl, rfl⟩
      all_goals exact ⟨rfl, hstat⟩
    case isFalse hp =>
      rw [if_neg hp]
      cases h
      exact ⟨hs, rfl⟩

theorem load_of_none (h : node.store.policy = none) : ∃ loaded, node.load ls = .ok loaded := by
  unfold load readPolicy
  split
  · exact ⟨_, by simp [h]; rfl⟩
  · exact ⟨_, by simp [h]; rfl⟩

theorem enable_owners (owner : String) : (node.enable owner).store.owners =
    if node.acp.status = .enabled then node.store.owners else insert (.entity owner) node.store.owners := by
  unfold enable
  split
  · rfl
  · exact owners_storeOwner owner

theorem disable_owners (h : node.disable = .ok loaded) :
    loaded.store.owners = node.store.owners ∧ loaded.store.policy = node.store.policy ∧
      node.acp.status ≠ .notConfigured ∧ loaded.acp.status ≠ .notConfigured := by
  unfold disable at h
  split at h
  case h_1 => cases h
  case h_2 => cases h
  case h_3 hs =>
    cases h
    cases ho : node.acp.owner with
    | none => exact ⟨rfl, rfl, by simp [hs], by simp⟩
    | some owner => exact ⟨owners_storeDisabled owner, rfl, by simp [hs], by simp⟩

theorem reEnable_owners (h : node.reEnable = .ok loaded) :
    loaded.store.owners = node.store.owners ∧ loaded.store.policy = node.store.policy ∧
      node.acp.status ≠ .notConfigured ∧ loaded.acp.status ≠ .notConfigured := by
  unfold reEnable at h
  split at h
  case h_1 => cases h
  case h_2 => cases h
  case h_3 hs =>
    cases h
    cases ho : node.acp.owner with
    | none => exact ⟨rfl, rfl, by simp [hs], by simp⟩
    | some owner => exact ⟨owners_deleteDisabled owner, rfl, by simp [hs], by simp⟩

theorem decideToggle_owners {caller : NacCaller} {toggle : Toggle} (h : node.decideToggle caller toggle = .ok loaded) :
    loaded.store.owners = node.store.owners ∧ loaded.store.policy = node.store.policy ∧
      node.acp.status ≠ .notConfigured ∧ loaded.acp.status ≠ .notConfigured := by
  unfold decideToggle at h
  cases toggle with
  | disable =>
    dsimp only at h
    split at h
    · cases h
    · split at h
      · cases h
      · obtain ⟨_, _, h⟩ := Checked.bind h
        exact disable_owners (Checked.mapError h)
  | reEnable =>
    dsimp only at h
    split at h
    · cases h
    · obtain ⟨_, _, h⟩ := Checked.bind h
      split at h
      · cases h
      · exact reEnable_owners (Checked.mapError h)

theorem purgeDirect_ok {config : NacConfig} {requestor : String} (h : node.purgeDirect config requestor = .ok loaded) :
    loaded = node.purge := by
  unfold purgeDirect at h
  split at h
  · cases h
  · obtain ⟨admin, _, h⟩ := Checked.bind h
    split at h
    · cases h
    · exact (ok.inj h).symm

end Node

/-! ### Scopes -/

section Scopes
variable {ls : Listing} {direct : Operation} {node : Node}

theorem committed_cases (ls : Listing) (direct : Operation) (node : Node) :
    ((∃ error, (committed ls direct node).1 = .error error) ∧ (committed ls direct node).2.store = node.store) ∨
    ∃ scope, node.fresh.load ls = .ok scope ∧ (direct scope).1 = .ok () ∧
      (committed ls direct node).1 = .ok (direct scope).2 ∧ (committed ls direct node).2.store = (direct scope).2.store := by
  unfold committed
  cases hl : node.fresh.load ls with
  | error e => exact .inl ⟨⟨_, rfl⟩, rfl⟩
  | ok scope =>
    cases hd : direct scope with
    | mk result left =>
      cases result with
      | error e => exact .inl ⟨⟨e, by simp only [hd]⟩, by simp only [hd]⟩
      | ok _ => exact .inr ⟨scope, rfl, by simp only [hd], by simp only [hd], by simp only [hd]⟩

theorem inScope_store : (inScope ls direct node).2.store = (committed ls direct node).2.store := by
  unfold inScope
  split
  case h_1 h => rw [h]
  case h_2 h =>
    rw [h]
    split
    case h_1 => rfl
    case h_2 hload => exact (load_ok hload).1

theorem inWrite_store : (inWrite ls direct node).2.store = (committed ls direct node).2.store := by
  unfold inWrite
  split
  case h_1 h => rw [h]
  case h_2 h =>
    rw [h]
    split
    case h_1 => rfl
    case h_2 hload => exact (load_ok hload).1

end Scopes

namespace NacManager
variable (m : NacManager) (node : Node)

/-- The node that an operation starts from: with scopes, one loaded anew. -/
def entry : Except AcpError Node := if m.scopes then node.fresh.load m.listing else .ok node

/-- The status that an operation sees. -/
def statusSeen : Op → Option NacStatus
  | .initializeNode _ => ((m.entry node).bind (load m.listing)).toOption.map fun start => start.acp.status
  | _ => (m.entry node).toOption.map fun start => start.acp.status

/-- The operation enables a node whose checks are off for an identity that is not an owner. -/
def TakesOver : Op → Prop
  | .enable caller ownerDid => caller = some ownerDid ∧
      m.statusSeen node (.enable caller ownerDid) = some .disabledTemporarily ∧ .entity ownerDid ∉ node.store.owners
  | _ => False

def Purges (op : Op) : Prop := (∃ requestor, op = .purge requestor) ∧ (m.operation op node).1 = .ok ()

variable {m node}

theorem entry_store {start : Node} (h : m.entry node = .ok start) : start.store = node.store := by
  unfold entry at h
  split at h
  · exact (load_ok h).1
  · rw [ok.inj h]

/-- An operation leaves what its direct form leaves of its entry state, or the store as it is. -/
theorem via_store {direct whole : Operation}
    (h : whole = (if m.scopes then inScope m.listing direct else direct) ∨
      whole = (if m.scopes then inWrite m.listing direct else direct)) :
    ((whole node).2.store = node.store ∧ ∀ start, m.entry node = .ok start → (direct start).1 ≠ .ok ()) ∨
    ∃ start, m.entry node = .ok start ∧ (whole node).2.store = (direct start).2.store := by
  cases hs : m.scopes with
  | false =>
    have hw : whole = direct := by simpa [hs] using h
    exact .inr ⟨node, by simp [entry, hs], by rw [hw]⟩
  | true =>
    have hstore : (whole node).2.store = (committed m.listing direct node).2.store := by
      rcases h with rfl | rfl
      · simpa [hs] using inScope_store
      · simpa [hs] using inWrite_store
    have hentry : m.entry node = node.fresh.load m.listing := by simp [entry, hs]
    rcases committed_cases m.listing direct node with ⟨⟨e, he⟩, hn⟩ | ⟨scope, hl, hok, hr, hscope⟩
    · refine .inl ⟨hstore.trans hn, fun start hstart hok => ?_⟩
      rw [hentry] at hstart
      simp only [committed, hstart] at he
      cases hd : direct start with
      | mk result left =>
        rw [hd] at hok
        cases hok
        rw [hd] at he
        cases he
    · exact .inr ⟨scope, hentry.trans hl, hstore.trans hscope⟩

theorem enable_owners_of_entry {owner : String} {start : Node} (h : m.entry node = .ok start) :
    (m.enable owner node).2.store = (start.enable owner).store := by
  rcases @via_store m node _ (m.enable owner) (.inl rfl) with ⟨_, hnot⟩ | ⟨other, ho, hs⟩
  · exact absurd rfl (hnot start h)
  · rw [hs, ok.inj (h.symm.trans ho)]

theorem initializeNode_owners (owner : Option String) :
    (m.initializeNode owner node).2.store.owners = node.store.owners ∨
      m.statusSeen node (.initializeNode owner) = some .notConfigured := by
  rcases @via_store m node _ (m.initializeNode owner) (.inl rfl) with ⟨hs, _⟩ | ⟨start, hstart, hs⟩
  · exact .inl (congrArg owners hs)
  · rw [hs, ← entry_store hstart]
    unfold initializeDirect
    cases hl : start.load m.listing with
    | error e => exact .inl rfl
    | ok loaded =>
      dsimp only
      split
      case isTrue hconf =>
        right
        rw [statusSeen, hstart]
        simp [Except.bind, hl, Except.toOption, hconf.2]
      case isFalse => exact .inl (congrArg owners (load_ok hl).1)

theorem handleEnable_owners {ownerDid : String} {status : NacStatus}
    (hseen : m.statusSeen node (.enable (some ownerDid) ownerDid) = some status) (hs : status ≠ .enabled) :
    (m.handleEnable (some ownerDid) ownerDid node).2.store.owners = insert (.entity ownerDid) node.store.owners := by
  cases he : m.entry node with
  | error e => simp [statusSeen, he, Except.toOption] at hseen
  | ok start =>
    simp only [statusSeen, he, Except.toOption, map_some, some.injEq] at hseen
    rw [← hseen] at hs
    simp only [handleEnable, ne_eq, not_true_eq_false, if_false]
    rw [enable_owners_of_entry he, enable_owners, entry_store he, if_neg hs]

theorem enable_cases (caller : Option String) (ownerDid : String) :
    (m.handleEnable caller ownerDid node).2.store.owners = node.store.owners ∨
      caller = some ownerDid ∧
      (m.handleEnable caller ownerDid node).2.store.owners = insert (.entity ownerDid) node.store.owners ∧
      ∃ status, m.statusSeen node (.enable caller ownerDid) = some status ∧ status ≠ .enabled := by
  unfold handleEnable
  split
  · exact .inl rfl
  · split
    · exact .inl rfl
    case isFalse hc =>
      rw [not_not] at hc
      subst hc
      cases he : m.entry node with
      | error e =>
        rcases @via_store m node _ (m.enable _) (.inl rfl) with ⟨hstore, _⟩ | ⟨start, hs, _⟩
        · exact .inl (congrArg owners hstore)
        · rw [he] at hs
          cases hs
      | ok start =>
        rw [enable_owners_of_entry he, enable_owners, entry_store he]
        split
        · exact .inl rfl
        case isFalse hstat => exact .inr ⟨rfl, rfl, start.acp.status, by simp [statusSeen, he, Except.toOption], hstat⟩

theorem toggleAs_owners (caller : NacCaller) (toggle : Toggle) :
    (m.toggleAs caller toggle node).2.store.owners = node.store.owners := by
  rcases @via_store m node _ (m.toggleAs caller toggle) (.inr rfl) with ⟨hs, _⟩ | ⟨start, hstart, hs⟩
  · exact congrArg owners hs
  · rw [hs, ← entry_store hstart]
    unfold Operation.of
    split
    · rfl
    case h_2 h => exact (decideToggle_owners h).1

theorem purge_owners (requestor : String) :
    (m.purge requestor node).2.store.owners = node.store.owners ∨ m.Purges node (.purge requestor) := by
  rcases @via_store m node _ (m.purge requestor) (.inl rfl) with ⟨hstore, _⟩ | ⟨start, hstart, hstore⟩
  · exact .inl (congrArg owners hstore)
  · rw [hstore, ← entry_store hstart]
    cases hp : start.purgeDirect m.config requestor with
    | error e => exact .inl (by simp [Operation.of, hp])
    | ok left =>
      refine .inr ⟨⟨requestor, rfl⟩, ?_⟩
      show (m.purge requestor node).1 = .ok ()
      cases hs : m.scopes with
      | false =>
        obtain rfl : node = start := by simpa [entry, hs] using hstart
        simp [purge, hs, Operation.of, hp]
      | true =>
        have hload : node.fresh.load m.listing = .ok start := by simpa [entry, hs] using hstart
        have hn : left.store.policy = none := by
          rw [purgeDirect_ok hp]
          exact policy_purged
        -- the node policy is gone, so the committed state loads
        obtain ⟨loaded, hl⟩ := @load_of_none m.listing
          { store := left.store, acp := { node.acp with policies := left.acp.policies } } hn
        simp [purge, hs, inScope, committed, hload, Operation.of, hp, hl]

theorem step_owners (node : Node) (op : Op) : (m.step node op).store.owners = node.store.owners ∨
    m.statusSeen node op = some .notConfigured ∨ m.Purges node op ∨ m.TakesOver node op := by
  cases op with
  | initializeNode owner => exact (initializeNode_owners owner).imp id .inl
  | enable caller ownerDid =>
    rcases @enable_cases m node caller ownerDid with h | ⟨hc, ho, status, hseen, hs⟩
    · exact .inl h
    · cases status with
      | notConfigured => exact .inr (.inl hseen)
      | enabled => exact absurd rfl hs
      | disabledTemporarily =>
        by_cases hmem : .entity ownerDid ∈ node.store.owners
        · exact .inl (ho.trans (Set.insert_eq_of_mem hmem))
        · exact .inr (.inr (.inr ⟨hc, hseen, hmem⟩))
  | disableAs caller => exact .inl (toggleAs_owners caller .disable)
  | reEnableAs caller => exact .inl (toggleAs_owners caller .reEnable)
  | purge requestor => exact (purge_owners requestor).imp id fun h => .inr (.inl h)

/-- Which operations change the owners. -/
theorem step_owners_iff (node : Node) (op : Op) : ((m.step node op).store.owners ≠ node.store.owners →
      m.statusSeen node op = some .notConfigured ∨ m.Purges node op) ↔ ¬m.TakesOver node op := by
  constructor
  · intro h htakes
    cases op with
    | enable caller ownerDid =>
      obtain ⟨rfl, hseen, hmem⟩ := htakes
      have hi : (m.step node (.enable (some ownerDid) ownerDid)).store.owners =
          insert (.entity ownerDid) node.store.owners := handleEnable_owners hseen (by decide)
      have hchanged : (m.step node (.enable (some ownerDid) ownerDid)).store.owners ≠ node.store.owners :=
        fun hsame => hmem (hsame ▸ hi ▸ Set.mem_insert _ _)
      rcases h hchanged with hnot | ⟨⟨requestor, hp⟩, _⟩
      · rw [hseen] at hnot
        cases hnot
      · cases hp
    | initializeNode owner => exact htakes
    | disableAs caller => exact htakes
    | reEnableAs caller => exact htakes
    | purge requestor => exact htakes
  · intro h hchanged
    rcases step_owners node op with hsame | hseen | hpurges | htakes
    · exact absurd hsame hchanged
    · exact .inl hseen
    · exact .inr hpurges
    · exact absurd htakes h

end NacManager

/-! ### Nodes that agree with their store -/

/-- The node has been enabled for at most one identity since it was last unconfigured. -/
structure Owned (store : Store) : Prop where
  unconfigured : store.policy = none → store.owners = ∅
  configured : store.policy ≠ none → ∃ did, store.owners = {.entity did}

/-- The status of the node says whether it is configured. -/
structure Synced (node : Node) : Prop extends Owned node.store where
  status : node.acp.status = .notConfigured ↔ node.store.policy = none

theorem Owned.load {ls : Listing} {node loaded : Node} (h : Owned node.store) (hload : node.load ls = .ok loaded) :
    Synced loaded := by
  obtain ⟨hs, hstat⟩ := load_ok hload
  refine ⟨hs ▸ h, ?_⟩
  rw [hstat, hs]
  unfold statusOf
  cases hp : node.store.policy with
  | none => simp
  | some policy =>
    obtain ⟨did, howners⟩ := h.configured (by simp [hp])
    -- the only owner is the first that the store lists
    have hmem : ∀ subject, subject ∈ ls.list (node.store.subjects ownerRelation) ↔ subject = .entity did := by
      intro subject
      rw [ls.mem_list]
      exact Set.ext_iff.mp howners subject
    cases hl : ls.list (node.store.subjects ownerRelation) with
    | nil =>
      rw [hl] at hmem
      exact absurd ((hmem _).mpr rfl) not_mem_nil
    | cons subject rest =>
      obtain rfl := (hmem subject).mp (hl ▸ mem_cons_self)
      simp only [isSome_some, if_true, head?_cons]
      split
      · simp
      · simp

namespace Synced
variable {node left : Node}

theorem enable (h : Synced node) {owner : String}
    (howner : node.acp.status = .disabledTemporarily → .entity owner ∈ node.store.owners) : Synced (node.enable owner) := by
  have ho := @enable_owners node owner
  by_cases he : node.acp.status = .enabled
  · have hsame : node.enable owner = node := by rw [Node.enable, if_pos he]
    rwa [hsame]
  · have hc : (node.enable owner).store.policy ≠ none ∧ (node.enable owner).acp.status ≠ .notConfigured := by
      rw [Node.enable, if_neg he]
      exact ⟨some_ne_none _, fun h => (nomatch h)⟩
    refine ⟨⟨fun hn => absurd hn hc.1, fun _ => ⟨owner, ?_⟩⟩,
      iff_of_false hc.2 hc.1⟩
    rw [ho]
    cases hs : node.acp.status with
    | enabled => exact absurd hs he
    | notConfigured =>
      rw [h.unconfigured (h.status.mp hs)]
      exact insert_empty_eq _
    | disabledTemporarily =>
      obtain ⟨did, hd⟩ := h.configured fun hn => by simp [h.status.mpr hn] at hs
      have hmem := howner hs
      rw [hd] at hmem
      rw [hd, hmem]
      exact Set.insert_eq_of_mem rfl

theorem toggle (h : Synced node) {caller : NacCaller} {toggle : Toggle} (ht : node.decideToggle caller toggle = .ok left) :
    Synced left := by
  obtain ⟨howners, hp, hbef, hafter⟩ := decideToggle_owners ht
  have hc : left.store.policy ≠ none := hp ▸ fun hn => hbef (h.status.mpr hn)
  refine ⟨⟨fun hn => absurd hn hc, fun _ => ?_⟩, iff_of_false hafter hc⟩
  rw [howners]
  exact h.configured (hp ▸ hc)

theorem purge (node : Node) : Synced node.purge :=
  ⟨⟨fun _ => owners_purged, absurd policy_purged⟩,
    iff_of_true rfl policy_purged⟩

theorem initializeDirect (h : Synced node) (ls : Listing) (config : NacConfig) (owner : Option String) :
    Synced (node.initializeDirect ls config owner).2 := by
  unfold Node.initializeDirect
  cases hload : node.load ls with
  | error e => exact h
  | ok loaded =>
    have hl := h.load hload
    dsimp only
    split
    case isTrue hconf =>
      cases owner with
      | none => exact hl
      | some owner => exact hl.enable fun hdis => by simp [hconf.2] at hdis
    case isFalse => exact hl

theorem operation_of {op : Node → Except Error Node} (h : Synced node) (hop : ∀ left, op node = .ok left → Synced left) :
    Synced (Operation.of op node).2 := by
  unfold Operation.of
  split
  · exact h
  case h_2 hok => exact hop _ hok

end Synced

namespace NacManager
variable {m : NacManager} {node : Node} {op : Op}

variable (m) in
/-- Without scopes, what an operation decides on in memory has to agree with the store. -/
structure Kept (node : Node) : Prop where
  owned : Owned node.store
  synced : m.scopes = false → Synced node

theorem Kept.entry (h : m.Kept node) {start : Node} (hs : m.entry node = .ok start) : Synced start := by
  unfold NacManager.entry at hs
  split at hs
  · exact @Owned.load _ node.fresh start h.owned hs
  case isFalse hscopes =>
    obtain rfl := ok.inj hs
    exact h.synced (by simpa using hscopes)

theorem Kept.via {direct whole : Operation} (h : m.Kept node)
    (hw : whole = (if m.scopes then inScope m.listing direct else direct) ∨
      whole = (if m.scopes then inWrite m.listing direct else direct))
    (hd : ∀ start, m.entry node = .ok start → Synced (direct start).2) : m.Kept (whole node).2 := by
  constructor
  · rcases @via_store m node direct whole hw with ⟨hstore, _⟩ | ⟨start, hstart, hstore⟩
    · exact hstore ▸ h.owned
    · exact hstore ▸ (hd start hstart).toOwned
  · intro hs
    obtain rfl : whole = direct := by simpa [hs] using hw
    exact hd node (by simp [NacManager.entry, hs])

theorem Kept.step (h : m.Kept node) (hop : ¬m.TakesOver node op) : m.Kept (m.step node op) := by
  cases op with
  | initializeNode owner => exact h.via (.inl rfl) fun start hs => (h.entry hs).initializeDirect _ _ _
  | enable caller ownerDid =>
    show m.Kept (m.handleEnable caller ownerDid node).2
    unfold handleEnable
    split
    · exact h
    · split
      · exact h
      case isFalse hc =>
        rw [not_not] at hc
        subst hc
        refine h.via (.inl rfl) fun start hs => (h.entry hs).enable fun hdis => ?_
        by_contra hmem
        refine hop ⟨rfl, by simp [statusSeen, hs, Except.toOption, hdis], ?_⟩
        rwa [← entry_store hs]
  | disableAs caller =>
    exact h.via (.inr rfl) fun start hs => (h.entry hs).operation_of fun left hl => (h.entry hs).toggle hl
  | reEnableAs caller =>
    exact h.via (.inr rfl) fun start hs => (h.entry hs).operation_of fun left hl => (h.entry hs).toggle hl
  | purge requestor =>
    refine h.via (.inl rfl) fun start hs => (h.entry hs).operation_of fun left hl => ?_
    rw [purgeDirect_ok hl]
    exact Synced.purge start

theorem Kept.unconfigured (h : m.Kept node) (hseen : m.statusSeen node op = some .notConfigured) :
    node.store.owners = ∅ := by
  have hsynced : ∀ {start : Node}, Synced start → start.store = node.store → start.acp.status = .notConfigured →
      node.store.owners = ∅ := by
    intro start hs hstore hstat
    rw [← hstore]
    exact hs.unconfigured (hs.status.mp hstat)
  cases he : m.entry node with
  | error e => cases op <;> simp [statusSeen, he, Except.bind, Except.toOption] at hseen
  | ok start =>
    have hs := h.entry he
    cases op with
    | initializeNode owner =>
      cases hl : start.load m.listing with
      | error e => simp [statusSeen, he, Except.bind, hl, Except.toOption] at hseen
      | ok loaded =>
        refine hsynced (hs.load hl) ((load_ok hl).1.trans (entry_store he)) ?_
        simpa [statusSeen, he, Except.bind, hl, Except.toOption] using hseen
    | _ => exact hsynced hs (entry_store he) (by simpa [statusSeen, he, Except.toOption] using hseen)

variable (m) in
/-- `P` holds at every step of the run. -/
def Along (P : Node → Op → Prop) : Node → List Op → Prop
  | _, [] => True
  | node, op :: ops => P node op ∧ Along P (m.step node op) ops

theorem along_append {P : Node → Op → Prop} {ops more : List Op} :
    m.Along P node (ops ++ more) ↔ m.Along P node ops ∧ m.Along P (ops.foldl m.step node) more := by
  induction ops generalizing node with
  | nil => simp [Along]
  | cons op ops ih => simp [Along, ih, and_assoc]

theorem Kept.run {ops : List Op} (h : m.Kept node) (ho : m.Along (fun node op => ¬m.TakesOver node op) node ops) :
    m.Kept (ops.foldl m.step node) := by
  induction ops generalizing node with
  | nil => exact h
  | cons op ops ih => exact ih (h.step ho.1) ho.2

theorem Kept.run_owners {ops : List Op} (h : m.Kept node)
    (ho : m.Along (fun node op => ¬m.TakesOver node op) node ops)
    (hpurges : m.Along (fun node op => ¬m.Purges node op) node ops) (howned : node.store.owners ≠ ∅) :
    (ops.foldl m.step node).store.owners = node.store.owners := by
  induction ops generalizing node with
  | nil => rfl
  | cons op ops ih =>
    have hsame : (m.step node op).store.owners = node.store.owners := by
      by_contra hchanged
      rcases (step_owners_iff node op).mpr ho.1 hchanged with hseen | hpurge
      · exact howned (h.unconfigured hseen)
      · exact hpurges.1 hpurge
    calc ((op :: ops).foldl m.step node).store.owners
        = (m.step node op).store.owners := ih (h.step ho.1) ho.2 hpurges.2 (hsame ▸ howned)
      _ = node.store.owners := hsame

/-- The stored owners change only for an unconfigured node or by a purge exactly when the operation is no takeover; and in a
    run without a takeover a node keeps its one owner until a purge. -/
theorem node_ownership (m : NacManager) : (∀ node op, ((m.step node op).store.owners ≠ node.store.owners →
      m.statusSeen node op = some .notConfigured ∨ m.Purges node op) ↔ ¬m.TakesOver node op) ∧
    ∀ ops more, m.Along (fun node op => ¬m.TakesOver node op) {} (ops ++ more) →
      m.Along (fun node op => ¬m.Purges node op) (m.run ops) more → (m.run ops).store.owners ≠ ∅ →
      ∃ did, (m.run ops).store.owners = {.entity did} ∧ (m.run (ops ++ more)).store.owners = {.entity did} := by
  refine ⟨step_owners_iff, fun ops more hops hpurges ho => ?_⟩
  obtain ⟨hops, hm⟩ := along_append.mp hops
  have hempty : ({} : Node).store.owners = ∅ := Set.ext fun subject => by simp [mem_owners]
  have hstart : m.Kept {} :=
    ⟨⟨fun _ => hempty, fun hpol => absurd rfl hpol⟩,
      fun _ => ⟨⟨fun _ => hempty, fun hpol => absurd rfl hpol⟩, iff_of_true rfl rfl⟩⟩
  have hkept : m.Kept (m.run ops) := hstart.run hops
  obtain ⟨did, hd⟩ := hkept.owned.configured fun hnone => ho (hkept.owned.unconfigured hnone)
  refine ⟨did, hd, ?_⟩
  rw [run, foldl_append, ← hd]
  exact hkept.run_owners hm hpurges ho

/-! ### Runs -/

/-- A manager over a store with scopes or without, which lists subjects as they are stored. -/
def plainManager (scopes : Bool) : NacManager := ⟨⟨id, Iff.rfl⟩, scopes, ⟨true, false⟩⟩

def alice : NacCaller := ⟨some "did:key:alice", none⟩

/-- The owner turns the checks off and on again, and another identity enables the node for itself. -/
theorem enabled_ownership :
    ∃ did, ((plainManager true).run [.enable alice.identity "did:key:alice"]).store.owners = {.entity did} ∧
      ((plainManager true).run ([.enable alice.identity "did:key:alice"] ++
        [.disableAs alice, .reEnableAs alice, .enable (some "did:key:mallory") "did:key:mallory"])).store.owners = {.entity did} := by
  refine (node_ownership (plainManager true)).2 _ _ ⟨fun h => ?_, id, id, fun h => ?_, trivial⟩
    ⟨fun h => ?_, fun h => ?_, fun h => ?_, trivial⟩ ?_
  · exact absurd h.2.1 (by decide +kernel)
  · exact absurd h.2.1 (by decide +kernel)
  · exact nomatch h.1.choose_spec
  · exact nomatch h.1.choose_spec
  · exact nomatch h.1.choose_spec
  · intro hempty
    have hmem : .entity "did:key:alice" ∈ ((plainManager true).run [.enable alice.identity "did:key:alice"]).store.owners :=
      mem_cons_self
    rw [hempty] at hmem
    exact hmem

def takeover : List Op :=
  [.enable alice.identity "did:key:alice", .disableAs alice, .enable (some "did:key:mallory") "did:key:mallory"]

theorem takeover_owners :
    (((plainManager true).run (takeover.take 2)).store.subjects ownerRelation = [.entity "did:key:alice"] ∧
      (plainManager true).statusSeen ((plainManager true).run (takeover.take 2))
        (.enable (some "did:key:mallory") "did:key:mallory") = some .disabledTemporarily ∧
      ((plainManager true).run takeover).store.subjects ownerRelation = [.entity "did:key:mallory", .entity "did:key:alice"]) ∧
    ((plainManager false).run takeover).store.subjects ownerRelation = [.entity "did:key:mallory", .entity "did:key:alice"] :=
  ⟨⟨rfl, rfl, rfl⟩, rfl⟩

end NacManager
end Defra.Nac
