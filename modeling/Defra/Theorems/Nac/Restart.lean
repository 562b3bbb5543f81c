import Mathlib.Data.List.Induction
import Defra.Lib.Run
import Defra.Nac.Lifecycle
import Defra.Theorems.Nac.Ownership

/-! The tuples tell the status and the owner in memory as long as no call leaves a tuple behind: enabling a node whose checks
    are off keeps the tuple that says so, and a deletion that fails keeps what it should delete. -/

namespace Defra.Nac
open List Zanzibar LifecycleCall Store Option

namespace Store
variable {store : Store} {subj : Subject} {relation name did : String}

theorem mem_subjects_store : subj ∈ (store.storeRelationship (Node.relationship name did)).subjects relation ↔
    relation = name ∧ subj = .entity did ∨ subj ∈ store.subjects relation := by
  simp only [mem_subjects, storeRelationship, Node.relationship, mem_cons, mem_filter]
  grind

theorem mem_subjects_delete : subj ∈ (store.deleteRelationship (Node.relationship name did)).subjects relation ↔
    subj ∈ store.subjects relation ∧ ¬ (relation = name ∧ subj = .entity did) := by
  simp only [mem_subjects, deleteRelationship, Node.relationship, mem_filter]
  grind

theorem subjects_deleteObject (relation : String) :
    (store.deleteObjectRelationships nodeResourceName nodeObjectId).subjects relation = [] := by
  refine eq_nil_iff_forall_not_mem.mpr fun subj hmem => ?_
  simp [mem_subjects, deleteObjectRelationships] at hmem

theorem subjects_purged (relation : String) :
    ((store.deleteObjectRelationships nodeResourceName nodeObjectId).deletePolicy).subjects relation = [] := by
  unfold deletePolicy
  split
  · rfl
  · exact subjects_deleteObject relation

end Store

theorem validate_createNodePolicy : validateNodePolicy createNodePolicy = .ok () := rfl

namespace Node
variable {ls : Listing} {node loaded : Node}

/-! ### What a restart loads -/

/-- The owner that a node loads from what is stored. -/
def ownerOf (ls : Listing) (store : Store) (owner : Option String) : Option String :=
  if store.policy.isSome then
    match (ls.list (store.subjects ownerRelation)).head? with
    | some (.entity did) => some did
    | _ => owner
  else none

/-- A stored policy is the node's own. -/
def Known (node : Node) : Prop := ∀ policy, node.store.policy = some policy → policy = createNodePolicy

theorem load_restarted (h : node.Known) : ∃ loaded, node.restarted.load ls = .ok loaded ∧
    loaded.acp.status = statusOf ls node.store .notConfigured ∧ loaded.acp.owner = ownerOf ls node.store none := by
  unfold load readPolicy restarted statusOf ownerOf
  cases hp : node.store.policy with
  | none => exact ⟨_, rfl, rfl, rfl⟩
  | some policy =>
    obtain rfl := h policy hp
    simp only [any_nil, Bool.false_eq_true, if_false, validate_createNodePolicy, addPolicy, isSome_some, if_true,
      bind, Except.bind]
    rcases (ls.list (node.store.subjects ownerRelation)).head? with - | (- | - | - | -) <;> exact ⟨_, rfl, rfl, rfl⟩

/-- A restart gives the status and the owner that are in memory. -/
def Restarts (ls : Listing) (node : Node) : Prop :=
  ∃ loaded, node.restarted.load ls = .ok loaded ∧ loaded.acp.status = node.acp.status ∧ loaded.acp.owner = node.acp.owner

theorem restarts_iff (h : node.Known) : node.Restarts ls ↔
    statusOf ls node.store .notConfigured = node.acp.status ∧ ownerOf ls node.store none = node.acp.owner := by
  obtain ⟨loaded, hload, hs, howner⟩ := @load_restarted ls node h
  rw [← hs, ← howner]
  constructor
  · rintro ⟨other, ho, hsame⟩
    rwa [← Except.ok.inj (hload.symm.trans ho)] at hsame
  · exact fun hsame => ⟨loaded, hload, hsame⟩

/-! ### Stores that tell what is in memory -/

/-- The tuples tell what the node has in memory. -/
structure Synced (node : Node) : Prop where
  owner : node.acp.owner = none ↔ node.acp.status = .notConfigured
  policy : node.acp.status ≠ .notConfigured → node.store.policy = some createNodePolicy
  owners : ∀ subj, subj ∈ node.store.subjects ownerRelation ↔ ∃ did, node.acp.owner = some did ∧ subj = .entity did
  disabled : ∀ subj, subj ∈ node.store.subjects disabledRelation ↔
    node.acp.status = .disabledTemporarily ∧ ∃ did, node.acp.owner = some did ∧ subj = .entity did

theorem head?_of_single {subjects : List Subject} {did : String} (h : ∀ subj, subj ∈ subjects ↔ subj = .entity did) :
    (ls.list subjects).head? = some (.entity did) := by
  have hmem : Subject.entity did ∈ ls.list subjects := ls.mem_list.mpr ((h _).mpr rfl)
  cases hl : ls.list subjects with
  | nil =>
    rw [hl] at hmem
    exact absurd hmem not_mem_nil
  | cons first rest =>
    have hf : first ∈ ls.list subjects := by rw [hl]; exact mem_cons_self
    rw [head?_cons, (h first).mp (ls.mem_list.mp hf)]

theorem Synced.restarts (hknown : node.Known) (h : node.Synced) : node.Restarts ls := by
  rw [restarts_iff hknown, statusOf, ownerOf]
  cases ho : node.acp.owner with
  | none =>
    have hs := h.owner.mp ho
    have hn : node.store.subjects ownerRelation = [] :=
      eq_nil_iff_forall_not_mem.mpr fun subj hmem => by simpa [ho] using (h.owners subj).mp hmem
    have hl : ls.list (node.store.subjects ownerRelation) = [] :=
      eq_nil_iff_forall_not_mem.mpr fun subj hmem => by simpa [hn] using ls.mem_list.mp hmem
    rw [hl, hs]
    split <;> exact ⟨rfl, rfl⟩
  | some did =>
    have hs : node.acp.status ≠ .notConfigured := fun he => by simpa [ho] using h.owner.mpr he
    have hh := @head?_of_single ls _ did fun subj => by simpa [ho, eq_comm] using h.owners subj
    rw [h.policy hs, hh]
    refine ⟨?_, rfl⟩
    simp only [isSome_some, if_true]
    cases hlive : node.acp.status with
    | notConfigured => exact absurd hlive hs
    | enabled =>
      have hn : node.store.subjects disabledRelation = [] :=
        eq_nil_iff_forall_not_mem.mpr fun subj hmem => by simpa [hlive] using (h.disabled subj).mp hmem
      rw [hn]
      rfl
    | disabledTemporarily =>
      have hmem : Subject.entity did ∈ node.store.subjects disabledRelation := (h.disabled _).mpr ⟨hlive, did, ho, rfl⟩
      rw [if_neg (by simpa using ne_nil_of_mem hmem)]

/-- No enabling succeeds on a node whose checks are off, the flag of such a node can be deleted when it is re-enabled, and a
    purge that deletes the tuples also deletes the policy. -/
def Clean (node : Node) (c : LifecycleCall) : Prop :=
  match c.call with
  | .enable _ => node.acp.status = .disabledTemporarily → c.faults.storePolicy ∨ c.faults.storeRelationship
  | .disable => True
  | .reEnable => node.acp.status = .disabledTemporarily → c.faults.deleteRelationship = false
  | .purge => node.acp.status ≠ .notConfigured → c.faults.deleteObjectRelationships ∨ c.faults.deletePolicy = false

theorem Known.on (h : node.Known) (c : LifecycleCall) : (c.on node).2.Known := by
  have hnew : ∀ (store : Store), Known ⟨store.storePolicy createNodePolicy, node.acp⟩ :=
    fun store policy hp => (some.inj hp).symm
  unfold LifecycleCall.on
  cases c.call with
  | enable owner =>
    simp only [enableOn]
    split_ifs
    · exact h
    · exact h
    · exact hnew node.store
    · exact hnew node.store
  | disable =>
    simp only [disableOn]
    split
    · exact h
    · exact h
    · split
      · split_ifs
        · exact h
        · exact h
      · exact h
  | reEnable =>
    simp only [reEnableOn]
    split
    · exact h
    · exact h
    · cases node.acp.owner with
      | none => exact h
      | some owner =>
        split_ifs
        · exact h
        · exact h
  | purge =>
    simp only [purgeOn]
    split_ifs
    · exact h
    · exact h
    · exact fun policy hp => absurd (@policy_purged node.store ▸ hp) (some_ne_none policy).symm

theorem Synced.unconfigured : Synced {} where
  owner := by simp
  policy := by simp
  owners subj := iff_of_false not_mem_nil (by simp)
  disabled subj := iff_of_false not_mem_nil (by simp)

variable {c : LifecycleCall} {faults : Faults} {store : Store}

theorem Synced.enableOn (h : node.Synced) {owner : String}
    (hclean : node.acp.status = .disabledTemporarily → faults.storePolicy ∨ faults.storeRelationship) :
    (node.enableOn faults owner).2.Synced := by
  unfold Node.enableOn
  split_ifs with he hp hrelationship
  · exact h
  · exact h
  · -- The policy alone is stored: no owner is.
    exact ⟨h.owner, fun _ => rfl, h.owners, h.disabled⟩
  · have hs : node.acp.status = .notConfigured := by
      cases hlive : node.acp.status with
      | notConfigured => rfl
      | enabled => exact absurd hlive he
      | disabledTemporarily => exact absurd (hclean hlive) (by simp [hp, hrelationship])
    have ho := h.owner.mpr hs
    have hnone : ∀ relation subj, relation = ownerRelation ∨ relation = disabledRelation →
        subj ∉ node.store.subjects relation := by
      rintro relation subj (rfl | rfl) hmem
      · simpa [ho] using (h.owners subj).mp hmem
      · simpa [hs] using (h.disabled subj).mp hmem
    refine ⟨by simp, fun _ => rfl, fun subj => ?_, fun subj => ?_⟩
    · refine mem_subjects_store.trans ⟨?_, ?_⟩
      · rintro (⟨-, rfl⟩ | hmem)
        · exact ⟨owner, rfl, rfl⟩
        · exact absurd hmem (hnone _ _ (.inl rfl))
      · rintro ⟨did, hdid, rfl⟩
        exact .inl ⟨rfl, congrArg Subject.entity (some.inj hdid).symm⟩
    · refine mem_subjects_store.trans ⟨?_, fun hd => by simp at hd⟩
      rintro (⟨hname, -⟩ | hmem)
      · exact absurd hname (by decide)
      · exact absurd hmem (hnone _ _ (.inr rfl))

theorem Synced.disableOn (h : node.Synced) (faults : Faults) : (node.disableOn faults).2.Synced := by
  unfold Node.disableOn
  split
  · exact h
  · exact h
  rename_i hstat
  split
  · rename_i owner ho
    split_ifs
    · exact h
    refine ⟨by simp [ho], fun _ => h.policy (by simp [hstat]), fun subj => ?_, fun subj => ?_⟩
    · refine mem_subjects_store.trans (.trans ?_ (h.owners subj))
      exact or_iff_right fun hname => absurd hname.1 (by decide)
    · refine mem_subjects_store.trans ⟨?_, ?_⟩
      · rintro (⟨-, rfl⟩ | hmem)
        · exact ⟨rfl, owner, ho, rfl⟩
        · simpa [hstat] using (h.disabled subj).mp hmem
      · rintro ⟨-, did, hd, rfl⟩
        exact .inl ⟨rfl, congrArg Subject.entity (some.inj (hd.symm.trans ho))⟩
  · rename_i ho
    exact absurd (h.owner.mp ho) (by simp [hstat])

theorem Synced.reEnableOn (h : node.Synced)
    (hclean : node.acp.status = .disabledTemporarily → faults.deleteRelationship = false) :
    (node.reEnableOn faults).2.Synced := by
  unfold Node.reEnableOn
  split
  · exact h
  · exact h
  rename_i hs
  cases ho : node.acp.owner with
  | none => exact absurd (h.owner.mp ho) (by simp [hs])
  | some owner =>
    simp only [hclean hs, Bool.false_eq_true, if_false]
    refine ⟨by simp [ho], fun _ => h.policy (by simp [hs]), fun subj => ?_, fun subj => ?_⟩
    · refine mem_subjects_delete.trans (.trans ?_ (h.owners subj))
      exact and_iff_left fun hname => absurd hname.1 (by decide)
    · refine mem_subjects_delete.trans (iff_of_false ?_ (by simp))
      rintro ⟨hmem, hnot⟩
      obtain ⟨-, did, hd, rfl⟩ := (h.disabled subj).mp hmem
      exact hnot ⟨rfl, congrArg Subject.entity (some.inj (hd.symm.trans ho))⟩

theorem Synced.purgeOn (h : node.Synced)
    (hclean : node.acp.status ≠ .notConfigured → faults.deleteObjectRelationships ∨ faults.deletePolicy = false) :
    (node.purgeOn faults).2.Synced := by
  unfold Node.purgeOn
  split_ifs with hobj hpol
  · exact h
  · have hs : node.acp.status = .notConfigured := by
      by_contra hne
      simpa [hobj, hpol] using hclean hne
    have ho := h.owner.mpr hs
    refine ⟨h.owner, absurd hs, fun subj => ?_, fun subj => ?_⟩
    · simp [subjects_deleteObject, ho]
    · simp [subjects_deleteObject, ho]
  · refine ⟨by simp, by simp, fun subj => ?_, fun subj => ?_⟩
    · simp [removePolicy, subjects_purged]
    · simp [removePolicy, subjects_purged]

theorem Synced.on (h : node.Synced) (hclean : node.Clean c) : (c.on node).2.Synced := by
  unfold Clean at hclean
  unfold LifecycleCall.on
  cases hc : c.call with
  | enable owner =>
    rw [hc] at hclean
    exact h.enableOn hclean
  | disable => exact h.disableOn c.faults
  | reEnable =>
    rw [hc] at hclean
    exact h.reEnableOn hclean
  | purge =>
    rw [hc] at hclean
    exact h.purgeOn hclean

theorem statusOf_enabled (h : statusOf ls store .notConfigured = .enabled) :
    store.subjects disabledRelation = [] := by
  unfold statusOf at h
  split at h
  · split at h
    · split at h
      · rename_i hempty
        exact isEmpty_iff.mp hempty
      · cases h
    · cases h
  · cases h

theorem statusOf_disabled (h : statusOf ls store .notConfigured = .disabledTemporarily) :
    store.subjects disabledRelation ≠ [] := by
  unfold statusOf at h
  split at h
  · split at h
    · split at h
      · cases h
      · rename_i hempty
        exact fun hnil => hempty (isEmpty_iff.mpr hnil)
    · cases h
  · cases h

theorem Restarts.clean (hknown : node.Known) (h : node.Restarts ls) (hnext : (c.on node).2.Restarts ls)
    : node.Clean c := by
  have hs := ((restarts_iff hknown).mp h).1
  have hnext := ((restarts_iff (hknown.on c)).mp hnext).1
  unfold on at hnext
  unfold Clean
  cases hc : c.call with
  | enable owner =>
    intro hdis
    by_contra hf
    obtain ⟨hpol, hrelationship⟩ := not_or.mp hf
    simp only [hc, enableOn, hdis, reduceCtorEq, if_false, if_neg hpol, if_neg hrelationship] at hnext
    obtain ⟨subj, hmem⟩ := exists_mem_of_ne_nil _ (statusOf_disabled (hs.trans hdis))
    have hkept := statusOf_enabled hnext
    exact ne_nil_of_mem (mem_subjects_store.mpr (.inr hmem)) hkept
  | disable => trivial
  | reEnable =>
    intro hdis
    by_contra hfault
    have hstore : (node.reEnableOn c.faults).2.store = node.store := by
      cases ho : node.acp.owner <;> simp [reEnableOn, hdis, ho, hfault]
    have hlive : (node.reEnableOn c.faults).2.acp.status = .enabled := by simp [reEnableOn, hdis]
    simp only [hc, hstore, hlive, hs, hdis] at hnext
    cases hnext
  | purge =>
    intro hconf
    by_contra hf
    obtain ⟨hobj, hpol⟩ := not_or.mp hf
    have hl : ls.list ((node.store.deleteObjectRelationships nodeResourceName nodeObjectId).subjects ownerRelation) = [] :=
      eq_nil_iff_forall_not_mem.mpr fun subj hmem => by
        simpa [subjects_deleteObject] using ls.mem_list.mp hmem
    simp only [hc, purgeOn, if_neg hobj, hpol, if_true, statusOf, hl, head?_nil, ite_self] at hnext
    exact hconf hnext.symm

end Node

/-- A fresh node on the same store loads the status and the owner of the live one after every call, exactly when no call
    enables a node whose checks are off, or fails to delete the flag that it re-enables past or the policy after the tuples. -/
theorem restarts_iff_clean (ls : Listing) (calls : List LifecycleCall) :
    (∀ done, done <+: calls → (lifecycle done).Restarts ls) ↔
      ∀ done c, done ++ [c] <+: calls → (lifecycle done).Clean c := by
  have hrun : ∀ done c, lifecycle (done ++ [c]) = (c.on (lifecycle done)).2 := fun done c => foldl_append
  have hknown : ∀ done, (lifecycle done).Known := by
    intro done
    refine Run.always (P := Node.Known) (f := fun node c => (on c node).2) (fun h => h.on _) done fun policy hp => ?_
    cases hp
  constructor
  · intro h done c hc
    have hnext := h _ hc
    rw [hrun] at hnext
    exact (h done ((prefix_append done [c]).trans hc)).clean (hknown done) hnext
  · intro h
    suffices hsynced : ∀ done, done <+: calls → (lifecycle done).Synced from
      fun done hd => (hsynced done hd).restarts (hknown done)
    intro done
    induction done using reverseRecOn with
    | nil => exact fun _ => Node.Synced.unconfigured
    | append_singleton done c ih =>
      intro hc
      rw [hrun]
      exact (ih ((prefix_append done [c]).trans hc)).on (h done c hc)

/-! ### Enabled while disabled -/

def plainListing : Listing where
  list subjects := subjects
  mem_list := by simp

/-- The checks are turned off and Bob enables: Bob's node is enabled, and a fresh one on its store is not. -/
theorem enabled_while_disabled_not_restarted :
    ¬ (lifecycle [⟨.enable "alice", {}⟩, ⟨.disable, {}⟩, ⟨.enable "bob", {}⟩]).Restarts plainListing := by
  rintro ⟨loaded, hload, hstat, -⟩
  rw [(Node.load_ok hload).2] at hstat
  exact absurd hstat (by decide)

end Defra.Nac
