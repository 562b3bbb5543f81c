import Defra.Theorems.Lens.Links

/-! The walk prefers the next link, and a version not above the target links on to its first child, away from it: a migration
    takes its path exactly when every version left upwards has as its first child the version it came from. -/

namespace Defra.Lens
open Rooted KeyedList List

/-! ### The history of a tree of versions -/

def versionIds (vs : List CollectionVersion) : List String := vs.map CollectionVersion.versionId

/-- The version that a version was made from, if it is known. -/
def parentOf (vs : List CollectionVersion) (id : String) : Option String :=
  (vs.find? (·.versionId = id)).bind fun ver =>
    ver.previousVersion.bind fun prev =>
      if prev.sourceCollectionId ∈ versionIds vs then some prev.sourceCollectionId else none

/-- The transform that leads to a version. -/
def transformOf (vs : List CollectionVersion) (id : String) : Option String :=
  (vs.find? (·.versionId = id)).bind fun ver => ver.previousVersion.bind CollectionSource.transform

/-- The versions have ids of their own, and their links back form a tree. -/
structure VersionTree (vs : List CollectionVersion) (root : String) : Prop where
  nodup : (versionIds vs).Nodup
  tree : IsTree (parentOf vs) root {id | id ∈ versionIds vs}

variable {vs : List CollectionVersion} {hist : History} {id : String} {order : Iteration}
  {links : List (String × String)} {p : String} {ver : CollectionVersion}

theorem find?_of_mem (hnodup : (versionIds vs).Nodup) (h : ver ∈ vs) :
    vs.find? (·.versionId = ver.versionId) = some ver := by
  cases hf : vs.find? (·.versionId = ver.versionId) with
  | none => simpa using find?_eq_none.mp hf ver h
  | some other =>
    have hid : other.versionId = ver.versionId := by simpa using find?_some hf
    rw [inj_on_of_nodup_map hnodup (mem_of_find?_eq_some hf) h hid]

theorem parentOf_eq (hnodup : (versionIds vs).Nodup) (h : ver ∈ vs) : parentOf vs ver.versionId = some p ↔
      p ∈ (historyLink ver).previous ∧ p ∈ versionIds vs := by
  unfold parentOf historyLink
  rw [find?_of_mem hnodup h, Option.bind_some]
  cases ver.previousVersion with
  | none => simp
  | some prev =>
    simp only [Option.bind_some, Option.ite_none_right_eq_some, Option.some.injEq, mem_singleton]
    constructor
    · rintro ⟨hmem, rfl⟩
      exact ⟨rfl, hmem⟩
    · rintro ⟨rfl, hmem⟩
      exact ⟨hmem, rfl⟩

theorem parentOf_mem (h : parentOf vs id = some p) : ∃ ver ∈ vs, ver.versionId = id := by
  obtain ⟨ver, hf, _⟩ := Option.bind_eq_some_iff.mp h
  exact ⟨ver, mem_of_find?_eq_some hf, by simpa using find?_some hf⟩

theorem transformOf_eq (hnodup : (versionIds vs).Nodup) (h : ver ∈ vs) :
    transformOf vs ver.versionId = (historyLink ver).transform := by
  unfold transformOf historyLink
  rw [find?_of_mem hnodup h, Option.bind_some]
  cases ver.previousVersion <;> rfl

@[simp] theorem historyLink_versionId (ver : CollectionVersion) : (historyLink ver).versionId = ver.versionId := by
  unfold historyLink
  split <;> rfl

@[simp] theorem historyLink_next (ver : CollectionVersion) : (historyLink ver).next = [] := by
  unfold historyLink
  split <;> rfl

theorem find?_addNext (hist : History) (link : String × String) (id : String) :
    (addNext hist link).find? id = (hist.find? id).map fun item =>
      if id = link.1 ∧ link.2 ∉ item.next then { item with next := item.next ++ [link.2] } else item := by
  unfold addNext
  cases hp : hist.find? link.1 with
  | none =>
    cases hid : hist.find? id with
    | none => rfl
    | some item =>
      have hne : id ≠ link.1 := by
        rintro rfl
        rw [hid] at hp
        cases hp
      simp [hne]
  | some parent =>
    have hkey := History.versionId hp
    by_cases hne : id = link.1
    · subst hne
      by_cases hmem : link.2 ∈ parent.next
      · simp [hmem, hp]
      · simp [hmem, hp, find?_put, hkey]
    · dsimp only
      split
      · simp [hne]
      · rw [find?_put, if_neg (by simpa [hkey] using hne)]
        simp [hne]

theorem find?_addNexts {item : CollectionHistoryLink} (h : hist.find? id = some item) :
    ∃ next, (links.foldl addNext hist).find? id = some { item with next } ∧
      ∀ c, c ∈ next ↔ c ∈ item.next ∨ (id, c) ∈ links := by
  induction links generalizing hist item with
  | nil => exact ⟨item.next, h, by simp⟩
  | cons link links ih =>
    have hstep := find?_addNext hist link id
    rw [h, Option.map_some] at hstep
    obtain ⟨next, hf, hn⟩ := ih hstep
    refine ⟨next, ?_, fun c => ?_⟩
    · rw [foldl_cons, hf]
      split <;> rfl
    · obtain ⟨p, q⟩ := link
      rw [hn]
      by_cases hid : id = p
      · subst hid
        by_cases hmem : q ∈ item.next
        · grind
        · simp only [hmem, not_false_eq_true, and_self, if_true, mem_append, mem_cons, not_mem_nil, or_false,
            Prod.mk.injEq, true_and, or_assoc]
      · simp [hid]

theorem find?_addNexts_none (h : hist.find? id = none) : (links.foldl addNext hist).find? id = none := by
  induction links generalizing hist with
  | nil => exact h
  | cons link links ih => exact ih (by rw [find?_addNext, h]; rfl)

theorem mem_reverseLinks {p c : String} : (p, c) ∈ reverseLinks order hist ↔
    ∃ link ∈ hist, p ∈ link.previous ∧ link.versionId = c := by
  unfold reverseLinks
  simp only [mem_flatMap, mem_map, Prod.mk.injEq, (order.perm _).mem_iff]
  constructor
  · rintro ⟨link, hl, prev, hprev, rfl, rfl⟩
    exact ⟨link, hl, hprev, rfl⟩
  · rintro ⟨link, hl, hp, rfl⟩
    exact ⟨link, hl, p, hp, rfl, rfl⟩

section
variable (hnodup : (versionIds vs).Nodup)
include hnodup

theorem mem_ofVersions {link : CollectionHistoryLink} :
    link ∈ (ofList (vs.map historyLink) : History) ↔ ∃ ver ∈ vs, historyLink ver = link := by
  rw [mem_ofList_of_inj, mem_map]
  intro x hx y hy hkey
  obtain ⟨v, hv, rfl⟩ := mem_map.mp hx
  obtain ⟨w, hw, rfl⟩ := mem_map.mp hy
  rw [inj_on_of_nodup_map hnodup hv hw (by simpa using hkey)]

/-- The links on are those of the versions that link back to it. -/
theorem find?_fullHistory {ver : CollectionVersion} (h : ver ∈ vs) :
    ∃ next, (fullHistory order vs).find? ver.versionId = some { historyLink ver with next } ∧
      ∀ c, c ∈ next ↔ parentOf vs c = some ver.versionId := by
  have hbase : (ofList (vs.map historyLink) : History).find? ver.versionId = some (historyLink ver) :=
    find?_eq_some.mpr ⟨(mem_ofVersions hnodup).mpr ⟨ver, h, rfl⟩, historyLink_versionId ver⟩
  obtain ⟨next, hf, hn⟩ := @find?_addNexts _ _ (reverseLinks order _) _ hbase
  refine ⟨next, hf, fun c => ?_⟩
  rw [hn, historyLink_next, mem_reverseLinks]
  have hself : ver.versionId ∈ versionIds vs := mem_map.mpr ⟨ver, h, rfl⟩
  constructor
  · rintro (hnil | ⟨link, hl, hprev, rfl⟩)
    · exact absurd hnil not_mem_nil
    · obtain ⟨child, hc, rfl⟩ := (mem_ofVersions hnodup).mp hl
      rw [historyLink_versionId]
      exact (parentOf_eq hnodup hc).mpr ⟨hprev, hself⟩
  · intro hpar
    obtain ⟨child, hc, rfl⟩ := parentOf_mem hpar
    exact .inr ⟨historyLink child, (mem_ofVersions hnodup).mpr ⟨child, hc, rfl⟩,
      ((parentOf_eq hnodup hc).mp hpar).1, historyLink_versionId child⟩

theorem isSome_fullHistory : ((fullHistory order vs).find? id).isSome ↔ id ∈ versionIds vs := by
  constructor
  · intro h
    by_contra hnot
    have hbase : (ofList (vs.map historyLink) : History).find? id = none := by
      refine Option.eq_none_iff_forall_ne_some.mpr fun link hl => hnot ?_
      obtain ⟨hmem, rfl⟩ := find?_eq_some.mp hl
      obtain ⟨ver, hv, rfl⟩ := (mem_ofVersions hnodup).mp hmem
      exact mem_map.mpr ⟨ver, hv, (historyLink_versionId ver).symm⟩
    rw [fullHistory, find?_addNexts_none hbase] at h
    cases h
  · intro h
    obtain ⟨ver, hv, rfl⟩ := mem_map.mp h
    obtain ⟨next, hf, _⟩ := @find?_fullHistory vs order hnodup ver hv
    rw [hf]
    rfl

/-- The full history of a tree of versions links each to its parent and its children. -/
theorem fullHistory_shape : Shape (fullHistory order vs) (parentOf vs) := by
  have hi : ∀ {id item}, (fullHistory order vs).find? id = some item → ∃ ver ∈ vs, ver.versionId = id ∧
      item.previous = (historyLink ver).previous ∧ ∀ c, c ∈ item.next ↔ parentOf vs c = some id := by
    intro id item hf
    obtain ⟨ver, hv, rfl⟩ := mem_map.mp ((isSome_fullHistory hnodup).mp (Option.isSome_iff_exists.mpr ⟨item, hf⟩))
    obtain ⟨next, hf', hn⟩ := @find?_fullHistory vs order hnodup ver hv
    obtain rfl := Option.some.inj (hf.symm.trans hf')
    exact ⟨ver, hv, rfl, rfl, hn⟩
  constructor
  · intro id item hf p
    obtain ⟨ver, hv, rfl, hp, _⟩ := hi hf
    rw [hp, isSome_fullHistory hnodup, parentOf_eq hnodup hv]
  · intro id item hf
    obtain ⟨_, _, _, _, hn⟩ := hi hf
    exact hn

end

/-! ### The path that a migration should take -/

/-- The forward transform of each version entered from its parent, the inverse one of each version left towards its parent. -/
def migrate {δ : Type} (vs : List CollectionVersion) (store : TransformStore δ) : List String → δ → Except Error δ
  | x :: y :: rest, doc =>
    match (if parentOf vs y = some x then applyTransform store (transformOf vs y) doc false
      else applyTransform store (transformOf vs x) doc true) with
    | .error error => .error error
    | .ok doc => migrate vs store (y :: rest) doc
  | _, doc => .ok doc

/-- The versions made from a version, in the order of its links. -/
def childrenOf (hist : History) (id : String) : List String := ((hist.find? id).map CollectionHistoryLink.next).getD []

/-- Every version left upwards has as its first child the version that the path came from: none for the first. -/
def Climbs (vs : List CollectionVersion) (hist : History) : (came : Option String) → List String → Prop
  | came, x :: y :: rest => (parentOf vs x = some y → (childrenOf hist x).head? = came) ∧
      Climbs vs hist (some x) (y :: rest)
  | _, _ => True

/-! ### One turn of the loop -/

section Loop
variable {δ : Type} {store : TransformStore δ} {src target cur : String} {tgt : TargetedHistory} {doc : δ}
  {seen : List String} {link : TargetedHistoryLink}

theorem loop_target : migrationLoop store src target tgt doc target seen = .ok doc := by
  rw [migrationLoop, if_pos rfl]

theorem loop_eq (hne : cur ≠ target) (hl : tgt.find? cur = some link) :
    migrationLoop store src target tgt doc cur seen =
      match link.next.filter (· ∉ seen), link.previous.filter (· ∉ seen) with
      | some next, _ => match tgt.find? next with
        | none => .error (.schemaVersionNotFound next)
        | some nextLink => match applyTransform store nextLink.transform doc false with
          | .error error => .error error
          | .ok doc => migrationLoop store src target tgt doc next (next :: seen)
      | none, some prev => match applyTransform store link.transform doc true with
        | .error error => .error error
        | .ok doc => migrationLoop store src target tgt doc prev (prev :: seen)
      | none, none => .error (.pipeline s!"no migration path from {src} to {target}") := by
  rw [migrationLoop]
  grind

theorem loop_next (hne : cur ≠ target) (hl : tgt.find? cur = some link) {next : String} (hnext : link.next = some next)
    (hv : next ∉ seen) {nextLink : TargetedHistoryLink} (hn : tgt.find? next = some nextLink) :
    migrationLoop store src target tgt doc cur seen =
      match applyTransform store nextLink.transform doc false with
      | .error error => .error error
      | .ok doc => migrationLoop store src target tgt doc next (next :: seen) := by
  have hf : link.next.filter (· ∉ seen) = some next := by simp [hnext, hv]
  simp only [loop_eq hne hl, hf, hn]

theorem loop_prev (hne : cur ≠ target) (hl : tgt.find? cur = some link)
    (hn : link.next.filter (· ∉ seen) = none) {prev : String} (hp : link.previous = some prev) (hv : prev ∉ seen) :
    migrationLoop store src target tgt doc cur seen =
      match applyTransform store link.transform doc true with
      | .error error => .error error
      | .ok doc => migrationLoop store src target tgt doc prev (prev :: seen) := by
  have hf : link.previous.filter (· ∉ seen) = some prev := by simp [hp, hv]
  simp only [loop_eq hne hl, hn, hf]

theorem loop_stuck (hne : cur ≠ target) (hl : tgt.find? cur = some link)
    (hn : link.next.filter (· ∉ seen) = none) (hprev : link.previous.filter (· ∉ seen) = none) :
    migrationLoop store src target tgt doc cur seen =
      .error (.pipeline s!"no migration path from {src} to {target}") := by
  simp only [loop_eq hne hl, hn, hprev]

end Loop

theorem mem_childrenOf (hnodup : (versionIds vs).Nodup) {c : String} (hid : id ∈ versionIds vs) :
    c ∈ childrenOf (fullHistory order vs) id ↔ parentOf vs c = some id := by
  obtain ⟨item, hi⟩ := Option.isSome_iff_exists.mp ((@isSome_fullHistory vs id order hnodup).mpr hid)
  rw [childrenOf, hi]
  exact (fullHistory_shape hnodup).next hi c

section Walk
variable {δ : Type} {store : TransformStore δ} {root src target x y : String} {tgt : TargetedHistory} {doc : δ}
  {front rest seen : List String}

/-! ### The walk along the path -/

/-- The path that is left from `x`, the versions before it, and what has been visited. -/
structure OnPath (vs : List CollectionVersion) (src target : String) (front : List String) (x : String)
    (rest seen : List String) : Prop where
  path : IsPath (parentOf vs) src target (front ++ x :: rest)
  seen : ∀ v, v ∈ seen ↔ v ∈ front ++ [x]

section
variable (h : OnPath vs src target front x (y :: rest) seen)
include h

theorem OnPath.not_visited : y ∉ seen := by
  have hnodup := h.path.nodup
  rw [h.seen]
  intro hmem
  have hsp : front ++ x :: y :: rest = (front ++ [x]) ++ y :: rest := by simp
  rw [hsp] at hnodup
  exact (nodup_append.mp hnodup).2.2 y hmem y mem_cons_self rfl

theorem OnPath.step : OnPath vs src target (front ++ [x]) y rest (y :: seen) := by
  refine ⟨by simpa using h.path, fun v => ?_⟩
  simp [h.seen v, or_comm, or_assoc, or_left_comm]

theorem OnPath.ne_target : x ≠ target := by
  rintro rfl
  exact h.path.suffix.not_loop

end

variable (htree : VersionTree vs root) (htargeted : Targeted (fullHistory order vs) (parentOf vs) target tgt)
include htree htargeted

theorem link_of_mem (hx : x ∈ versionIds vs) : ∃ link, tgt.find? x = some link ∧ link.transform = transformOf vs x ∧
    (¬Above (parentOf vs) x target →
      link.previous = parentOf vs x ∧ link.next = (childrenOf (fullHistory order vs) x).head?) := by
  obtain ⟨ver, hv, rfl⟩ := mem_map.mp hx
  obtain ⟨next, hf, _⟩ := @find?_fullHistory vs order htree.nodup ver hv
  obtain ⟨link, hl, ht⟩ := htargeted.linked hf
  refine ⟨link, hl, ht.trans (transformOf_eq htree.nodup hv).symm, fun hnot => ?_⟩
  obtain ⟨hp, hn⟩ := htargeted.beside hf hl hnot
  refine ⟨hp, hn.trans ?_⟩
  rw [childrenOf, hf]
  rfl

theorem loop_step (h : OnPath vs src target front x (y :: rest) seen)
    (hclimbs : parentOf vs x = some y → (childrenOf (fullHistory order vs) x).head? = front.getLast?) :
    migrationLoop store src target tgt doc x seen =
      match (if parentOf vs y = some x then applyTransform store (transformOf vs y) doc false
        else applyTransform store (transformOf vs x) doc true) with
      | .error error => .error error
      | .ok doc => migrationLoop store src target tgt doc y (y :: seen) := by
  have hp := h.path.suffix
  rcases hp.adjacent with hup | hdown
  · obtain ⟨link, hl, htr, hbeside⟩ := link_of_mem htree htargeted (htree.tree.parent_mem hup).1
    obtain ⟨hprev, hn⟩ := hbeside (hp.not_above_of_up htree.tree hup)
    have hnot : parentOf vs y ≠ some x := fun hdown => htree.tree.not_above_parent hup (above_parent hdown)
    have hf : link.next.filter (· ∉ seen) = none := by
      rw [hn, hclimbs hup]
      cases hlast : front.getLast? with
      | none => rfl
      | some w =>
        have hw : w ∈ seen := (h.seen w).mpr (mem_append_left _ (mem_of_getLast? hlast))
        simp [hw]
    rw [loop_prev h.ne_target hl hf (hprev.trans hup) h.not_visited, if_neg hnot, htr]
  · have ha := hp.above_of_down hdown
    obtain ⟨link, hl, _, _⟩ := link_of_mem htree htargeted (htree.tree.parent_mem hdown).2
    obtain ⟨c, hc, hct, hn⟩ := htargeted.above hl ((above_parent hdown).trans ha) h.ne_target
    obtain rfl := htree.tree.child_unique hc hdown hct ha
    obtain ⟨nextLink, hnextLink, htr, _⟩ := link_of_mem htree htargeted (htree.tree.parent_mem hdown).1
    rw [loop_next h.ne_target hl hn h.not_visited hnextLink, if_pos hdown, htr]

theorem loop_path (h : OnPath vs src target front x rest seen)
    (hclimbs : Climbs vs (fullHistory order vs) front.getLast? (x :: rest)) :
    migrationLoop store src target tgt doc x seen = migrate vs store (x :: rest) doc := by
  induction rest generalizing front x seen doc with
  | nil =>
    obtain ⟨_, rfl⟩ := h.path.suffix.singleton
    exact loop_target
  | cons y rest ih =>
    rw [loop_step htree htargeted h hclimbs.1, migrate]
    split
    · rfl
    · exact ih h.step (by simpa using hclimbs.2)

omit htree htargeted in
theorem applyTransform_ok (transform : Option String) (inverse : Bool) :
    applyTransform (fun _ doc _ => .ok doc) transform doc inverse = .ok doc := by
  cases transform <;> rfl

omit htree htargeted in
theorem migrate_ok (path : List String) : migrate vs (fun _ doc _ => .ok doc) path doc = .ok doc := by
  induction path generalizing doc with
  | nil => rfl
  | cons x path ih =>
    cases path with
    | nil => rfl
    | cons y rest =>
      rw [migrate]
      simp only [applyTransform_ok, ite_self]
      exact ih

theorem loop_wanders {c p : String} (hpar : parentOf vs c = some p) (hp : p ∈ seen) (hc : c ∈ seen)
    (hnot : ¬Above (parentOf vs) c target)
    (hb : ∀ d, Above (parentOf vs) c d → d ≠ c → d ∉ seen) :
    migrationLoop (fun _ doc _ => .ok doc) src target tgt doc c seen =
      .error (.pipeline s!"no migration path from {src} to {target}") := by
  induction hn : unvisited tgt seen using Nat.strong_induction_on generalizing c p seen doc with
  | _ n ih =>
    have hne : c ≠ target := fun heq => hnot (heq ▸ .refl)
    have hmem := (htree.tree.parent_mem hpar).1
    obtain ⟨link, hl, _, hbeside⟩ := link_of_mem htree htargeted hmem
    obtain ⟨hprev, hnext⟩ := hbeside hnot
    cases hfirst : (childrenOf (fullHistory order vs) c).head? with
    | none => exact loop_stuck hne hl (by rw [hnext, hfirst]; rfl) (by simp [hprev, hpar, hp])
    | some d =>
      have hd := (mem_childrenOf htree.nodup hmem).mp (mem_of_head? hfirst)
      have hdc : d ≠ c := fun heq => htree.tree.not_above_parent hd (heq ▸ .refl)
      have hv := hb d (above_parent hd) hdc
      obtain ⟨nextLink, hnextLink, _, _⟩ := link_of_mem htree htargeted (htree.tree.parent_mem hd).1
      rw [loop_next hne hl (hnext.trans hfirst) hv hnextLink, applyTransform_ok]
      refine ih _ (hn ▸ unvisited_cons_lt hnextLink hv) hd (mem_cons_of_mem d hc) mem_cons_self
        (fun habove => hnot ((above_parent hd).trans habove)) (fun e hde hne' hmem' => ?_) rfl
      rcases mem_cons.mp hmem' with rfl | hmem'
      · exact hne' rfl
      · refine hb e ((above_parent hd).trans hde) (fun heq => ?_) hmem'
        exact htree.tree.not_above_parent hd (heq ▸ hde)

omit htargeted in
theorem OnPath.eq_came (h : OnPath vs src target front x rest seen) {c : String} (hc : parentOf vs c = some x)
    (hv : c ∈ seen) : front.getLast? = some c := by
  rcases mem_append.mp ((h.seen c).mp hv) with hmem | hmem
  · obtain ⟨f₁, f₂, rfl⟩ := append_of_mem hmem
    have hlong : IsPath (parentOf vs) c x (c :: (f₂ ++ [x])) := by
      have hu := h.path.upto
      rw [append_assoc] at hu
      exact hu.suffix
    have hne : c ≠ x := fun heq => htree.tree.not_above_parent hc (heq ▸ .refl)
    have hshort : IsPath (parentOf vs) c x [c, x] := ⟨rfl, rfl, by simp [Adjacent, hc], by simp [hne]⟩
    have heq := hlong.unique htree.tree hshort
    simp only [cons.injEq, true_and, append_eq_singleton_iff] at heq
    rcases heq with ⟨rfl, _⟩ | ⟨_, hnil⟩
    · simp
    · cases hnil
  · exact absurd (mem_singleton.mp hmem ▸ .refl) (htree.tree.not_above_parent hc)

/-- The walk goes down to the other child and is stuck. -/
theorem loop_fails_here (h : OnPath vs src target front x (y :: rest) seen) (hup : parentOf vs x = some y)
    (hcame : (childrenOf (fullHistory order vs) x).head? ≠ front.getLast?) :
    migrationLoop (fun _ doc _ => .ok doc) src target tgt doc x seen =
      .error (.pipeline s!"no migration path from {src} to {target}") := by
  have hp := h.path.suffix
  have hmem := (htree.tree.parent_mem hup).1
  have hnot := hp.not_above_of_up htree.tree hup
  obtain ⟨link, hl, _, hbeside⟩ := link_of_mem htree htargeted hmem
  obtain ⟨_, hnext⟩ := hbeside hnot
  cases hfirst : (childrenOf (fullHistory order vs) x).head? with
  | none =>
    -- the path did not come from below, and it cannot have come from above
    exfalso
    obtain ⟨w, hw⟩ := Option.ne_none_iff_exists'.mp fun hnone => hcame (hfirst.trans hnone.symm)
    obtain ⟨f, rfl⟩ := getLast?_eq_some_iff.mp hw
    have hback : IsPath (parentOf vs) w target (w :: x :: y :: rest) := by
      have hwhole := h.path
      rw [append_assoc] at hwhole
      exact hwhole.suffix
    rcases hback.adjacent with hwx | hxw
    · have hchild : w ∈ childrenOf (fullHistory order vs) x := (mem_childrenOf htree.nodup hmem).mpr hwx
      rw [head?_eq_none_iff.mp hfirst] at hchild
      cases hchild
    · obtain rfl := Option.some.inj (hxw.symm.trans hup)
      exact hback.not_mem (by simp)
  | some c =>
    have hc := (mem_childrenOf htree.nodup hmem).mp (mem_of_head? hfirst)
    have hv : c ∉ seen := fun hv => hcame (hfirst.trans (h.eq_came htree hc hv).symm)
    obtain ⟨nextLink, hn, _, _⟩ := link_of_mem htree htargeted (htree.tree.parent_mem hc).1
    rw [loop_next h.ne_target hl (hnext.trans hfirst) hv hn, applyTransform_ok]
    refine loop_wanders htree htargeted hc (mem_cons_of_mem c ((h.seen x).mpr (by simp))) mem_cons_self
      (fun ha => hnot ((above_parent hc).trans ha)) fun d hcd hne hmem' => ?_
    rcases mem_cons.mp hmem' with rfl | hmem'
    · exact hne rfl
    · -- to come from below the child the path would have come through it
      rcases mem_append.mp ((h.seen d).mp hmem') with hf | hx
      · obtain ⟨f₁, f₂, rfl⟩ := append_of_mem hf
        have hback : IsPath (parentOf vs) d x (d :: (f₂ ++ [x])) := by
          have hu := h.path.upto
          rw [append_assoc] at hu
          exact hu.suffix
        have ht := hback.reverse.mem_of_enters hcd (htree.tree.not_above_parent hc)
        refine hv ((h.seen c).mpr ?_)
        rw [append_assoc]
        exact mem_append_right f₁ (mem_reverse.mp ht)
      · exact htree.tree.not_above_parent hc (mem_singleton.mp hx ▸ hcd)

theorem loop_fails (h : OnPath vs src target front x rest seen)
    (hclimbs : ¬Climbs vs (fullHistory order vs) front.getLast? (x :: rest)) :
    migrationLoop (fun _ doc _ => .ok doc) src target tgt doc x seen =
      .error (.pipeline s!"no migration path from {src} to {target}") := by
  induction rest generalizing front x seen doc with
  | nil => exact absurd trivial hclimbs
  | cons y rest ih =>
    by_cases hhere : parentOf vs x = some y → (childrenOf (fullHistory order vs) x).head? = front.getLast?
    · rw [loop_step htree htargeted h hhere]
      simp only [applyTransform_ok, ite_self]
      exact ih h.step fun hr => hclimbs ⟨hhere, by simpa using hr⟩
    · obtain ⟨hup, hcame⟩ := Classical.not_imp.mp hhere
      exact loop_fails_here htree htargeted h hup hcame

end Walk

/-- There is one path from the source to the target, and a migration applies the transforms along it, whatever they are,
    exactly when the path climbs. -/
theorem transformToTarget_iff {δ : Type} [Inhabited δ] {vs : List CollectionVersion} {root : String}
    (htree : VersionTree vs root) (order : Iteration) {src target : String} (hsource : src ∈ versionIds vs)
    (htarget : target ∈ versionIds vs) :
    ∃ tgt, buildCollectionHistory order vs target = some tgt ∧
      ∃ path, (∀ other, IsPath (parentOf vs) src target other ↔ other = path) ∧
        ((∀ (store : TransformStore δ) (doc : δ),
          transformToTarget store target tgt ⟨src, doc⟩ = migrate vs store path doc) ↔
        Climbs vs (fullHistory order vs) none path) := by
  have hnodes : {id | ((fullHistory order vs).find? id).isSome} = {id | id ∈ versionIds vs} :=
    Set.ext fun id => isSome_fullHistory htree.nodup
  obtain ⟨item, hi⟩ := Option.isSome_iff_exists.mp ((@isSome_fullHistory vs target order htree.nodup).mpr htarget)
  obtain ⟨tgt, hbuild, htargeted⟩ :=
    buildTargetedHistory_targeted (hnodes ▸ htree.tree) (fullHistory_shape htree.nodup) hi
  have hv : vs.isEmpty = false := by
    cases vs with
    | nil => cases htarget
    | cons ver vs => rfl
  obtain ⟨path, hp⟩ := htree.tree.exists_path hsource htarget
  refine ⟨tgt, by rw [buildCollectionHistory, hv]; exact hbuild, path,
    fun other => ⟨fun ho => ho.unique htree.tree hp, fun heq => heq ▸ hp⟩, ?_⟩
  by_cases hsame : src = target
  · subst hsame
    have hself : IsPath (parentOf vs) src src [src] := ⟨rfl, rfl, by simp, by simp⟩
    obtain rfl := hp.unique htree.tree hself
    refine iff_of_true (fun store doc => ?_) trivial
    rw [transformToTarget, if_pos rfl, migrate]
    exact fun _ _ _ hc => by cases hc
  · obtain ⟨rest, rfl⟩ : ∃ rest, path = src :: rest := head?_eq_some_iff.mp hp.head
    have honpath : OnPath vs src target [] src rest [src] := ⟨hp, fun v => by simp⟩
    obtain ⟨link, hl, _, _⟩ := link_of_mem htree htargeted hsource
    have hloop : ∀ (store : TransformStore δ) (doc : δ), transformToTarget store target tgt ⟨src, doc⟩ =
        migrationLoop store src target tgt doc src [src] := by
      intro store doc
      rw [transformToTarget, if_neg hsame, hl]
    constructor
    · intro hmigrates
      by_contra hclimbs
      have hm := hmigrates (fun _ doc _ => .ok doc) default
      rw [hloop, loop_fails htree htargeted honpath hclimbs, migrate_ok] at hm
      cases hm
    · intro hclimbs store doc
      rw [hloop]
      exact loop_path htree htargeted honpath hclimbs

/-! ### A chain of versions -/

def chainVersions : List CollectionVersion :=
  [⟨"v1", "users", none⟩, ⟨"v2", "users", some ⟨"v1", some "t2"⟩⟩, ⟨"v3", "users", some ⟨"v2", some "t3"⟩⟩]

def storedOrder : Iteration := ⟨fun links => links, fun _ => .refl _⟩

theorem chainVersions_tree : VersionTree chainVersions "v1" := by
  have h2 : parentOf chainVersions "v2" = some "v1" := by decide
  have h3 : parentOf chainVersions "v3" = some "v2" := by decide
  have hnodup : (versionIds chainVersions).Nodup := by decide
  refine ⟨hnodup, by decide, by decide, fun {x p} hp => ?_, fun {x} hx => ?_⟩
  · obtain ⟨ver, hv, rfl⟩ := parentOf_mem hp
    exact ⟨mem_map.mpr ⟨ver, hv, rfl⟩, ((parentOf_eq hnodup hv).mp hp).2⟩
  · replace hx : x = "v1" ∨ x = "v2" ∨ x = "v3" := by simpa [versionIds, chainVersions] using hx
    rcases hx with rfl | rfl | rfl
    · exact .refl
    · exact .single h2
    · exact .head h3 (.single h2)

/-- From the last version back to the first. -/
theorem chain_migrates : ∃ tgt, buildCollectionHistory storedOrder chainVersions "v1" = some tgt ∧
    ∀ (store : TransformStore Nat) (doc : Nat), transformToTarget store "v1" tgt ⟨"v3", doc⟩ =
      migrate chainVersions store ["v3", "v2", "v1"] doc := by
  obtain ⟨tgt, hbuild, path, hp, hiff⟩ :=
    @transformToTarget_iff Nat _ _ _ chainVersions_tree storedOrder "v3" "v1" (by decide) (by decide)
  obtain rfl := (hp ["v3", "v2", "v1"]).mp ⟨rfl, rfl, by simp [Adjacent]; decide, by decide⟩
  exact ⟨tgt, hbuild, hiff.mpr ⟨fun _ => rfl, fun _ => rfl, trivial⟩⟩

/-- From the second version back to the first: the walk goes on to the third. -/
theorem chain_strays : ∃ tgt, buildCollectionHistory storedOrder chainVersions "v1" = some tgt ∧
    IsPath (parentOf chainVersions) "v2" "v1" ["v2", "v1"] ∧
    transformToTarget (fun _ doc _ => .ok doc) "v1" tgt ⟨"v2", 0⟩ = .error (.pipeline "no migration path from v2 to v1") ∧
    migrate chainVersions (fun _ doc _ => .ok doc) ["v2", "v1"] 0 = .ok 0 := by
  refine ⟨_, rfl, ⟨rfl, rfl, by simp [Adjacent]; decide, by decide⟩, ?_, rfl⟩
  rw [transformToTarget, if_neg (by decide)]
  show migrationLoop _ _ _ _ _ _ _ = _
  rw [@loop_next _ _ _ _ _ _ _ _ ⟨"v2", "users", some "t2", some "v1", some "v3"⟩ (by decide) rfl "v3" rfl (by decide)
    ⟨"v3", "users", some "t3", some "v2", none⟩ rfl]
  exact @loop_stuck _ _ _ _ _ _ _ _ ⟨"v3", "users", some "t3", some "v2", none⟩ (by decide) rfl rfl rfl

end Defra.Lens
