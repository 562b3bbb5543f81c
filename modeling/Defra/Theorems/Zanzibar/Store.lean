import Defra.Lib.Run
import Defra.Zanzibar.Engine
import Defra.Zanzibar.Store
import Mathlib.Data.Set.Insert

/-! The relationship stores hold exactly the tuples that the calls leave, as long as no field holds a slash: then a key tells its
    fields, and a key prefix selects one relation of one object. `Relationship::new` lets slashes through. -/

namespace Defra.Zanzibar
open SepPath KeyedList List MemoryStore

/-! ### Tuples -/

abbrev Tuples := Set (String × Relationship)

/-- What a call does to the set of tuples. -/
def Tuples.call (tuples : Tuples) : Call → Tuples
  | .store pid rel => insert (pid, rel) tuples
  | .delete pid rel => tuples \ {(pid, rel)}
  | .deleteObject pid res obj =>
    {t ∈ tuples | ¬(t.1 = pid ∧ t.2.resource = res ∧ t.2.objectId = obj)}

def Tuples.run (calls : List Call) : Tuples := calls.foldl Tuples.call ∅

variable {calls : List Call} {hash : Subject → List Char} (text : String)

/-- The text does not hold the separator of keys. -/
def Slashless : Prop := '/' ∉ text.toList

instance (text : String) : Decidable (Slashless text) := inferInstanceAs (Decidable ('/' ∉ text.toList))

structure Relationship.Slashless (rel : Relationship) : Prop where
  resource : Zanzibar.Slashless rel.resource
  objectId : Zanzibar.Slashless rel.objectId
  relation : Zanzibar.Slashless rel.relation

def Call.Slashless : Call → Prop
  | store pid rel => Zanzibar.Slashless pid ∧ rel.Slashless
  | delete pid rel => Zanzibar.Slashless pid ∧ rel.Slashless
  | deleteObject pid res obj =>
    Zanzibar.Slashless pid ∧ Zanzibar.Slashless res ∧ Zanzibar.Slashless obj

/-- What is assumed of the hash of subjects: no two have one, and it is written without slashes. -/
structure IsHash (hash : Subject → List Char) : Prop where
  injective : Function.Injective hash
  slashless : ∀ subject, '/' ∉ hash subject

variable {subject : Subject}

/-! ### Maps that list a set -/

section Lists
variable {ι : Type} {key : ι → List Char} {value : ι → Relationship} {map : RelationshipMap} {S : Set ι} {i : ι}

/-- The map holds the entries of the members of `S`. -/
def Lists (key : ι → List Char) (value : ι → Relationship) (map : RelationshipMap) (S : Set ι) : Prop :=
  ∀ e, e ∈ map ↔ ∃ i ∈ S, e = (key i, value i)

section
variable (h : Lists key value map S)
include h

theorem Lists.congr {T : Set ι} (heq : ∀ i, i ∈ T ↔ i ∈ S) : Lists key value map T :=
  Set.ext heq ▸ h

omit h in
theorem lists_empty : Lists key value ∅ ∅ := fun e => by simp

theorem Lists.put (hinj : ∀ j ∈ S, key j = key i → j = i) :
    Lists key value (map.put (key i, value i)) (insert i S) := by
  intro e
  rw [mem_put, h e]
  constructor
  · rintro (rfl | ⟨⟨j, hj, rfl⟩, -⟩)
    · exact ⟨i, Set.mem_insert i S, rfl⟩
    · exact ⟨j, Set.mem_insert_of_mem i hj, rfl⟩
  · rintro ⟨j, hj, rfl⟩
    by_cases hk : key j = key i
    · rcases Set.mem_insert_iff.mp hj with rfl | hj
      · exact .inl rfl
      · exact .inl (by rw [hinj j hj hk])
    · exact .inr ⟨⟨j, (Set.mem_insert_iff.mp hj).resolve_left fun heq => hk (heq ▸ rfl), rfl⟩, hk⟩

theorem Lists.erase (hinj : ∀ j ∈ S, key j = key i → j = i) : Lists key value (map.erase (key i)) (S \ {i}) := by
  intro e
  rw [mem_erase, h e]
  constructor
  · rintro ⟨⟨j, hj, rfl⟩, hk⟩
    exact ⟨j, ⟨hj, fun heq => hk (congrArg key heq)⟩, rfl⟩
  · rintro ⟨j, ⟨hj, hne⟩, rfl⟩
    exact ⟨⟨j, hj, rfl⟩, fun hk => hne (hinj j hj hk)⟩

theorem Lists.mem_scan {start : List Char} {e : List Char × Relationship} :
    e ∈ map.scan start ↔ ∃ i ∈ S, start <+: key i ∧ e = (key i, value i) := by
  rw [RelationshipMap.scan, mem_filter, ← mem_def, h e, isPrefixOf_iff_prefix]
  constructor
  · rintro ⟨⟨j, hj, rfl⟩, hs⟩
    exact ⟨j, hj, hs, rfl⟩
  · rintro ⟨j, hj, hs, rfl⟩
    exact ⟨⟨j, hj, rfl⟩, hs⟩

theorem Lists.eraseScan (start : List Char) : Lists key value (map.eraseScan start) {i ∈ S | ¬start <+: key i} := by
  intro e
  rw [RelationshipMap.eraseScan, mem_eraseAll, h e]
  simp only [mem_map, h.mem_scan]
  constructor
  · rintro ⟨⟨j, hj, rfl⟩, hnot⟩
    exact ⟨j, ⟨hj, fun hs => hnot ⟨_, ⟨j, hj, hs, rfl⟩, rfl⟩⟩, rfl⟩
  · rintro ⟨j, ⟨hj, hs⟩, rfl⟩
    refine ⟨⟨j, hj, rfl⟩, ?_⟩
    rintro ⟨_, ⟨k, -, hk, rfl⟩, hkey⟩
    have hkey : key k = key j := hkey
    exact hs (hkey ▸ hk)

theorem Lists.mem_subjects {start : List Char} :
    subject ∈ (map.scan start).map (fun e => e.2.subject) ↔
      ∃ i ∈ S, start <+: key i ∧ (value i).subject = subject := by
  simp only [mem_map, h.mem_scan]
  constructor
  · rintro ⟨_, ⟨j, hj, hs, rfl⟩, rfl⟩
    exact ⟨j, hj, hs, rfl⟩
  · rintro ⟨j, hj, hs, rfl⟩
    exact ⟨_, ⟨j, hj, hs, rfl⟩, rfl⟩

end

end Lists

/-! ### Keys -/

section Keys
variable {hash : Subject → List Char} {lead lead' : List (List Char)} {rel rel' : Relationship}
  {res obj relation : String}

/-- The segments of a tuple's key. -/
def segments (hash : Subject → List Char) (rel : Relationship) : List (List Char) :=
  ["rel".toList, rel.resource.toList, rel.objectId.toList, rel.relation.toList, hash rel.subject]

theorem free_rel : '/' ∉ "rel".toList := by decide

section
variable (hhash : IsHash hash)
include hhash

theorem free_segments (hl : Free '/' lead) (hr : rel.Slashless) : Free '/' (lead ++ segments hash rel) := by
  intro segment hs
  rcases mem_append.mp hs with hs | hs
  · exact hl segment hs
  · simp only [segments, mem_cons, not_mem_nil, or_false] at hs
    rcases hs with rfl | rfl | rfl | rfl | rfl
    · exact free_rel
    · exact hr.resource
    · exact hr.objectId
    · exact hr.relation
    · exact hhash.slashless _

theorem segments_injective (h : segments hash rel = segments hash rel') : rel = rel' := by
  simp only [segments, cons.injEq, String.toList_inj, true_and, and_true] at h
  obtain ⟨hresource, hobj, hrelation, hsubject⟩ := h
  rw [Relationship.mk.injEq]
  exact ⟨hresource, hobj, hrelation, hhash.injective hsubject⟩

/-- A key tells its policy and its tuple. -/
theorem key_injective (hl : Free '/' lead) (hl' : Free '/' lead')
    (hlen : lead.length = lead'.length) (hr : rel.Slashless) (hr' : rel'.Slashless)
    (h : join '/' (lead ++ segments hash rel) = join '/' (lead' ++ segments hash rel')) :
    lead = lead' ∧ rel = rel' := by
  have heq := join_injective (free_segments hhash hl hr) (free_segments hhash hl' hr') h
  obtain ⟨hleads, hs⟩ := append_inj heq hlen
  exact ⟨hleads, segments_injective hhash hs⟩

/-- The prefix of a relation selects the keys of its tuples. -/
theorem relation_start (hl : Free '/' lead) (hlen : lead'.length = lead.length) (hr : rel.Slashless) :
    join '/' (lead' ++ ["rel".toList, res.toList, obj.toList, relation.toList]) ++ ['/'] <+:
        join '/' (lead ++ segments hash rel) ↔
      lead' = lead ∧ rel.resource = res ∧ rel.objectId = obj ∧ rel.relation = relation := by
  have hfree := free_segments hhash hl hr
  constructor
  · intro h
    have hfree' := free_of_dir hfree (by simp [segments, hlen]) h
    obtain ⟨c, cs, heq⟩ := (dir_prefix_iff hfree' hfree).mp h
    rw [append_assoc] at heq
    obtain ⟨rfl, hs⟩ := append_inj heq hlen.symm
    simp only [segments, cons_append, cons.injEq, String.toList_inj] at hs
    exact ⟨rfl, hs.2.1, hs.2.2.1, hs.2.2.2.1⟩
  · rintro ⟨rfl, rfl, rfl, rfl⟩
    have hfree' : Free '/' (lead' ++ ["rel".toList, rel.resource.toList, rel.objectId.toList, rel.relation.toList]) :=
      fun segment hsegment => hfree segment (by
        simp only [segments, mem_append, mem_cons, not_mem_nil, or_false] at hsegment ⊢
        tauto)
    exact (dir_prefix_iff hfree' hfree).mpr ⟨hash rel.subject, [], by simp [segments]⟩

theorem object_start (hl : Free '/' lead) (hl' : Free '/' lead')
    (hlen : lead'.length = lead.length) (hrel : rel.Slashless) (hr : Slashless res)
    (hobj : Slashless obj) :
    join '/' (lead' ++ ["rel".toList, res.toList, obj.toList]) ++ ['/'] <+:
        join '/' (lead ++ segments hash rel) ↔
      lead' = lead ∧ rel.resource = res ∧ rel.objectId = obj := by
  have hfree := free_segments hhash hl hrel
  have hfree' : Free '/' (lead' ++ ["rel".toList, res.toList, obj.toList]) := by
    intro segment hs
    rcases mem_append.mp hs with hs | hs
    · exact hl' segment hs
    · simp only [mem_cons, not_mem_nil, or_false] at hs
      rcases hs with rfl | rfl | rfl
      · exact free_rel
      · exact hr
      · exact hobj
  rw [dir_prefix_iff hfree' hfree]
  constructor
  · rintro ⟨c, cs, heq⟩
    rw [append_assoc] at heq
    obtain ⟨rfl, hsegments⟩ := append_inj heq hlen.symm
    simp only [segments, cons_append, cons.injEq, String.toList_inj] at hsegments
    exact ⟨rfl, hsegments.2.1, hsegments.2.2.1⟩
  · rintro ⟨rfl, rfl, rfl⟩
    exact ⟨rel.relation.toList, [hash rel.subject], by simp [segments]⟩

end

end Keys

variable {pid : String}

/-! ### The store in memory -/

namespace MemoryStore
variable {hash : Subject → List Char} {store : MemoryStore} {tuples : Tuples}

def relationshipsOf (store : MemoryStore) (pid : String) : RelationshipMap := (store.get pid).getD ∅

theorem relationshipsOf_put {q : String} {rels : RelationshipMap} :
    relationshipsOf { relationships := store.relationships.put (pid, rels) } q =
      if q = pid then rels else store.relationshipsOf q := by
  unfold relationshipsOf get
  rw [find?_put]
  split
  · rfl
  · rfl

/-- What a call does to the map of one policy. -/
def change (hash : Subject → List Char) : Call → String × (RelationshipMap → RelationshipMap)
  | .store pid rel => (pid, fun rels => rels.put (storageKey hash rel, rel))
  | .delete pid rel => (pid, fun rels => rels.erase (storageKey hash rel))
  | .deleteObject pid res obj => (pid, fun rels => rels.eraseScan (objectPrefix res obj))

theorem relationshipsOf_call (call : Call) (q : String) :
    (store.call hash call).relationshipsOf q = if q = (change hash call).1
      then (change hash call).2 (store.relationshipsOf q) else store.relationshipsOf q := by
  have hsame : ∀ {pid} {f : RelationshipMap → RelationshipMap}, store.get pid = none → f ∅ = ∅ →
      store.relationshipsOf q = if q = pid then f (store.relationshipsOf q) else store.relationshipsOf q := by
    intro pid f hg hf
    split
    case isTrue heq => rw [heq, relationshipsOf, hg, Option.getD_none, hf]
    case isFalse => rfl
  have hp : ∀ {pid} (f : RelationshipMap → RelationshipMap),
      relationshipsOf { relationships := store.relationships.put (pid, f (store.relationshipsOf pid)) } q =
        if q = pid then f (store.relationshipsOf q) else store.relationshipsOf q := by
    intro pid f
    rw [relationshipsOf_put]
    split
    case isTrue heq => rw [heq]
    case isFalse => rfl
  cases call with
  | store pid rel => exact hp fun rels => rels.put (storageKey hash rel, rel)
  | delete pid rel =>
    rw [call, deleteRelationship]
    cases hg : store.get pid with
    | none => exact hsame hg (ext_mem fun e => by simp [change])
    | some rels =>
      have hr : store.relationshipsOf pid = rels := by rw [relationshipsOf, hg, Option.getD_some]
      exact hr ▸ hp fun rels => rels.erase (storageKey hash rel)
  | deleteObject pid res obj =>
    rw [call, deleteObjectRelationships]
    cases hg : store.get pid with
    | none => exact hsame hg (ext_mem fun e => by simp [change, RelationshipMap.eraseScan])
    | some rels =>
      have hr : store.relationshipsOf pid = rels := by rw [relationshipsOf, hg, Option.getD_some]
      exact hr ▸ hp fun rels => rels.eraseScan (objectPrefix res obj)

structure Holds (hash : Subject → List Char) (store : MemoryStore) (tuples : Tuples) : Prop where
  lists : ∀ pid, Lists (storageKey hash) id (store.relationshipsOf pid) {rel | (pid, rel) ∈ tuples}
  slashless : ∀ t ∈ tuples, t.2.Slashless

theorem Holds.call (hhash : IsHash hash) (h : Holds hash store tuples) {call : Call} (hc : call.Slashless) :
    Holds hash (store.call hash call) (tuples.call call) := by
  have hfree : Free '/' ([] : List (List Char)) := by simp [Free]
  have hinj : ∀ {pid} {rel : Relationship}, rel.Slashless → ∀ other ∈ {rel | (pid, rel) ∈ tuples},
      storageKey hash other = storageKey hash rel → other = rel := fun hr other ho hkey =>
    (key_injective hhash hfree hfree rfl (h.slashless _ ho) hr hkey).2
  refine ⟨fun q => ?_, ?_⟩
  · rw [relationshipsOf_call]
    split
    case isFalse hne =>
      refine (h.lists q).congr fun rel => ?_
      cases call <;> simp_all [change, Tuples.call]
    case isTrue heq =>
      cases call with
      | store pid rel =>
        exact ((h.lists q).put (hinj hc.2)).congr fun other => by simp_all [change, Tuples.call]
      | delete pid rel =>
        exact ((h.lists q).erase (hinj hc.2)).congr fun other => by simp_all [change, Tuples.call]
      | deleteObject pid res obj =>
        refine ((h.lists q).eraseScan (objectPrefix res obj)).congr fun other => ?_
        have hstart : ∀ ho : (q, other) ∈ tuples, objectPrefix res obj <+: storageKey hash other ↔
            other.resource = res ∧ other.objectId = obj := fun ho =>
          (object_start hhash hfree hfree rfl (h.slashless _ ho) hc.2.1 hc.2.2).trans (and_iff_right rfl)
        have hq : q = pid := heq
        simp only [Tuples.call, Set.mem_ofPred_eq, hq, true_and]
        rw [hq] at hstart
        exact and_congr_right fun ho => not_congr (hstart ho).symm
  · intro t ht
    cases call with
    | store pid rel =>
      rcases Set.mem_insert_iff.mp ht with rfl | ht
      · exact hc.2
      · exact h.slashless t ht
    | delete pid rel => exact h.slashless t ht.1
    | deleteObject pid res obj => exact h.slashless t ht.1

theorem holds_run (hhash : IsHash hash) {calls : List Call} (hc : ∀ call ∈ calls, call.Slashless) :
    Holds hash (run hash calls) (Tuples.run calls) :=
  Run.simulation (fun hcall h => h.call hhash hcall) hc
    ⟨fun _ => lists_empty, fun _ h => absurd h (Set.notMem_empty _)⟩

theorem Holds.mem_subjects (hhash : IsHash hash) (h : Holds hash store tuples) {res obj relation : String} :
    subject ∈ store.getRelationSubjects pid res obj relation ↔
      (pid, ⟨res, obj, relation, subject⟩) ∈ tuples := by
  have heq : store.getRelationSubjects pid res obj relation =
      ((store.relationshipsOf pid).scan (relationPrefix res obj relation)).map fun e => e.2.subject := by
    unfold getRelationSubjects relationshipsOf
    split
    case h_1 hget => rw [hget]; rfl
    case h_2 rels hget => rw [hget]; rfl
  rw [heq, (h.lists pid).mem_subjects]
  have hfree : Free '/' ([] : List (List Char)) := by simp [Free]
  constructor
  · rintro ⟨rel, hr, hstart, rfl⟩
    obtain ⟨-, rfl, rfl, rfl⟩ := (relation_start hhash hfree rfl (h.slashless _ hr)).mp hstart
    exact hr
  · intro hr
    exact ⟨_, hr, (relation_start hhash hfree rfl (h.slashless _ hr)).mpr ⟨rfl, rfl, rfl, rfl⟩, rfl⟩

end MemoryStore

/-! ### The persistent store -/

namespace PersistentStore
variable {hash : Subject → List Char} {store : PersistentStore} {tuples : Tuples}

def lead (pid : String) : List (List Char) := ["zanzibar".toList, pid.toList]

theorem free_lead (h : Slashless pid) : Free '/' (lead pid) := by
  intro segment hs
  simp only [lead, mem_cons, not_mem_nil, or_false] at hs
  rcases hs with rfl | rfl
  · decide
  · exact h

theorem relationshipKey_eq (pid : String) (rel : Relationship) :
    relationshipKey hash pid rel = join '/' (lead pid ++ segments hash rel) := by
  simp [relationshipKey, policyPath, storageKey, lead, segments, join]

theorem relationStart_eq (pid res obj relation : String) :
    policyPath pid ++ relationPrefix res obj relation =
      join '/' (lead pid ++ ["rel".toList, res.toList, obj.toList, relation.toList]) ++ ['/'] := by
  simp [policyPath, relationPrefix, lead, join]

theorem objectStart_eq (pid res obj : String) : policyPath pid ++ objectPrefix res obj =
    join '/' (lead pid ++ ["rel".toList, res.toList, obj.toList]) ++ ['/'] := by
  simp [policyPath, objectPrefix, lead, join]

theorem lead_inj {p q : String} : lead p = lead q ↔ p = q := by
  simp [lead, String.toList_inj]

/-- The store holds the tuples, and no policy and no field of them holds a slash. -/
structure Holds (hash : Subject → List Char) (store : PersistentStore) (tuples : Tuples) : Prop where
  lists : Lists (fun t : String × Relationship => relationshipKey hash t.1 t.2) Prod.snd store.entries tuples
  slashless : ∀ t ∈ tuples, Slashless t.1 ∧ t.2.Slashless

theorem Holds.call (hhash : IsHash hash) (h : Holds hash store tuples) {call : Call} (hc : call.Slashless) :
    Holds hash (store.call hash call) (tuples.call call) := by
  have hinj : ∀ {t : String × Relationship}, Slashless t.1 ∧ t.2.Slashless → ∀ other ∈ tuples,
      relationshipKey hash other.1 other.2 = relationshipKey hash t.1 t.2 → other = t := by
    intro t ht other ho hkey
    rw [relationshipKey_eq, relationshipKey_eq] at hkey
    obtain ⟨hpol, hr⟩ := key_injective hhash (free_lead (h.slashless _ ho).1) (free_lead ht.1) rfl
      (h.slashless _ ho).2 ht.2 hkey
    exact Prod.ext (lead_inj.mp hpol) hr
  refine ⟨?_, fun t ht => ?_⟩
  · cases call with
    | store pid rel => exact h.lists.put (i := (pid, rel)) (hinj hc)
    | delete pid rel => exact h.lists.erase (i := (pid, rel)) (hinj hc)
    | deleteObject pid res obj =>
      refine (h.lists.eraseScan (policyPath pid ++ objectPrefix res obj)).congr fun t => ?_
      refine and_congr_right fun ht => not_congr ?_
      rw [relationshipKey_eq, objectStart_eq, object_start hhash (free_lead (h.slashless t ht).1) (free_lead hc.1) rfl
        (h.slashless t ht).2 hc.2.1 hc.2.2, lead_inj, eq_comm]
  · cases call with
    | store pid rel =>
      rcases Set.mem_insert_iff.mp ht with rfl | ht
      · exact hc
      · exact h.slashless t ht
    | delete pid rel => exact h.slashless t ht.1
    | deleteObject pid res obj => exact h.slashless t ht.1

theorem holds_run (hhash : IsHash hash) {calls : List Call} (hc : ∀ call ∈ calls, call.Slashless) :
    Holds hash (run hash calls) (Tuples.run calls) :=
  Run.simulation (fun hcall h => h.call hhash hcall) hc ⟨lists_empty, fun _ h => absurd h (Set.notMem_empty _)⟩

theorem Holds.mem_subjects (hhash : IsHash hash) (h : Holds hash store tuples) {res obj relation : String} :
    subject ∈ store.getRelationSubjects pid res obj relation ↔
      (pid, ⟨res, obj, relation, subject⟩) ∈ tuples := by
  have hstart : ∀ t ∈ tuples, policyPath pid ++ relationPrefix res obj relation <+:
      relationshipKey hash t.1 t.2 ↔
        pid = t.1 ∧ t.2.resource = res ∧ t.2.objectId = obj ∧ t.2.relation = relation := fun t ht => by
    rw [relationshipKey_eq, relationStart_eq, ← lead_inj]
    exact relation_start hhash (free_lead (h.slashless t ht).1) rfl (h.slashless t ht).2
  rw [getRelationSubjects, h.lists.mem_subjects]
  constructor
  · rintro ⟨⟨p, rel⟩, hr, hkey, rfl⟩
    obtain ⟨rfl, rfl, rfl, rfl⟩ := (hstart _ hr).mp hkey
    exact hr
  · intro hr
    exact ⟨_, hr, (hstart _ hr).mpr ⟨rfl, rfl, rfl, rfl⟩, rfl⟩

end PersistentStore

/-- In every run of calls without slashes, both stores give exactly the subjects of a relation's stored tuples. -/
theorem subjects_exact (hhash : IsHash hash) (hcalls : ∀ call ∈ calls, call.Slashless)
    (pid res obj relation : String) (subject : Subject) :
    (subject ∈ (run hash calls).getRelationSubjects pid res obj relation ↔
        (pid, ⟨res, obj, relation, subject⟩) ∈ Tuples.run calls) ∧
      (subject ∈ (PersistentStore.run hash calls).getRelationSubjects pid res obj relation ↔
        (pid, ⟨res, obj, relation, subject⟩) ∈ Tuples.run calls) :=
  ⟨(holds_run hhash hcalls).mem_subjects hhash, (PersistentStore.holds_run hhash hcalls).mem_subjects hhash⟩

/-! ### A hash for examples -/

/-- A text in two letters. -/
def unary : List Char := join 'b' (text.toList.map fun c => replicate c.toNat 'a')

theorem unary_injective : Function.Injective unary := by
  have hfree : ∀ text : String, Free 'b' (text.toList.map fun c => replicate c.toNat 'a') := by
    intro text segment hs hmem
    obtain ⟨c, -, rfl⟩ := mem_map.mp hs
    exact absurd (eq_of_mem_replicate hmem) (by decide)
  intro s t h
  have hm := join_injective (hfree s) (hfree t) h
  refine String.toList_inj.mp (map_injective_iff.mpr (fun c d hcd => ?_) hm)
  exact Char.toNat_inj.mp (by simpa using congrArg length hcd)

def plainSegments : Subject → List (List Char)
  | .entity did => [['e'], unary did]
  | .entitySet res obj relation => [['s'], unary res, unary obj, unary relation]
  | .typedWildcard res => [['t'], unary res]
  | .wildcard => [['w']]

/-- A hash without collisions: it spells the subject out. -/
def plainHash (subject : Subject) : List Char := join 'c' (plainSegments subject)

theorem mem_plainSegments {segment : List Char} (h : segment ∈ plainSegments subject) :
    ∀ x ∈ segment, x ∈ ['a', 'b', 'e', 's', 't', 'w'] := by
  have hu : ∀ text : String, ∀ x ∈ unary text, x = 'b' ∨ x = 'a' := by
    intro text x hx
    rcases mem_join hx with rfl | ⟨a, ha, hx⟩
    · exact .inl rfl
    · obtain ⟨c, -, rfl⟩ := mem_map.mp ha
      exact .inr (eq_of_mem_replicate hx)
  intro x hx
  cases subject <;> simp only [plainSegments, mem_cons, not_mem_nil, or_false] at h
  case entity did =>
    rcases h with rfl | rfl
    · simp_all
    · rcases hu _ x hx with rfl | rfl <;> simp
  case entitySet res obj relation =>
    rcases h with rfl | rfl | rfl | rfl
    · simp_all
    all_goals rcases hu _ x hx with rfl | rfl <;> simp
  case typedWildcard res =>
    rcases h with rfl | rfl
    · simp_all
    · rcases hu _ x hx with rfl | rfl <;> simp
  case wildcard =>
    simp_all

theorem plainHash_isHash : IsHash plainHash where
  injective s t h := by
    have hfree : ∀ subject, Free 'c' (plainSegments subject) := fun subject segment hs hmem =>
      absurd (mem_plainSegments hs _ hmem) (by decide)
    have heq := join_injective (hfree s) (hfree t) h
    cases s <;> cases t <;> simp_all [plainSegments, unary_injective.eq_iff]
  slashless subject hmem := by
    rcases mem_join hmem with heq | ⟨segment, hs, hx⟩
    · exact absurd heq (by decide)
    · exact absurd (mem_plainSegments hs _ hx) (by decide)

def sharedCalls : List Call :=
  [.store "policy" ⟨"document", "1", "owner", .entity "alice"⟩, .store "policy" ⟨"document", "2", "owner", .entity "alice"⟩,
    .store "policy" ⟨"document", "1", "reader", .entity "bob"⟩, .deleteObject "policy" "document" "2"]

theorem shared_slashless : ∀ call ∈ sharedCalls, call.Slashless := by
  have hall : ∀ text ∈ ["policy", "document", "1", "2", "owner", "reader"], Slashless text := by decide
  intro call hc
  simp only [sharedCalls, mem_cons, not_mem_nil, or_false] at hc
  rcases hc with rfl | rfl | rfl | rfl
  · exact ⟨hall _ (by simp), hall _ (by simp), hall _ (by simp), hall _ (by simp)⟩
  · exact ⟨hall _ (by simp), hall _ (by simp), hall _ (by simp), hall _ (by simp)⟩
  · exact ⟨hall _ (by simp), hall _ (by simp), hall _ (by simp), hall _ (by simp)⟩
  · exact ⟨hall _ (by simp), hall _ (by simp), hall _ (by simp)⟩

theorem shared_owner : (Subject.entity "alice" ∈
      (run plainHash sharedCalls).getRelationSubjects "policy" "document" "1" "owner" ↔
        ("policy", ⟨"document", "1", "owner", .entity "alice"⟩) ∈ Tuples.run sharedCalls) ∧
    (Subject.entity "alice" ∈
      (PersistentStore.run plainHash sharedCalls).getRelationSubjects "policy" "document" "1" "owner" ↔
        ("policy", ⟨"document", "1", "owner", .entity "alice"⟩) ∈ Tuples.run sharedCalls) :=
  subjects_exact plainHash_isHash shared_slashless "policy" "document" "1" "owner" (.entity "alice")

/-- A tuple of the relation `owner/x`, which is no relation of the policy. -/
def slashCalls : List Call := [.store "policy" ⟨"document", "1", "owner/x", .entity "eve"⟩]

/-- It makes Eve an owner: the keys of `owner/x` start with those of `owner`. -/
theorem slash_owner : IsHash plainHash ∧
    Subject.entity "eve" ∈ (run plainHash slashCalls).getRelationSubjects "policy" "document" "1" "owner" ∧
    Subject.entity "eve" ∈ (PersistentStore.run plainHash slashCalls).getRelationSubjects "policy" "document" "1" "owner" ∧
    ("policy", ⟨"document", "1", "owner", .entity "eve"⟩) ∉ Tuples.run slashCalls := by
  refine ⟨plainHash_isHash, ?_, ?_, by simp [Tuples.run, slashCalls, Tuples.call]⟩
  · have heq : (run plainHash slashCalls).getRelationSubjects "policy" "document" "1" "owner" =
        [.entity "eve"] := rfl
    exact heq ▸ mem_singleton_self _
  · have heq : (PersistentStore.run plainHash slashCalls).getRelationSubjects "policy" "document" "1" "owner" =
        [.entity "eve"] := rfl
    exact heq ▸ mem_singleton_self _

section
variable {held subjects : List Subject} {has : Subject → Bool} (hsubjects : ∀ s, s ∈ subjects ↔ s ∈ held)
include hsubjects

/-! ### The stores and the engine -/

theorem direct_eq (hh : ∀ s, has s = true ↔ s ∈ held) (did : String) :
    (has (.entity did) || has .wildcard || subjects.any Subject.isTypedWildcard) =
      held.any fun s => s = .entity did || s = .wildcard || s.isTypedWildcard := by
  rw [Bool.eq_iff_iff]
  simp only [Bool.or_eq_true, any_eq_true, hh, hsubjects, decide_eq_true_eq]
  grind

theorem mem_targetsOf_congr {target : ObjectRef} : target ∈ targetsOf subjects ↔ target ∈ targetsOf held := by
  simp only [targetsOf, mem_filterMap, hsubjects]

end

/-- A slash in the queried fields leads to no stored key: the stored key has as many slashes as fields. -/
theorem MemoryStore.Holds.has {store : MemoryStore} {tuples : Tuples} (hhash : IsHash hash)
    (h : Holds hash store tuples) (rel : Relationship) :
    store.hasRelationship hash pid rel.resource rel.objectId rel.relation rel.subject = true ↔
      (pid, rel) ∈ tuples := by
  have hfree : Free '/' ([] : List (List Char)) := by simp [Free]
  have hkeys : ∀ rel, storageKey hash rel =
      relationPrefix rel.resource rel.objectId rel.relation ++ hash rel.subject := fun rel => by
    simp [storageKey, relationPrefix]
  have heq : store.hasRelationship hash pid rel.resource rel.objectId rel.relation rel.subject =
      ((store.relationshipsOf pid).find? (storageKey hash rel)).isSome := by
    unfold hasRelationship relationshipsOf
    cases store.get pid <;> rfl
  rw [heq, Option.isSome_iff_exists]
  constructor
  · rintro ⟨e, he⟩
    obtain ⟨hmem, hkey⟩ := find?_eq_some.mp he
    obtain ⟨⟨res, obj, relation, subject⟩, hother, rfl⟩ := (h.lists pid e).mp hmem
    have hstart : relationPrefix rel.resource rel.objectId rel.relation <+:
        storageKey hash ⟨res, obj, relation, subject⟩ := ⟨_, (hkeys rel).symm.trans hkey.symm⟩
    obtain ⟨-, rfl, rfl, rfl⟩ := (relation_start hhash hfree rfl (h.slashless _ hother)).mp hstart
    have hs : hash subject = hash rel.subject :=
      append_cancel_left ((hkeys _).symm.trans (hkey.trans (hkeys rel)))
    cases hhash.injective hs
    exact hother
  · exact fun hmem => ⟨_, find?_eq_some.mpr ⟨(h.lists pid _).mpr ⟨rel, hmem, rfl⟩, rfl⟩⟩

/-- After any calls without slashes, the store answers a direct check as the engine does from the tuples that the calls leave,
    and both stores name the targets that the engine follows. -/
theorem stores_refine_engine (hhash : IsHash hash) (hcalls : ∀ call ∈ calls, call.Slashless) {engine : Engine}
    (htuples : ∀ t, t ∈ engine.tuples ↔ t ∈ Tuples.run calls) (pid : String) (node : NodeId) (did : String)
    (target : ObjectRef) :
    (run hash calls).checkPermissionDirect hash pid node.resource node.objectId node.relation did =
        engine.checkPermissionDirect pid node did ∧
      (target ∈ (run hash calls).getRelationTargets pid node.resource node.objectId node.relation ↔
        target ∈ engine.getRelationTargets pid node) ∧
      (target ∈ (PersistentStore.run hash calls).getRelationTargets pid node.resource node.objectId node.relation ↔
        target ∈ engine.getRelationTargets pid node) := by
  have he : ∀ s, (pid, ⟨node.resource, node.objectId, node.relation, s⟩) ∈ Tuples.run calls ↔
      s ∈ engine.getRelationSubjects pid node := by
    intro s
    rw [← htuples, Engine.getRelationSubjects, mem_filterMap]
    constructor
    · exact fun h => ⟨_, h, if_pos ⟨rfl, rfl, rfl, rfl⟩⟩
    · rintro ⟨⟨_, _, _, _, _⟩, hmem, hs⟩
      grind
  have hmemory := holds_run hhash hcalls
  have hsubjects := fun s => (hmemory.mem_subjects hhash).trans (he s)
  refine ⟨?_, mem_targetsOf_congr hsubjects,
    mem_targetsOf_congr fun s => ((PersistentStore.holds_run hhash hcalls).mem_subjects hhash).trans (he s)⟩
  rw [Engine.checkPermissionDirect, ← direct_eq hsubjects fun s => (hmemory.has hhash ⟨_, _, _, s⟩).trans (he s)]
  unfold checkPermissionDirect getRelationSubjects
  cases (run hash calls).get pid with
  | none => rfl
  | some rels =>
    rw [any_map]
    rfl

/-- The first document is public for a while, and moves from one folder to another. -/
def movedCalls : List Call :=
  [.store "p" ⟨"d", "1", "r", .wildcard⟩, .store "p" ⟨"d", "1", "r", .entity "bob"⟩,
    .store "p" ⟨"d", "1", "in", .entitySet "f" "8" "r"⟩, .delete "p" ⟨"d", "1", "r", .wildcard⟩,
    .delete "p" ⟨"d", "1", "in", .entitySet "f" "8" "r"⟩, .store "p" ⟨"d", "1", "in", .entitySet "f" "9" "r"⟩]

def movedEngine : Engine where
  policies := []
  tuples := [("p", ⟨"d", "1", "r", .entity "bob"⟩), ("p", ⟨"d", "1", "in", .entitySet "f" "9" "r"⟩)]

theorem moved_document : (run plainHash movedCalls).checkPermissionDirect plainHash "p" "d" "1" "r" "bob" = true ∧
      (run plainHash movedCalls).checkPermissionDirect plainHash "p" "d" "1" "r" "eve" = false ∧
      ⟨"f", "9"⟩ ∈ (run plainHash movedCalls).getRelationTargets "p" "d" "1" "in" ∧
      ⟨"f", "9"⟩ ∈ (PersistentStore.run plainHash movedCalls).getRelationTargets "p" "d" "1" "in" ∧
      ⟨"f", "8"⟩ ∉ (PersistentStore.run plainHash movedCalls).getRelationTargets "p" "d" "1" "in" := by
  have hall : ∀ text ∈ ["p", "d", "1", "r", "in"], Slashless text := by decide
  have hcalls : ∀ call ∈ movedCalls, call.Slashless := by
    simp only [movedCalls, forall_mem_cons]
    refine ⟨⟨?_, ?_, ?_, ?_⟩, ⟨?_, ?_, ?_, ?_⟩, ⟨?_, ?_, ?_, ?_⟩, ⟨?_, ?_, ?_, ?_⟩, ⟨?_, ?_, ?_, ?_⟩, ⟨?_, ?_, ?_, ?_⟩, nofun⟩ <;>
      exact hall _ (by simp)
  have ht : ∀ t, t ∈ movedEngine.tuples ↔ t ∈ Tuples.run movedCalls := fun t => by
    simp [movedCalls, movedEngine, Tuples.run, Tuples.call]
    grind
  have hrefines := fun node => stores_refine_engine plainHash_isHash hcalls ht "p" node
  refine ⟨(hrefines ⟨"d", "1", "r"⟩ "bob" ⟨"f", "9"⟩).1.trans (by decide), (hrefines ⟨"d", "1", "r"⟩ "eve" ⟨"f", "9"⟩).1.trans (by decide),
    (hrefines ⟨"d", "1", "in"⟩ "bob" ⟨"f", "9"⟩).2.1.mpr (by decide), (hrefines ⟨"d", "1", "in"⟩ "bob" ⟨"f", "9"⟩).2.2.mpr (by decide),
    mt (hrefines ⟨"d", "1", "in"⟩ "bob" ⟨"f", "8"⟩).2.2.mp (by decide)⟩

end Defra.Zanzibar
