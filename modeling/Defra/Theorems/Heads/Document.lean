import Defra.Theorems.Heads.Collection

/-! A document's live heads are its published blocks that no published block has as a parent, whichever transactions commit. -/

namespace Defra.Heads
open List Merge.HeadSet

variable {Cid : Type} {hash : Bytes → UInt64} {text : CidText Cid} {field : Bytes} {bs : List (Block Cid)}

theorem name_injective : Function.Injective (name text field) := fun _ _ h =>
  text.injective (cons.inj (append_cancel_left h)).2

/-! ### Versions of the store -/

def Block.key (block : Block Cid) : PriorityKey Cid := (block.priority, block.cid)

/-- The index marks the block as published. -/
def Store.Published (store : Store Cid) (block : Block Cid) : Prop := store.index block.key = some published

/-- A superseded head of a document is not live. -/
structure HoldsDocument (text : CidText Cid) (field : Bytes) (bs : List (Block Cid)) (store : Store Cid) : Prop extends
    HoldsHeads (fun s => ∀ priority, s ≠ .live priority) (name text field) bs store.Published (stateAt store.set.names) where
  known : ∀ key, store.index key = some published → ∃ block ∈ bs, block.key = key

/-- What one version kept of the store before it, and what it published. -/
structure Linked (text : CidText Cid) (field : Bytes) (before : Store Cid) (version : Version Cid) : Prop where
  kept : ∀ key, before.index key = some published → version.store.index key = some published
  made : ∀ key, version.store.index key = some published → before.index key = some published ∨
    ∃ txn write, version.txn = some txn ∧ key ∈ txn.marks ∧ txn.merged = some write ∧
      write.func (name text field key.2) ≠ .identity

def Chain (text : CidText Cid) (field : Bytes) (bs : List (Block Cid)) : List (Version Cid) → Prop
  | [] => True
  | version :: vs => HoldsDocument text field bs version.store ∧ Linked text field (latest vs) version ∧
      Chain text field bs vs

theorem HoldsDocument.empty : HoldsDocument text field bs {} where
  toHoldsHeads := .empty nofun fun _ => rfl
  known _ h := nomatch h

namespace Chain
variable {vs : List (Version Cid)}

section
variable (h : Chain text field bs vs)
include h

theorem holds : HoldsDocument text field bs (latest vs) := by
  cases vs with
  | nil => exact .empty
  | cons version vs => exact h.1

theorem drop (back : Nat) : Chain text field bs (vs.drop back) := by
  induction vs generalizing back with
  | nil => rwa [drop_nil]
  | cons version vs ih =>
    cases back with
    | zero => exact h
    | succ back => exact ih h.2.2 back

theorem kept (back : Nat) {key : PriorityKey Cid}
    (hk : (latest (vs.drop back)).index key = some published) : (latest vs).index key = some published := by
  induction vs generalizing back with
  | nil => rwa [drop_nil] at hk
  | cons version vs ih =>
    cases back with
    | zero => exact hk
    | succ back => exact h.2.1.kept key (ih h.2.2 back hk)

/-- What is published now and was not in the snapshot, a transaction since then marked. -/
theorem made (back : Nat) {key : PriorityKey Cid}
    (hk : (latest vs).index key = some published) : (latest (vs.drop back)).index key = some published ∨
      ∃ version ∈ vs.take back, ∃ txn write, version.txn = some txn ∧ key ∈ txn.marks ∧ txn.merged = some write ∧
        write.func (name text field key.2) ≠ .identity := by
  induction vs generalizing back with
  | nil =>
    rw [drop_nil]
    exact .inl hk
  | cons version vs ih =>
    cases back with
    | zero => exact .inl hk
    | succ back =>
      rcases h.2.1.made key hk with hbef | ⟨txn, write, hm⟩
      · rcases ih h.2.2 back hbef with hsnapshot | ⟨version', hv', hm⟩
        · exact .inl hsnapshot
        · exact .inr ⟨version', mem_cons_of_mem _ hv', hm⟩
      · exact .inr ⟨version, mem_cons_self, txn, write, hm⟩

end

end Chain

variable [DecidableEq Cid] {block : Block Cid} {snapshot : Store Cid} {vs : List (Version Cid)}

/-! ### What a publication writes -/

/-- What a publication does to the head of a parent. -/
def pickParent (text : CidText Cid) (field : Bytes) (txn : Txn Cid) (set : Set) (parent : Cid) : Func :=
  if set.isLive (name text field parent) || txn.wasPublished parent then .supersede else .supersedeAhead

theorem foldl_publishParent (txn : Txn Cid) (set : Set) (parents : List Cid) (held : List UInt32) (write : Write) :
    (parents.foldl (publishParent hash text field txn set) (held, write)).2 =
        pickAll (name text field) (pickParent text field txn set) write parents ∧
      ∀ id, id ∈ (parents.foldl (publishParent hash text field txn set) (held, write)).1 ↔ id ∈ held ∨
        ∃ parent ∈ parents, pickParent text field txn set parent = .supersedeAhead ∧ id = part hash (name text field parent) := by
  induction parents generalizing held write with
  | nil => simp [pickAll]
  | cons parent parents ih =>
    rw [foldl_cons]
    by_cases hpick : (set.isLive (name text field parent) || txn.wasPublished parent) = true
    · have hp : pickParent text field txn set parent = .supersede := if_pos hpick
      rw [publishParent, if_pos hpick]
      obtain ⟨hw, hh⟩ := ih held (write.supersede (name text field parent))
      refine ⟨hw.trans ?_, fun id => ?_⟩
      · rw [pickAll, pickAll, foldl_cons, hp]
        rfl
      · rw [hh]
        simp [hp, show Func.supersede ≠ Func.supersedeAhead by decide]
    · have hp : pickParent text field txn set parent = .supersedeAhead := if_neg hpick
      rw [publishParent, if_neg hpick]
      obtain ⟨hw, hh⟩ := ih (held ++ [part hash (name text field parent)])
        (write.supersedeAhead (name text field parent))
      refine ⟨hw.trans ?_, fun id => ?_⟩
      · rw [pickAll, pickAll, foldl_cons, hp]
        rfl
      · rw [hh]
        simp [hp, or_assoc]

/-- What a publication writes to the head set. -/
def writeOf (text : CidText Cid) (field : Bytes) (snapshot : Store Cid) (block : Block Cid) : Write :=
  (pickAll (name text field) (pickParent text field { snapshot, validated := [block.key] } snapshot.set) {}
    block.parents).add (name text field block.cid) block.priority

/-- What the transaction of an unpublished block validates, marks and merges. -/
structure Publishes (hash : Bytes → UInt64) (text : CidText Cid) (field : Bytes) (snapshot : Store Cid) (block : Block Cid)
    (txn : Txn Cid) : Prop where
  validated : txn.validated = [block.key]
  marks : txn.marks = [block.key]
  merged : txn.merged = some (writeOf text field snapshot block)
  parts : ∀ parent ∈ block.parents,
    pickParent text field { snapshot, validated := [block.key] } snapshot.set parent = .supersedeAhead →
      part hash (name text field parent) ∈ txn.parts

theorem writeOf_names (snapshot : Store Cid) (hself : block.cid ∉ block.parents) :
    (writeOf text field snapshot block).func (name text field block.cid) ≠ .identity := by
  intro h
  have happly := @func_add_pickAll Cid (name text field)
    (pickParent text field { snapshot, validated := [block.key] } snapshot.set) _ name_injective block.parents block.cid hself
    block.priority block.cid .absent fun hc => absurd hc hself
  rw [← writeOf, h, if_pos rfl] at happly
  cases happly

theorem publication_published (h : snapshot.Published block) :
    publication hash text field snapshot block = { snapshot, validated := [block.key] } := by
  have hg : Txn.get { snapshot } (block.priority, block.cid) = some published := h
  rw [publication, publish, Txn.isPublished]
  simp only
  rw [if_pos (decide_eq_true hg)]
  rfl

theorem publication_new (hself : block.cid ∉ block.parents) (h : ¬snapshot.Published block) :
    Publishes hash text field snapshot block (publication hash text field snapshot block) := by
  have hg : Txn.get { snapshot } (block.priority, block.cid) ≠ some published := h
  obtain ⟨hw, hh⟩ := foldl_publishParent
    { snapshot, validated := [(block.priority, block.cid)] } snapshot.set block.parents [] {}
  have hnonempty : ¬(writeOf text field snapshot block).isEmpty = true := fun hempty =>
    writeOf_names snapshot hself (Write.func_of_isEmpty hempty _)
  rw [publication, publish, Txn.isPublished]
  simp only
  rw [if_neg fun hp => hg (of_decide_eq_true hp)]
  generalize block.parents.foldl (publishParent hash text field _ snapshot.set) ([], {}) = acc at hw hh
  obtain ⟨held, write⟩ := acc
  subst hw
  change Publishes hash text field snapshot block (Txn.commit _ (writeOf text field snapshot block))
  rw [Txn.commit, if_neg hnonempty]
  cases hempty : held.isEmpty with
  | true =>
    refine ⟨rfl, rfl, rfl, fun parent hpar hpick => ?_⟩
    have hmem := (hh _).mpr (.inr ⟨parent, hpar, hpick, rfl⟩)
    rw [isEmpty_iff.mp hempty] at hmem
    exact absurd hmem not_mem_nil
  | false =>
    refine ⟨rfl, rfl, rfl, fun parent hpar hpick => ?_⟩
    have hmem := (hh _).mpr (.inr ⟨parent, hpar, hpick, rfl⟩)
    exact mem_append_left _ (mem_dedup.mpr (mem_mergeSort.mpr hmem))

theorem touchesParts_of_func {write : Write} {head : Bytes} (h : write.func head ≠ .identity) {parts : List UInt32}
    (hp : part hash head ∈ parts) : touchesParts hash write parts = true := by
  have he : ∃ e ∈ write.entries, e.1 = head ∧ e.2 ≠ .identity := by
    unfold Write.func at h
    cases hf : write.entries.find? head with
    | none =>
      rw [hf] at h
      exact absurd rfl h
    | some e =>
      rw [hf] at h
      exact ⟨e, (KeyedList.find?_eq_some.mp hf).1, (KeyedList.find?_eq_some.mp hf).2, h⟩
  obtain ⟨e, hmem, rfl, hne⟩ := he
  rw [touchesParts, Bool.or_eq_true, any_eq_true]
  exact .inr ⟨e, hmem, by simp [hne, hp]⟩

/-- What a transaction without conflict finds at its commit: its block is unpublished, a parent it supersedes was published,
    and one it holds ahead was not since its snapshot. -/
structure Current (text : CidText Cid) (field : Bytes) (bs : List (Block Cid)) (snapshot cur : Store Cid)
    (block : Block Cid) : Prop where
  unpublished : ¬cur.Published block
  superseded : ∀ parent ∈ bs, parent.cid ∈ block.parents →
    pickParent text field { snapshot, validated := [block.key] } snapshot.set parent.cid = .supersede →
      cur.Published parent
  held : ∀ parent ∈ bs, parent.cid ∈ block.parents →
    pickParent text field { snapshot, validated := [block.key] } snapshot.set parent.cid = .supersedeAhead →
      ∀ priority, stateAt cur.set.names (name text field parent.cid) ≠ .live priority

theorem pickParent_eq (txn : Txn Cid) (set : Set) (parent : Cid) : pickParent text field txn set parent = .supersede ∨
      pickParent text field txn set parent = .supersedeAhead ∧ ¬set.isLive (name text field parent) = true := by
  unfold pickParent
  split
  · exact .inl rfl
  · rename_i h
    exact .inr ⟨rfl, fun hlive => h (by rw [hlive, Bool.true_or])⟩

theorem published_of_pickParent (h : HoldsDocument text field bs snapshot) {txn : Txn Cid}
    (hs : txn.snapshot = snapshot) (hm : txn.marks = []) (dag : IsDag bs) {parent : Block Cid}
    (hp : parent ∈ bs) (hpick : pickParent text field txn snapshot.set parent.cid = .supersede) :
    snapshot.Published parent := by
  unfold pickParent at hpick
  split at hpick
  · rename_i hcond
    rw [Bool.or_eq_true] at hcond
    rcases hcond with hl | hwas
    · -- Only a published head is live.
      obtain ⟨priority, hl⟩ := isLive_iff.mp hl
      by_contra hnot
      by_cases hsup : Superseded bs snapshot.Published parent.cid
      · rw [h.ahead parent hp hnot hsup] at hl
        cases hl
      · rw [h.absent parent hp hnot hsup] at hl
        cases hl
    · unfold Txn.wasPublished at hwas
      split at hwas
      · cases hwas
      · have hindex := of_decide_eq_true hwas
        rw [Txn.get, hm, hs] at hindex
        obtain ⟨block, hb, hkey⟩ := h.known _ hindex
        obtain rfl := dag.eq_of_cid hb hp (congrArg Prod.snd hkey)
        rwa [← hkey] at hindex
  · cases hpick

/-! ### Committing it -/

/-- No transaction that committed since the snapshot conflicts. -/
def NoConflict (hash : Bytes → UInt64) (vs : List (Version Cid)) (back : Nat) (txn : Txn Cid) : Prop :=
  ∀ version ∈ vs.take back, ∀ later, version.txn = some later → ¬txn.conflicts hash later = true

theorem Chain.current (h : Chain text field bs vs) (dag : IsDag bs) {back : Nat}
    (hnew : ¬(latest (vs.drop back)).Published block) {txn : Txn Cid}
    (ht : Publishes hash text field (latest (vs.drop back)) block txn) (hok : NoConflict hash vs back txn) :
    Current text field bs (latest (vs.drop back)) (latest vs) block := by
  have hsnapshot := (h.drop back).holds
  refine ⟨fun hnow => ?_, fun parent hp hmem hpick => ?_, fun parent hp hmem hpick => ?_⟩
  · rcases h.made back hnow with hbef | ⟨version, hv, later, write, hlater, hmark, -, -⟩
    · exact hnew hbef
    · refine hok version hv later hlater ?_
      rw [Txn.conflicts, ht.validated, Bool.or_eq_true]
      exact .inl (by simpa using hmark)
  · exact h.kept back (published_of_pickParent hsnapshot rfl rfl dag hp hpick)
  · by_cases hnow : (latest vs).Published parent
    · rcases h.made back hnow with hbef | ⟨version, hv, later, write, hlater, -, hmerged, hfunc⟩
      · -- It was published and not live, so a child had superseded it.
        have hl : ¬(latest (vs.drop back)).set.isLive (name text field parent.cid) = true := by
          rcases pickParent_eq { snapshot := latest (vs.drop back), validated := [block.key] }
            (latest (vs.drop back)).set parent.cid with hother | ⟨-, hl⟩
          · rw [hother] at hpick
            cases hpick
          · exact hl
        have hs : Superseded bs (latest (vs.drop back)).Published parent.cid := by
          by_contra hn
          exact hl (isLive_iff.mpr ⟨_, hsnapshot.live parent hp hbef hn⟩)
        exact h.holds.gone parent hp hnow (hs.mono fun b hb => h.kept back hb)
      · have hpart := ht.parts parent.cid hmem hpick
        refine absurd ?_ (hok version hv later hlater)
        rw [Txn.conflicts, Bool.or_eq_true, hmerged]
        have hparts : txn.parts.isEmpty = false := by
          cases hparts : txn.parts with
          | nil =>
            rw [hparts] at hpart
            exact absurd hpart not_mem_nil
          | cons => rfl
        refine .inr ?_
        rw [hparts, Option.any_some, touchesParts_of_func hfunc hpart]
        rfl
    · by_cases hs : Superseded bs (latest vs).Published parent.cid
      · rw [h.holds.ahead parent hp hnow hs]
        exact fun _ hl => by cases hl
      · rw [h.holds.absent parent hp hnow hs]
        exact fun _ hl => by cases hl

/-- A parent that a transaction met as `Current` says is not live, and held ahead when it is not published. -/
theorem Current.settles {cur : Store Cid} (h : Current text field bs snapshot cur block) {parent : Block Cid}
    (hpar : parent ∈ bs) (hmem : parent.cid ∈ block.parents) :
    Settles (fun s => ∀ priority, s ≠ .live priority) (cur.Published parent)
      (pickParent text field { snapshot, validated := [block.key] } snapshot.set parent.cid)
      (stateAt cur.set.names (name text field parent.cid)) := by
  rcases pickParent_eq { snapshot, validated := [block.key] } snapshot.set parent.cid with
    hsup | ⟨hheld, -⟩
  · have hpub := h.superseded parent hpar hmem hsup
    rw [hsup]
    refine ⟨?_, fun _ => ?_, absurd hpub⟩ <;>
      cases stateAt cur.set.names (name text field parent.cid) <;> simp [Func.supersede, Func.apply, Image.resolve]
  · have hnot := h.held parent hpar hmem hheld
    rw [hheld]
    cases hs : stateAt cur.set.names (name text field parent.cid) with
    | live priority => exact absurd hs (hnot priority)
    | absent | ahead => exact ⟨rfl, fun _ _ hl => (by cases hl), fun _ => rfl⟩

theorem Publishes.index_commit {txn : Txn Cid} (h : Publishes hash text field snapshot block txn) (cur : Store Cid)
    (key : PriorityKey Cid) : (cur.commit txn).index key = some published ↔
      cur.index key = some published ∨ key = block.key := by
  simp only [Store.commit, h.marks, mem_singleton]
  by_cases hk : key = block.key <;> simp [hk]

theorem HoldsDocument.commit {cur : Store Cid} (h : HoldsDocument text field bs cur) (dag : IsDag bs)
    (hblock : block ∈ bs) {txn : Txn Cid} (ht : Publishes hash text field snapshot block txn)
    (hcur : Current text field bs snapshot cur block) :
    HoldsDocument text field bs (cur.commit txn) := by
  have hindex := ht.index_commit cur
  refine ⟨h.toHoldsHeads.publish dag name_injective hblock hcur.unpublished (fun b hb => ?_)
    (fun b hb hmem => hcur.settles hb hmem) nofun fun head => ?_, fun key hk => ?_⟩
  · exact (hindex b.key).trans (or_congr_right ⟨fun hk => dag.eq_of_cid hb hblock (congrArg Prod.snd hk), congrArg Block.key⟩)
  · rw [Store.commit, ht.merged, Option.elim_some, stateAt_apply]
    rfl
  · rcases (hindex key).mp hk with hk | rfl
    · exact h.known key hk
    · exact ⟨block, hblock, rfl⟩

/-- A transaction without a conflict keeps the chain. -/
theorem Chain.commit (h : Chain text field bs vs) (dag : IsDag bs) {back : Nat} (hb : block ∈ bs)
    (hok : NoConflict hash vs back (publication hash text field (latest (vs.drop back)) block)) :
    Chain text field bs (⟨(latest vs).commit (publication hash text field (latest (vs.drop back)) block),
      publication hash text field (latest (vs.drop back)) block⟩ :: vs) := by
  by_cases hnew : (latest (vs.drop back)).Published block
  · -- Nothing is marked or merged.
    rw [publication_published hnew]
    have hs : (latest vs).commit { snapshot := latest (vs.drop back), validated := [block.key] } =
        latest vs := rfl
    exact ⟨h.holds, ⟨fun _ hk => hk, fun _ hk => .inl hk⟩, h⟩
  · have hself := dag.cid_not_mem_parents hb
    have ht : Publishes hash text field (latest (vs.drop back)) block
        (publication hash text field (latest (vs.drop back)) block) := publication_new hself hnew
    have hindex := ht.index_commit (latest vs)
    refine ⟨h.holds.commit dag hb ht (h.current dag hnew ht hok),
      ⟨fun key hk => (hindex key).mpr (.inl hk), fun key hk => ?_⟩, h⟩
    rcases (hindex key).mp hk with hbef | rfl
    · exact .inl hbef
    · exact .inr ⟨_, _, rfl, by rw [ht.marks]; exact mem_singleton_self _, ht.merged, writeOf_names _ hself⟩

/-- A publish that commits leaves its block published, and no other with it. -/
theorem Chain.published_commit (h : Chain text field bs vs) (dag : IsDag bs) {back : Nat} (hb : block ∈ bs)
    {other : Block Cid} (ho : other ∈ bs) :
    ((latest vs).commit (publication hash text field (latest (vs.drop back)) block)).Published other ↔
      (latest vs).Published other ∨ other = block := by
  by_cases hold : (latest (vs.drop back)).Published block
  · rw [publication_published hold]
    refine (or_iff_left_of_imp ?_).symm
    rintro rfl
    exact h.kept back hold
  · have htxn : Publishes hash text field (latest (vs.drop back)) block
        (publication hash text field (latest (vs.drop back)) block) := publication_new (dag.cid_not_mem_parents hb) hold
    refine (htxn.index_commit _ _).trans (or_congr_right ⟨fun hk => ?_, congrArg Block.key⟩)
    exact dag.eq_of_cid ho hb (congrArg Prod.snd hk)

theorem Chain.step (h : Chain text field bs vs) (dag : IsDag bs)
    {event : Event Cid} (he : event.block ∈ bs) : Chain text field bs (step hash text field vs event) := by
  cases event with
  | stored block =>
    exact ⟨⟨h.holds.toHoldsHeads, h.holds.known⟩, ⟨fun _ hk => hk, fun _ hk => .inl hk⟩, h⟩
  | publish back block =>
    rw [Heads.step]
    split
    · exact h
    · rename_i hconf
      refine h.commit dag he fun version hv later hl hconflicts => hconf ?_
      exact any_eq_true.mpr ⟨version, hv, by rw [hl]; exact hconflicts⟩

theorem chain_run (dag : IsDag bs) (events : List (Event Cid)) (he : ∀ event ∈ events, event.block ∈ bs) :
    Chain text field bs (run hash text field events) := by
  induction events using reverseRecOn with
  | nil => trivial
  | append_singleton events event ih =>
    rw [forall_mem_append] at he
    rw [run, foldl_append, foldl_cons]
    exact (ih he.1).step dag (he.2 event (mem_singleton_self event))

/-! ### Runs -/

/-- One of the events is a publish of `block` that commits. -/
def Committed (hash : Bytes → UInt64) (text : CidText Cid) (field : Bytes) (events : List (Event Cid)) (block : Block Cid) :
    Prop :=
  ∃ earlier back later, events = earlier ++ .publish back block :: later ∧ NoConflict hash (run hash text field earlier) back
    (publication hash text field (latest ((run hash text field earlier).drop back)) block)

theorem committed_append {events : List (Event Cid)} {event : Event Cid} :
    Committed hash text field (events ++ [event]) block ↔ Committed hash text field events block ∨
      ∃ back, event = .publish back block ∧ NoConflict hash (run hash text field events) back
        (publication hash text field (latest ((run hash text field events).drop back)) block) := by
  constructor
  · rintro ⟨earlier, back, later, heq, hok⟩
    rcases eq_nil_or_concat later with rfl | ⟨later, last, rfl⟩
    · obtain ⟨rfl, hl⟩ := append_inj' heq rfl
      exact .inr ⟨back, (cons.inj hl).1, hok⟩
    · rw [concat_eq_append, ← cons_append, ← append_assoc] at heq
      exact .inl ⟨earlier, back, later, (append_inj' heq rfl).1, hok⟩
  · rintro (⟨earlier, back, later, rfl, hok⟩ | ⟨back, rfl, hok⟩)
    · exact ⟨earlier, back, later ++ [event], by rw [append_assoc, cons_append], hok⟩
    · exact ⟨events, back, [], rfl, hok⟩

theorem published_run (dag : IsDag bs) (events : List (Event Cid)) (he : ∀ event ∈ events, event.block ∈ bs)
    (hb : block ∈ bs) :
    (latest (run hash text field events)).Published block ↔ Committed hash text field events block := by
  induction events using reverseRecOn with
  | nil => exact iff_of_false nofun fun ⟨_, _, _, heq, _⟩ => by simp at heq
  | append_singleton events event ih =>
    rw [forall_mem_append] at he
    have hchain : Chain text field bs (run hash text field events) := chain_run dag events he.1
    rw [committed_append, ← ih he.1, run, foldl_append, foldl_cons, foldl_nil, ← run]
    cases event with
    | stored block => exact (or_iff_left nofun).symm
    | publish back other =>
      have ho : other ∈ bs := he.2 _ (mem_singleton_self _)
      rw [step]
      split
      · rename_i hconf
        obtain ⟨version, hv, hconf⟩ := any_eq_true.mp hconf
        obtain ⟨later, hl, hconf⟩ := (Option.any_eq_true ..).mp hconf
        refine (or_iff_left ?_).symm
        rintro ⟨_, heq, hok⟩
        cases heq
        exact hok version hv later hl hconf
      · rename_i hconf
        refine (hchain.published_commit dag ho hb).trans (or_congr_right ⟨?_, ?_⟩)
        · rintro rfl
          exact ⟨back, rfl, fun version hv later hl hconflicts =>
            hconf (any_eq_true.mpr ⟨version, hv, by rw [hl]; exact hconflicts⟩)⟩
        · rintro ⟨_, heq, -⟩
          cases heq
          rfl

theorem run_append (earlier later : List (Event Cid)) :
    ∃ back, (run hash text field (earlier ++ later)).drop back = run hash text field earlier := by
  induction later using reverseRecOn with
  | nil => exact ⟨0, by rw [append_nil, drop_zero]⟩
  | append_singleton later event ih =>
    obtain ⟨back, ih⟩ := ih
    have hs : run hash text field (earlier ++ (later ++ [event])) =
        step hash text field (run hash text field (earlier ++ later)) event := by
      rw [run, ← append_assoc, foldl_append]
      rfl
    rw [hs]
    cases event with
    | stored block => exact ⟨back + 1, ih⟩
    | publish snapshot block =>
      rw [step]
      split
      · exact ⟨back, ih⟩
      · exact ⟨back + 1, ih⟩

/-- After any run of transactions, each with its own snapshot, the live heads are the published blocks that no published
    block has as a parent, the published blocks are those of the transactions that committed, and a parent is never live again
    once a child was published. -/
theorem run_heads (hash : Bytes → UInt64) (text : CidText Cid) (field : Bytes) {bs : List (Block Cid)} (dag : IsDag bs)
    (events : List (Event Cid)) (hevents : ∀ event ∈ events, event.block ∈ bs) :
    (∀ head priority, (head, priority) ∈ (latest (run hash text field events)).set.live ↔
      ∃ block ∈ bs, (latest (run hash text field events)).Published block ∧
        (∀ child ∈ bs, (latest (run hash text field events)).Published child → block.cid ∉ child.parents) ∧
        name text field block.cid = head ∧ block.priority = priority) ∧
    (∀ block ∈ bs, (latest (run hash text field events)).Published block ↔ Committed hash text field events block) ∧
    ∀ earlier later, events = earlier ++ later → ∀ block ∈ bs, ∀ child ∈ bs,
      (latest (run hash text field earlier)).Published child → block.cid ∈ child.parents →
        ∀ priority, (name text field block.cid, priority) ∉ (latest (run hash text field events)).set.live := by
  have hchain : Chain text field bs (run hash text field events) := chain_run dag events hevents
  have hlive := fun head priority => mem_live.trans (@HoldsHeads.live_iff _ _ _ _ _ _ hchain.holds.toHoldsHeads
    (fun _ priority hs => hs priority) head priority)
  refine ⟨hlive, fun _ => published_run dag events hevents, ?_⟩
  rintro earlier later rfl block hblock child hchild hpub hpar priority hmem
  obtain ⟨other, -, -, htip, hn, -⟩ := (hlive _ _).mp hmem
  obtain ⟨back, hback⟩ : ∃ back, (run hash text field (earlier ++ later)).drop back = run hash text field earlier :=
    run_append earlier later
  rw [← hback] at hpub
  rw [name_injective hn] at htip
  exact htip child hchild (hchain.kept back hpub) hpar

/-- A child commits between a parent's snapshot and its commit; the parent is then delivered again. -/
theorem parent_late_heads : ([0x2f, 1], 1) ∉
    (latest (run (fun _ => 0) byteText [] [.publish 0 ⟨2, 2, [1]⟩, .publish 1 ⟨1, 1, []⟩, .publish 0 ⟨1, 1, []⟩])).set.live :=
  (run_heads (fun _ => 0) byteText []
    (show IsDag [⟨1, 1, []⟩, ⟨2, 2, [1]⟩] from ⟨by decide, by simp, Dag.acyclic_of_rank UInt8.toNat (by simp)⟩)
    [.publish 0 ⟨2, 2, [1]⟩, .publish 1 ⟨1, 1, []⟩, .publish 0 ⟨1, 1, []⟩] (by decide)).2.2 [.publish 0 ⟨2, 2, [1]⟩]
    [.publish 1 ⟨1, 1, []⟩, .publish 0 ⟨1, 1, []⟩] rfl ⟨1, 1, []⟩ (by decide) ⟨2, 2, [1]⟩ (by decide) rfl (by decide) 1

end Defra.Heads
