import Defra.Lib.Dag
import Defra.Theorems.Heads.Write

/-! A collection's head set does not depend on the order its blocks are published in. -/

namespace Defra.Heads
open List Merge.HeadSet

variable {Cid : Type} {block : Block Cid}

structure IsDag (bs : List (Block Cid)) : Prop where
  distinct : (bs.map Block.cid).Nodup
  closed : ∀ block ∈ bs, ∀ parent ∈ block.parents, parent ∈ bs.map Block.cid
  acyclic : ∀ c, ¬Dag.IsAncestor Block.cid Block.parents bs c c

def Superseded (bs : List (Block Cid)) (pub : Block Cid → Prop) (c : Cid) : Prop :=
  ∃ block ∈ bs, pub block ∧ c ∈ block.parents

theorem Superseded.mono {bs : List (Block Cid)} {before after : Block Cid → Prop} {c : Cid}
    (h : Superseded bs before c) (hm : ∀ block, before block → after block) : Superseded bs after c := by
  obtain ⟨block, hb, hpub, hc⟩ := h
  exact ⟨block, hb, hm block hpub, hc⟩

namespace IsDag
variable {bs : List (Block Cid)} (dag : IsDag bs)
include dag

theorem cid_not_mem_parents (hb : block ∈ bs) : block.cid ∉ block.parents := fun h =>
  dag.acyclic block.cid (.single ⟨mem_map_of_mem hb, block, hb, rfl, h⟩)

theorem eq_of_cid {a b : Block Cid} (ha : a ∈ bs) (hb : b ∈ bs) (h : a.cid = b.cid) : a = b :=
  inj_on_of_nodup_map dag.distinct ha hb h

end IsDag

theorem superseded_or {bs : List (Block Cid)} {before after : Block Cid → Prop} (hblock : block ∈ bs)
    (ha : ∀ b ∈ bs, after b ↔ before b ∨ b = block) {c : Cid} :
    Superseded bs after c ↔ Superseded bs before c ∨ c ∈ block.parents := by
  constructor
  · rintro ⟨b, hb, hpub, hc⟩
    rcases (ha b hb).mp hpub with hbef | rfl
    · exact .inl ⟨b, hb, hbef, hc⟩
    · exact .inr hc
  · rintro (⟨b, hb, hbef, hc⟩ | hc)
    · exact ⟨b, hb, (ha b hb).mpr (.inl hbef), hc⟩
    · exact ⟨block, hblock, (ha block hblock).mpr (.inr rfl), hc⟩

variable {bs : List (Block Cid)}

/-! ### The heads of the published blocks -/

/-- A published block's name is live, or `Gone` once a child is published. A name is held ahead as long as a child was published
    and the block was not. -/
structure HoldsHeads (Gone : State → Prop) (nameOf : Cid → Bytes) (bs : List (Block Cid)) (pub : Block Cid → Prop)
    (state : Bytes → State) : Prop where
  live : ∀ block ∈ bs, pub block → ¬Superseded bs pub block.cid →
    state (nameOf block.cid) = .live block.priority
  gone : ∀ block ∈ bs, pub block → Superseded bs pub block.cid → Gone (state (nameOf block.cid))
  ahead : ∀ block ∈ bs, ¬pub block → Superseded bs pub block.cid → state (nameOf block.cid) = .ahead
  absent : ∀ block ∈ bs, ¬pub block → ¬Superseded bs pub block.cid → state (nameOf block.cid) = .absent
  other : ∀ name, (∀ block ∈ bs, nameOf block.cid ≠ name) → state name = .absent

/-- What a publication does to the name of a parent, which was published or not. -/
structure Settles (Gone : State → Prop) (pub : Prop) (func : Func) (held : State) : Prop where
  again : func.apply (func.apply held) = func.apply held
  gone : pub → Gone (func.apply held)
  ahead : ¬pub → func.apply held = .ahead

namespace HoldsHeads
variable {Gone : State → Prop} {nameOf : Cid → Bytes} {pub after : Block Cid → Prop} {state state' : Bytes → State}

theorem empty (hnone : ∀ block, ¬pub block) (hstate : ∀ name, state name = .absent) :
    HoldsHeads Gone nameOf bs pub state where
  live block _ h := absurd h (hnone block)
  gone block _ h := absurd h (hnone block)
  ahead _ _ _ := fun ⟨child, _, h, _⟩ => absurd h (hnone child)
  absent _ _ _ _ := hstate _
  other _ _ := hstate _

/-- A publication keeps the invariant: it adds the block's name, and settles those of its parents. -/
theorem publish [DecidableEq Cid] (h : HoldsHeads Gone nameOf bs pub state) (dag : IsDag bs)
    (hname : Function.Injective nameOf) (hblock : block ∈ bs) (hnew : ¬pub block)
    (hafter : ∀ b ∈ bs, after b ↔ pub b ∨ b = block) {pick : Cid → Func}
    (hpick : ∀ b ∈ bs, b.cid ∈ block.parents → Settles Gone (pub b) (pick b.cid) (state (nameOf b.cid)))
    (hadd : Gone ((Func.add block.priority).apply .ahead))
    (hwrite : ∀ name, state' name =
      (((pickAll nameOf pick {} block.parents).add (nameOf block.cid) block.priority).func name).apply (state name)) :
    HoldsHeads Gone nameOf bs after state' := by
  have hself := dag.cid_not_mem_parents hblock
  have hsup : ∀ {c}, Superseded bs after c ↔ Superseded bs pub c ∨ c ∈ block.parents :=
    superseded_or hblock hafter
  -- What the write does to a block's name.
  have hstate : ∀ b ∈ bs, state' (nameOf b.cid) =
      if b = block then (Func.add block.priority).apply (state (nameOf b.cid))
      else if b.cid ∈ block.parents then (pick b.cid).apply (state (nameOf b.cid)) else state (nameOf b.cid) := by
    intro b hb
    rw [hwrite, func_add_pickAll hname hself _ fun hmem => (hpick b hb hmem).again]
    exact if_congr ⟨dag.eq_of_cid hb hblock, congrArg Block.cid⟩ rfl rfl
  have hne : ∀ b, pub b → b ≠ block := fun b hb heq => hnew (heq ▸ hb)
  refine ⟨fun b hb hpub hnot => ?_, fun b hb hpub hs => ?_, fun b hb hpub hs => ?_, fun b hb hpub hnot => ?_,
    fun name hn => ?_⟩
  · rw [hsup, not_or] at hnot
    rw [hstate b hb]
    rcases (hafter b hb).mp hpub with hbef | rfl
    · rw [if_neg (hne b hbef), if_neg hnot.2]
      exact h.live b hb hbef hnot.1
    · rw [if_pos rfl, h.absent b hb hnew hnot.1]
      rfl
  · rw [hstate b hb]
    rcases (hafter b hb).mp hpub with hbef | rfl
    · rw [if_neg (hne b hbef)]
      split
      · exact (hpick b hb ‹_›).gone hbef
      · exact h.gone b hb hbef ((hsup.mp hs).resolve_right ‹_›)
    · rw [if_pos rfl, h.ahead b hb hnew ((hsup.mp hs).resolve_right hself)]
      exact hadd
  · rw [hafter b hb, not_or] at hpub
    rw [hstate b hb, if_neg hpub.2]
    split
    · exact (hpick b hb ‹_›).ahead hpub.1
    · exact h.ahead b hb hpub.1 ((hsup.mp hs).resolve_right ‹_›)
  · rw [hafter b hb, not_or] at hpub
    rw [hsup, not_or] at hnot
    rw [hstate b hb, if_neg hpub.2, if_neg hnot.2]
    exact h.absent b hb hpub.1 hnot.1
  · rw [hwrite]
    by_cases hcid : ∃ c, nameOf c = name
    · obtain ⟨c, rfl⟩ := hcid
      have hc : c ∉ bs.map Block.cid := fun hc => by
        obtain ⟨b, hb, rfl⟩ := mem_map.mp hc
        exact hn b hb rfl
      have hps : c ∉ block.parents := fun hp => hc (dag.closed block hblock c hp)
      have hne : c ≠ block.cid := fun heq => hc (heq ▸ mem_map_of_mem hblock)
      rw [func_add_pickAll hname hself _ fun hp => absurd hp hps, if_neg hne, if_neg hps]
      exact h.other _ hn
    · rw [func_add_pickAll_other (not_exists.mp hcid), Func.identity_apply]
      exact h.other _ hn

/-- The live names are those of the published blocks without a published child. -/
theorem live_iff (h : HoldsHeads Gone nameOf bs pub state) (hgone : ∀ s priority, Gone s → s ≠ .live priority)
    {name : Bytes} {priority : UInt64} : state name = .live priority ↔ ∃ block ∈ bs, pub block ∧
      (∀ child ∈ bs, pub child → block.cid ∉ child.parents) ∧ nameOf block.cid = name ∧ block.priority = priority := by
  constructor
  · intro hl
    by_cases hn : ∀ block ∈ bs, nameOf block.cid ≠ name
    · rw [h.other name hn] at hl
      cases hl
    push Not at hn
    obtain ⟨block, hblock, rfl⟩ := hn
    by_cases hpub : pub block <;> by_cases hsup : Superseded bs pub block.cid
    · exact absurd hl (hgone _ _ (h.gone block hblock hpub hsup))
    · rw [h.live block hblock hpub hsup] at hl
      cases hl
      exact ⟨block, hblock, hpub, fun child hc hp hmem => hsup ⟨child, hc, hp, hmem⟩, rfl, rfl⟩
    · rw [h.ahead block hblock hpub hsup] at hl
      cases hl
    · rw [h.absent block hblock hpub hsup] at hl
      cases hl
  · rintro ⟨block, hblock, hpub, htip, rfl, rfl⟩
    exact h.live block hblock hpub fun ⟨child, hc, hp, hmem⟩ => htip child hc hp hmem

end HoldsHeads

/-! ### A collection -/

variable {text : CidText Cid} {store : CollectionStore Cid}

/-- A superseded head of a collection is forgotten. -/
def HoldsCollection (text : CidText Cid) (bs : List (Block Cid)) (store : CollectionStore Cid) : Prop :=
  HoldsHeads (· = .absent) text.bytes bs (·.cid ∈ store.published) (stateAt store.set.names)

namespace HoldsCollection
variable [DecidableEq Cid]

def pick (text : CidText Cid) (store : CollectionStore Cid) (parent : Cid) : Func :=
  if store.set.isLive (text.bytes parent) || parent ∈ store.published then .supersede else .supersedeAhead

theorem publish_eq (block : Block Cid) (hnew : block.cid ∉ store.published) :
    publishCollectionBlock text store store.set block =
      { published := insert block.cid store.published
        set := mergeSet store.set
          ((pickAll text.bytes (pick text store) {} block.parents).add (text.bytes block.cid) block.priority) } := by
  rw [publishCollectionBlock, if_neg hnew]
  have hp : (fun (write : Write) parent =>
      if store.set.isLive (text.bytes parent) || decide (parent ∈ store.published) then write.supersede (text.bytes parent)
      else write.supersedeAhead (text.bytes parent)) =
      fun write parent => write.andThen (text.bytes parent) (pick text store parent) := by
    funext write parent
    unfold pick
    split <;> rfl
  simp only [hp]
  rfl

theorem settles (h : HoldsCollection text bs store) {parent : Block Cid} (hpar : parent ∈ bs) :
    Settles (· = .absent) (parent.cid ∈ store.published) (pick text store parent.cid)
      (stateAt store.set.names (text.bytes parent.cid)) := by
  by_cases hp : parent.cid ∈ store.published
  · have hpick : pick text store parent.cid = .supersede := if_pos (by simp [hp])
    rw [hpick]
    by_cases hsup : Superseded bs (·.cid ∈ store.published) parent.cid
    · rw [h.gone parent hpar hp hsup]
      exact ⟨rfl, fun _ => rfl, absurd hp⟩
    · rw [h.live parent hpar hp hsup]
      exact ⟨rfl, fun _ => rfl, absurd hp⟩
  · have hstate : stateAt store.set.names (text.bytes parent.cid) = .absent ∨
        stateAt store.set.names (text.bytes parent.cid) = .ahead := by
      by_cases hsup : Superseded bs (·.cid ∈ store.published) parent.cid
      · exact .inr (h.ahead parent hpar hp hsup)
      · exact .inl (h.absent parent hpar hp hsup)
    have hnot : ¬(store.set.isLive (text.bytes parent.cid) || decide (parent.cid ∈ store.published)) = true := by
      simp only [hp, decide_false, Bool.or_false, isLive_iff, not_exists]
      rcases hstate with hstate | hstate <;> simp [hstate]
    have hpick : pick text store parent.cid = .supersedeAhead := if_neg hnot
    rw [hpick]
    rcases hstate with hstate | hstate <;> rw [hstate] <;> exact ⟨rfl, fun h => absurd h hp, fun _ => rfl⟩

theorem publish (dag : IsDag bs) (h : HoldsCollection text bs store) (hblock : block ∈ bs) :
    HoldsCollection text bs (publishCollectionBlock text store store.set block) := by
  by_cases hnew : block.cid ∈ store.published
  · rwa [publishCollectionBlock, if_pos hnew]
  rw [publish_eq block hnew]
  refine HoldsHeads.publish h dag text.injective hblock hnew (fun b hb => ?_) (fun b hb _ => h.settles hb) rfl
    fun name => stateAt_mergeSet ..
  rw [Finset.mem_insert, or_comm]
  exact or_congr_right ⟨dag.eq_of_cid hb hblock, congrArg Block.cid⟩

end HoldsCollection

variable [DecidableEq Cid]

theorem holds_publishAll (dag : IsDag bs) (calls : List (Block Cid)) (hc : ∀ call ∈ calls, call ∈ bs) :
    HoldsCollection text bs (publishAll text calls) ∧ ∀ call ∈ calls, call.cid ∈ (publishAll text calls).published := by
  induction calls using reverseRecOn with
  | nil => exact ⟨.empty (fun _ => Finset.notMem_empty _) fun _ => rfl, fun call hcall => absurd hcall not_mem_nil⟩
  | append_singleton calls call ih =>
    rw [forall_mem_append] at hc
    obtain ⟨hh, hp⟩ := ih hc.1
    have hcall : call ∈ bs := hc.2 call (mem_singleton_self call)
    rw [publishAll, foldl_append, foldl_cons, ← publishAll]
    refine ⟨hh.publish dag hcall, fun other ho => ?_⟩
    by_cases hnew : call.cid ∈ (publishAll text calls).published
    · rw [publishCollectionBlock, if_pos hnew]
      rcases mem_append.mp ho with ho | ho
      · exact hp other ho
      · rwa [mem_singleton.mp ho]
    · rw [HoldsCollection.publish_eq call hnew]
      rcases mem_append.mp ho with ho | ho
      · exact Finset.mem_insert_of_mem (hp other ho)
      · rw [mem_singleton.mp ho]
        exact Finset.mem_insert_self _ _

/-- In any order and however repeated, the calls leave live the blocks that are no block's parent, each at its own priority,
    and none held ahead. -/
theorem publishAll_heads (text : CidText Cid) {bs : List (Block Cid)} (dag : IsDag bs) (calls : List (Block Cid))
    (hcalls : ∀ call ∈ calls, call ∈ bs) (hall : ∀ block ∈ bs, block ∈ calls) :
    (∀ name priority, (name, priority) ∈ (publishAll text calls).set.live ↔
      ∃ block ∈ bs, (∀ child ∈ bs, block.cid ∉ child.parents) ∧ text.bytes block.cid = name ∧
        block.priority = priority) ∧
    (publishAll text calls).set.ahead = [] := by
  obtain ⟨hh, hp⟩ := holds_publishAll dag calls hcalls
  have hpub : ∀ block ∈ bs, block.cid ∈ (publishAll text calls).published := fun b hb => hp b (hall b hb)
  constructor
  · intro name priority
    rw [mem_live, HoldsHeads.live_iff hh fun s priority hs => by rw [hs]; nofun]
    refine exists_congr fun block => and_congr_right fun hblock => ?_
    rw [and_iff_right (hpub block hblock)]
    exact and_congr_left' (forall₂_congr fun child hchild => imp_iff_right (hpub child hchild))
  · refine eq_nil_iff_forall_not_mem.mpr fun name ha => ?_
    rw [mem_ahead] at ha
    by_cases hn : ∀ block ∈ bs, text.bytes block.cid ≠ name
    · rw [hh.other name hn] at ha
      cases ha
    · push Not at hn
      obtain ⟨block, hblock, rfl⟩ := hn
      by_cases hsup : Superseded bs (·.cid ∈ (publishAll text calls).published) block.cid
      · rw [hh.gone block hblock (hpub block hblock) hsup] at ha
        cases ha
      · rw [hh.live block hblock (hpub block hblock) hsup] at ha
        cases ha

def byteText : CidText UInt8 := ⟨fun c => [c], fun _ _ h => singleton_inj.mp h⟩

/-- Two children arrive before their parent, and one of them again after it. -/
theorem children_first_heads : (publishAll byteText [⟨2, 2, [1]⟩, ⟨3, 2, [1]⟩, ⟨1, 1, []⟩, ⟨2, 2, [1]⟩]).set.ahead = [] :=
  (publishAll_heads byteText
    (show IsDag [⟨1, 1, []⟩, ⟨2, 2, [1]⟩, ⟨3, 2, [1]⟩] from
      ⟨by decide, by simp, Dag.acyclic_of_rank UInt8.toNat (by simp)⟩)
    [⟨2, 2, [1]⟩, ⟨3, 2, [1]⟩, ⟨1, 1, []⟩, ⟨2, 2, [1]⟩] (by decide) (by decide)).2

end Defra.Heads
