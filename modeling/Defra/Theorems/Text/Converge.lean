import Defra.Theorems.Text.Build
import Defra.Theorems.Text.Topological

/-! Whatever order the blocks of a history are taken in, they leave the same document, so the characters of a replay depend on
    the set of its blocks alone. -/

namespace Defra.Text
open List TreePath Fugue

/-! ### Blocks as a history -/

/-- The blocks as a history, over `n` placeholders. -/
def historyOf (bs : List TextBlock) (n : Nat) : History Bytes Char where
  base := placeholders n
  past b := {a | IsAncestor bs a b}
  edits b := ((bs.find? (·.id == b)).map fun block => block.ops.map TextOp.edit).getD []

section
variable {bs order : List TextBlock}

theorem eq_of_id_eq (hnd : (bs.map (·.id)).Nodup) {a b : TextBlock} (ha : a ∈ bs) (hb : b ∈ bs)
    (he : a.id = b.id) : a = b :=
  inj_on_of_nodup_map hnd ha hb he

theorem isAncestor_iff (hnd : (bs.map (·.id)).Nodup) {block : TextBlock} (hb : block ∈ bs) (a : Bytes) :
    IsAncestor bs a block.id ↔
      ∃ p ∈ block.parents, p ∈ bs.map (·.id) ∧ (a = p ∨ IsAncestor bs a p) := by
  rw [IsAncestor, Dag.IsAncestor, Relation.TransGen.tail'_iff]
  constructor
  · rintro ⟨p, hap, hp, other, ho, hid, hmem⟩
    obtain rfl := eq_of_id_eq hnd ho hb hid
    refine ⟨p, hmem, hp, ?_⟩
    exact (Relation.reflTransGen_iff_eq_or_transGen.mp hap).imp Eq.symm id
  · rintro ⟨p, hmem, hp, hap⟩
    refine ⟨p, Relation.reflTransGen_iff_eq_or_transGen.mpr (hap.imp Eq.symm id), hp, block, hb, rfl, hmem⟩

/-- The history of `bs` fits every set of its blocks that holds their parents. -/
theorem fits_historyOf (hnd : (bs.map (·.id)).Nodup) (n : Nat) (hsub : ∀ block ∈ order, block ∈ bs)
    (hclosed : ∀ block ∈ order, ∀ p ∈ block.parents, p ∈ bs.map (·.id) → p ∈ order.map (·.id)) :
    Fits (historyOf bs n) order where
  edits block hb := by
    have hf : bs.find? (·.id == block.id) = some block := by
      rw [find?_eq_some_iff_append]
      obtain ⟨l, r, rfl⟩ := append_of_mem (hsub block hb)
      refine ⟨by simp, l, r, rfl, fun a ha => ?_⟩
      rw [map_append, nodup_append] at hnd
      have := hnd.2.2 a.id (mem_map_of_mem ha) block.id mem_cons_self
      simpa using this
    simp [historyOf, hf]
  past block hb a := by
    have hmem := isAncestor_iff hnd (hsub block hb) a
    refine hmem.trans ⟨?_, ?_⟩
    · rintro ⟨p, hp, hpo, hap⟩
      exact ⟨p, hp, hclosed block hb p hp hpo, hap⟩
    · rintro ⟨p, hp, hpo, hap⟩
      obtain ⟨other, ho, rfl⟩ := mem_map.mp hpo
      exact ⟨_, hp, mem_map_of_mem (hsub other ho), hap⟩

theorem historyOf_wf (hord : Ordered order) (hperm : order.Perm bs) (n : Nat) :
    WellFounded fun a b => a ∈ (historyOf bs n).past b := by
  have hnd : (bs.map (·.id)).Nodup := (hperm.map _).nodup_iff.mp hord.nodup
  have hfits : Fits (historyOf bs n) order :=
    fits_historyOf hnd n (fun b hb => hperm.mem_iff.mp hb) fun b _ p _ hp => (hperm.map (·.id)).mem_iff.mpr hp
  refine Subrelation.wf (r := fun a b => (order.map (·.id)).idxOf a < (order.map (·.id)).idxOf b) ?_
    (InvImage.wf (order.map (·.id)).idxOf Nat.lt_wfRel.wf)
  intro a b hab
  obtain ⟨p, -, -, block, hblock, rfl, -⟩ := Relation.TransGen.tail'_iff.mp hab
  obtain ⟨l, r, hsp⟩ := append_of_mem (hperm.mem_iff.mpr hblock)
  have hmem := hfits.past_subset hord hsp hab
  have hnot : block.id ∉ l.map (·.id) := by
    have := hord.nodup
    rw [hsp, map_append, nodup_append] at this
    exact fun hm => this.2.2 _ hm _ mem_cons_self rfl
  rw [hsp, map_append, map_cons, idxOf_append_of_mem hmem, idxOf_append_of_notMem hnot]
  exact Nat.lt_of_lt_of_le (idxOf_lt_length_of_mem hmem) (Nat.le_add_right _ _)

/-! ### The characters of a replay -/

def toCharacter (x : Fugue.Item Bytes Char) : Character where
  block := x.block.getD []
  offset := x.offset
  ch := x.ch
  deleted := x.dead

variable {H : History Bytes Char} {path : Nat → Path Bytes} {C : Bytes → Doc Bytes Char} {v : List TextBlock}

theorem Grown.listing_of {t : Tree}
    (h : Grown H order order t path C) (hbase : H.BaseOk) {full : List Nat} (hin : t.InOrder path full)
    (hmem : ∀ i, i ∈ full ↔ t.Held i) {v : Version} {S : Set Bytes}
    (hsees : Tree.Sees (order.map (·.id)) v (order.length - 1) S) :
    Listing (H.doc C (S ∩ {a | a ∈ order.map (·.id)}))
      ((full.filter (t.present v)).flatMap (t.items path v)) := by
  have hb : t.Bound (order.length - 1) := fun i hi =>
    ⟨fun p hp => Nat.le_sub_one_of_lt ((h.bound i hi).1 p hp), fun p hp => Nat.le_sub_one_of_lt ((h.bound i hi).2 p hp)⟩
  have hlist := Tree.ReadAt.listing ⟨h.ids_eq, h.rep, hb, hsees⟩ (hin.filter _) fun i => by rw [mem_filter, hmem]
  rwa [h.doc, h.replays.only hbase] at hlist

/-- The version that holds every block of the tree. -/
def everything (t : Tree) : Version := { ancestry := .prefixTo t.ids.length, block := .root }

theorem Grown.present_everything {t : Tree}
    (h : Grown H order order t path C) {i : Nat} (hi : t.Held i) : t.present (everything t) i = true := by
  rw [Tree.present]
  cases hb : (t.nodeOf i).block with
  | root => exact absurd hb (h.rep.block i hi)
  | base => rfl
  | step p =>
    have := (h.bound i hi).1 p hb
    simpa [everything, Version.has, Ancestry.contains, h.ids_eq] using this

theorem Grown.listing {t : Tree} (h : Grown H order order t path C)
    (hbase : H.BaseOk) {full : List Nat} (hin : t.InOrder path full) (hmem : ∀ i, i ∈ full ↔ t.Held i) :
    Listing (H.doc C {a | a ∈ order.map (·.id)}) (full.flatMap (t.items path (everything t))) := by
  have hsees : Tree.Sees (order.map (·.id)) (everything t) (order.length - 1) {a | a ∈ order.map (·.id)} := by
    intro p hp
    have hh : (everything t).has (.step p) = true ↔ p < order.length := by
      simp [everything, Version.has, Ancestry.contains, h.ids_eq]
    rw [hh]
    cases ho : order with
    | nil => simp
    | cons b rest =>
      rw [ho, length_cons] at hp
      have hlt : p < (b :: rest).length := by rw [length_cons]; omega
      exact ⟨fun _ => idAt_mem hlt, fun _ => hlt⟩
  have hlist := h.listing_of hbase hin hmem hsees
  rwa [Set.inter_self, filter_eq_self.mpr fun i hi => h.present_everything ((hmem i).mp hi)] at hlist

/-- Without placeholders, the characters `build` returns list the document. -/
theorem charactersAlong_spec (hfits : Fits H order) (hord : Ordered order) (hbase : H.base = placeholders 0) :
    ∃ C l, H.Replays {a | a ∈ order.map (·.id)} C ∧ Listing (H.doc C {a | a ∈ order.map (·.id)}) l ∧
      (∀ x ∈ l, ∃ b ∈ order.map (·.id), x.block = some b) ∧ charactersAlong order = .ok (l.map toCharacter) := by
  obtain ⟨t, full, path, C, heq, h, hin, hm⟩ := buildAlong_spec hfits hord none hbase
  have hlist := h.listing (baseOk_placeholders hbase) hin hm
  refine ⟨C, _, h.replays, hlist, ?_, ?_⟩
  · intro x hx
    rcases History.mem_doc_chars.mp ((hlist.mem x).mp hx).1 with hb | ⟨b, hb, hC⟩
    · rw [hbase] at hb
      obtain ⟨j, hj, -⟩ := hb
      exact absurd hj (Nat.not_lt_zero j)
    · exact ⟨b, hb, h.replays.block hb _ hC⟩
  · have hblock : ∀ i, t.Held i → ∃ p, (t.nodeOf i).block = .step p := by
      intro i hi
      cases hb : (t.nodeOf i).block with
      | root => exact absurd hb (h.rep.block i hi)
      | step p => exact ⟨p, rfl⟩
      | base =>
        -- A placeholder would be a character no block inserted.
        have ha : t.charOf path i 0 ∈ (H.doc C {a | a ∈ order.map (·.id)}).chars := by
          rw [← h.doc]
          exact ⟨i, 0, hi, h.rep.len_pos hi, rfl⟩
        have hn : (t.charOf path i 0).block = none := by simp [Tree.charOf, hb, Tree.blockId]
        rcases History.mem_doc_chars.mp ha with hb | ⟨b, hb, hC⟩
        · rw [hbase] at hb
          obtain ⟨j, hj, -⟩ := hb
          exact absurd hj (Nat.not_lt_zero j)
        · rw [h.replays.block hb _ hC] at hn
          cases hn
    simp only [charactersAlong, heq, bind, Except.bind, pure, Except.pure, charactersOf, map_flatMap]
    congr 1
    rw [map_eq_flatMap]
    refine flatMap_congr fun i hi => ?_
    obtain ⟨p, hp⟩ := hblock i ((hm i).mp hi)
    have hl : (t.nodeOf i).len = 1 := by
      rcases h.rep.len i ((hm i).mp hi) with h1 | ⟨-, h1⟩
      · exact h1
      · rw [hp] at h1
        cases h1
    simp [Tree.items, hl, toCharacter, Tree.charOf, hp, Tree.blockId, Tree.id, everything]

/-! ### Versions -/

theorem LinearExtension.ordered (hnd : (bs.map (·.id)).Nodup) (h : LinearExtension bs order) : Ordered order where
  nodup := (h.perm.map _).nodup_iff.mpr hnd
  follows l block r hsp p hp _ := h.follows l block r hsp p hp

theorem IsParent.mono (hsub : v ⊆ bs) {a b : Bytes} (h : IsParent v a b) : IsParent bs a b := by
  obtain ⟨ha, block, hb, hid, hp⟩ := h
  exact ⟨map_subset _ hsub ha, block, hsub hb, hid, hp⟩

section
variable (h : IsVersion bs v)
include h

theorem IsVersion.valid (hb : Valid bs) : Valid v where
  nodup := Nodup.map_on (fun _ ha _ hb' he => eq_of_id_eq hb.nodup (h.subset ha) (h.subset hb') he) h.nodup
  parents := h.closed
  acyclic a ha := hb.acyclic a (Relation.TransGen.mono (fun _ _ => IsParent.mono h.subset) a a ha)

omit h in
theorem Valid.isVersion (h : Valid bs) : IsVersion bs bs :=
  ⟨Nodup.of_map _ h.nodup, Subset.refl _, h.parents⟩

omit h in
theorem Valid.exists_order (h : Valid bs) :
    ∃ order, LinearExtension bs order ∧ characters bs = charactersAlong order := by
  obtain ⟨order, heq, hperm, hord⟩ := topological_spec h.nodup false (Or.inr h.parents) h.acyclic
  refine ⟨order.filterMap (bs[·]?), ⟨hperm, fun l block r hsp p hp => ?_⟩, ?_⟩
  · have hb : block ∈ bs := hperm.mem_iff.mp (by rw [hsp]; simp)
    exact hord.follows l block r hsp p hp ((hperm.map _).mem_iff.mpr (h.parents block hb p hp))
  · simp [characters, charactersAlong, build, heq, bind, Except.bind]

theorem IsVersion.past_subset (hb : Valid bs) (n : Nat) :
    ∀ b ∈ {a | a ∈ v.map (·.id)}, (historyOf bs n).past b ⊆ {a | a ∈ v.map (·.id)} := by
  intro b hbv a hab
  have hab' : IsAncestor bs a b := hab
  induction hab' using Relation.TransGen.head_induction_on with
  | single hp =>
    obtain ⟨-, block, hblock, rfl, hmem⟩ := hp
    obtain ⟨other, ho, hid⟩ := mem_map.mp hbv
    obtain rfl := eq_of_id_eq hb.nodup (h.subset ho) hblock hid
    exact h.closed _ ho _ hmem
  | head hp hrest ih =>
    obtain ⟨-, block, hblock, rfl, hmem⟩ := hp
    obtain ⟨other, ho, hid⟩ := mem_map.mp (ih hrest)
    obtain rfl := eq_of_id_eq hb.nodup (h.subset ho) hblock hid
    exact h.closed _ ho _ hmem

/-- The characters of a version list its document. -/
theorem IsVersion.characters (hb : Valid bs) : ∃ C l, (historyOf bs 0).Replays {a | a ∈ v.map (·.id)} C ∧
      Listing ((historyOf bs 0).doc C {a | a ∈ v.map (·.id)}) l ∧
      (∀ x ∈ l, ∃ b ∈ v.map (·.id), x.block = some b) ∧ Text.characters v = .ok (l.map toCharacter) ∧
      ∀ order, LinearExtension v order → charactersAlong order = .ok (l.map toCharacter) := by
  have hv := h.valid hb
  -- Any two orders leave the same document, so the same listing.
  have hspec : ∀ order, LinearExtension v order → ∃ C l,
      (historyOf bs 0).Replays {a | a ∈ v.map (·.id)} C ∧
      Listing ((historyOf bs 0).doc C {a | a ∈ v.map (·.id)}) l ∧
      (∀ x ∈ l, ∃ b ∈ v.map (·.id), x.block = some b) ∧ charactersAlong order = .ok (l.map toCharacter) := by
    intro order ho
    have hfits : Fits (historyOf bs 0) order :=
      fits_historyOf hb.nodup 0 (fun b hbo => h.subset (ho.perm.mem_iff.mp hbo)) fun b hbo p hp _ =>
        (ho.perm.map (·.id)).mem_iff.mpr (h.closed b (ho.perm.mem_iff.mp hbo) p hp)
    obtain ⟨C, l, h1, h2, h3, h4⟩ := charactersAlong_spec hfits (ho.ordered hv.nodup) rfl
    have hset : {a | a ∈ order.map (·.id)} = {a | a ∈ v.map (·.id)} :=
      Set.ext fun a => (ho.perm.map (·.id)).mem_iff
    rw [hset] at h1 h2
    exact ⟨C, l, h1, h2, fun x hx => (h3 x hx).imp fun b hbx => ⟨(ho.perm.map (·.id)).mem_iff.mp hbx.1, hbx.2⟩, h4⟩
  obtain ⟨order₀, hle₀, heq₀⟩ := hv.exists_order
  obtain ⟨C, l, h1, h2, h3, h4⟩ := hspec order₀ hle₀
  refine ⟨C, l, h1, h2, h3, heq₀.trans h4, fun order ho => ?_⟩
  obtain ⟨C', l', h1', h2', -, h4'⟩ := hspec order ho
  obtain ⟨order₁, hle₁, -⟩ := hb.exists_order
  have hd := History.doc_unique (historyOf_wf (hle₁.ordered hb.nodup) hle₁.perm 0) (h.past_subset hb 0) h1' h1
  rw [hd] at h2'
  rw [h4', h2'.unique h2]

theorem IsVersion.listing (hb : Valid bs) (hC : (historyOf bs 0).Replays {a | a ∈ bs.map (·.id)} C) :
    ∃ l, Listing ((historyOf bs 0).doc C {a | a ∈ v.map (·.id)}) l ∧
      Text.characters v = .ok (l.map toCharacter) := by
  obtain ⟨C', l, h1, h2, -, h4, -⟩ := h.characters hb
  obtain ⟨order, hle, -⟩ := hb.exists_order
  have hsame : ∀ b ∈ {a | a ∈ v.map (·.id)}, C b = C' b := fun b hbv =>
    History.contribution_unique (historyOf_wf (hle.ordered hb.nodup) hle.perm 0) (hb.isVersion.past_subset hb 0)
      (h.past_subset hb 0) hC h1 b (map_subset _ h.subset hbv) hbv
  exact ⟨l, History.doc_congr hsame ▸ h2, h4⟩

theorem IsVersion.filter_characters (hb : Valid bs) :
    ∃ all cs, Text.characters bs = .ok all ∧ Text.characters v = .ok cs ∧
      (all.filter fun c => c.block ∈ v.map (·.id)).map (fun c => (c.block, c.offset, c.ch)) =
        cs.map fun c => (c.block, c.offset, c.ch) := by
  obtain ⟨C, l, h1, h2, h3, h4, -⟩ := hb.isVersion.characters hb
  obtain ⟨l', h2', h4'⟩ := h.listing hb h1
  refine ⟨_, _, h4, h4', ?_⟩
  have hsub : {a | a ∈ v.map (·.id)} ⊆ {a | a ∈ bs.map (·.id)} := fun a ha => map_subset _ h.subset ha
  have hf := h1.listing_filter hsub (baseOk_placeholders rfl).block h2 h2'
    (p := fun x => x.block.elim true fun b => decide (b ∈ v.map (·.id))) fun x => by
      cases x.block <;> simp
  have hview : ∀ k : List (Fugue.Item Bytes Char), (k.map toCharacter).map (fun c => (c.block, c.offset, c.ch)) =
      (k.map (·.toAtom)).map fun a => (a.block.getD [], a.offset, a.ch) := fun k => by
    rw [map_map, map_map]
    rfl
  rw [hview, ← hf, ← hview, filter_map]
  congr 2
  refine filter_congr fun x hx => ?_
  obtain ⟨b, -, hxb⟩ := h3 x hx
  simp [toCharacter, hxb]

end

/-- Any order of the blocks that follows their parents builds the same characters, and a version's characters stand in every
    later version in the order they stood. -/
theorem characters_order_stable (hist : List TextBlock) (h : Valid hist) :
    (∃ cs, characters hist = .ok cs ∧ ∀ order, LinearExtension hist order → charactersAlong order = .ok cs) ∧
    (∀ bs, bs.Perm hist → ∃ text, replay hist = .ok text ∧ replay bs = .ok text) ∧
    ∀ v, IsVersion hist v → ∃ all cs, characters hist = .ok all ∧ characters v = .ok cs ∧
      (all.filter fun c => c.block ∈ v.map (·.id)).map (fun c => (c.block, c.offset, c.ch)) =
        cs.map fun c => (c.block, c.offset, c.ch) := by
  obtain ⟨C, l, -, -, -, heq, ha⟩ := h.isVersion.characters h
  refine ⟨⟨_, heq, ha⟩, fun bs hperm => ?_, fun v hv => hv.filter_characters h⟩
  have hblocks : IsVersion hist bs :=
    ⟨hperm.nodup_iff.mpr h.isVersion.nodup, hperm.subset, fun b hb p hp =>
      (hperm.map _).mem_iff.mpr (h.parents b (hperm.mem_iff.mp hb) p hp)⟩
  obtain ⟨order, hle, heq'⟩ := (hblocks.valid h).exists_order
  rw [ha order ⟨hle.perm.trans hperm, hle.follows⟩] at heq'
  exact ⟨visibleText (l.map toCharacter), by rw [replay, heq]; rfl, by rw [replay, heq']; rfl⟩

theorem ordered_of_pairwise (hnd : (bs.map (·.id)).Nodup) (hself : ∀ b ∈ bs, b.id ∉ b.parents)
    (hlater : bs.Pairwise fun a b => b.id ∉ a.parents) : Ordered bs where
  nodup := hnd
  follows l block r hsp p hp hpo := by
    obtain ⟨other, ho, rfl⟩ := mem_map.mp hpo
    rw [hsp, pairwise_append, pairwise_cons] at hlater
    rw [hsp, mem_append, mem_cons] at ho
    rcases ho with ho | rfl | ho
    · exact mem_map_of_mem ho
    · exact absurd hp (hself _ (by simp [hsp]))
    · exact absurd hp (hlater.2.1.1 other ho)

theorem valid_of_ordered (hord : Ordered bs) (hp : ∀ b ∈ bs, ∀ p ∈ b.parents, p ∈ bs.map (·.id)) : Valid bs where
  nodup := hord.nodup
  parents := hp
  acyclic a ha := (historyOf_wf hord (Perm.refl _) 0).irrefl.irrefl a ha

/-! ### Two branches -/

def branches : List TextBlock :=
  [⟨[0], [], [.insert 0 ['a', 'b']]⟩, ⟨[1], [[0]], [.insert 1 ['x'], .delete 0 1]⟩, ⟨[2], [[0]], [.insert 1 ['y']]⟩]

theorem branches_valid : Valid branches :=
  valid_of_ordered (ordered_of_pairwise (by decide) (by decide) (by decide)) (by decide)

theorem branches_order_stable : Valid branches ∧
    ∃ cs, characters branches = .ok cs ∧ ∀ order, LinearExtension branches order → charactersAlong order = .ok cs :=
  ⟨branches_valid, (characters_order_stable branches branches_valid).1⟩

end
end Defra.Text
