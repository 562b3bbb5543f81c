import Defra.Theorems.Text.Converge
import Defra.Theorems.Text.Diff

/-! A block lands where its author put it: its ops, applied as plain edits to the text of its parent version, give
    the replay of that version with the block. So a replica may skip the replay when a block's parents are its
    heads. -/

namespace Defra.Text
open List TreePath Fugue Replica

theorem visibleText_toCharacter (l : List (Fugue.Item Bytes Char)) : visibleText (l.map toCharacter) = text l := by
  rw [visibleText, filter_map, map_map]
  rfl

theorem applyAll_eq_onText (ops : List TextOp) (text : List Char) :
    TextOp.applyAll text ops = (ops.map TextOp.edit).foldl Edit.onText text := by
  rw [TextOp.applyAll, foldl_map]
  congr 1
  funext text op
  exact TextOp.apply_eq_onText text op

section
variable {hist past joined : List TextBlock} {block : TextBlock}

section
variable (h : Valid hist)
include h

theorem isVersion_past (hnd : past.Nodup)
    (hpast : ∀ a, a ∈ past ↔ a ∈ hist ∧ IsAncestor hist a.id block.id) : IsVersion hist past := by
  refine ⟨hnd, fun a ha => ((hpast a).mp ha).1, fun a ha p hp => ?_⟩
  obtain ⟨hah, hab⟩ := (hpast a).mp ha
  obtain ⟨parent, hpar, rfl⟩ := mem_map.mp (h.parents a hah p hp)
  have hedge : IsParent hist parent.id a.id := ⟨mem_map_of_mem hpar, a, hah, rfl, hp⟩
  exact mem_map_of_mem ((hpast parent).mpr ⟨hpar, Relation.TransGen.head hedge hab⟩)

theorem isVersion_joined (hb : block ∈ hist) (hnd : past.Nodup)
    (hpast : ∀ a, a ∈ past ↔ a ∈ hist ∧ IsAncestor hist a.id block.id) (hperm : joined.Perm (block :: past)) :
    IsVersion hist joined := by
  have hv := isVersion_past h hnd hpast
  have hnot : block ∉ past := fun hm => h.acyclic _ ((hpast block).mp hm).2
  refine ⟨hperm.nodup_iff.mpr (nodup_cons.mpr ⟨hnot, hnd⟩), fun a ha => ?_, fun a ha p hp => ?_⟩
  · rcases mem_cons.mp (hperm.mem_iff.mp ha) with rfl | ha
    · exact hb
    · exact hv.subset ha
  · rw [(hperm.map _).mem_iff, map_cons, mem_cons]
    rcases mem_cons.mp (hperm.mem_iff.mp ha) with rfl | ha
    · obtain ⟨parent, hpar, rfl⟩ := mem_map.mp (h.parents a hb p hp)
      have hedge : IsParent hist parent.id a.id := ⟨mem_map_of_mem hpar, a, hb, rfl, hp⟩
      exact Or.inr (mem_map_of_mem ((hpast parent).mpr ⟨hpar, Relation.TransGen.single hedge⟩))
    · exact Or.inr (hv.closed a ha p hp)

theorem replay_joined (hb : block ∈ hist) (hnd : past.Nodup)
    (hpast : ∀ a, a ∈ past ↔ a ∈ hist ∧ IsAncestor hist a.id block.id) (hperm : joined.Perm (block :: past)) :
    ∃ text, replay past = .ok text ∧ replay joined = .ok (TextOp.applyAll text block.ops) := by
  have hv := isVersion_past h hnd hpast
  have hv' := isVersion_joined h hb hnd hpast hperm
  obtain ⟨C, -, hC, -⟩ := h.isVersion.characters h
  obtain ⟨l, h2, heq⟩ := hv.listing h hC
  obtain ⟨l', h2', heq'⟩ := hv'.listing h hC
  have hids : {a | a ∈ past.map (·.id)} = (historyOf hist 0).past block.id := by
    ext a
    constructor
    · intro ha
      obtain ⟨x, hx, rfl⟩ := mem_map.mp ha
      exact ((hpast x).mp hx).2
    · intro ha
      have hanc : IsAncestor hist a block.id := ha
      obtain ⟨c, ⟨hmem, -⟩, -⟩ := Relation.TransGen.head'_iff.mp hanc
      obtain ⟨x, hx, rfl⟩ := mem_map.mp hmem
      exact mem_map_of_mem ((hpast x).mpr ⟨hx, hanc⟩)
  have hids' : {a | a ∈ joined.map (·.id)} = insert block.id ((historyOf hist 0).past block.id) := by
    rw [← hids]
    ext a
    rw [Set.mem_ofPred_eq, (hperm.map _).mem_iff, map_cons, mem_cons]
    rfl
  rw [hids] at h2
  rw [hids'] at h2'
  have hfits := fits_historyOf h.nodup 0 (fun b hb => hb) fun b _ p _ hp => hp
  have he := hfits.edits block hb
  have hblock : block.id ∈ {a | a ∈ hist.map (·.id)} := mem_map_of_mem hb
  have ht := hC.text_insert hblock h2 h2' fun start stop hmem => by
    rw [he] at hmem
    obtain ⟨op, -, hop⟩ := mem_map.mp hmem
    exact op.edit_le hop
  refine ⟨text l, ?_, ?_⟩
  · rw [replay, heq, ← visibleText_toCharacter]
    rfl
  · rw [replay, heq', applyAll_eq_onText, ← he, ← ht, ← visibleText_toCharacter]
    rfl

/-- When a block's parents are the heads of a version, everything in the version is before it. -/
theorem isAncestor_of_heads {order l r : List TextBlock} (hle : LinearExtension hist order)
    (hsp : order = l ++ block :: r) (hheads : block.parents.Perm (headsOf l)) :
    ∀ (n : Nat) (l₁ l₂ : List TextBlock) (a : TextBlock), l₂.length = n → l = l₁ ++ a :: l₂ →
      IsAncestor hist a.id block.id := by
  have hmem : ∀ x ∈ order, x ∈ hist := fun x hx => hle.perm.mem_iff.mp hx
  intro n
  induction n using Nat.strong_induction_on with
  | _ n ih =>
    rintro l₁ l₂ a rfl hl
    have ha : a ∈ hist := hmem a (by simp [hsp, hl])
    by_cases hh : a.id ∈ headsOf l
    · refine Relation.TransGen.single ⟨mem_map_of_mem ha, block, hmem _ (by simp [hsp]), rfl, ?_⟩
      exact hheads.mem_iff.mpr hh
    · -- A block that is no head is a later block's parent.
      have hal : a.id ∈ l.map (·.id) := by simp [hl]
      obtain ⟨c, hc, hac⟩ : ∃ c ∈ l, a.id ∈ c.parents := by
        rw [headsOf, mem_filter, not_and] at hh
        simpa using hh hal
      obtain ⟨m₁, m₂, hm⟩ := append_of_mem hc
      have hbef := hle.follows m₁ c (m₂ ++ block :: r) (by rw [hsp, hm]; simp) a.id hac
      obtain ⟨a', ha', hid⟩ := mem_map.mp hbef
      obtain rfl := eq_of_id_eq h.nodup (hmem a' (by simp [hsp, hm, ha'])) ha hid
      obtain ⟨k₁, k₂, hk⟩ := append_of_mem ha'
      -- The same block stands at one place only.
      have hnd : (l₁ ++ a' :: l₂).Nodup := by
        have := hle.perm.nodup_iff.mpr h.isVersion.nodup
        rw [hsp, hl, nodup_append] at this
        exact this.1
      have hlen : m₂.length < l₂.length := by
        have heq : l₁ ++ a' :: l₂ = k₁ ++ a' :: (k₂ ++ c :: m₂) := by rw [← hl, hm, hk]; simp
        have hidx : l₁.length = k₁.length := by
          have hn := hnd
          rw [heq] at hn
          have h1 : (l₁ ++ a' :: l₂).idxOf a' = l₁.length := by
            rw [idxOf_append_of_notMem fun hm' => (nodup_append.mp hnd).2.2 _ hm' _ mem_cons_self rfl,
              idxOf_cons_self, Nat.add_zero]
          have h2 : (k₁ ++ a' :: (k₂ ++ c :: m₂)).idxOf a' = k₁.length := by
            rw [idxOf_append_of_notMem fun hm' => (nodup_append.mp hn).2.2 _ hm' _ mem_cons_self rfl,
              idxOf_cons_self, Nat.add_zero]
          rw [← h1, ← h2, heq]
        have := congrArg length heq
        simp only [length_append, length_cons] at this
        omega
      have hc' := ih m₂.length hlen m₁ m₂ c rfl hm
      exact Relation.TransGen.head ⟨mem_map_of_mem ha, c, hmem c (by simp [hsp, hc]), rfl, hac⟩ hc'

theorem isVersion_delivered {order l r : List TextBlock} (hle : LinearExtension hist order)
    (hsp : order = l ++ r) : IsVersion hist l := by
  have hnd := hle.perm.nodup_iff.mpr h.isVersion.nodup
  rw [hsp, nodup_append] at hnd
  refine ⟨hnd.1, fun a ha => hle.perm.mem_iff.mp (by simp [hsp, ha]), fun a ha p hp => ?_⟩
  obtain ⟨l₁, l₂, rfl⟩ := append_of_mem ha
  have := hle.follows l₁ a (l₂ ++ r) (by rw [hsp]; simp) p hp
  rw [map_append]
  exact mem_append_left _ this

theorem deliver_eq_replay {order : List TextBlock} (hle : LinearExtension hist order)
    (l : List TextBlock) : ∀ r, order = l ++ r →
      ∃ text, deliver l = .ok ⟨l, text⟩ ∧ replay l = .ok text := by
  induction l using reverseRecOn with
  | nil => exact fun r _ => ⟨[], rfl, rfl⟩
  | append_singleton l block ih =>
    intro r hsp
    have hsp' : order = l ++ block :: r := by rw [hsp, append_assoc]; rfl
    obtain ⟨text, hd, hr⟩ := ih (block :: r) hsp'
    have hb : block ∈ hist := hle.perm.mem_iff.mp (by simp [hsp])
    have hstep : deliver (l ++ [block]) = merge ⟨l, text⟩ block := by
      rw [deliver]
      rw [deliver] at hd
      simp [hd, bind, Except.bind, pure, Except.pure]
      cases merge ⟨l, text⟩ block <;> rfl
    by_cases hheads : block.parents.isPerm (headsOf l) = true
    · -- The version is the block's past, so its ops apply as they are.
      have hv := isVersion_delivered h hle hsp'
      have hpast : ∀ a, a ∈ l ↔ a ∈ hist ∧ IsAncestor hist a.id block.id := by
        intro a
        constructor
        · intro ha
          obtain ⟨l₁, l₂, hl⟩ := append_of_mem ha
          exact ⟨hv.subset ha,
            isAncestor_of_heads h hle hsp' (isPerm_iff.mp hheads) l₂.length l₁ l₂ a rfl hl⟩
        · rintro ⟨hah, hab⟩
          have hfits : Fits (historyOf hist 0) order :=
            fits_historyOf h.nodup 0 (fun b hb => hle.perm.mem_iff.mp hb) fun b _ p _ hp =>
              (hle.perm.map (·.id)).mem_iff.mpr hp
          obtain ⟨a', ha', hid⟩ := mem_map.mp (hfits.past_subset (hle.ordered h.nodup) hsp' hab)
          exact eq_of_id_eq h.nodup (hv.subset ha') hah hid ▸ ha'
      obtain ⟨text', h1, h2⟩ := replay_joined h hb hv.nodup hpast (perm_append_singleton block l)
      obtain rfl : text = text' := Except.ok.inj (hr.symm.trans h1)
      exact ⟨_, by rw [hstep, Replica.merge]; simp [hheads, pure, Except.pure], h2⟩
    · obtain ⟨C, k, -, -, -, heq, -⟩ := (isVersion_delivered h hle hsp).characters h
      have hr' : replay (l ++ [block]) = .ok (visibleText (k.map toCharacter)) := by
        rw [replay, heq]
        rfl
      exact ⟨_, by rw [hstep, Replica.merge]; simp [hheads, hr', bind, Except.bind, pure, Except.pure], hr'⟩

end

/-- A block's ops, applied to the replay of the blocks before it, give the replay with the block; so a replica that does so
    whenever the block's parents are its heads, and replays otherwise, holds the replay of what it has merged, in whatever
    order the blocks come after their parents. -/
theorem replay_intent (hist : List TextBlock) (h : Valid hist) :
    (∀ block ∈ hist, ∀ past : List TextBlock, past.Nodup →
      (∀ a, a ∈ past ↔ a ∈ hist ∧ IsAncestor hist a.id block.id) →
      ∀ joined : List TextBlock, joined.Perm (block :: past) →
      ∃ text, replay past = .ok text ∧ replay joined = .ok (TextOp.applyAll text block.ops)) ∧
    ∀ order, LinearExtension hist order → ∀ merged rest, order = merged ++ rest →
      ∃ text, deliver merged = .ok ⟨merged, text⟩ ∧ replay merged = .ok text :=
  ⟨fun _ hb _ hnd hp _ hperm => replay_joined h hb hnd hp hperm,
    fun _ hle merged rest hsp => deliver_eq_replay h hle merged rest hsp⟩

theorem linearExtension_of_ordered (h : Valid hist) (hord : Ordered hist) : LinearExtension hist hist :=
  ⟨Perm.refl _, fun l block r hsp p hp =>
    hord.follows l block r hsp p hp (h.parents block (by rw [hsp]; simp) p hp)⟩

theorem branches_linearExtension : LinearExtension branches branches :=
  linearExtension_of_ordered branches_valid (ordered_of_pairwise (by decide) (by decide) (by decide))

theorem branches_intent : Valid branches ∧ LinearExtension branches branches ∧
    ∃ text, deliver branches = .ok ⟨branches, text⟩ ∧ replay branches = .ok text :=
  ⟨branches_valid, branches_linearExtension,
    (replay_intent branches branches_valid).2 branches branches_linearExtension branches [] (append_nil _).symm⟩

/-- A write of any text over a replica's heads, as the diff from the replica's text, is read back, with or without replay. -/
theorem written_text_read (hist : List TextBlock) (h : Valid hist) (order : List TextBlock)
    (hle : LinearExtension hist order) (merged rest : List TextBlock) (block : TextBlock)
    (hsplit : order = merged ++ block :: rest) (hheads : block.parents.isPerm (headsOf merged) = true) (new : List Char) :
    ∃ text, deliver merged = .ok ⟨merged, text⟩ ∧ (text.length < 2 ^ 64 → block.ops = TextOp.diff text new →
      deliver (merged ++ [block]) = .ok ⟨merged ++ [block], new⟩ ∧ replay (merged ++ [block]) = .ok new) := by
  obtain ⟨text, hd, -⟩ := deliver_eq_replay h hle merged (block :: rest) hsplit
  obtain ⟨text', hd', hr⟩ := deliver_eq_replay h hle (merged ++ [block]) rest (by simp [hsplit])
  refine ⟨text, hd, fun hshort ho => ?_⟩
  have hstep : deliver (merged ++ [block]) = .ok ⟨merged ++ [block], new⟩ := by
    rw [deliver, foldlM_append, ← deliver, hd]
    simp [bind, Except.bind, pure, Except.pure, Replica.merge, hheads, ho, TextOp.applyAll_diff_chars hshort]
  cases hstep.symm.trans hd'
  exact ⟨hstep, hr⟩

def rejoined : List TextBlock := branches ++ [⟨[3], [[1], [2]], [.delete 1 2, .insert 1 ['z']]⟩]

/-- A write over both branches, which insert and delete. -/
theorem rejoined_written : deliver branches = .ok ⟨branches, ['x', 'y', 'b']⟩ ∧
    deliver rejoined = .ok ⟨rejoined, ['x', 'z']⟩ ∧ replay rejoined = .ok ['x', 'z'] := by
  have hord : Ordered rejoined := ordered_of_pairwise (by decide) (by decide) (by decide)
  have hvalid : Valid rejoined := valid_of_ordered hord (by decide)
  obtain ⟨text, ht, h⟩ := written_text_read rejoined hvalid rejoined (linearExtension_of_ordered hvalid hord) branches [] _
    rfl (by decide) ['x', 'z']
  have hb : deliver branches = .ok ⟨branches, ['x', 'y', 'b']⟩ := by decide +kernel
  cases hb.symm.trans ht
  exact ⟨hb, h (by decide) (by decide)⟩

end
end Defra.Text
