import Mathlib.Order.WellFounded
import Mathlib.Data.Fintype.EquivFin
import Defra.Text.History
import Defra.Theorems.Text.Ancestry

/-! `topological` orders every history without a cycle, each block after its parents. A block waits for the
    parents that are not ordered yet, and is ready when it waits for none. -/

namespace Defra.Text
open List

section
variable {bs : List TextBlock} {ready : List (Bytes × Nat)} {order : List Nat}

/-- Where the parents of a block stand in the list. -/
def parentsAt (bs : List TextBlock) (i : Nat) : List Nat := (bs[i]?.map (parentsIn bs)).getD []

theorem parentsAt_of_lt {i : Nat} (h : i < bs.length) : parentsAt bs i = parentsIn bs bs[i] := by
  simp [parentsAt, h]

/-! ### The ready blocks -/

theorem mem_insertReady {x y : Bytes × Nat} : y ∈ insertReady x ready ↔ y = x ∨ y ∈ ready := by
  induction ready with
  | nil => simp [insertReady]
  | cons z ready ih =>
    unfold insertReady
    split
    · simp
    · split
      · simp only [mem_cons, ih]
        tauto
      · rename_i h1 h2
        have heq : x = z := by
          simp only [readyLt, Bool.or_eq_true, decide_eq_true_eq, Bool.and_eq_true, beq_iff_eq, not_or, not_and,
            not_lt] at h1 h2
          have hid : x.1 = z.1 := le_antisymm h2.1 h1.1
          exact Prod.ext hid (Nat.le_antisymm (h2.2 hid.symm) (h1.2 hid))
        simp only [heq, mem_cons]
        tauto

theorem nodup_insertReady {x : Bytes × Nat} (hx : x ∉ ready) (h : ready.Nodup) : (insertReady x ready).Nodup := by
  induction ready with
  | nil => simp [insertReady]
  | cons z ready ih =>
    rw [mem_cons, not_or] at hx
    unfold insertReady
    split
    · exact nodup_cons.mpr ⟨by simp [hx], h⟩
    · split
      · refine nodup_cons.mpr ⟨?_, ih hx.2 (nodup_cons.mp h).2⟩
        rw [mem_insertReady, not_or]
        exact ⟨Ne.symm hx.1, (nodup_cons.mp h).1⟩
      · exact h

/-- The children of `p` name it as often as they list it. -/
theorem count_childrenOf (p c : Nat) : (childrenOf bs p).count c = (parentsAt bs c).count p := by
  have key : ∀ (l : List TextBlock) (k : Nat),
      ((l.zipIdx k).flatMap fun (x : TextBlock × Nat) =>
        ((parentsIn bs x.1).filter (· == p)).map fun _ => x.2).count c =
        if k ≤ c then ((l[c - k]?.map (parentsIn bs)).getD []).count p else 0 := by
    intro l
    induction l with
    | nil => intro k; simp
    | cons block l ih =>
      intro k
      rw [zipIdx_cons, flatMap_cons, count_append, ih, map_const', count_replicate,
        ← countP_eq_length_filter, ← count_eq_countP]
      rcases Nat.lt_trichotomy k c with hlt | rfl | hgt
      · have h1 : c - k = (c - (k + 1)) + 1 := by omega
        have h2 : k + 1 ≤ c := hlt
        rw [if_pos h2, if_pos (Nat.le_of_lt hlt), h1]
        simp [Nat.ne_of_lt hlt]
      · simp
      · simp [Nat.ne_of_gt hgt, Nat.not_le.mpr hgt, Nat.not_le.mpr (Nat.lt_succ_of_lt hgt)]
  have := key bs 0
  simpa [childrenOf, parentsAt] using this

/-! ### One turn -/

/-- Each block waits for its parents outside `order`, and once more for each time it is among `children`. -/
structure Releasing (bs : List TextBlock) (ready : List (Bytes × Nat)) (wait order children : List Nat) : Prop where
  outside : ∀ c ∈ children, c < bs.length ∧ c ∉ order
  length : wait.length = bs.length
  waits : ∀ i < bs.length, wait.getD i 0 = (parentsAt bs i).countP (· ∉ order) + children.count i
  distinct : ready.Nodup
  ready : ∀ x, x ∈ ready ↔ x.2 < bs.length ∧ x.2 ∉ order ∧ wait.getD x.2 0 = 0 ∧ x.1 = idAt bs x.2

theorem Releasing.next {wait children : List Nat} {child : Nat}
    (h : Releasing bs ready wait order (child :: children)) :
    Releasing bs (release bs (ready, wait) child).1 (release bs (ready, wait) child).2 order children := by
  obtain ⟨hlt, hnew⟩ := h.outside child mem_cons_self
  have hwait := h.waits child hlt
  rw [count_cons_self] at hwait
  have hs : ∀ c, (wait.set child (wait.getD child 0 - 1)).getD c 0 =
      if c = child then wait.getD child 0 - 1 else wait.getD c 0 := by
    intro c
    by_cases he : c = child
    · subst he
      simp [getD_eq_getElem?_getD, h.length, hlt]
    · simp [getD_eq_getElem?_getD, Ne.symm he, he]
  have hr : release bs (ready, wait) child =
      (if wait.getD child 0 = 1 then insertReady (idAt bs child, child) ready else ready,
        wait.set child (wait.getD child 0 - 1)) := by
    have hid : (bs[child]?.map (·.id)).getD [] = idAt bs child := by simp [idAt, getD_eq_getElem?_getD]
    by_cases hone : wait.getD child 0 = 1
    · simp only [release, hone, hid, Nat.sub_self, if_true]
    · have : wait.getD child 0 - 1 ≠ 0 := by omega
      simp only [release, this, hone, if_false]
  rw [hr]
  refine ⟨fun c hc => h.outside c (mem_cons_of_mem _ hc), by rw [length_set, h.length], fun i hi => ?_, ?_,
    fun x => ?_⟩
  · rw [hs]
    have hi := h.waits i hi
    split
    · subst i
      omega
    · rwa [count_cons_of_ne (Ne.symm ‹_›)] at hi
  · split
    · refine nodup_insertReady (fun hm => ?_) h.distinct
      have := ((h.ready _).mp hm).2.2.1
      simp only at this
      omega
    · exact h.distinct
  · rw [hs]
    have hx := h.ready x
    by_cases hchild : x.2 = child
    · have hpair : x = (idAt bs child, child) ↔ x.1 = idAt bs x.2 := by simp [Prod.ext_iff, hchild]
      subst hchild
      rw [if_pos rfl]
      split
      case isTrue hone =>
        rw [mem_insertReady, hx, hpair, hone]
        simp [hlt, hnew]
      case isFalse hone =>
        rw [hx]
        exact and_congr_right fun _ => and_congr_right fun _ => and_congr_left fun _ => by omega
    · split
      · rw [mem_insertReady, or_iff_right fun he => hchild (congrArg Prod.snd he), hx]
      · exact hx

/-- When all children are released, each block waits for its parents that are not ordered. -/
theorem Releasing.all (children : List Nat) : ∀ {ready : List (Bytes × Nat)} {wait : List Nat},
    Releasing bs ready wait order children →
    Releasing bs (children.foldl (release bs) (ready, wait)).1
      (children.foldl (release bs) (ready, wait)).2 order [] := by
  induction children with
  | nil => exact fun h => h
  | cons child children ih => exact fun h => ih h.next

theorem countP_not_mem_concat (order : List Nat) {i : Nat} (hi : i ∉ order) (ps : List Nat) :
    ps.countP (· ∉ order) = ps.countP (· ∉ order ++ [i]) + ps.count i := by
  induction ps with
  | nil => rfl
  | cons p ps ih =>
    rw [countP_cons, countP_cons, count_cons]
    by_cases hp : p = i
    · subst hp
      rw [if_pos (by simpa using hi), if_neg (by simp), if_pos (by simp)]
      omega
    · have h1 : (p ∉ order ++ [i]) = (p ∉ order) := by simp [hp]
      have h2 : (p == i) = false := by simpa using hp
      simp only [h1, h2, Bool.false_eq_true, if_false]
      omega

/-! ### The loop -/

/-- `order` holds blocks after their parents, every block waits for its parents outside it, and those that wait for none are
    ready. -/
structure Kahn (bs : List TextBlock) (ready : List (Bytes × Nat)) (wait order : List Nat) : Prop where
  nodup : order.Nodup
  lt : ∀ i ∈ order, i < bs.length
  follows : ∀ l i r, order = l ++ i :: r → ∀ p ∈ parentsAt bs i, p ∈ l
  length : wait.length = bs.length
  waits : ∀ i < bs.length, wait.getD i 0 = (parentsAt bs i).countP (· ∉ order)
  distinct : ready.Nodup
  ready : ∀ x, x ∈ ready ↔ x.2 < bs.length ∧ x.2 ∉ order ∧ wait.getD x.2 0 = 0 ∧ x.1 = idAt bs x.2

theorem Kahn.turn {first : Bytes × Nat} {wait : List Nat} (h : Kahn bs (first :: ready) wait order) :
    Kahn bs ((childrenOf bs first.2).foldl (release bs) (ready, wait)).1
      ((childrenOf bs first.2).foldl (release bs) (ready, wait)).2 (order ++ [first.2]) := by
  obtain ⟨hlt, hn, hzero, hid⟩ := (h.ready first).mp (by simp)
  have hnd := nodup_cons.mp h.distinct
  have hfree : ∀ {i}, i < bs.length → wait.getD i 0 = 0 → ∀ p ∈ parentsAt bs i, p ∈ order := by
    intro i hi hw p hp
    rw [h.waits i hi] at hw
    simpa using countP_eq_zero.mp hw p hp
  have hstart : Releasing bs ready wait (order ++ [first.2]) (childrenOf bs first.2) := by
    refine ⟨fun c hc => ?_, h.length, fun i hi => ?_, hnd.2, fun x => ?_⟩
    · have hp : first.2 ∈ parentsAt bs c := by
        rw [← count_pos_iff, ← count_childrenOf]
        exact count_pos_iff.mpr hc
      have hclt : c < bs.length := by
        by_contra hge
        rw [parentsAt, getElem?_eq_none (Nat.le_of_not_lt hge)] at hp
        cases hp
      refine ⟨hclt, fun hmem => hn ?_⟩
      rcases mem_append.mp hmem with hmem | hmem
      · -- a block in the order follows its parents
        obtain ⟨l, r, rfl⟩ := append_of_mem hmem
        exact mem_append_left _ (h.follows l c r rfl _ hp)
      · obtain rfl := mem_singleton.mp hmem
        exact hfree hlt hzero _ hp
    · rw [h.waits i hi, count_childrenOf, countP_not_mem_concat order hn]
    · have hx := h.ready x
      rw [mem_cons] at hx
      rw [mem_append, mem_singleton, not_or]
      constructor
      · intro hm
        obtain ⟨h1, h2, h3, h4⟩ := hx.mp (.inr hm)
        refine ⟨h1, ⟨h2, fun he => hnd.1 ?_⟩, h3, h4⟩
        have : first = x := Prod.ext (by rw [hid, h4, he]) he.symm
        exact this ▸ hm
      · rintro ⟨h1, ⟨h2, hne⟩, h3, h4⟩
        exact (hx.mpr ⟨h1, h2, h3, h4⟩).resolve_left fun he => hne (congrArg Prod.snd he)
  have hend := hstart.all
  refine ⟨?_, fun i hi => ?_, fun l i r hsp p hp => ?_, hend.length, hend.waits, hend.distinct, hend.ready⟩
  · rw [nodup_append]
    exact ⟨h.nodup, nodup_singleton _, fun a ha b hb he => hn (mem_singleton.mp hb ▸ he ▸ ha)⟩
  · rcases mem_append.mp hi with hi | hi
    · exact h.lt i hi
    · exact mem_singleton.mp hi ▸ hlt
  · rcases r.eq_nil_or_concat' with rfl | ⟨r, x, rfl⟩
    · -- the new block is the last, and waits for no parent outside the order
      obtain ⟨rfl, hi⟩ := append_inj' hsp rfl
      rw [← singleton_inj.mp hi] at hp
      exact hfree hlt hzero p hp
    · rw [← cons_append, ← append_assoc] at hsp
      exact h.follows l i r (append_inj' hsp rfl).1 p hp

/-- Every block is in the order, or none of the others is free of parents outside it. -/
theorem Kahn.loop (fuel : Nat) : ∀ {ready : List (Bytes × Nat)} {wait order : List Nat},
    Kahn bs ready wait order → fuel + order.length = bs.length →
    ∃ ready' waiting', Kahn bs ready' waiting' (topologicalLoop bs fuel ready wait order) ∧
      ((topologicalLoop bs fuel ready wait order).length = bs.length ∨ ready' = []) := by
  induction fuel with
  | zero => exact fun {ready wait order} h hlen => ⟨ready, wait, h, Or.inl (by rw [topologicalLoop]; omega)⟩
  | succ fuel ih =>
    intro ready wait order h hlen
    cases ready with
    | nil => exact ⟨[], wait, h, Or.inr rfl⟩
    | cons first ready => exact ih h.turn (by rw [length_append, length_singleton]; omega)

theorem mem_firstReady (bs l : List TextBlock) :
    (l.zipIdx.foldl (fun ready (x : TextBlock × Nat) =>
      if (parentsIn bs x.1).length = 0 then insertReady (x.1.id, x.2) ready else ready) []).Nodup ∧
    ∀ x, x ∈ l.zipIdx.foldl (fun ready (x : TextBlock × Nat) =>
        if (parentsIn bs x.1).length = 0 then insertReady (x.1.id, x.2) ready else ready) [] ↔
      ∃ block, l[x.2]? = some block ∧ parentsIn bs block = [] ∧ x.1 = block.id := by
  induction l using reverseRecOn with
  | nil => simp
  | append_singleton l last ih =>
    obtain ⟨hnd, hmem⟩ := ih
    rw [zipIdx_append, foldl_append]
    simp only [zipIdx_singleton, foldl_cons, foldl_nil, Nat.zero_add]
    have hget : ∀ (i : Nat) block, (l ++ [last])[i]? = some block ↔ l[i]? = some block ∨ i = l.length ∧ last = block := by
      intro i block
      rcases Nat.lt_trichotomy i l.length with hi | rfl | hi
      · simp [getElem?_append_left hi, Nat.ne_of_lt hi]
      · simp
      · have hend : (l ++ [last]).length ≤ i := by
          rw [length_append]
          exact hi
        simp [getElem?_eq_none hend, Nat.le_of_lt hi, Nat.ne_of_gt hi]
    have hs : ∀ x : Bytes × Nat, (∃ block, (l ++ [last])[x.2]? = some block ∧ parentsIn bs block = [] ∧ x.1 = block.id) ↔
        (parentsIn bs last = [] ∧ x = (last.id, l.length)) ∨
          ∃ block, l[x.2]? = some block ∧ parentsIn bs block = [] ∧ x.1 = block.id := by
      grind
    simp only [hs, ← hmem]
    split
    case isTrue hroot =>
      rw [length_eq_zero_iff] at hroot
      refine ⟨nodup_insertReady (fun hm => ?_) hnd, fun x => by rw [mem_insertReady]; tauto⟩
      obtain ⟨block, hb, -⟩ := (hmem _).mp hm
      simp at hb
    case isFalse hroot =>
      rw [length_eq_zero_iff] at hroot
      exact ⟨hnd, fun x => by tauto⟩

theorem kahn_start (bs : List TextBlock) :
    Kahn bs (firstReady bs) (bs.map fun block => (parentsIn bs block).length) [] := by
  have hwaits : ∀ i < bs.length, (bs.map fun block => (parentsIn bs block).length).getD i 0 =
      (parentsAt bs i).length := fun i hi => by
    simp [getD_eq_getElem?_getD, parentsAt, hi]
  obtain ⟨h1, h2⟩ := mem_firstReady bs bs
  refine ⟨nodup_nil, by simp, by simp, by simp, fun i hi => by rw [hwaits i hi]; simp, h1, fun x => (h2 x).trans ?_⟩
  constructor
  · rintro ⟨block, hx, hroot, hid⟩
    obtain ⟨hlt, rfl⟩ := List.getElem?_eq_some_iff.mp hx
    exact ⟨hlt, not_mem_nil, by rw [hwaits _ hlt, parentsAt_of_lt hlt, hroot]; rfl, by simp [hid, idAt, hlt]⟩
  · rintro ⟨hlt, -, hw, hx⟩
    rw [hwaits _ hlt, parentsAt_of_lt hlt, length_eq_zero_iff] at hw
    exact ⟨bs[x.2], getElem?_eq_getElem hlt, hw, by rw [hx]; simp [idAt, hlt]⟩

/-! ### The whole order -/

/-- Without a cycle, some block left out has all its parents in. -/
theorem exists_free (hnd : (bs.map (·.id)).Nodup) (hacy : ∀ a, ¬ IsAncestor bs a a)
    (h : ∃ i < bs.length, i ∉ order) : ∃ i < bs.length, i ∉ order ∧ ∀ p ∈ parentsAt bs i, p ∈ order := by
  let edge : Fin bs.length → Fin bs.length → Prop := fun p i => p.1 ∈ parentsAt bs i.1
  have hpar : ∀ p i, edge p i → IsParent bs (idAt bs p.1) (idAt bs i.1) := by
    intro p i he
    have hi : edge p i = (p.1 ∈ parentsAt bs i.1) := rfl
    rw [hi, parentsAt_of_lt i.2] at he
    refine ⟨idAt_mem p.2, bs[i.1], getElem_mem i.2, by simp [idAt], ?_⟩
    exact ((mem_parentsIn hnd).mp he).2
  have hl : ∀ p i, Relation.TransGen edge p i → IsAncestor bs (idAt bs p.1) (idAt bs i.1) := fun p i ht =>
    Relation.TransGen.lift (fun i : Fin bs.length => idAt bs i.1) hpar p i ht
  have hwf : WellFounded (Relation.TransGen edge) := by
    have : Std.Irrefl (Relation.TransGen edge) := ⟨fun i hi => hacy _ (hl i i hi)⟩
    exact Finite.wellFounded_of_trans_of_irrefl _
  obtain ⟨i, hi, hnot⟩ := h
  obtain ⟨m, hm, hmin⟩ := hwf.has_min {i : Fin bs.length | i.1 ∉ order} ⟨⟨i, hi⟩, hnot⟩
  refine ⟨m.1, m.2, hm, fun p hp => ?_⟩
  by_contra hpo
  have hlt : p < bs.length := by
    rw [parentsAt_of_lt m.2] at hp
    exact ((mem_parentsIn hnd).mp hp).1
  exact hmin ⟨p, hlt⟩ hpo (Relation.TransGen.single hp)

theorem filterMap_range_get {α : Type} (l : List α) : (range l.length).filterMap (l[·]?) = l := by
  induction l using reverseRecOn with
  | nil => rfl
  | append_singleton l x ih =>
    rw [length_append, length_singleton, range_succ, filterMap_append]
    have hsame : (range l.length).filterMap ((l ++ [x])[·]?) = (range l.length).filterMap (l[·]?) :=
      filterMap_congr fun i hi => getElem?_append_left (mem_range.mp hi)
    rw [hsame, ih]
    simp

/-- `topological` orders every history without a cycle, each block after its parents. -/
theorem topological_spec (hnd : (bs.map (·.id)).Nodup) (outside : Bool)
    (hps : outside = true ∨ ∀ block ∈ bs, ∀ p ∈ block.parents, p ∈ bs.map (·.id))
    (hacy : ∀ a, ¬ IsAncestor bs a a) :
    ∃ order, topological bs outside = .ok order ∧ (order.filterMap (bs[·]?)).Perm bs ∧
      Ordered (order.filterMap (bs[·]?)) := by
  obtain ⟨ready, wait, h, hend⟩ := (kahn_start bs).loop bs.length (by simp)
  generalize ho : topologicalLoop bs bs.length (firstReady bs)
    (bs.map fun block => (parentsIn bs block).length) [] = order at h hend
  have hsub : order.Subperm (range bs.length) :=
    subperm_of_subset h.nodup fun i hi => mem_range.mpr (h.lt i hi)
  have hlen : order.length = bs.length := by
    rcases hend with hend | rfl
    · exact hend
    · by_contra hne
      have hex : ∃ i < bs.length, i ∉ order := by
        by_contra hall
        push Not at hall
        refine hne (Nat.le_antisymm (by simpa using hsub.length_le) ?_)
        have := (subperm_of_subset nodup_range fun i hi => hall i (mem_range.mp hi) :
          (range bs.length).Subperm order).length_le
        rwa [length_range] at this
      obtain ⟨i, hi, hio, hfree⟩ := exists_free hnd hacy hex
      have hready := (h.ready (idAt bs i, i)).mpr ⟨hi, hio, by
        rw [h.waits i hi, countP_eq_zero]
        intro p hp
        simp [hfree p hp], rfl⟩
      cases hready
  have hperm : order.Perm (range bs.length) := hsub.perm_of_length_le (by rw [hlen, length_range])
  have hblocks : (order.filterMap (bs[·]?)).Perm bs := by
    have := hperm.filterMap (bs[·]?)
    rwa [filterMap_range_get] at this
  refine ⟨order, ?_, hblocks, (hblocks.map _).nodup_iff.mpr hnd, ?_⟩
  · have hmissing : ¬ (¬ outside = true ∧
        (bs.any fun block => block.parents.any fun parent => (indexOf bs parent).isNone) = true) := by
      rintro ⟨hout, ha⟩
      obtain ⟨block, hb, ha⟩ := any_eq_true.mp ha
      obtain ⟨p, hp, hnone⟩ := any_eq_true.mp ha
      obtain ⟨i, hi, he⟩ := exists_idAt (hps.resolve_left hout block hb p hp)
      rw [(indexOf_eq_some hnd).mpr ⟨hi, he⟩] at hnone
      cases hnone
    simp only [topological, hnd, not_true_eq_false, if_false, hmissing, ho, hlen, ne_eq, bind, Except.bind, pure,
      Except.pure]
  · intro l block r hsp p hp hpo
    obtain ⟨l', rest, hrest, hl, hr⟩ := filterMap_eq_append_iff.mp hsp
    obtain ⟨skipped, i, r', rfl, hskip, hi, -⟩ := filterMap_eq_cons_iff.mp hr
    rw [(hblocks.map (·.id)).mem_iff] at hpo
    obtain ⟨q, hq, rfl⟩ := exists_idAt hpo
    obtain ⟨hilt, hblock⟩ := List.getElem?_eq_some_iff.mp hi
    have hmem := h.follows (l' ++ skipped) i r' (by rw [hrest]; simp) q (by
      rw [parentsAt_of_lt hilt, hblock]
      exact (mem_parentsIn hnd).mpr ⟨hq, hp⟩)
    rcases mem_append.mp hmem with hmem | hmem
    · rw [← hl]
      refine mem_map.mpr ⟨bs[q], mem_filterMap.mpr ⟨q, hmem, getElem?_eq_getElem hq⟩, by simp [idAt, hq]⟩
    · have := hskip q hmem
      rw [getElem?_eq_getElem hq] at this
      cases this

end
end Defra.Text
