import Defra.Lib.FugueCritical
import Defra.Theorems.Text.Intent

/-! Every later block knows all of the critical block's version, so the later blocks alone, replayed over a placeholder for each
    character it shows, read as the whole history does; the stored text tells the placeholders. -/

namespace Defra.Text
open List TreePath Fugue Relation

variable (t : Tree) (new node : Nat) (path : Nat → Path Bytes) (old : List Char)

/-! ### Recovering the stored text -/

/-- The version without the block at `new` shows the node. -/
def shownWithout : Bool :=
  !((t.nodeOf node).block == .step new || (t.nodeOf node).deletedBy.any (· ≠ new))

theorem shownWithout_iff : shownWithout t new node = true ↔
    ¬ ((t.nodeOf node).block = .step new ∨ (t.nodeOf node).deletedBy.any (· ≠ new)) := by
  simp [shownWithout]

/-- Every placeholder the version without the block at `new` shows learns its characters. -/
theorem recover_spec (new : Nat) (read : Nat → List Char) (full : List Nat)
    (hlen : ∀ i ∈ full, (read i).length = (t.nodeOf i).len)
    (hch : ∀ i ∈ full, (t.nodeOf i).block ≠ .base → read i = [(t.nodeOf i).ch]) :
    ∀ placeholders : List (List Char), ∃ learnt,
      recover t new full ((full.filter (shownWithout t new)).flatMap read) placeholders = some learnt ∧
      learnt.length = placeholders.length ∧ ∀ i < placeholders.length, learnt.getD i [] =
        if i ∈ full ∧ shownWithout t new i = true ∧ (t.nodeOf i).block = .base then read i
        else placeholders.getD i [] := by
  induction full with
  | nil => exact fun placeholders => ⟨placeholders, rfl, rfl, fun i _ => by simp⟩
  | cons node full ih =>
    intro placeholders
    have ih := ih (fun i hi => hlen i (mem_cons_of_mem node hi)) fun i hi => hch i (mem_cons_of_mem node hi)
    have hlen := hlen node mem_cons_self
    have hch := hch node mem_cons_self
    by_cases hshown : shownWithout t new node = true
    · have hcond := (shownWithout_iff t new node).mp hshown
      have hlong : ¬ (read node ++ (full.filter (shownWithout t new)).flatMap read).length < (t.nodeOf node).len := by
        rw [length_append]
        omega
      have ht : (read node ++ (full.filter (shownWithout t new)).flatMap read).take (t.nodeOf node).len = read node := by
        rw [← hlen, take_left]
      have hd : (read node ++ (full.filter (shownWithout t new)).flatMap read).drop (t.nodeOf node).len =
          (full.filter (shownWithout t new)).flatMap read := by
        rw [← hlen, drop_left]
      rw [filter_cons_of_pos hshown, flatMap_cons]
      simp only [recover, if_neg hcond, if_neg hlong, ht, hd]
      by_cases hb : (t.nodeOf node).block = .base
      · obtain ⟨learnt, heq, hl, hget⟩ := ih (placeholders.set node (read node))
        rw [length_set] at hl hget
        refine ⟨learnt, by rw [if_pos hb]; exact heq, hl, fun i hi => ?_⟩
        rw [hget i hi]
        by_cases hin : i = node
        · subst hin
          simp [hshown, hb, hi]
        · have hs : (placeholders.set node (read node)).getD i [] = placeholders.getD i [] := by
            simp [getElem?_set_ne (Ne.symm hin)]
          rw [hs]
          simp [hin]
      · obtain ⟨learnt, heq, hl, hget⟩ := ih placeholders
        have hh : ¬ (read node).head? ≠ some (t.nodeOf node).ch := by simp [hch hb]
        refine ⟨learnt, by rw [if_neg hb, if_neg hh]; exact heq, hl, fun i hi => ?_⟩
        rw [hget i hi]
        by_cases hin : i = node
        · subst hin
          simp [hb]
        · simp [hin]
    · have hcond := not_not.mp (mt (shownWithout_iff t new node).mpr hshown)
      obtain ⟨learnt, heq, hl, hget⟩ := ih placeholders
      rw [filter_cons_of_neg hshown]
      refine ⟨learnt, by simp only [recover, if_pos hcond]; exact heq, hl, fun i hi => ?_⟩
      rw [hget i hi]
      by_cases hin : i = node
      · subst hin
        simp [hshown]
      · simp [hin]

/-- What a character of the placeholder tree reads as, over the text `old`. -/
def readChar (a : Atom Bytes Char) : Char :=
  if a.block = none then old.getD (a.path.length - 1) '\x00' else a.ch

def readNode (i : Nat) : List Char :=
  (range (t.nodeOf i).len).map fun m => readChar old (t.charOf path i m)

theorem map_shown_items (v : Version) (nodes : List Nat) :
    (shown (nodes.flatMap (t.items path v))).map (fun x => readChar old x.toAtom) =
      (nodes.filter fun i => !t.dead v i).flatMap (readNode t path old) := by
  induction nodes with
  | nil => rfl
  | cons i nodes ih =>
    rw [flatMap_cons, shown_append, map_append, ih]
    cases hd : t.dead v i
    · simp [shown, Tree.items, hd, readNode, filter_map, Function.comp_def]
    · simp [shown, Tree.items, hd]

/-- The version without one block. -/
def allBut (new : Nat) : Version :=
  { ancestry := .set ((range t.ids.length).map (· ≠ new)), block := .root }

theorem allBut_has (new p : Nat) : (allBut t new).has (.step p) = true ↔ p < t.ids.length ∧ p ≠ new := by
  by_cases hp : p < t.ids.length
  · simp [allBut, Version.has, Ancestry.contains, hp]
  · simp [allBut, Version.has, Ancestry.contains, hp]

theorem flatMap_eq_filter {β γ : Type} {p : β → Bool} {f g : β → List γ} (l : List β)
    (h : ∀ i ∈ l, f i = if p i then g i else []) : l.flatMap f = (l.filter p).flatMap g := by
  induction l with
  | nil => rfl
  | cons i l ih =>
    rw [flatMap_cons, h i mem_cons_self, ih fun j hj => h j (mem_cons_of_mem i hj)]
    cases hp : p i
    · rw [filter_cons_of_neg (by simp [hp])]
      rfl
    · rw [filter_cons_of_pos hp]
      rfl

section
variable {H : History Bytes Char} {order : List TextBlock} {t : Tree} {path : Nat → Path Bytes}
  {C : Bytes → Doc Bytes Char}

theorem Grown.shownWithout_eq (h : Grown H order order t path C) {i : Nat} (hi : t.Held i) (new : Nat) :
    shownWithout t new i = (t.present (allBut t new) i && !t.dead (allBut t new) i) := by
  have hids : t.ids.length = order.length := by rw [h.ids_eq, length_map]
  have hpresent : t.present (allBut t new) i = true ↔ (t.nodeOf i).block ≠ .step new := by
    rw [Tree.present]
    cases hb : (t.nodeOf i).block with
    | root => exact absurd hb (h.rep.block i hi)
    | base => simp [Version.has]
    | step p =>
      have := (h.bound i hi).1 p hb
      rw [allBut_has, hids]
      simp [this]
  have hd : t.dead (allBut t new) i = (t.nodeOf i).deletedBy.any (· ≠ new) := by
    rw [Tree.dead, Bool.eq_iff_iff, any_eq_true, any_eq_true]
    refine exists_congr fun p => and_congr_right fun hp => ?_
    have := (h.bound i hi).2 p hp
    rw [allBut_has, hids]
    simp [this]
  rw [Bool.eq_iff_iff, shownWithout_iff, Bool.and_eq_true, hpresent, hd]
  simp

theorem Grown.dead_everything (h : Grown H order order t path C) {i : Nat} (hi : t.Held i) :
    (!t.dead (everything t) i) = (t.nodeOf i).deletedBy.isEmpty := by
  rw [Tree.dead]
  cases hd : (t.nodeOf i).deletedBy with
  | nil => rfl
  | cons p ps =>
    have := (h.bound i hi).2 p (by simp [hd])
    have hids : t.ids.length = order.length := by rw [h.ids_eq, length_map]
    simp [everything, Version.has, Ancestry.contains, hids, this]

/-- `mergeText` reads the placeholder tree once the stored text has told its placeholders. -/
theorem Grown.recover (h : Grown H order order t path C) {full : List Nat} (hmem : ∀ i, i ∈ full ↔ t.Held i)
    (old : List Char) (new : Nat) : ∃ learnt,
      Text.recover t new full ((full.filter (shownWithout t new)).flatMap (readNode t path old))
        (t.nodes.map fun _ => []) = some learnt ∧
      (full.flatMap fun node =>
        if (t.nodeOf node).deletedBy.isEmpty then
          if (t.nodeOf node).block = .base then learnt.getD node [] else [(t.nodeOf node).ch]
        else []) = (full.filter fun i => !t.dead (everything t) i).flatMap (readNode t path old) := by
  have hch : ∀ i ∈ full, (t.nodeOf i).block ≠ .base → readNode t path old i = [(t.nodeOf i).ch] := by
    intro i hi hbase
    have hl : (t.nodeOf i).len = 1 := by
      rcases h.rep.len i ((hmem i).mp hi) with h1 | ⟨-, h1⟩
      · exact h1
      · exact absurd h1 hbase
    cases hb : (t.nodeOf i).block with
    | root => exact absurd hb (h.rep.block i ((hmem i).mp hi))
    | base => exact absurd hb hbase
    | step p => simp [readNode, hl, readChar, Tree.charOf, hb, Tree.blockId]
  obtain ⟨learnt, heq, -, hget⟩ := recover_spec t new (readNode t path old) full (fun i _ => by simp [readNode]) hch
    (t.nodes.map fun _ => [])
  refine ⟨learnt, heq, ?_⟩
  refine flatMap_eq_filter full fun i hi => ?_
  have hheld := (hmem i).mp hi
  rw [h.dead_everything hheld]
  by_cases hempty : (t.nodeOf i).deletedBy.isEmpty = true
  · rw [if_pos hempty, if_pos hempty]
    by_cases hbase : (t.nodeOf i).block = .base
    · -- A placeholder no block deleted is one the stored text shows.
      have hshown : shownWithout t new i = true := by
        rw [shownWithout_iff, isEmpty_iff.mp hempty, hbase]
        simp
      rw [if_pos hbase, hget i (by simpa using hheld.2), if_pos ⟨hi, hshown, hbase⟩]
    · rw [if_neg hbase, hch i hi hbase]
  · rw [if_neg hempty, if_neg hempty]

/-- A placeholder for each character that the critical block shows. -/
def placeholderItems (n : Nat) : List (Fugue.Item Bytes Char) :=
  (range n).map fun j => ⟨⟨Tree.runDown (j + 1), none, 0, '\x00'⟩, false⟩

theorem shown_placeholderItems (n : Nat) : shown (placeholderItems n) = placeholderItems n :=
  filter_eq_self.mpr fun x hx => by
    obtain ⟨j, -, rfl⟩ := mem_map.mp hx
    rfl

theorem listing_placeholderItems {n : Nat} (hb : H.base = placeholders n) :
    Listing (H.doc C ∅) (placeholderItems n) where
  sorted := by
    refine pairwise_map.mpr (pairwise_lt_range.imp fun {i j} hij => ?_)
    exact Tree.runDown_before (Nat.succ_lt_succ hij) []
  mem x := by
    simp only [placeholderItems, mem_map, mem_range, History.mem_doc_chars, History.mem_doc_marks, hb,
      placeholders, Set.mem_ofPred_eq, Set.mem_empty_iff_false, false_and, exists_false, or_false, iff_false,
      Bool.not_eq_true]
    constructor
    · rintro ⟨j, hj, rfl⟩
      exact ⟨⟨j, hj, rfl⟩, rfl⟩
    · rintro ⟨⟨j, hj, ha⟩, hd⟩
      cases x
      subst ha hd
      exact ⟨j, hj, rfl⟩

end

section
variable {hist before after : List TextBlock} {x : TextBlock} {new : TextBlock} {H : History Bytes Char}
  {C : Bytes → Doc Bytes Char} {a b : Bytes} {bs : List TextBlock} {id : Bytes} {order : List TextBlock}
  {path : Nat → Path Bytes} {t : Tree} {without : List TextBlock}

/-! ### Blocks before and after the critical one -/

theorem isAncestor_mem (h : IsAncestor bs a b) : a ∈ bs.map (·.id) := by
  obtain ⟨c, ⟨hmem, -⟩, -⟩ := TransGen.head'_iff.mp h
  exact hmem

/-- Between two blocks after a critical block, the DAG of the blocks after it has every path. -/
theorem isAncestor_after (hafter : ∀ b, b ∈ after ↔ b ∈ hist ∧ IsAncestor hist x.id b.id)
    (hab : IsAncestor hist a b) (ha : a ∈ after.map (·.id)) : IsAncestor after a b := by
  have hlater : ∀ {c d : Bytes}, IsParent hist c d → c ∈ after.map (·.id) → IsParent after c d := by
    rintro c d ⟨hmem, block, hb, rfl, hp⟩ hc
    obtain ⟨other, ho, rfl⟩ := mem_map.mp hc
    refine ⟨hc, block, (hafter block).mpr ⟨hb, ?_⟩, rfl, hp⟩
    exact TransGen.tail ((hafter other).mp ho).2 ⟨hmem, block, hb, rfl, hp⟩
  have hstep : ∀ {c d : Bytes}, IsParent after c d → d ∈ after.map (·.id) := by
    rintro c d ⟨-, block, hb, rfl, -⟩
    exact mem_map_of_mem hb
  induction hab using TransGen.head_induction_on with
  | single hp => exact TransGen.single (hlater hp ha)
  | head hp _ ih => exact TransGen.head (hlater hp ha) (ih (hstep (hlater hp ha)))

theorem restarts_after (h : Valid hist) (hx : IsCritical hist x)
    (hbef : ∀ b, b ∈ before ↔ b ∈ hist ∧ (b = x ∨ IsAncestor hist b.id x.id))
    (hafter : ∀ b, b ∈ after ↔ b ∈ hist ∧ IsAncestor hist x.id b.id) (hnd : (after.map (·.id)).Nodup) (n : Nat) :
    History.Restarts (historyOf hist 0) (historyOf after n) {a | a ∈ before.map (·.id)} {a | a ∈ after.map (·.id)} where
  past b hb := by
    obtain ⟨block, hblock, rfl⟩ := mem_map.mp hb
    have hxb := ((hafter block).mp hblock).2
    have hsub : after ⊆ hist := fun c hc => ((hafter c).mp hc).1
    ext a
    constructor
    · intro hab
      obtain ⟨other, ho, rfl⟩ := mem_map.mp (isAncestor_mem hab)
      rcases hx.splits other ho with he | hlt | hgt
      · exact .inl (mem_map_of_mem ((hbef other).mpr ⟨ho, .inl he⟩))
      · exact .inl (mem_map_of_mem ((hbef other).mpr ⟨ho, .inr hlt⟩))
      · exact .inr (isAncestor_after hafter hab (mem_map_of_mem ((hafter other).mpr ⟨ho, hgt⟩)))
    · rintro (ha | hab)
      · obtain ⟨other, ho, rfl⟩ := mem_map.mp ha
        rcases ((hbef other).mp ho).2 with rfl | hlt
        · exact hxb
        · exact TransGen.trans hlt hxb
      · exact TransGen.mono (fun _ _ => IsParent.mono hsub) _ _ hab
  later b _ a hab := isAncestor_mem hab
  edits b hb := by
    obtain ⟨block, hblock, rfl⟩ := mem_map.mp hb
    have hfits : Fits (historyOf hist 0) hist := fits_historyOf h.nodup 0 (fun b hb => hb) fun _ _ _ _ hp => hp
    have hfits' : Fits (historyOf after n) after := fits_historyOf hnd n (fun b hb => hb) fun _ _ _ _ hp => hp
    rw [hfits.edits block ((hafter block).mp hblock).1, hfits'.edits block hblock]

/-- The critical block and what it knows are a version. -/
theorem isVersion_before (h : Valid hist) (hnd : before.Nodup)
    (hbef : ∀ b, b ∈ before ↔ b ∈ hist ∧ (b = x ∨ IsAncestor hist b.id x.id)) : IsVersion hist before where
  nodup := hnd
  subset b hb := ((hbef b).mp hb).1
  closed b hb p hp := by
    obtain ⟨hbh, hbx⟩ := (hbef b).mp hb
    obtain ⟨parent, hpar, rfl⟩ := mem_map.mp (h.parents b hbh p hp)
    have hedge : IsParent hist parent.id b.id := ⟨mem_map_of_mem hpar, b, hbh, rfl, hp⟩
    refine mem_map_of_mem ((hbef parent).mpr ⟨hpar, .inr ?_⟩)
    rcases hbx with rfl | hbx
    · exact TransGen.single hedge
    · exact TransGen.head hedge hbx

theorem mem_headsOf : id ∈ headsOf bs ↔ id ∈ bs.map (·.id) ∧ ∀ b ∈ bs, id ∉ b.parents := by
  simp [headsOf]

theorem isAncestor_head (hx : IsCritical hist x) (hn : new ∈ hist)
    (hhead : new.id ∈ headsOf hist) (hne : x ≠ new) : IsAncestor hist x.id new.id := by
  rcases hx.splits new hn with he | hlt | hgt
  · exact absurd he.symm hne
  · obtain ⟨c, ⟨-, block, hb, -, hp⟩, -⟩ := TransGen.head'_iff.mp hlt
    exact absurd hp ((mem_headsOf.mp hhead).2 block hb)
  · exact hgt

theorem isVersion_without (h : Valid hist) (hnd : without.Nodup) (hhead : new.id ∈ headsOf hist)
    (hw : ∀ b, b ∈ without ↔ b ∈ hist ∧ b ≠ new) :
    IsVersion hist without where
  nodup := hnd
  subset b hb := ((hw b).mp hb).1
  closed b hb p hp := by
    have hbh := ((hw b).mp hb).1
    obtain ⟨parent, hpar, rfl⟩ := mem_map.mp (h.parents b hbh p hp)
    refine mem_map_of_mem ((hw parent).mpr ⟨hpar, ?_⟩)
    rintro rfl
    exact (mem_headsOf.mp hhead).2 b hbh hp

theorem over_placeholders (H' : History Bytes Char) (C' : Bytes → Doc Bytes Char) {P : Set Bytes}
    {l₀ : List (Fugue.Item Bytes Char)} (hv : View l₀) (hl₀ : Listing (H.doc C P) l₀) (hh : (H.doc C P).MarksHeld)
    (hbase : H'.base = placeholders (text l₀).length) :
    Over (H.doc C P) (H'.doc C' ∅) l₀ (placeholderItems (text l₀).length) (text l₀).length where
  view := hv
  view' := History.Replays.view (S := ∅) (C := C') (fun b hb => absurd hb (Set.notMem_empty b)) (baseOk_placeholders hbase)
    (fun b hb => absurd hb (Set.notMem_empty b)) (listing_placeholderItems hbase)
  listing := hl₀
  listing' := listing_placeholderItems hbase
  held := hh
  unmarked := Set.eq_empty_of_forall_notMem fun m hm => by
    obtain ⟨b, hb, -⟩ := History.mem_doc_marks.mp hm
    exact hb
  length := (length_text l₀).symm
  length' := by rw [shown_placeholderItems, placeholderItems, length_map, length_range]

theorem readChar_placeholder (l₀ : List (Fugue.Item Bytes Char)) (n : Nat) (g : Nat) (y y' : Fugue.Item Bytes Char)
    (hy : (shown l₀)[g]? = some y) (hy' : (shown (placeholderItems n))[g]? = some y') :
    readChar (text l₀) y'.toAtom = y.ch := by
  rw [shown_placeholderItems, placeholderItems, getElem?_map] at hy'
  obtain ⟨j, hj, rfl⟩ := Option.map_eq_some_iff.mp hy'
  obtain ⟨hlt, he⟩ := List.getElem?_eq_some_iff.mp hj
  obtain rfl : g = j := by rw [← he, getElem_range]
  simp [readChar, Tree.runDown, text, hy]

theorem ids_eq_union (hx : IsCritical hist x)
    (hbef : ∀ b, b ∈ before ↔ b ∈ hist ∧ (b = x ∨ IsAncestor hist b.id x.id))
    (hafter : ∀ b, b ∈ after ↔ b ∈ hist ∧ IsAncestor hist x.id b.id) :
    {a | a ∈ hist.map (·.id)} = {a | a ∈ before.map (·.id)} ∪ {a | a ∈ after.map (·.id)} := by
  ext a
  constructor
  · intro ha
    obtain ⟨b, hb, rfl⟩ := mem_map.mp ha
    rcases hx.splits b hb with he | hlt | hgt
    · exact .inl (mem_map_of_mem ((hbef b).mpr ⟨hb, .inl he⟩))
    · exact .inl (mem_map_of_mem ((hbef b).mpr ⟨hb, .inr hlt⟩))
    · exact .inr (mem_map_of_mem ((hafter b).mpr ⟨hb, hgt⟩))
  · rintro (ha | ha)
    · obtain ⟨b, hb, rfl⟩ := mem_map.mp ha
      exact mem_map_of_mem ((hbef b).mp hb).1
    · obtain ⟨b, hb, rfl⟩ := mem_map.mp ha
      exact mem_map_of_mem ((hafter b).mp hb).1

theorem ids_without (h : Valid hist) (hx : IsCritical hist x) (hn : new ∈ hist)
    (hhead : new.id ∈ headsOf hist) (hne : x ≠ new)
    (hbef : ∀ b, b ∈ before ↔ b ∈ hist ∧ (b = x ∨ IsAncestor hist b.id x.id))
    (hafter : ∀ b, b ∈ after ↔ b ∈ hist ∧ IsAncestor hist x.id b.id)
    (hw : ∀ b, b ∈ without ↔ b ∈ hist ∧ b ≠ new) :
    {a | a ∈ without.map (·.id)} = {a | a ∈ before.map (·.id)} ∪ ({a | a ∈ after.map (·.id)} \ {new.id}) := by
  have hxnew := isAncestor_head hx hn hhead hne
  have hall := ids_eq_union hx hbef hafter
  have hnotBefore : new.id ∉ before.map (·.id) := by
    intro hmem
    obtain ⟨b, hb, he⟩ := mem_map.mp hmem
    rcases ((hbef b).mp hb).2 with rfl | hlt
    · exact h.acyclic _ (he ▸ hxnew)
    · exact h.acyclic _ (TransGen.trans (he ▸ hlt) hxnew)
  have hmem : ∀ a, a ∈ without.map (·.id) ↔ a ∈ hist.map (·.id) ∧ a ≠ new.id := by
    intro a
    constructor
    · intro ha
      obtain ⟨b, hb, rfl⟩ := mem_map.mp ha
      obtain ⟨hb, hbn⟩ := (hw b).mp hb
      exact ⟨mem_map_of_mem hb, fun he => hbn (eq_of_id_eq h.nodup hb hn he)⟩
    · rintro ⟨ha, han⟩
      obtain ⟨b, hb, rfl⟩ := mem_map.mp ha
      exact mem_map_of_mem ((hw b).mpr ⟨hb, fun he => han (congrArg _ he)⟩)
  ext a
  have ha := Set.ext_iff.mp hall a
  simp only [Set.mem_ofPred_eq, Set.mem_union, Set.mem_sdiff, Set.mem_singleton_iff] at ha ⊢
  rw [hmem, ha]
  constructor
  · rintro ⟨hb | hb, hne⟩
    · exact .inl hb
    · exact .inr ⟨hb, hne⟩
  · rintro (hb | ⟨hb, hne⟩)
    · exact ⟨.inl hb, fun he => hnotBefore (he ▸ hb)⟩
    · exact ⟨.inr hb, hne⟩

theorem Grown.exists_step (h : Grown H order order t path C) (hid : id ∈ order.map (·.id)) :
    ∃ s < order.length, idAt order s = id ∧ t.ids.findIdx? (· == id) = some s := by
  rw [h.ids_eq]
  cases hfind : (order.map (·.id)).findIdx? (· == id) with
  | none => simpa using findIdx?_eq_none_iff.mp hfind id hid
  | some s =>
    obtain ⟨hs, he, -⟩ := findIdx?_eq_some_iff_getElem.mp hfind
    refine ⟨s, by simpa using hs, ?_, rfl⟩
    rw [idAt, getD_eq_getElem?_getD, getElem?_eq_getElem hs]
    exact eq_of_beq he

theorem Grown.sees_allBut (h : Grown H order order t path C) (hnd : (order.map (·.id)).Nodup) {s : Nat}
    (hs : s < order.length) :
    Tree.Sees (order.map (·.id)) (allBut t s) (order.length - 1) ({a | a ∈ order.map (·.id)} \ {idAt order s}) := by
  intro p hp
  have hlt : p < order.length := by omega
  rw [allBut_has, h.ids_eq, length_map]
  change _ ↔ idAt order p ∈ _
  simp only [Set.mem_sdiff, Set.mem_ofPred_eq, Set.mem_singleton_iff, idAt_mem hlt, true_and, hlt]
  exact not_congr ⟨fun he => by rw [he], idAt_inj hnd hlt hs⟩

/-! ### Merging is replaying -/

/-- Merging one head from any critical block before it gives the replay of the whole history. -/
theorem mergeText_eq_replay (hist : List TextBlock) (h : Valid hist) (new x : TextBlock) (hnew : new ∈ hist)
    (hhead : new.id ∈ headsOf hist) (hx : IsCritical hist x) (hne : x ≠ new)
    (before after without : List TextBlock) (hnd : before.Nodup ∧ after.Nodup ∧ without.Nodup)
    (hbefore : ∀ b, b ∈ before ↔ b ∈ hist ∧ (b = x ∨ IsAncestor hist b.id x.id))
    (hafter : ∀ b, b ∈ after ↔ b ∈ hist ∧ IsAncestor hist x.id b.id)
    (hwithout : ∀ b, b ∈ without ↔ b ∈ hist ∧ b ≠ new) :
    ∃ old current text, replay before = .ok old ∧ replay without = .ok current ∧ replay hist = .ok text ∧
      mergeText current old.length after new.id = .ok (some text) := by
  have hsub : after ⊆ hist := fun c hc => ((hafter c).mp hc).1
  have hids : (after.map (·.id)).Nodup :=
    Nodup.map_on (fun _ ha _ hb he => eq_of_id_eq h.nodup (hsub ha) (hsub hb) he) hnd.2.1
  have hnewAfter : new ∈ after := (hafter new).mpr ⟨hnew, isAncestor_head hx hnew hhead hne⟩
  have hvBefore := isVersion_before h hnd.1 hbefore
  have hvWithout := isVersion_without h hnd.2.2 hhead hwithout
  -- The whole history: what each block adds, and how three of its versions read.
  obtain ⟨C, l, hC, hl, -, hreplay, -⟩ := h.isVersion.characters h
  obtain ⟨l₀, hl₀, hr₀⟩ := hvBefore.listing h hC
  obtain ⟨lₙ, hlₙ, hreplayₙ⟩ := hvWithout.listing h hC
  have hbase : (historyOf hist 0).BaseOk := baseOk_placeholders rfl
  have hview : ∀ {v : List TextBlock} {k : List (Fugue.Item Bytes Char)}, IsVersion hist v →
      Listing ((historyOf hist 0).doc C {a | a ∈ v.map (·.id)}) k → View k := fun hv hk =>
    (hC.mono (map_subset _ hv.subset)).view hbase (hv.past_subset h 0) hk
  have hall := ids_eq_union hx hbefore hafter
  have hallₙ := ids_without h hx hnew hhead hne hbefore hafter hwithout
  refine ⟨text l₀, text lₙ, text l, ?_, ?_, ?_, ?_⟩
  · rw [replay, hr₀, ← visibleText_toCharacter]; rfl
  · rw [replay, hreplayₙ, ← visibleText_toCharacter]; rfl
  · rw [replay, hreplay, ← visibleText_toCharacter]; rfl
  -- The later blocks over the placeholders.
  obtain ⟨positions, htop, hperm, hord⟩ := topological_spec hids true (.inl rfl) fun a ha =>
    h.acyclic a (TransGen.mono (fun _ _ => IsParent.mono hsub) _ _ ha)
  generalize horder : positions.filterMap (after[·]?) = order at hperm hord
  have hfits : Fits (historyOf after (text l₀).length) order :=
    fits_historyOf hids _ (fun b hb => hperm.mem_iff.mp hb) fun b _ p _ hp => (hperm.map (·.id)).mem_iff.mpr hp
  obtain ⟨t, full, path, C', hbuild, hgrown, hin, hmem⟩ := buildAlong_spec hfits hord (some (text l₀).length) rfl
  have hset : {a | a ∈ order.map (·.id)} = {a | a ∈ after.map (·.id)} := Set.ext fun a => (hperm.map (·.id)).mem_iff
  obtain ⟨s, hs, hsid, hfind⟩ := hgrown.exists_step (mem_map_of_mem (hperm.mem_iff.mpr hnewAfter))
  have hrestart := restarts_after h hx hbefore hafter hids (text l₀).length
  have ho := over_placeholders (historyOf after (text l₀).length) C' (hview hvBefore hl₀) hl₀
    ((hC.mono (map_subset _ hvBefore.subset)).marksHeld (hvBefore.past_subset h 0)) rfl
  obtain ⟨order₁, hle, -⟩ := h.exists_order
  have hwf := historyOf_wf (hle.ordered h.nodup) hle.perm 0
  have hbase' : (historyOf after (text l₀).length).BaseOk := baseOk_placeholders rfl
  have hr := hgrown.replays
  rw [hset] at hr
  rw [hall] at hC
  have ht : text l = (full.filter fun i => !t.dead (everything t) i).flatMap (readNode t path (text l₀)) := by
    rw [← map_shown_items]
    refine hrestart.text_eq hwf hbase.block hbase'.block hC hr ho (Set.Subset.refl _) (hview h.isVersion hl)
      (hall ▸ hl) ?_ (readChar_placeholder l₀ _) fun a ha => if_neg ha
    rw [← hset]
    exact hgrown.listing hbase' hin hmem
  have htextₙ : text lₙ = (full.filter (shownWithout t s)).flatMap (readNode t path (text l₀)) := by
    have hlist := hgrown.listing_of hbase' hin hmem (hgrown.sees_allBut hord.nodup hs)
    rw [hset, Set.inter_eq_left.mpr Set.sdiff_subset, hsid] at hlist
    rw [filter_congr fun i hi => (hgrown.shownWithout_eq ((hmem i).mp hi) s).trans (Bool.and_comm _ _),
      ← filter_filter, ← map_shown_items]
    exact hrestart.text_eq hwf hbase.block hbase'.block hC hr ho Set.sdiff_subset (hview hvWithout hlₙ)
      (hallₙ ▸ hlₙ) hlist (readChar_placeholder l₀ _) fun a ha => if_neg ha
  obtain ⟨learnt, hrecover, hread⟩ := hgrown.recover hmem (text l₀) s
  have hb' : build after (some (text l₀).length) = .ok (t, full) := by
    rw [build, Option.isSome_some, htop]
    simp only [bind, Except.bind, horder, hbuild]
  have hnone : ¬ (after.any fun block => block.parents.any (· == new.id)) = true := by
    simp only [any_eq_true, beq_iff_eq, not_exists, not_and]
    rintro block hblock p hp rfl
    exact (mem_headsOf.mp hhead).2 block (hsub hblock) hp
  rw [mergeText, if_neg hnone, hb', ht, htextₙ, ← hread]
  simp only [bind, Except.bind, hfind, hrecover, pure, Except.pure]

theorem branches_edges : IsAncestor branches [0] [1] ∧ IsAncestor branches [0] [2] :=
  ⟨.single ⟨by decide, _, mem_of_getElem? (i := 1) rfl, rfl, by decide⟩,
    .single ⟨by decide, _, mem_of_getElem? (i := 2) rfl, rfl, by decide⟩⟩

/-- The first of the branches is critical: both others edit its text. -/
theorem branches_mergeText : [2] ∈ headsOf branches ∧
    ∃ old current text, replay (branches.take 1) = .ok old ∧ replay (branches.take 2) = .ok current ∧
      replay branches = .ok text ∧ mergeText current old.length (branches.drop 1) [2] = .ok (some text) := by
  obtain ⟨hf, hsecond⟩ := branches_edges
  have hcases : ∀ b ∈ branches, b = ⟨[0], [], [.insert 0 ['a', 'b']]⟩ ∨
      b = ⟨[1], [[0]], [.insert 1 ['x'], .delete 0 1]⟩ ∨ b = ⟨[2], [[0]], [.insert 1 ['y']]⟩ := by
    simp [branches]
  have hback : ∀ a, IsAncestor branches [0] a → ¬ IsAncestor branches a [0] := fun a hlt hgt =>
    branches_valid.acyclic _ (TransGen.trans hlt hgt)
  refine ⟨by decide, mergeText_eq_replay branches branches_valid ⟨[2], [[0]], [.insert 1 ['y']]⟩
    ⟨[0], [], [.insert 0 ['a', 'b']]⟩ (by decide) (by decide) ⟨by decide, fun b hb => ?_⟩ (by decide) _ _ _
    ⟨by decide, by decide, by decide⟩ (fun b => ⟨fun hb => ?_, fun ⟨hb, hlt⟩ => ?_⟩)
    (fun b => ⟨fun hb => ?_, fun ⟨hb, hlt⟩ => ?_⟩) fun b => ⟨fun hb => ?_, fun ⟨hb, hlt⟩ => ?_⟩⟩
  · rcases hcases b hb with rfl | rfl | rfl
    · exact .inl rfl
    · exact .inr (.inr hf)
    · exact .inr (.inr hsecond)
  · obtain rfl := mem_singleton.mp hb
    exact ⟨by decide, .inl rfl⟩
  · rcases hcases b hb with rfl | rfl | rfl
    · decide
    · exact absurd (hlt.resolve_left (by decide)) (hback _ hf)
    · exact absurd (hlt.resolve_left (by decide)) (hback _ hsecond)
  · rcases hcases b (mem_of_mem_drop hb) with rfl | rfl | rfl
    · exact absurd hb (by decide)
    · exact ⟨by decide, hf⟩
    · exact ⟨by decide, hsecond⟩
  · rcases hcases b hb with rfl | rfl | rfl
    · exact absurd hlt (branches_valid.acyclic _)
    · decide
    · decide
  · rcases hcases b (mem_of_mem_take hb) with rfl | rfl | rfl
    · exact ⟨by decide, by decide⟩
    · exact ⟨by decide, by decide⟩
    · exact absurd hb (by decide)
  · rcases hcases b hb with rfl | rfl | rfl
    · decide
    · decide
    · exact absurd rfl hlt

end
end Defra.Text
