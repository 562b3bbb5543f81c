import Defra.Theorems.Text.Ancestry

/-! Building the tree along an order of the blocks: after every step the tree holds the document of the blocks
    built so far, each block adding what its edits make of its own past. -/

namespace Defra.Text
open List TreePath Fugue

def placeholders (n : Nat) : Set (Atom Bytes Char) := {a | ∃ j < n, a = ⟨Tree.runDown (j + 1), none, 0, '\x00'⟩}

theorem baseOk_placeholders {H : History Bytes Char} {n : Nat} (h : H.base = placeholders n) : H.BaseOk where
  block a ha := by
    rw [h] at ha
    obtain ⟨j, -, rfl⟩ := ha
    rfl
  closed a ha p s hp := by
    rw [h] at ha ⊢
    obtain ⟨j, hj, rfl⟩ := ha
    simp only [Tree.runDown_succ] at hp
    obtain ⟨rfl, -⟩ := append_inj' hp rfl
    cases j with
    | zero => exact .inl rfl
    | succ j => exact .inr ⟨_, ⟨j, Nat.lt_of_succ_lt hj, rfl⟩, rfl⟩
  rooted a ha := by
    rw [h] at ha
    obtain ⟨j, -, rfl⟩ := ha
    exact ⟨[], rfl⟩

section
variable {H : History Bytes Char} {order : List TextBlock}

/-- The tree holds the document of the blocks `l` built so far, the first of `order`. -/
structure Grown (H : History Bytes Char) (order l : List TextBlock) (t : Tree) (path : Nat → Path Bytes)
    (C : Bytes → Doc Bytes Char) : Prop where
  ids_eq : t.ids = order.map (·.id)
  rep : t.Rep path
  replays : H.Replays {a | a ∈ l.map (·.id)} C
  doc : t.docOf path = H.doc C {a | a ∈ l.map (·.id)}
  bound : ∀ i, t.Held i →
    (∀ p, (t.nodeOf i).block = .step p → p < l.length) ∧ ∀ p ∈ (t.nodeOf i).deletedBy, p < l.length
  kept : t.Kept path

section
variable (hfits : Fits H order) (hord : Ordered order) (hbase : H.BaseOk) {l r : List TextBlock}
  {block : TextBlock} (hsplit : order = l ++ block :: r) {t : Tree} {path : Nat → Path Bytes}
  {C : Bytes → Doc Bytes Char} (h : Grown H order l t path C) {anc : Ancestry}
  (hanc : anc.Right H order l.length)
include hfits hord hbase hsplit h hanc

/-- The session of the block starts with what it sees of the tree: the document of its past. -/
theorem Grown.opens : Tree.Turn (order.map (·.id)) ⟨anc, .step l.length⟩ l.length ∧
    Tree.Sees (order.map (·.id)) ⟨anc, .step l.length⟩ l.length (insert block.id (H.past block.id)) ∧
    (H.doc C {a | a ∈ l.map (·.id)}).only (insert block.id (H.past block.id)) = H.doc C (H.past block.id) ∧
    ∃ items, Listing (H.doc C (H.past block.id)) items ∧
      (⟨items, [], 0⟩ : Session Bytes Char).Ok (H.doc C (H.past block.id)) ((order.map (·.id)).getD l.length []) ∧
      Tree.Between (order.map (·.id)) l.length (H.doc C {a | a ∈ l.map (·.id)}) ⟨items, [], 0⟩ t path := by
  have hid : idAt order l.length = block.id := by rw [hsplit, idAt_middle]
  have hlen : l.length < order.length := by rw [hsplit, length_append, length_cons]; omega
  have hpast := hfits.past_subset hord hsplit
  have htrans := fun a ha => (hfits.past_spec hord hsplit a ha).2
  have hnew := hord.not_mem hsplit
  have ht : Tree.Turn (order.map (·.id)) ⟨anc, .step l.length⟩ l.length :=
    ⟨hord.nodup, by simpa using hlen, rfl⟩
  have hsees : Tree.Sees (order.map (·.id)) ⟨anc, .step l.length⟩ l.length
      (insert block.id (H.past block.id)) := by
    intro p hp
    simp only [Version.has, Bool.or_eq_true, beq_iff_eq, Origin.step.injEq, hanc p, hid, Set.mem_insert_iff]
    constructor
    · rintro (rfl | ⟨-, hm⟩)
      · exact .inl hid
      · exact .inr hm
    · rintro (he | hm)
      · exact .inl (idAt_inj hord.nodup (by omega) hlen (he.trans hid.symm)).symm
      · by_cases hpl : p = l.length
        · exact .inl hpl.symm
        · exact .inr ⟨by omega, hm⟩
  have hb : t.Bound l.length := fun i hi =>
    ⟨fun p hp => Nat.le_of_lt ((h.bound i hi).1 p hp), fun p hp => Nat.le_of_lt ((h.bound i hi).2 p hp)⟩
  have ho : (t.docOf path).only (insert block.id (H.past block.id)) = H.doc C (H.past block.id) := by
    rw [h.doc, h.replays.only hbase]
    congr 1
    ext a
    constructor
    · rintro ⟨rfl | ha, hm⟩
      · exact absurd hm hnew
      · exact ha
    · exact fun ha => ⟨.inr ha, hpast ha⟩
  have hr := h.replays.mono hpast
  have hread : Tree.ReadAt (order.map (·.id)) ⟨anc, .step l.length⟩ _ _ t path := ⟨h.ids_eq, h.rep, hb, hsees⟩
  have hnodes := h.rep.traverseLoop_spec (t.present ⟨anc, .step l.length⟩)
    (hread.present_closed fun a ha p e hp => by
      rw [ho] at ha ⊢
      exact (hr.closed hbase htrans ha).2 p e hp)
  have hlist := hread.listing hnodes.1 hnodes.2
  rw [ho] at hlist
  generalize flatMap _ _ = items at hlist
  rw [h.doc] at ho
  refine ⟨ht, hsees, ho, items, hlist, .start _ (hr.view hbase htrans hlist) hlist (hr.marksHeld htrans),
    h.ids_eq, h.rep, ?_, hb, h.kept⟩
  rw [h.doc]
  -- A session that starts has added nothing: its items are all from its past.
  ext a
  · refine ⟨.inl, ?_⟩
    rintro (ha | ⟨-, x, hx, rfl⟩)
    · exact ha
    · exact (History.doc_mono hpast).1 ((hlist.mem x).mp hx).1
  · simp [Session.contribution]

theorem Grown.step : ∃ t' path' C', applyOps t block.ops l.length anc = .ok t' ∧ Grown H order (l ++ [block]) t' path' C' := by
  have hp := hfits.past_subset hord hsplit
  have htrans := fun a ha => (hfits.past_spec hord hsplit a ha).2
  have hclosed : ∀ a ∈ {a | a ∈ l.map (·.id)}, H.past a ⊆ {a | a ∈ l.map (·.id)} := by
    rintro a ha
    obtain ⟨before, hb, rfl⟩ := mem_map.mp ha
    obtain ⟨l₁, l₂, rfl⟩ := append_of_mem hb
    intro c hc
    have := hfits.past_subset hord (l := l₁) (r := l₂ ++ block :: r) (by rw [hsplit]; simp) hc
    simp only [Set.mem_ofPred_eq, map_append, mem_append] at this ⊢
    exact .inl this
  have hid : (order.map (·.id)).getD l.length [] = block.id := by rw [hsplit]; exact idAt_middle l r block
  obtain ⟨ht, hsees, ho, items, hlist, hs, hstart⟩ := h.opens hfits hord hbase hsplit hanc
  obtain ⟨t', path', heq, hbetween⟩ := Tree.Between.applyOps ht hsees
    (by rw [hid]; exact Set.mem_insert _ _) ho block.ops hstart hs
  obtain ⟨C', hr, -, hd⟩ := h.replays.extend hbase hclosed (hord.not_mem hsplit) hp htrans hlist
  have hset : {a | a ∈ (l ++ [block]).map (·.id)} = insert block.id {a | a ∈ l.map (·.id)} := by
    ext a
    simp only [map_append, map_cons, map_nil, mem_append, mem_singleton, Set.mem_ofPred_eq,
      Set.mem_insert_iff]
    tauto
  refine ⟨t', path', C', ?_, hbetween.ids_eq, hbetween.rep, ?_, ?_, ?_, hbetween.kept⟩
  · simp [applyOps, heq, bind, Except.bind, pure, Except.pure]
  · rw [hset]
    exact hr
  · rw [hset, hd, hbetween.doc, hid, hfits.edits block (by simp [hsplit])]
    rfl
  · intro i hi
    simp only [length_append, length_singleton, Nat.lt_succ_iff]
    exact hbetween.bound i hi

end

/-- A step of `build`, on the tree and the ancestry of every block before. -/
def buildStep (order : List TextBlock) (state : Tree × List Ancestry) (block : TextBlock) : Except Error (Tree × List Ancestry) := do
  let before := ancestryOf (parentsIn order block) state.2 state.2.length
  let t ← applyOps state.1 block.ops state.2.length before
  return (t, state.2 ++ [before])

theorem buildSteps_eq (rest : List TextBlock) (t : Tree) (anc : List Ancestry) :
    buildSteps order rest t anc = (rest.foldlM (buildStep order) (t, anc)).map Prod.fst := by
  induction rest generalizing t anc with
  | nil => rfl
  | cons block rest ih =>
    rw [buildSteps, foldlM_cons, buildStep]
    cases applyOps t block.ops anc.length (ancestryOf (parentsIn order block) anc anc.length) with
    | error error => rfl
    | ok t' => exact ih t' _

/-- After the first blocks of the order, with the ancestry of each. -/
theorem Grown.build (hfits : Fits H order) (hord : Ordered order) (hbase : H.BaseOk) {start : Tree} {path : Nat → Path Bytes}
    {C : Bytes → Doc Bytes Char} (h : Grown H order [] start path C) {l r : List TextBlock} (hsplit : order = l ++ r) :
    ∃ t anc path C, l.foldlM (buildStep order) (start, []) = .ok (t, anc) ∧ Grown H order l t path C ∧
      anc.length = l.length ∧ ∀ (j : Nat) (a : Ancestry), anc[j]? = some a → a.Right H order j := by
  induction l using reverseRecOn generalizing r with
  | nil => exact ⟨start, [], path, C, rfl, h, rfl, fun j a hj => by cases hj⟩
  | append_singleton l block ih =>
    rw [append_assoc] at hsplit
    obtain ⟨t, anc, path, C, heq, h, hlen, hright⟩ := ih hsplit
    have hanc := ancestryOf_right hfits hord hsplit hlen hright
    obtain ⟨t', path', C', happly, h'⟩ := h.step hfits hord hbase hsplit (hlen ▸ hanc)
    refine ⟨t', anc ++ [ancestryOf (parentsIn order block) anc anc.length], path', C', ?_, h', by simp [hlen],
      fun j a hj => ?_⟩
    · rw [foldlM_append, heq]
      simp only [bind, Except.bind, foldlM_cons, foldlM_nil, buildStep, hlen, happly]
      rfl
    · rcases Nat.lt_trichotomy j anc.length with hlt | rfl | hgt
      · rw [getElem?_append_left hlt] at hj
        exact hright j a hj
      · rw [getElem?_concat_length] at hj
        obtain rfl := Option.some.inj hj
        exact hanc
      · rw [getElem?_eq_none (by rw [length_append, length_singleton]; omega)] at hj
        cases hj

/-- The tree `build` starts from holds the placeholders alone. -/
theorem grown_withPlaceholder (order : List TextBlock) {n : Nat} (hbase : H.base = placeholders n) :
    ∃ path C, Grown H order [] (.withPlaceholder (order.map (·.id)) n) path C := by
  cases n with
  | zero =>
    let t : Tree := .withPlaceholder (order.map (·.id)) 0
    have hn : ∀ i, ¬ t.Held i := fun i hi => absurd hi.2 (Nat.not_lt.mpr hi.1)
    have hkids : ∀ i side, (t.nodeOf i).kids side = [] := fun i side => by
      rcases i with _ | i <;> cases side <;> rfl
    refine ⟨fun _ => [], fun _ => ⟨∅, ∅⟩, rfl,
      ⟨Nat.one_pos, rfl, rfl, rfl, fun i side c hc => ?_, fun i side => ?_, fun c hc => absurd hc (hn c),
        fun i hi => absurd hi (hn i), fun i hi => absurd hi (hn i), fun i _ _ _ hi => absurd hi (hn i)⟩,
      fun b hb => by simp at hb, ?_, fun i hi => absurd hi (hn i), fun order' ho => ?_⟩
    · rw [hkids] at hc
      cases hc
    · rw [hkids]
      exact Pairwise.nil
    · ext a
      · simp only [Tree.docOf, History.mem_doc_chars, Set.mem_ofPred_eq, hbase, placeholders]
        constructor
        · rintro ⟨i, -, hi, -⟩
          exact absurd hi (hn i)
        · rintro (⟨j, hj, -⟩ | ⟨b, hb, -⟩)
          · exact absurd hj (Nat.not_lt_zero j)
          · simp at hb
      · simp only [Tree.docOf, History.mem_doc_marks, Set.mem_ofPred_eq]
        constructor
        · rintro ⟨i, -, -, hi, -⟩
          exact absurd hi (hn i)
        · rintro ⟨b, hb, -⟩
          simp at hb
    · obtain rfl := Option.some.inj ho
      obtain ⟨hok, hinto⟩ := Order.new_spec [] fun _ => 0
      refine ⟨hok.congr fun i hi => ?_, by rw [hinto]; exact Pairwise.nil, fun i => ?_⟩
      · cases hi
      · exact iff_of_false not_mem_nil (hn i)
  | succ n =>
    let t : Tree := .withPlaceholder (order.map (·.id)) (n + 1)
    have hheld : ∀ i, t.Held i ↔ i = 1 := fun i =>
      ⟨fun hi => Nat.le_antisymm (Nat.le_of_lt_succ hi.2) hi.1, fun hi => hi ▸ ⟨Nat.one_pos, Nat.lt_succ_self 1⟩⟩
    have hkids : ∀ i side, ∀ c ∈ (t.nodeOf i).kids side, i = ROOT ∧ side = .right ∧ c = 1 := by
      intro i side c hc
      rcases i with _ | _ | i <;> cases side
      · cases hc
      · exact ⟨rfl, rfl, mem_singleton.mp hc⟩
      all_goals cases hc
    refine ⟨fun i => if i = ROOT then [] else [.right []], fun _ => ⟨∅, ∅⟩, rfl,
      ⟨Nat.succ_pos 1, rfl, rfl, rfl, fun i side c hc => ?_, fun i side => ?_, fun c hc => ?_, fun i hi => ?_,
        fun i hi => ?_, fun i j m k hi hj hm hk he => ?_⟩,
      fun b hb => by simp at hb, ?_, fun i hi => ?_, fun order' ho => ?_⟩
    · obtain ⟨rfl, rfl, rfl⟩ := hkids i side c hc
      exact ⟨(hheld 1).mpr rfl, rfl⟩
    · rcases i with _ | _ | i <;> cases side
      · exact Pairwise.nil
      · exact pairwise_singleton _ _
      all_goals exact Pairwise.nil
    · obtain rfl := (hheld c).mp hc
      exact ⟨ROOT, Nat.succ_pos 1, .right, mem_singleton_self 1⟩
    · obtain rfl := (hheld i).mp hi
      exact .inr ⟨Nat.succ_pos n, rfl⟩
    · obtain rfl := (hheld i).mp hi
      exact Origin.noConfusion
    · obtain rfl := (hheld i).mp hi
      obtain rfl := (hheld j).mp hj
      have := congrArg length (append_cancel_left he)
      simp only [Tree.runDown, length_replicate] at this
      exact ⟨rfl, this⟩
    · have hchar : ∀ m, t.charOf (fun i => if i = ROOT then [] else [.right []]) 1 m =
          ⟨Tree.runDown (m + 1), none, 0, '\x00'⟩ := fun m => by
        rfl
      ext a
      · simp only [Tree.docOf, History.mem_doc_chars, Set.mem_ofPred_eq, hbase, placeholders]
        constructor
        · rintro ⟨i, m, hi, hm, rfl⟩
          obtain rfl := (hheld i).mp hi
          exact .inl ⟨m, hm, hchar m⟩
        · rintro (⟨j, hj, rfl⟩ | ⟨b, hb, -⟩)
          · exact ⟨1, j, (hheld 1).mpr rfl, hj, hchar j⟩
          · simp at hb
      · simp only [Tree.docOf, History.mem_doc_marks, Set.mem_ofPred_eq]
        constructor
        · rintro ⟨i, m, p, hi, -, hp, -⟩
          obtain rfl := (hheld i).mp hi
          cases hp
        · rintro ⟨b, hb, -⟩
          simp at hb
    · obtain rfl := (hheld i).mp hi
      exact ⟨fun p hp => Origin.noConfusion hp, fun p hp => by cases hp⟩
    · obtain rfl := Option.some.inj ho
      obtain ⟨hok, hinto⟩ := Order.new_spec [1] fun _ => n + 1
      refine ⟨hok.congr fun i hi => ?_, by rw [hinto]; exact pairwise_singleton _ _, fun i => ?_⟩
      · rw [mem_singleton.mp hi]
        rfl
      · rw [hinto, mem_singleton]
        exact (hheld i).symm

theorem buildAlong_spec (hfits : Fits H order) (hord : Ordered order) (base : Option Nat)
    (hbase : H.base = placeholders (base.getD 0)) :
    ∃ t full path C, buildAlong order base = .ok (t, full) ∧ Grown H order order t path C ∧
      t.InOrder path full ∧ ∀ i, i ∈ full ↔ t.Held i := by
  obtain ⟨path₀, C₀, h₀⟩ := grown_withPlaceholder order hbase
  obtain ⟨t, anc, path, C, hfold, h, -⟩ := h₀.build hfits hord (baseOk_placeholders hbase) (append_nil order).symm
  have heq : buildSteps order order (.withPlaceholder (order.map (·.id)) (base.getD 0)) [] = .ok t := by
    rw [buildSteps_eq, hfold]
    rfl
  cases hk : t.order with
  | some kept =>
    obtain ⟨-, hin, hmem⟩ := h.kept kept hk
    exact ⟨t, kept.intoNodes, path, C, by simp [buildAlong, heq, hk, bind, Except.bind, pure, Except.pure], h, hin, hmem⟩
  | none =>
    have hspec := h.rep.traverseLoop_spec (fun _ => true) fun _ _ _ _ _ _ => rfl
    exact ⟨t, t.traverse none, path, C, by simp [buildAlong, heq, hk, bind, Except.bind, pure, Except.pure], h, hspec.1,
      fun i => (hspec.2 i).trans ⟨fun hi => hi.1, fun hi => ⟨hi, rfl⟩⟩⟩

end
end Defra.Text
