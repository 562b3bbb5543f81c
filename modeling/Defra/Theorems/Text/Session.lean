import Defra.Theorems.Text.Grow

/-! An op of a block, on the tree and its order, is an edit of the block's session: the order lists the
    characters the session reads, and the tree holds what the session has added to the document. -/

namespace Defra.Text
open List TreePath Fugue

namespace Tree

/-- The turn of the block at `step` of the topological order `ids`, which reads `v`. -/
structure Turn (ids : List Bytes) (v : Version) (step : Nat) : Prop where
  nodup : ids.Nodup
  lt : step < ids.length
  own : v.block = .step step

/-- The tree holds only what blocks up to `step` wrote. -/
def Bound (t : Tree) (step : Nat) : Prop :=
  ∀ i, t.Held i → (∀ p, (t.nodeOf i).block = .step p → p ≤ step) ∧ ∀ p ∈ (t.nodeOf i).deletedBy, p ≤ step

/-- The tree and the order hold what the session `s` reads, and the tree holds `d` with what the session has added. -/
structure Sim (ids : List Bytes) (v : Version) (step : Nat) (d : Doc Bytes Char) (s : Session Bytes Char)
    (t : Tree) (path : Nat → Path Bytes) (order : Order) : Prop where
  ids_eq : t.ids = ids
  rep : t.Rep path
  ok : order.Ok (t.weight v)
  reads : order.intoNodes.flatMap (t.items path v) = s.items
  holds : ∀ i, i ∈ order.intoNodes ↔ t.Held i ∧ t.present v i = true
  view : View s.items
  doc : t.docOf path = d ∪ s.contribution (ids.getD step [])
  bound : t.Bound step

section
variable {ids : List Bytes} {v : Version} {step : Nat} {d : Doc Bytes Char} {s : Session Bytes Char}
  {t : Tree} {path : Nat → Path Bytes} {order : Order} {spot : Spot} {l r : List Nat} {i : Nat}

theorem Turn.has_own (ht : Turn ids v step) : v.has (.step step) = true := by
  simp [Version.has, ht.own]

/-! ### Nodes and their characters -/

theorem items_inOrder (t : Tree) (path : Nat → Path Bytes) (v : Version) (l : List Nat) :
    ((l.flatMap (t.items path v)).Pairwise fun x y => Before x.path y.path) ↔ t.InOrder path l := by
  rw [pairwise_flatMap]
  constructor
  · rintro ⟨-, hl⟩
    refine hl.imp fun hij m hm n hn => ?_
    exact hij _ (mem_items.mpr ⟨m, hm, rfl⟩) _ (mem_items.mpr ⟨n, hn, rfl⟩)
  · intro hl
    refine ⟨fun i _ => ?_, hl.imp fun hij x hx y hy => ?_⟩
    · refine pairwise_map.mpr (pairwise_lt_range.imp fun hmn => ?_)
      exact runDown_before hmn (path i)
    · obtain ⟨m, hm, rfl⟩ := mem_items.mp hx
      obtain ⟨n, hn, rfl⟩ := mem_items.mp hy
      exact hij m hm n hn

theorem weight_pos_iff (hrep : t.Rep path) (hi : t.Held i) : 0 < t.weight v i ↔ t.dead v i = false := by
  have := hrep.len_pos hi
  cases hd : t.dead v i <;> simp [weight, hd]
  exact this

theorem split_splits {n : Nat} (hn : n < t.nodes.length) (k : Nat) :
    Splits t ((t.modify n fun head => { head with len := k, right := [t.nodes.length] }).push
      { t.nodeOf n with len := (t.nodeOf n).len - k, left := [] }) n k := by
  refine ⟨rfl, by simp, ?_, ?_, fun j hj hne => ?_⟩
  · rw [nodeOf_push_lt (by simpa using hn), nodeOf_modify_self hn]
  · have := nodeOf_push_self (t.modify n fun head => { head with len := k, right := [t.nodes.length] })
      { t.nodeOf n with len := (t.nodeOf n).len - k, left := [] }
    rwa [length_modify] at this
  · rw [nodeOf_push_lt (by simpa using hj), nodeOf_modify_ne hne]

theorem items_concat (path : Nat → Path Bytes) (v : Version) {m : Nat} (hm : (t.nodeOf i).len = m + 1) :
    ∃ l, t.items path v i = l ++ [{ t.charOf path i m with dead := t.dead v i }] :=
  ⟨_, by rw [items, hm, range_succ, map_append]; rfl⟩

theorem getD_inj {l : List Bytes} (h : l.Nodup) {j : Nat} (hi : i < l.length) (hj : j < l.length)
    (he : l.getD i [] = l.getD j []) : i = j := by
  rw [getD_eq_getElem?_getD, getD_eq_getElem?_getD, getElem?_eq_getElem hi,
    getElem?_eq_getElem hj] at he
  exact h.getElem_inj_iff.mp he

/-- The first `k` characters that the version shows end where a node does. -/
def Edge (t : Tree) (v : Version) (order : Order) (k : Nat) : Prop :=
  ∃ l r, order.intoNodes = l ++ r ∧ (l.map (t.weight v)).sum = k

theorem edge_split {t' : Tree} {order' : Order} {n m k : Nat} (hflat : order.intoNodes = l ++ n :: r)
    (hflat' : order'.intoNodes = l ++ n :: m :: r)
    (hother : ∀ i ∈ l ++ r, t'.weight v i = t.weight v i)
    (hsum : t'.weight v n + t'.weight v m = t.weight v n) (he : t.Edge v order k) :
    t'.Edge v order' k := by
  obtain ⟨l₀, r₀, h₀, hk⟩ := he
  have hsame : ∀ ms, ms ⊆ l ++ r → ms.map (t'.weight v) = ms.map (t.weight v) := fun ms hms =>
    map_congr_left fun i hi => hother i (hms hi)
  rw [hflat] at h₀
  rcases append_eq_append_iff.mp h₀ with ⟨c, hl, hc⟩ | ⟨c, hl, hc⟩
  · cases c with
    | nil =>
      refine ⟨l, n :: m :: r, hflat', ?_⟩
      rw [append_nil] at hl
      rw [hsame l (subset_append_left l r), ← hl, hk]
    | cons n' c =>
      obtain ⟨rfl, rfl⟩ := cons.inj hc
      refine ⟨l ++ n :: m :: c, r₀, by rw [hflat']; simp, ?_⟩
      rw [← hk, hl]
      simp only [map_append, map_cons, sum_append, sum_cons]
      rw [hsame l (subset_append_left l _),
        hsame c (Subset.trans (subset_append_left c r₀) (subset_append_right l _))]
      omega
  · refine ⟨l₀, c ++ n :: m :: r, by rw [hflat', hl, append_assoc], ?_⟩
    rw [hsame l₀ (Subset.trans (hl ▸ subset_append_left l₀ c) (subset_append_left l r)), hk]

theorem items_of_dead (path : Nat → Path Bytes) (hd : t.dead v i = true) :
    (t.items path v i).map Item.die = t.items path v i ∧ shown (t.items path v i) = [] := by
  constructor
  · rw [items, map_map]
    exact map_congr_left fun m _ => by simp [Item.die, hd]
  · rw [shown, filter_eq_nil_iff]
    intro x hx
    obtain ⟨m, -, rfl⟩ := mem_items.mp hx
    simp [hd]

theorem flatMap_items_of_dead (path : Nat → Path Bytes) (hd : ∀ i ∈ l, t.dead v i = true) :
    (l.flatMap (t.items path v)).map Item.die = l.flatMap (t.items path v) ∧
      shown (l.flatMap (t.items path v)) = [] := by
  induction l with
  | nil => exact ⟨rfl, rfl⟩
  | cons i l ih =>
    have hi := items_of_dead path (hd i (by simp))
    have hl := ih fun j hj => hd j (by simp [hj])
    simp [hi, hl]

section
variable (h : Sim ids v step d s t path order)
include h

/-! ### The order and the session -/

theorem Sim.visible : order.visible = (shown s.items).length := by
  rw [h.ok.total, ← h.reads, length_shown_flatMap]

theorem Sim.held (hat : order.At spot l r) (hi : i ∈ l ++ r) : t.Held i :=
  ((h.holds i).mp (hat.append ▸ hi)).1

theorem Sim.split_items
    (hat : order.At spot l r) : l.flatMap (t.items path v) ++ r.flatMap (t.items path v) = s.items := by
  rw [← flatMap_append, ← hat.append, h.reads]

theorem Sim.mem_items_iff {x : Fugue.Item Bytes Char} :
    x ∈ s.items ↔ ∃ i m, t.Held i ∧ t.present v i = true ∧ m < (t.nodeOf i).len ∧
      x = { t.charOf path i m with dead := t.dead v i } := by
  rw [← h.reads, mem_flatMap]
  constructor
  · rintro ⟨i, hi, hx⟩
    obtain ⟨m, hm, rfl⟩ := mem_items.mp hx
    obtain ⟨h1, h2⟩ := (h.holds i).mp hi
    exact ⟨i, m, h1, h2, hm, rfl⟩
  · rintro ⟨i, m, h1, h2, hm, rfl⟩
    exact ⟨i, (h.holds i).mpr ⟨h1, h2⟩, mem_items.mpr ⟨m, hm, rfl⟩⟩

theorem Sim.inOrder : t.InOrder path order.intoNodes := by
  rw [← items_inOrder t path v, h.reads]
  exact h.view.sorted

theorem Sim.nodup : order.intoNodes.Nodup :=
  h.rep.nodup h.inOrder fun i hi => ((h.holds i).mp hi).1

theorem Sim.ne_of_at {n : Nat} (hat : order.At spot l (n :: r)) (hi : i ∈ l ++ r) : i ≠ n := by
  have hnd := h.nodup
  rw [hat.append, nodup_middle, nodup_cons] at hnd
  exact fun he => hnd.1 (he ▸ hi)

/-- A node `m` is added to the tree and to the order. -/
theorem Sim.holds_added {t' : Tree} {order' : Order} {m : Nat}
    (hat : order.At spot l r) (hflat : order'.intoNodes = l ++ m :: r) (hheld : t'.Held i ↔ t.Held i ∨ i = m)
    (hold : t.Held i → t'.present v i = t.present v i) (hnew : t'.present v m = true) :
    i ∈ order'.intoNodes ↔ t'.Held i ∧ t'.present v i = true := by
  have hmem : i ∈ order'.intoNodes ↔ i ∈ order.intoNodes ∨ i = m := by
    rw [hflat, hat.append]
    simp only [mem_append, mem_cons]
    tauto
  rw [hmem, h.holds, hheld]
  constructor
  · rintro (⟨h1, h2⟩ | rfl)
    · exact ⟨.inl h1, hold h1 ▸ h2⟩
    · exact ⟨.inr rfl, hnew⟩
  · rintro ⟨h1 | rfl, h2⟩
    · exact .inl ⟨h1, hold h1 ▸ h2⟩
    · exact .inr rfl

/-- The same characters, on both sides of a node edge after the first `k` of the span. -/
theorem Sim.split {n k : Nat} (hat : order.At spot l (n :: r)) (hpos : 0 < k) (hk : k < (t.nodeOf n).len) :
    ∃ t' path' order' first rest m, t.split order spot k v = (t', order', first, rest) ∧
      Sim ids v step d s t' path' order' ∧ order'.At first l (n :: m :: r) ∧ order'.At rest (l ++ [n]) (m :: r) ∧
      (∀ i ∈ l ++ r, t'.weight v i = t.weight v i) ∧
      t'.weight v n + t'.weight v m = t.weight v n ∧
      t'.weight v n = if t.dead v n then 0 else k := by
  have hn := h.held hat (i := n) (by simp)
  have hsp := split_splits (t := t) hn.2 k
  generalize ht' : (t.modify n fun head => { head with len := k, right := [t.nodes.length] }).push
      { t.nodeOf n with len := (t.nodeOf n).len - k, left := [] } = t' at hsp
  have hh := hsp.held_iff h.rep
  have hne : ∀ i ∈ l ++ r, i ≠ n := fun i hi => h.ne_of_at hat hi
  have hlt : ∀ i ∈ l ++ r, i < t.nodes.length := fun i hi =>
    (h.held hat (i := i) (by simp only [mem_append, mem_cons] at hi ⊢; tauto)).2
  have ho : ∀ i ∈ l ++ r, t'.weight v i = t.weight v i := fun i hi =>
    Same.weight (hsp.other i (hlt i hi) (hne i hi) ▸ Same.refl _) v
  have hd : t'.dead v n = t.dead v n := by rw [dead, hsp.first, dead]
  have hd' : t'.dead v t.nodes.length = t.dead v n := by rw [dead, hsp.rest, dead]
  have hwn : t'.weight v n = if t.dead v n then 0 else k := by rw [weight, hd, hsp.first]
  have hwm : t'.weight v t.nodes.length = if t.dead v n then 0 else (t.nodeOf n).len - k := by
    rw [weight, hd', hsp.rest]
  have hsum : t'.weight v n + t'.weight v t.nodes.length = t.weight v n := by
    rw [hwn, hwm, weight]
    split <;> omega
  -- The order hides what moved to the rest, then shows it after the first part.
  have hhide := h.ok.hide hat hsum ho
  have ha := (hat.hide spot (t'.weight v t.nodes.length)).after hhide
  obtain ⟨hok', hat'⟩ := ha.insert hhide t.nodes.length
  generalize hins : (order.hide spot (t'.weight v t.nodes.length)).insert
    ((order.hide spot (t'.weight v t.nodes.length)).after spot) t.nodes.length
    (t'.weight v t.nodes.length) (t'.weight v) = ins at hok' hat'
  have heq : t.split order spot k v = (t', ins.1, ins.1.before ins.2, ins.2) := by
    simp only [Tree.split, hat.nodeAt]
    rw [show ∀ (u : Tree) (n : Node), ({ u with nodes := u.nodes ++ [n] } : Tree) = u.push n from fun _ _ => rfl, ht', hins]
  have hflat : ins.1.intoNodes = l ++ n :: t.nodes.length :: r := by rw [hat'.append, append_assoc]; rfl
  have hitems : ∀ i ∈ l ++ r, t'.items (addPath path t.nodes.length (path n ++ runDown k)) v i =
      t.items path v i := fun i hi => hsp.items_other (hlt i hi) (hne i hi) v
  refine ⟨t', addPath path t.nodes.length (path n ++ runDown k), ins.1, ins.1.before ins.2, ins.2, t.nodes.length, heq,
    ⟨hsp.ids.trans h.ids_eq, hsp.rep h.rep hn hpos hk, hok', ?_, ?_, h.view, ?_, ?_⟩, hat'.before hok', hat', ho,
    hsum, hwn⟩
  · have hparts := hsp.items_parts h.rep hn hk v
    rw [hflat, ← h.reads, hat.append, flatMap_append, flatMap_append, flatMap_cons, flatMap_cons,
      flatMap_cons, ← append_assoc (t'.items _ v n), hparts,
      flatMap_congr fun i hi => hitems i (mem_append_left r hi),
      flatMap_congr fun i hi => hitems i (mem_append_right l hi)]
  · refine fun i => h.holds_added (hat.after h.ok) (by rw [hflat, append_assoc]; rfl) (hh i) (fun hi => ?_) ?_
    · rw [present, hsp.block_old hi.2, present]
    · rw [present, hsp.rest]
      exact ((h.holds n).mp (by rw [hat.append]; simp)).2
  · rw [hsp.docOf h.rep hn hk, h.doc]
  · intro i hi
    rcases (hh i).mp hi with hi | rfl
    · by_cases he : i = n
      · rw [he, hsp.first]
        exact h.bound n hn
      · rw [hsp.other i hi.2 he]
        exact h.bound i hi
    · rw [hsp.rest]
      exact h.bound n hn

theorem Sim.nthVisible {k : Nat} (hk : k < order.visible) :
    ∃ spot inner l n r, order.nthVisible k (t.weight v) = .ok (spot, inner) ∧ order.At spot l (n :: r) ∧
      t.dead v n = false ∧ inner < (t.nodeOf n).len ∧ t.weight v n = (t.nodeOf n).len ∧
      (l.map (t.weight v)).sum + inner = k := by
  obtain ⟨spot, inner, l, n, r, hnth, hat, hi, hs⟩ := h.ok.nthVisible hk
  have hn := h.held hat (i := n) (by simp)
  have hlive : t.dead v n = false := (weight_pos_iff h.rep hn).mp (Nat.zero_lt_of_lt hi)
  have hw : t.weight v n = (t.nodeOf n).len := by simp [weight, hlive]
  exact ⟨spot, inner, l, n, r, hnth, hat, hlive, hw ▸ hi, hw, hs.symm⟩

/-- `endAt` finds the node that ends with visible character `k`. -/
theorem Sim.endAt {k : Nat} (hk : k < order.visible) :
    ∃ t' path' order' spot l n r, t.endAt order k v = .ok (t', order', spot) ∧
      Sim ids v step d s t' path' order' ∧ order'.At spot l (n :: r) ∧
      (l.map (t'.weight v)).sum + t'.weight v n = k + 1 ∧ 0 < t'.weight v n := by
  obtain ⟨spot, inner, l, n, r, hnth, hat, hlive, hinner, hw, hs⟩ := h.nthVisible hk
  by_cases hlast : inner + 1 < (t.nodeOf n).len
  · obtain ⟨t', path', order', first, rest, m, heq, hsim, hat', -, hother, -, hwn⟩ :=
      h.split hat (Nat.succ_pos inner) hlast
    refine ⟨t', path', order', first, l, n, m :: r, ?_, hsim, hat', ?_, ?_⟩
    · simp [Tree.endAt, hnth, hat.nodeAt, hlast, heq, bind, Except.bind, pure, Except.pure]
    · rw [hwn, hlive, map_congr_left fun i hi => hother i (mem_append_left r hi)]
      simp only [Bool.false_eq_true, if_false]
      omega
    · rw [hwn, hlive]
      exact Nat.succ_pos inner
  · refine ⟨t, path, order, spot, l, n, r, ?_, h, hat, by omega, by omega⟩
    simp [Tree.endAt, hnth, hat.nodeAt, hlast, bind, Except.bind, pure, Except.pure]

/-- `startAt` finds the node that starts with visible character `k`. -/
theorem Sim.startAt {k : Nat} (hk : k < order.visible) :
    ∃ t' path' order' spot l n r, t.startAt order k v = .ok (t', order', spot) ∧
      Sim ids v step d s t' path' order' ∧ order'.At spot l (n :: r) ∧
      (l.map (t'.weight v)).sum = k ∧ ∀ e, t.Edge v order e → t'.Edge v order' e := by
  obtain ⟨spot, inner, l, n, r, hnth, hat, hlive, hinner, hw, hs⟩ := h.nthVisible hk
  by_cases hf : inner = 0
  · refine ⟨t, path, order, spot, l, n, r, ?_, h, hat, by omega, fun e he => he⟩
    simp [Tree.startAt, hnth, hf, bind, Except.bind, pure, Except.pure]
  · obtain ⟨t', path', order', first, rest, m, heq, hsim, hat', hat'', hother, hparts, hwn⟩ :=
      h.split hat (Nat.pos_of_ne_zero hf) hinner
    refine ⟨t', path', order', rest, l ++ [n], m, r, ?_, hsim, hat'', ?_, fun e he => ?_⟩
    · simp [Tree.startAt, hnth, hf, heq, bind, Except.bind, pure, Except.pure]
    · rw [map_append, sum_append, map_congr_left fun i hi => hother i (mem_append_left r hi)]
      simp only [map_cons, map_nil, sum_cons, sum_nil, hwn, hlive, Bool.false_eq_true, if_false]
      omega
    · exact edge_split hat.append hat'.append hother hparts he

/-! ### Origins -/

theorem Sim.hang_right {o : Nat} (ho : o = ROOT ∨ t.Held o) : o = ROOT ∧ t.hang path o .right = [] ∨
      t.Held o ∧ ∃ m < (t.nodeOf o).len, m + 1 = (t.nodeOf o).len ∧ t.hang path o .right = path o ++ runDown m := by
  rcases ho with rfl | ho
  · refine .inl ⟨rfl, ?_⟩
    rw [hang, h.rep.rootPath, h.rep.rootLen]
    rfl
  · have := h.rep.len_pos ho
    exact .inr ⟨ho, (t.nodeOf o).len - 1, by omega, by omega, rfl⟩

theorem Sim.hang_inj {o p : Nat} (ho : o = ROOT ∨ t.Held o)
    (hp : p = ROOT ∨ t.Held p) (he : t.hang path o .right = t.hang path p .right) : o = p := by
  rcases h.hang_right ho with ⟨rfl, h1⟩ | ⟨ho, m, hm, -, h1⟩ <;>
    rcases h.hang_right hp with ⟨rfl, h2⟩ | ⟨hp, n, hn, -, h2⟩
  · rfl
  · rw [h1] at he
    exact absurd (append_eq_nil_iff.mp he.symm).1 (h.rep.path_ne_nil hp)
  · rw [h2] at he
    exact absurd (append_eq_nil_iff.mp he).1 (h.rep.path_ne_nil ho)
  · rw [h1, h2] at he
    exact (h.rep.inj o p m n ho hp hm hn he).1

/-- The version holds a right child of a node exactly when the session holds one of its last character. -/
theorem Sim.hasRight_iff {o : Nat} (ho : o = ROOT ∨ t.Held o) :
    t.hasRight v o = true ↔ HasRight s.items (t.hang path o .right) := by
  rw [hasRight, any_eq_true]
  constructor
  · rintro ⟨c, hc, hpresent⟩
    obtain ⟨hcheld, hcp⟩ := h.rep.kid o .right c hc
    refine ⟨_, h.mem_items_iff.mpr ⟨c, 0, hcheld, hpresent, h.rep.len_pos hcheld, rfl⟩, t.key c, ?_⟩
    simp only [charOf, runDown_zero, append_nil]
    exact hcp
  · rintro ⟨x, hx, k, hxp⟩
    obtain ⟨i, m, hi, hpresent, hm, rfl⟩ := h.mem_items_iff.mp hx
    simp only [charOf] at hxp
    cases m with
    | zero =>
      obtain ⟨p, hp, side, hk⟩ := h.rep.hung i hi
      obtain ⟨-, hip⟩ := h.rep.kid p side i hk
      rw [runDown_zero, append_nil, hip] at hxp
      obtain ⟨hh, hstep⟩ := append_inj' hxp rfl
      cases side with
      | left => cases hstep
      | right =>
        have hpo : p = ROOT ∨ t.Held p := (Nat.eq_zero_or_pos p).imp_right fun hpos => ⟨hpos, hp⟩
        obtain rfl := h.hang_inj hpo ho hh
        exact ⟨i, hk, hpresent⟩
    | succ m =>
      -- The character before it in its span would be the last of its node.
      rw [runDown_succ, ← append_assoc] at hxp
      obtain ⟨hprev, -⟩ := append_inj' hxp rfl
      rcases h.hang_right ho with ⟨rfl, h1⟩ | ⟨ho, n, hn, hl, h1⟩
      · rw [h1] at hprev
        exact absurd (append_eq_nil_iff.mp hprev).1 (h.rep.path_ne_nil hi)
      · rw [h1] at hprev
        obtain ⟨rfl, rfl⟩ := h.rep.inj i o m n hi ho (by omega) hn hprev
        omega

/-- The left origin of an insert at `p`, and the cut of the session's characters right after it. -/
theorem Sim.leftOrigin {p : Nat} (hp : p ≤ order.visible) :
    ∃ t' path' order' o spot l r, t.leftOrigin order v p = .ok (t', order', o, spot) ∧
      Sim ids v step d s t' path' order' ∧ order'.At spot l r ∧ (o = ROOT ∨ t'.Held o) ∧
      origin (l.flatMap (t'.items path' v)) = t'.hang path' o .right ∧
      cut p s.items = (l.flatMap (t'.items path' v), r.flatMap (t'.items path' v)) := by
  cases p with
  | zero =>
    refine ⟨t, path, order, ROOT, {}, [], order.intoNodes, rfl, h, h.ok.at_start, .inl rfl, ?_, ?_⟩
    · rcases h.hang_right (.inl rfl) with ⟨-, h1⟩ | ⟨h1, -⟩
      · rw [h1]
        rfl
      · exact absurd rfl h1.ne_root
    · rw [h.reads, cut]
      rfl
  | succ k =>
    obtain ⟨t', path', order', spot, l, n, r, heq, hsim, hat, hsum, hpos⟩ := h.endAt hp
    have hn := hsim.held hat (i := n) (by simp)
    have hlive := (weight_pos_iff hsim.rep hn).mp hpos
    obtain ⟨m, hm⟩ : ∃ m, (t'.nodeOf n).len = m + 1 := Nat.exists_eq_succ_of_ne_zero (Nat.ne_of_gt (hsim.rep.len_pos hn))
    obtain ⟨l₀, hi⟩ := items_concat path' v hm
    have hL : (l ++ [n]).flatMap (t'.items path' v) =
        l.flatMap (t'.items path' v) ++ l₀ ++ [{ t'.charOf path' n m with dead := t'.dead v n }] := by
      rw [flatMap_append, flatMap_singleton, hi, append_assoc]
    refine ⟨t', path', order', n, order'.after spot, l ++ [n], r, ?_, hsim, hat.after hsim.ok, .inr hn, ?_, ?_⟩
    · simp [Tree.leftOrigin, heq, hat.nodeAt, bind, Except.bind, pure, Except.pure]
    · rw [hL, origin_concat]
      simp only [hang, charOf, hm, Nat.add_sub_cancel]
    · have hl : (shown (l.flatMap (t'.items path' v) ++ l₀)).length + 1 = k + 1 := by
        have := length_shown_flatMap t' path' v (l ++ [n])
        rw [map_append, sum_append, hL] at this
        simp only [shown_append, length_append, map_cons, map_nil, sum_cons, sum_nil,
          Nat.add_zero, hsum] at this
        have hone : (shown [({ t'.charOf path' n m with dead := t'.dead v n } : Fugue.Item Bytes Char)]).length = 1 := by
          simp [shown, hlive]
        rw [hone] at this
        rw [shown_append, length_append]
        exact this
      rw [← hl, ← hsim.split_items (hat.after hsim.ok), hL]
      exact cut_eq hlive

end

section
variable (ht : Turn ids v step)
include ht

/-! ### Inserts -/

/-- What hangs there in the tree would be the block's own. -/
theorem Sim.fresh (h : Sim ids v step d s t path order) {p : Path Bytes}
    {e : Step Bytes} (hkey : e.key = ids.getD step []) (hnew : ∀ x ∈ s.items, x.path ≠ p ++ [e]) (i m : Nat)
    (hi : t.Held i) (hm : m < (t.nodeOf i).len) : path i ++ runDown m ≠ p ++ [e] := by
  intro he
  have hp : t.present v i = true := by
    rw [present]
    cases hb : (t.nodeOf i).block with
    | root => exact absurd hb (h.rep.block i hi)
    | base => rfl
    | step q =>
      -- A block's node is one character, so its own step is the last of the path.
      have hm0 : m = 0 := by
        rcases h.rep.len i hi with h1 | ⟨-, h1⟩
        · omega
        · rw [hb] at h1
          cases h1
      obtain ⟨j, -, side, hk⟩ := h.rep.hung i hi
      rw [hm0, runDown_zero, append_nil, (h.rep.kid j side i hk).2] at he
      obtain ⟨-, hs⟩ := append_inj' he rfl
      rw [cons.injEq] at hs
      have hkeys := congrArg Step.key hs.1
      rw [Side.key_step, hkey, key, hb, id, h.ids_eq] at hkeys
      have hq := (h.bound i hi).1 q hb
      rw [getD_inj ht.nodup (Nat.lt_of_le_of_lt hq ht.lt) ht.lt hkeys]
      exact ht.has_own
  exact hnew _ (h.mem_items_iff.mpr ⟨i, m, hi, hp, hm, rfl⟩) he

theorem Sim.attach {items : List (Fugue.Item Bytes Char)} {marks : List (Path Bytes)}
    {offset : Nat} (h : Sim ids v step d ⟨items, marks, offset⟩ t path order)
    (hat : order.At spot l r) {parent : Nat} {side : Side} (hpar : parent < t.nodes.length)
    (hs : parent = ROOT → side = .right)
    {L R : List (Fugue.Item Bytes Char)} (hL : l.flatMap (t.items path v) = L)
    (hR : r.flatMap (t.items path v) = R)
    (hplace : place L R (ids.getD step []) = t.hang path parent side ++ [side.step (ids.getD step [])]) (ch : Char) :
    ∃ t' path' order' spot', t.attach (node step offset ch) parent side = (t', t.nodes.length) ∧
      order.insert spot t.nodes.length 1 (t'.weight v) = (order', spot') ∧
      Sim ids v step d ⟨L ++ [placed (ids.getD step []) offset ch L R] ++ R, marks, offset + 1⟩ t' path' order' ∧
      order'.At spot' l (t.nodes.length :: r) ∧ l.flatMap (t'.items path' v) = L ∧
      r.flatMap (t'.items path' v) = R ∧
      t'.items path' v t.nodes.length = [placed (ids.getD step []) offset ch L R] ∧
      t'.hang path' t.nodes.length .right = place L R (ids.getD step []) := by
  have hsp : L ++ R = items := by rw [← hL, ← hR]; exact h.split_items hat
  have hv : View (L ++ R) := by rw [hsp]; exact h.view
  have hb : t.id (node step offset ch).block = ids.getD step [] := by rw [← h.ids_eq]; rfl
  have hbid : t.blockId (node step offset ch).block = some (ids.getD step []) := by rw [← h.ids_eq]; rfl
  have hf : ∀ i m, t.Held i → m < (t.nodeOf i).len → path i ++ runDown m ≠ place L R (ids.getD step []) := by
    rw [hplace]
    refine h.fresh ht (Side.key_step side _) fun x hx => ?_
    rw [← hplace]
    exact hv.place_not_mem _ x (by rw [hsp]; exact hx)
  have hatt : Attached t (t.attach (node step offset ch) parent side).1 (node step offset ch) parent side := by
    refine attach_attached h.rep hpar fun c hc he => ?_
    obtain ⟨hcheld, hcp⟩ := h.rep.kid parent side c hc
    rw [he, hb, ← hplace] at hcp
    exact hf c 0 hcheld (h.rep.len_pos hcheld) (by rw [runDown_zero, append_nil, hcp])
  generalize htt : (t.attach (node step offset ch) parent side).1 = t' at hatt
  have hh := hatt.held_iff h.rep
  have hlt : ∀ i ∈ l ++ r, i < t.nodes.length := fun i hi => (h.held hat hi).2
  have hok : order.Ok (t'.weight v) :=
    h.ok.congr fun i hi => (hatt.same i ((h.holds i).mp hi).1.2).weight v
  have hw : t'.weight v t.nodes.length = 1 := by simp [weight, dead, hatt.new, node]
  obtain ⟨hok', hat'⟩ := hat.insert hok t.nodes.length
  rw [hw] at hok' hat'
  generalize hins : order.insert spot t.nodes.length 1 (t'.weight v) = ins at hok' hat'
  have hold : ∀ i ∈ l ++ r, t'.items (addPath path t.nodes.length (place L R (ids.getD step []))) v i =
      t.items path v i := fun i hi => hatt.items_old (hlt i hi) v
  have hn : t'.items (addPath path t.nodes.length (place L R (ids.getD step []))) v t.nodes.length =
      [placed (ids.getD step []) offset ch L R] := by
    rw [hatt.items_new rfl rfl, hbid]
    rfl
  have hL' : l.flatMap (t'.items (addPath path t.nodes.length (place L R (ids.getD step []))) v) = L := by
    rw [flatMap_congr fun i hi => hold i (mem_append_left r hi), hL]
  have hR' : r.flatMap (t'.items (addPath path t.nodes.length (place L R (ids.getD step []))) v) = R := by
    rw [flatMap_congr fun i hi => hold i (mem_append_right l hi), hR]
  refine ⟨t', addPath path t.nodes.length (place L R (ids.getD step [])), ins.1, ins.2, by rw [← htt]; rfl, hins,
    ⟨hatt.ids.trans h.ids_eq, ?_, hok', ?_, ?_, hv.insert rfl, ?_, ?_⟩, hat', hL', hR', hn, ?_⟩
  · refine hatt.rep h.rep hpar hs rfl (by simp [node]) (fun s => by cases s <;> rfl) ?_ hf
    rw [hplace, hb]
  · rw [hat'.append, flatMap_append, flatMap_cons, hL', hR', hn]
    simp
  · refine fun i => h.holds_added hat hat'.append (hh i) (fun hi => (hatt.same i hi.2).present v) ?_
    rw [present, hatt.new]
    exact ht.has_own
  · rw [hatt.docOf h.rep rfl rfl, Session.contribution_placed, hsp, ← h.doc, hbid]
    rfl
  · intro i hi
    rcases (hh i).mp hi with hi | rfl
    · rw [(hatt.same i hi.2).block, (hatt.same i hi.2).deletedBy]
      exact h.bound i hi
    · rw [hatt.new]
      refine ⟨fun p hp => ?_, fun p hp => by cases hp⟩
      cases hp
      exact Nat.le_refl _
  · rw [hang, addPath_self, hatt.new]
    exact append_nil _

/-- Each character is the right child of the one before, which was just placed. -/
theorem Sim.insertRest {marks : List (Path Bytes)} (chars : List Char) :
    ∀ {t : Tree} {path : Nat → Path Bytes} {order : Order} {L R : List (Fugue.Item Bytes Char)}
      {x : Fugue.Item Bytes Char} {offset previous : Nat} {spot : Spot} {l r : List Nat},
      Sim ids v step d ⟨L ++ [x] ++ R, marks, offset⟩ t path order → order.At spot l (previous :: r) →
      l.flatMap (t.items path v) = L → r.flatMap (t.items path v) = R →
      t.items path v previous = [x] → t.hang path previous .right = x.path → View (L ++ R) →
      x.path = place L R (ids.getD step []) →
      ∃ t' path' order', Tree.insertRest step v chars t order previous spot offset =
          (t', order', offset + chars.length) ∧
        Sim ids v step d ⟨insertBetween (ids.getD step []) chars offset (L ++ [x]) R, marks,
          offset + chars.length⟩ t' path' order' := by
  induction chars with
  | nil =>
    intro t path order L R x offset previous spot l r h _ _ _ _ _ _ _
    exact ⟨t, path, order, rfl, h⟩
  | cons ch chars ih =>
    intro t path order L R x offset previous spot l r h hat hL hR hx hh hv hp
    have hprev := h.held hat (i := previous) (by simp)
    have hL' : (l ++ [previous]).flatMap (t.items path v) = L ++ [x] := by
      rw [flatMap_append, hL, flatMap_singleton, hx]
    have hnext : place (L ++ [x]) R (ids.getD step []) =
        t.hang path previous .right ++ [Side.right.step (ids.getD step [])] := by
      rw [hv.place_after hp, hh]
      rfl
    obtain ⟨t', path', order', spot', ha, hinsert, hsim, hat', hl', hr', hitem, hh'⟩ :=
      h.attach ht (hat.after h.ok) hprev.2 (fun _ => rfl) hL' hR hnext ch
    obtain ⟨t'', path'', order'', hrest, hsim'⟩ := ih hsim hat' hl' hr' hitem hh' h.view rfl
    refine ⟨t'', path'', order'', ?_, ?_⟩
    · simp only [Tree.insertRest, ha, hinsert]
      rw [hrest, length_cons, Nat.add_assoc, Nat.add_comm 1]
    · rw [length_cons, Nat.add_comm chars.length 1, ← Nat.add_assoc]
      exact hsim'

/-- An insert on the tree is the insert of the session. -/
theorem Sim.applyInsert (h : Sim ids v step d s t path order) (pos : Nat) (text : List Char) :
    ∃ t' path' order', t.applyInsert order v step pos text s.offset = .ok (t', order', s.offset + text.length) ∧
      Sim ids v step d (s.apply (ids.getD step []) (.insert pos text)) t' path' order' := by
  have hc : clamp pos order.visible = min pos (shown s.items).length := by rw [clamp, h.visible]
  cases text with
  | nil =>
    refine ⟨t, path, order, rfl, ?_⟩
    have : s.apply (ids.getD step []) (.insert pos []) = s := by
      simp [Session.apply, insertBetween, cut_append]
    rw [this]
    exact h
  | cons ch chars =>
    obtain ⟨t₁, path₁, order₁, o, spot, l, r, hl, h₁, hat, ho, horigin, hcut⟩ :=
      h.leftOrigin (p := clamp pos order.visible) (Nat.min_le_right _ _)
    generalize hL : l.flatMap (t₁.items path₁ v) = L at horigin hcut
    generalize hR : r.flatMap (t₁.items path₁ v) = R at hcut
    have hsp : L ++ R = s.items := by rw [← hL, ← hR]; exact h₁.split_items hat
    have hright : t₁.hasRight v o = true ↔ HasRight (L ++ R) (origin L) := by
      rw [h₁.hasRight_iff ho, hsp, horigin]
    have holt : o < t₁.nodes.length := by
      rcases ho with rfl | ho
      · exact h₁.rep.size
      · exact ho.2
    -- The parent and the side are the place's.
    obtain ⟨parent, side, hchoice, hp, hs, hplace⟩ : ∃ parent side,
        t₁.parentOf order₁ v o spot = (parent, side) ∧ parent < t₁.nodes.length ∧
        (parent = ROOT → side = .right) ∧
        place L R (ids.getD step []) = t₁.hang path₁ parent side ++ [side.step (ids.getD step [])] := by
      rw [parentOf, hat.nodeFrom]
      cases r with
      | nil =>
        refine ⟨o, .right, rfl, holt, fun _ => rfl, ?_⟩
        rw [← hR, flatMap_nil, place_nil, horigin]
        rfl
      | cons next r =>
        have hn := h₁.held hat (i := next) (by simp)
        by_cases hr : t₁.hasRight v o = true
        · refine ⟨next, .left, by simp [hr], hn.2, fun he => absurd he hn.ne_root, ?_⟩
          obtain ⟨m, hm⟩ : ∃ m, (t₁.nodeOf next).len = m + 1 :=
            Nat.exists_eq_succ_of_ne_zero (Nat.ne_of_gt (h₁.rep.len_pos hn))
          have hfirst : R = { t₁.charOf path₁ next 0 with dead := t₁.dead v next } :: R.tail := by
            rw [← hR, flatMap_cons, items, hm, range_succ_eq_map]
            rfl
          rw [hfirst]
          rw [hfirst] at hright
          rw [place_of_hasRight _ (hright.mp hr)]
          simp only [charOf, runDown_zero, append_nil]
          rfl
        · refine ⟨o, .right, by simp [hr], holt, fun _ => rfl, ?_⟩
          rw [place_of_not_hasRight _ fun hhas => hr (hright.mpr hhas), horigin]
          rfl
    have h₁' : Sim ids v step d ⟨s.items, s.marks, s.offset⟩ t₁ path₁ order₁ := h₁
    obtain ⟨t₂, path₂, order₂, spot₂, ha, hi, h₂, hat₂, hL₂, hR₂, hitem, hh⟩ :=
      h₁'.attach ht hat hp hs hL hR hplace ch
    obtain ⟨t₃, path₃, order₃, hrest, h₃⟩ :=
      h₂.insertRest ht chars hat₂ hL₂ hR₂ hitem hh (by rw [hsp]; exact h.view) rfl
    refine ⟨t₃, path₃, order₃, ?_, ?_⟩
    · simp only [Tree.applyInsert, hl, hchoice, ha, hi, hrest, bind, Except.bind, pure, Except.pure,
        length_cons]
      rw [Nat.add_assoc, Nat.add_comm 1]
    · have hsession : s.apply (ids.getD step []) (.insert pos (ch :: chars)) =
          ⟨insertBetween (ids.getD step []) chars (s.offset + 1)
            (L ++ [placed (ids.getD step []) s.offset ch L R]) R, s.marks, s.offset + 1 + chars.length⟩ := by
        simp only [Session.apply, ← hc, hcut, insertBetween, length_cons]
        congr 1
        omega
      rw [hsession]
      exact h₃

/-! ### Deletions -/

theorem Sim.mark (h : Sim ids v step d s t path order)
    {n : Nat} (hat : order.At spot l (n :: r)) (hw : 0 < t.weight v n) :
    Sim ids v step d
        ⟨l.flatMap (t.items path v) ++ (t.items path v n).map Item.die ++ r.flatMap (t.items path v),
          s.marks ++ (shown (t.items path v n)).map (·.path), s.offset⟩
        (t.mark n step) path (order.hide spot (t.weight v n)) ∧
      (∀ i ∈ l ++ r, Same (t.nodeOf i) ((t.mark n step).nodeOf i)) ∧
      (t.mark n step).items path v n = (t.items path v n).map Item.die := by
  have hn := h.held hat (i := n) (by simp)
  have hlive := (weight_pos_iff h.rep hn).mp hw
  have hsame : ∀ i ∈ l ++ r, Same (t.nodeOf i) ((t.mark n step).nodeOf i) := fun i hi =>
    same_mark hn.2 step (h.ne_of_at hat hi)
  have hself : (t.mark n step).items path v n = (t.items path v n).map Item.die :=
    items_mark_self hn.2 ht.has_own
  have hflat : (order.hide spot (t.weight v n)).intoNodes = l ++ n :: r := by
    rw [Order.intoNodes_hide, hat.append]
  have hold : ∀ i ∈ l ++ r, (t.mark n step).items path v i = t.items path v i := fun i hi =>
    (hsame i hi).items rfl rfl v
  -- The session deletes exactly this node's run.
  have hitems : l.flatMap (t.items path v) ++ t.items path v n ++ r.flatMap (t.items path v) = s.items := by
    rw [← h.split_items hat, flatMap_cons, append_assoc]
  obtain ⟨start, stop, hk⟩ : ∃ start stop, kill start stop 0 s.items = l.flatMap (t.items path v) ++
      (t.items path v n).map Item.die ++ r.flatMap (t.items path v) ∧
      killed start stop 0 s.items = (shown (t.items path v n)).map (·.path) := by
    rw [← hitems]
    exact ⟨_, _, kill_run _ _ _⟩
  refine ⟨⟨h.ids_eq, h.rep.mark hn.2 step, ?_, ?_, ?_, ?_, ?_, ?_⟩, hsame, hself⟩
  · refine h.ok.hide hat ?_ fun i hi => (hsame i hi).weight v
    have : (t.mark n step).weight v n = 0 := by rw [weight, dead_mark_self hn.2 ht.has_own, if_pos rfl]
    omega
  · rw [hflat, flatMap_append, flatMap_cons, hself,
      flatMap_congr fun i hi => hold i (mem_append_left r hi),
      flatMap_congr fun i hi => hold i (mem_append_right l hi), append_assoc]
  · intro i
    rw [Order.intoNodes_hide, h.holds, held_mark, present, present, (mark_fields path hn.2 step i).1]
  · rw [← hk.1]
    exact h.view.kill _ _ _
  · have hd := Session.contribution_kill d (ids.getD step []) s start stop
    rw [hk.1, hk.2] at hd
    rw [docOf_mark hn, hd, ← h.doc]
    congr 2
    ext e
    have hs : shown (t.items path v n) = t.items path v n := by
      rw [shown, filter_eq_self]
      intro x hx
      obtain ⟨m, -, rfl⟩ := mem_items.mp hx
      simp [hlive]
    rw [hs]
    simp only [Set.mem_ofPred_eq, mem_map]
    constructor
    · rintro ⟨m, hm, rfl⟩
      exact ⟨by rw [h.ids_eq], _, mem_items.mpr ⟨m, hm, rfl⟩, rfl⟩
    · rintro ⟨h2, x, hx, h1⟩
      obtain ⟨m, hm, rfl⟩ := mem_items.mp hx
      exact ⟨m, hm, Prod.ext h1.symm (by rw [h2, h.ids_eq])⟩
  · intro i hi
    have hi' := (held_mark n step i).mp hi
    rw [(mark_fields path hn.2 step i).1]
    refine ⟨(h.bound i hi').1, fun p hp => ?_⟩
    rw [nodeOf_mark hn.2] at hp
    split at hp
    · rcases mem_append.mp hp with hp | hp
      · exact (h.bound i hi').2 p hp
      · exact Nat.le_of_eq (mem_singleton.mp hp)
    · exact (h.bound i hi').2 p hp

theorem Sim.deleteLoop (ms : List Nat) :
    ∀ {s : Session Bytes Char} {t : Tree} {order : Order} {spot : Spot} {l r : List Nat} {fuel left : Nat},
      Sim ids v step d s t path order → order.At spot l (ms ++ r) → (ms.map (t.weight v)).sum = left →
      ms.length ≤ fuel →
      ∃ t' order', Tree.deleteLoop step v fuel t order spot left = (t', order') ∧
        Sim ids v step d
          ⟨l.flatMap (t.items path v) ++ (ms.flatMap (t.items path v)).map Item.die ++
              r.flatMap (t.items path v),
            s.marks ++ (shown (ms.flatMap (t.items path v))).map (·.path), s.offset⟩ t' path order' := by
  induction ms with
  | nil =>
    intro s t order spot l r fuel left h hat hl _
    obtain rfl : left = 0 := by simpa using hl.symm
    refine ⟨t, order, by cases fuel <;> rfl, ?_⟩
    simp only [flatMap_nil, map_nil, shown_nil, append_nil]
    rw [nil_append] at hat
    rw [h.split_items hat]
    exact h
  | cons n ms ih =>
    intro s t order spot l r fuel left h hat hl hfuel
    obtain ⟨fuel, rfl⟩ : ∃ f, fuel = f + 1 := ⟨fuel - 1, by simp only [length_cons] at hfuel; omega⟩
    have hf : ms.length ≤ fuel := Nat.le_of_succ_le_succ hfuel
    rw [map_cons, sum_cons] at hl
    have hn := h.held hat (i := n) (by simp)
    cases left with
    | zero =>
      -- Nothing is left to delete: the nodes ahead show nothing.
      have hdead : ∀ i ∈ n :: ms, t.dead v i = true := by
        intro i hi
        have hz : t.weight v i = 0 := by
          have hle : ((n :: ms).map (t.weight v)).sum = 0 := by rw [map_cons, sum_cons, hl]
          exact List.sum_eq_zero_iff_forall_eq_nat.mp hle _ (List.mem_map_of_mem hi)
        cases hd : t.dead v i with
        | true => rfl
        | false =>
          have hi' := h.held hat (i := i) (by simp at hi ⊢; tauto)
          exact absurd hz (Nat.ne_of_gt ((weight_pos_iff h.rep hi').mpr hd))
      have := flatMap_items_of_dead path hdead
      refine ⟨t, order, rfl, ?_⟩
      rw [this.1, this.2, map_nil, append_nil, append_assoc, ← flatMap_append, h.split_items hat]
      exact h
    | succ left =>
      by_cases hw : 0 < t.weight v n
      · obtain ⟨h', hsame, hself⟩ := h.mark ht hat hw
        have hat' := (hat.hide spot (t.weight v n)).after h'.ok
        have hitems : ∀ i ∈ l ++ (ms ++ r), (t.mark n step).items path v i = t.items path v i :=
          fun i hi => (hsame i hi).items rfl rfl v
        have hs : (ms.map ((t.mark n step).weight v)).sum = left + 1 - t.weight v n := by
          rw [map_congr_left fun i hi => (hsame i (by simp [hi])).weight v]
          omega
        obtain ⟨t', order', hloop, h''⟩ := ih h' hat' hs hf
        refine ⟨t', order', ?_, ?_⟩
        · simp only [Tree.deleteLoop, hat.nodeAt, hw, if_true]
          exact hloop
        · simp only [flatMap_append, flatMap_singleton, hself] at h''
          rw [flatMap_congr fun i hi => hitems i (mem_append_left _ hi),
            flatMap_congr fun i hi => hitems i (by simp [hi] : i ∈ l ++ (ms ++ r)),
            flatMap_congr fun i (hi : i ∈ r) => hitems i (by simp [hi])] at h''
          simpa [append_assoc] using h''
      · have hdead : t.dead v n = true := by
          cases hd : t.dead v n with
          | true => rfl
          | false => exact absurd ((weight_pos_iff h.rep hn).mpr hd) hw
        have hdie := items_of_dead path hdead
        have hs : (ms.map (t.weight v)).sum = left + 1 := by omega
        obtain ⟨t', order', hloop, h''⟩ := ih h (hat.after h.ok) hs hf
        refine ⟨t', order', ?_, ?_⟩
        · simp only [Tree.deleteLoop, hat.nodeAt, hw, if_false]
          exact hloop
        · simpa [hdie, append_assoc] using h''

/-- A deletion on the tree is the deletion of the session. -/
theorem Sim.applyDelete (h : Sim ids v step d s t path order) (pos len : UInt64) :
    ∃ t' path' order', t.applyDelete order v step pos len = .ok (t', order') ∧
      Sim ids v step d (s.apply (ids.getD step []) (.delete pos.toNat (saturatingAdd pos len))) t' path' order' := by
  have hstart : min pos.toNat (shown s.items).length = clamp pos.toNat order.visible := by rw [clamp, h.visible]
  have hstop : min (saturatingAdd pos len) (shown s.items).length = clamp (saturatingAdd pos len) order.visible := by
    rw [clamp, h.visible]
  simp only [Session.apply, hstart, hstop]
  generalize hs : clamp pos.toNat order.visible = start
  generalize he : clamp (saturatingAdd pos len) order.visible = stop
  have hvis : stop ≤ order.visible := he ▸ Nat.min_le_right _ _
  by_cases hlt : start < stop
  · obtain ⟨t₁, path₁, order₁, spot₁, l₁, n₁, r₁, hend, h₁, hat₁, hs₁, -⟩ := h.endAt (k := stop - 1) (by omega)
    have hvis₁ : order₁.visible = order.visible := h₁.visible.trans h.visible.symm
    obtain ⟨t₂, path₂, order₂, spot₂, l, n, r, hstart₂, h₂, hat₂, hs₂, hedge⟩ := h₁.startAt (k := start) (by omega)
    -- The range ends on the edge the first split made.
    obtain ⟨l', r', hflat, hl'⟩ := hedge stop ⟨l₁ ++ [n₁], r₁, by rw [hat₁.append]; simp, by
      rw [map_append, sum_append]
      simp only [map_cons, map_nil, sum_cons, sum_nil]
      omega⟩
    obtain ⟨ms, rfl, hms⟩ : ∃ ms, l' = l ++ ms ∧ n :: r = ms ++ r' := by
      rcases append_eq_append_iff.mp (hat₂.append.symm.trans hflat) with ⟨c, h1, h2⟩ | ⟨c, h1, -⟩
      · exact ⟨c, h1, h2⟩
      · rw [h1, map_append, sum_append] at hs₂
        omega
    rw [map_append, sum_append] at hl'
    rw [hms] at hat₂
    have hleft : (ms.map (t₂.weight v)).sum = stop - start := by omega
    have hfuel : ms.length ≤ order₂.intoNodes.length := by
      rw [hat₂.append, length_append, length_append]
      omega
    obtain ⟨t₃, order₃, hloop, h₃⟩ := h₂.deleteLoop ht ms hat₂ hleft hfuel
    refine ⟨t₃, path₂, order₃, ?_, ?_⟩
    · simp only [Tree.applyDelete, hs, he, if_pos hlt, hend, hstart₂, hloop, bind, Except.bind, pure, Except.pure]
    · have hi : l.flatMap (t₂.items path₂ v) ++ ms.flatMap (t₂.items path₂ v) ++
          r'.flatMap (t₂.items path₂ v) = s.items := by
        rw [← h₂.split_items hat₂, flatMap_append, append_assoc]
      have hkill := kill_run (l.flatMap (t₂.items path₂ v)) (ms.flatMap (t₂.items path₂ v))
        (r'.flatMap (t₂.items path₂ v))
      rw [hi, length_shown_flatMap, length_shown_flatMap, hs₂,
        show start + (ms.map (t₂.weight v)).sum = stop by omega] at hkill
      rw [hkill.1, hkill.2]
      exact h₃
  · refine ⟨t, path, order, ?_, ?_⟩
    · simp only [Tree.applyDelete, hs, he, if_neg hlt, bind, Except.bind, pure, Except.pure]
    · have hkill := kill_empty (Nat.le_of_not_lt hlt) 0 s.items
      rw [hkill.1, hkill.2, append_nil]
      exact h

end

end
end Tree
end Defra.Text
