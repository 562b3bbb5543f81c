import Defra.Lib.Run
import Defra.Theorems.Text.Converge

/-! The chunked order is a flat list of the nodes, each with the characters it shows, and a spot is a cut of the list. It stays so
    through every run of operations, and in a replay the list is the traversal of the version the order is for. -/

namespace Defra.Text
open List TreePath Fugue

namespace Order

inductive Command where
  | first
  | nthVisible (k : Nat)
  | before
  | after
  | insert (node w : Nat)
  | hide (w : Nat)

/-- The spot that a caller has, the index of a character there, and what the caller says each node shows. -/
structure Cursor where
  order : Order
  spot : Spot
  inner : Nat
  weight : Nat → Nat

def Cursor.step (cursor : Cursor) : Command → Except Error Cursor
  | .first => .ok { cursor with spot := {} }
  | .nthVisible k => (cursor.order.nthVisible k cursor.weight).map fun (spot, inner) => { cursor with spot, inner }
  | .before => .ok { cursor with spot := cursor.order.before cursor.spot }
  | .after => .ok { cursor with spot := cursor.order.after cursor.spot }
  | .insert node w =>
    let weight := Function.update cursor.weight node w
    let (order, spot) := cursor.order.insert cursor.spot node w weight
    .ok { cursor with order, spot, weight }
  | .hide w =>
    let node := cursor.order.nodeAt cursor.spot
    .ok { cursor with
      order := cursor.order.hide cursor.spot w
      weight := Function.update cursor.weight node (cursor.weight node - w) }

/-- The flat list, cut at the spot. -/
structure Cut where
  left : List (Nat × Nat)
  right : List (Nat × Nat)
  inner : Nat

/-- The cut before the node that holds visible character `k`. -/
def Cut.seek : List (Nat × Nat) → Nat → Option Cut
  | [], _ => none
  | x :: items, k =>
    if k < x.2 then some ⟨[], x :: items, k⟩
    else (seek items (k - x.2)).map fun cut => { cut with left := x :: cut.left }

/-- It has no result where the tree gives no such command: past an end, or for a node that is there. -/
def Cut.step (cut : Cut) : Command → Option Cut
  | .first => some { cut with left := [], right := cut.left ++ cut.right }
  | .nthVisible k => seek (cut.left ++ cut.right) k
  | .before => cut.left.getLast?.map fun x => { cut with left := cut.left.dropLast, right := x :: cut.right }
  | .after => cut.right.head?.map fun x => { cut with left := cut.left ++ [x], right := cut.right.tail }
  | .insert node w =>
    if node ∈ (cut.left ++ cut.right).map Prod.fst then none else some { cut with right := (node, w) :: cut.right }
  | .hide w => (cut.right.head?.filter (w ≤ ·.2)).map fun x => { cut with right := (x.1, x.2 - w) :: cut.right.tail }

/-- The order has the list's nodes, in chunks that count what they show, and the spot is at the cut. -/
structure Represents (cursor : Cursor) (cut : Cut) : Prop where
  ok : cursor.order.Ok cursor.weight
  spot : cursor.order.At cursor.spot (cut.left.map Prod.fst) (cut.right.map Prod.fst)
  shown : ∀ x ∈ cut.left ++ cut.right, cursor.weight x.1 = x.2
  nodup : ((cut.left ++ cut.right).map Prod.fst).Nodup
  inner : cursor.inner = cut.inner

theorem seek_spec {l r : List (Nat × Nat)} {x : Nat × Nat} {inner : Nat} (h : inner < x.2) :
    Cut.seek (l ++ x :: r) ((l.map Prod.snd).sum + inner) = some ⟨l, x :: r, inner⟩ := by
  induction l with
  | nil => simp [Cut.seek, h]
  | cons y l ih =>
    have hge : ¬ ((y :: l).map Prod.snd).sum + inner < y.2 := by
      rw [map_cons, sum_cons]
      omega
    have hsub : ((y :: l).map Prod.snd).sum + inner - y.2 = (l.map Prod.snd).sum + inner := by
      rw [map_cons, sum_cons]
      omega
    rw [cons_append, Cut.seek, if_neg hge, hsub, ih]
    rfl

theorem seek_lt {items : List (Nat × Nat)} {k : Nat} {cut : Cut} (h : Cut.seek items k = some cut) : k < (items.map Prod.snd).sum := by
  induction items generalizing k cut with
  | nil => cases h
  | cons x items ih =>
    rw [map_cons, sum_cons]
    rw [Cut.seek] at h
    split at h
    · omega
    · obtain ⟨cut', hc, -⟩ := Option.map_eq_some_iff.mp h
      have := ih hc
      omega

section
variable {cursor : Cursor} {cut cut' : Cut}

theorem Represents.weights (h : Represents cursor cut) {items : List (Nat × Nat)} (hsub : ∀ x ∈ items, x ∈ cut.left ++ cut.right) :
    (items.map Prod.fst).map cursor.weight = items.map Prod.snd := by
  rw [map_map]
  exact map_congr_left fun x hx => h.shown x (hsub x hx)

theorem Represents.nthVisible (h : Represents cursor cut) {k : Nat} (hs : Cut.seek (cut.left ++ cut.right) k = some cut') :
    ∃ spot, cursor.order.nthVisible k cursor.weight = .ok (spot, cut'.inner) ∧
      Represents { cursor with spot, inner := cut'.inner } cut' := by
  have hnodes : cursor.order.intoNodes = (cut.left ++ cut.right).map Prod.fst := by rw [h.spot.append, map_append]
  have hlt := seek_lt hs
  rw [← h.weights fun _ hx => hx, ← hnodes, ← h.ok.total] at hlt
  obtain ⟨spot, inner, l, n, r, hnth, hat, hi, hk⟩ := h.ok.nthVisible hlt
  obtain ⟨left, rest, hitems, rfl, hr⟩ := map_eq_append_iff.mp (hnodes.symm.trans hat.append)
  obtain ⟨x, right, rfl, rfl, rfl⟩ := map_eq_cons_iff.mp hr
  rw [h.shown x (by simp [hitems])] at hi
  rw [h.weights fun y hy => by simp [hitems, hy]] at hk
  rw [hitems, hk, seek_spec hi] at hs
  obtain rfl := Option.some.inj hs
  exact ⟨spot, hnth, h.ok, hat, hitems ▸ h.shown, hitems ▸ h.nodup, rfl⟩

theorem update_shown {left right : List (Nat × Nat)} {weight : Nat → Nat} {node : Nat} (w : Nat)
    (hnew : node ∉ (left ++ right).map Prod.fst) (h : ∀ x ∈ left ++ right, weight x.1 = x.2) :
    (∀ n ∈ (left ++ right).map Prod.fst, Function.update weight node w n = weight n) ∧
      ∀ x ∈ left ++ (node, w) :: right, Function.update weight node w x.1 = x.2 := by
  have hsame : ∀ n ∈ (left ++ right).map Prod.fst, Function.update weight node w n = weight n := fun n hn =>
    Function.update_of_ne (ne_of_mem_of_not_mem hn hnew) _ _
  refine ⟨hsame, fun x hx => ?_⟩
  rcases mem_cons.mp (perm_middle.mem_iff.mp hx) with rfl | hx
  · exact Function.update_self ..
  · exact (hsame x.1 (mem_map_of_mem hx)).trans (h x hx)

theorem Represents.step (h : Represents cursor cut) {command : Command} (hs : cut.step command = some cut') :
    ∃ cursor', cursor.step command = .ok cursor' ∧ Represents cursor' cut' := by
  obtain ⟨left, right, inner⟩ := cut
  cases command with
  | first =>
    obtain rfl := Option.some.inj hs
    refine ⟨_, rfl, h.ok, ?_, h.shown, h.nodup, h.inner⟩
    have := h.ok.at_start
    rwa [h.spot.append, ← map_append] at this
  | nthVisible k =>
    obtain ⟨spot, hnth, h'⟩ := h.nthVisible hs
    exact ⟨_, by rw [Cursor.step, hnth]; rfl, h'⟩
  | before =>
    obtain ⟨x, hx, rfl⟩ := Option.map_eq_some_iff.mp hs
    obtain ⟨left, rfl⟩ := getLast?_eq_some_iff.mp hx
    have hspot := h.spot
    rw [map_append] at hspot
    refine ⟨_, rfl, h.ok, ?_, ?_, ?_, h.inner⟩
    · simpa using hspot.before h.ok
    · simpa using h.shown
    · simpa using h.nodup
  | after =>
    obtain ⟨x, hx, rfl⟩ := Option.map_eq_some_iff.mp hs
    obtain ⟨right, rfl⟩ := head?_eq_some_iff.mp hx
    refine ⟨_, rfl, h.ok, ?_, ?_, ?_, h.inner⟩
    · simpa using h.spot.after h.ok
    · simpa using h.shown
    · simpa using h.nodup
  | insert node w =>
    obtain ⟨hnew, heq⟩ := Option.ite_none_left_eq_some.mp hs
    obtain rfl := Option.some.inj heq
    obtain ⟨hsame, hshown⟩ := update_shown w hnew h.shown
    obtain ⟨hok, hat⟩ := h.spot.insert (h.ok.congr (by simpa [h.spot.append] using hsame)) node
    rw [Function.update_self] at hok hat
    refine ⟨_, rfl, hok, hat, hshown, ?_, h.inner⟩
    rw [map_append, map_cons, perm_middle.nodup_iff, ← map_append]
    exact nodup_cons.mpr ⟨hnew, h.nodup⟩
  | hide w =>
    obtain ⟨x, hx, rfl⟩ := Option.map_eq_some_iff.mp hs
    obtain ⟨hh, hle⟩ := Option.filter_eq_some_iff.mp hx
    obtain ⟨right, rfl⟩ := head?_eq_some_iff.mp hh
    have hn := h.nodup
    rw [map_append, map_cons, perm_middle.nodup_iff, ← map_append, nodup_cons] at hn
    have hself : cursor.weight x.1 = x.2 := h.shown x (by simp)
    obtain ⟨hsame, hshown⟩ := update_shown (x.2 - w) hn.1 fun y hy =>
      h.shown y (perm_middle.mem_iff.mpr (mem_cons_of_mem x hy))
    refine ⟨{ cursor with order := cursor.order.hide cursor.spot w, weight := Function.update cursor.weight x.1 (x.2 - w) },
      by rw [Cursor.step, h.spot.nodeAt, hself], ?_, h.spot.hide _ w, hshown, by simpa using h.nodup, h.inner⟩
    refine h.ok.hide h.spot ?_ (by simpa using hsame)
    simp only [Function.update_self, hself]
    exact Nat.sub_add_cancel (of_decide_eq_true hle)

theorem Represents.run (cmds : List Command) : ∀ {cursor : Cursor} {cut cut' : Cut}, Represents cursor cut →
    cmds.foldlM Cut.step cut = some cut' → ∃ cursor', cmds.foldlM Cursor.step cursor = .ok cursor' ∧ Represents cursor' cut' := by
  induction cmds with
  | nil => exact fun {cursor _ _} h hr => ⟨cursor, rfl, Option.some.inj hr ▸ h⟩
  | cons command cmds ih =>
    intro cursor cut cut' h hr
    obtain ⟨next, hs, hr⟩ := Option.bind_eq_some_iff.mp hr
    obtain ⟨cursor', hc, h'⟩ := h.step hs
    obtain ⟨last, hl, h''⟩ := ih h' hr
    exact ⟨last, by rw [foldlM_cons, hc]; exact hl, h''⟩

end
end Order

namespace Tree
variable {ids : List Bytes} {v : Version} {step : Nat} {d past : Doc Bytes Char} {s : Session Bytes Char} {t : Tree}
  {path : Nat → Path Bytes} {order : Order} {S : Set Bytes}

/-- The order lists the nodes of the version as a traversal does. -/
theorem Sim.traverse (hsees : Sees ids v step S) (h : Sim ids v step d s t path order) (hs : s.Ok past (ids.getD step []))
    (ho : (d ∪ s.contribution (ids.getD step [])).only S = past ∪ s.contribution (ids.getD step [])) :
    order.intoNodes = t.traverse (some v) := by
  have hlist : Listing ((t.docOf path).only S) s.items := by
    rw [h.doc, ho]
    exact hs.listing
  have hspec := h.rep.traverseLoop_spec (t.present v)
    (ReadAt.present_closed ⟨h.ids_eq, h.rep, h.bound, hsees⟩ fun a ha p e hp => hlist.closed hs.view ha hp)
  exact eq_of_sorted (h.rep.pairwise_path h.inOrder fun i hi => ((h.holds i).mp hi).1)
    (h.rep.pairwise_path hspec.1 fun i hi => ((hspec.2 i).mp hi).1) fun i => (h.holds i).trans (hspec.2 i).symm

end Tree

/-- Whatever commands the list takes, the chunked order takes them and represents the list. In a replay of blocks that follow
    their parents, each op of a block reads and leaves the order of its version's traversal. -/
theorem order_refines_list :
    (∀ (nodes : List Nat) (weight : Nat → Nat) (cmds : List Order.Command) (cut : Order.Cut), nodes.Nodup →
      cmds.foldlM Order.Cut.step ⟨[], nodes.map fun n => (n, weight n), 0⟩ = some cut →
      ∃ cursor, cmds.foldlM Order.Cursor.step ⟨.new nodes weight, {}, 0, weight⟩ = .ok cursor ∧ Order.Represents cursor cut ∧
        cursor.order.intoNodes = (cut.left ++ cut.right).map Prod.fst) ∧
    ∀ (order l r : List TextBlock) (b : TextBlock) (done rest : List TextOp) (op : TextOp) (n : Nat), Ordered order →
      order = l ++ b :: r → b.ops = done ++ op :: rest →
      ∃ t anc, l.foldlM (buildStep order) (.withPlaceholder (order.map (·.id)) n, []) = .ok (t, anc) ∧
        let before := ancestryOf (parentsIn order b) anc l.length
        let v : Version := ⟨before, .step l.length⟩
        ∃ t₁ offset, done.foldlM (fun (state : Tree × Nat) op => state.1.apply op l.length before state.2) (t, 0) = .ok (t₁, offset) ∧
          (t₁.orderFor v (before == .prefixTo l.length)).intoNodes = t₁.traverse (some v) ∧
          ∃ t₂ kept offset', t₁.applyOn (t₁.orderFor v (before == .prefixTo l.length)) op v l.length offset =
              .ok (t₂, kept, offset') ∧
            kept.Ok (t₂.weight v) ∧ kept.intoNodes = t₂.traverse (some v) := by
  constructor
  · intro nodes weight cmds cut hn hrun
    have hf : (nodes.map fun n => (n, weight n)).map Prod.fst = nodes := by rw [map_map]; exact map_id nodes
    obtain ⟨hok, hinto⟩ := Order.new_spec nodes weight
    have hstart : Order.Represents ⟨.new nodes weight, {}, 0, weight⟩ ⟨[], nodes.map fun n => (n, weight n), 0⟩ := by
      refine ⟨hok, ?_, by simp, by simpa [hf] using hn, rfl⟩
      rw [hf]
      simpa [hinto] using hok.at_start
    obtain ⟨cursor, hc, h⟩ := hstart.run cmds hrun
    exact ⟨cursor, hc, h, by rw [h.spot.append, map_append]⟩
  · intro order l r b done rest op n hord hsp ho
    have hfits : Fits (historyOf order n) order := fits_historyOf hord.nodup n (fun _ h => h) fun _ _ _ _ h => h
    have hbase := baseOk_placeholders (H := historyOf order n) rfl
    obtain ⟨path₀, C₀, h₀⟩ := grown_withPlaceholder (H := historyOf order n) order rfl
    obtain ⟨t, anc, path, C, heq, h, hlen, hr⟩ := h₀.build hfits hord hbase hsp
    refine ⟨t, anc, heq, ?_⟩
    have hanc := ancestryOf_right hfits hord hsp hlen hr
    rw [hlen] at hanc
    intro before v
    obtain ⟨ht, hsees, honly, items, -, hs, hstart⟩ := h.opens hfits hord hbase hsp hanc
    have hin : (order.map (·.id)).getD l.length [] ∈ insert b.id ((historyOf order n).past b.id) :=
      .inl (by rw [hsp]; exact idAt_middle l r b)
    have hlinear : (before == .prefixTo l.length) = true → before = .prefixTo l.length := fun hl => by simpa using hl
    obtain ⟨t₁, path₁, hd, hbetween⟩ := Tree.Between.applyOps ht hsees hin honly done hstart hs
    have hs₁ := Run.always (f := Session.apply ((order.map (·.id)).getD l.length [])) (fun {_ e} h => h.apply e)
      (done.map TextOp.edit) hs
    have hsim := hbetween.sim ht hsees hs₁ (Tree.only_contribution hin honly _) (before == .prefixTo l.length) hlinear
    obtain ⟨t₂, path₂, kept, hop, hs'⟩ := hsim.applyOn ht op
    exact ⟨t₁, _, hd, hsim.traverse hsees hs₁ (Tree.only_contribution hin honly _), t₂, kept, _, hop, hs'.ok,
      hs'.traverse hsees (hs₁.apply op.edit) (Tree.only_contribution hin honly _)⟩

end Defra.Text
