import Mathlib.Data.List.TakeWhile
import Defra.Theorems.Text.Tree

/-! How a replay changes the tree: it hangs a new character on a node, splits a span, and marks a node as
    deleted. The paths of the characters already there never change. -/

namespace Defra.Text
open List TreePath Fugue

namespace Tree

/-! ### The document of a tree -/

def blockId (t : Tree) : Origin → Option Bytes
  | .step position => some (t.ids.getD position [])
  | .base | .root => none

/-- The character at place `m` of a node's span. -/
def charOf (t : Tree) (path : Nat → Path Bytes) (i m : Nat) : Atom Bytes Char where
  path := path i ++ runDown m
  block := t.blockId (t.nodeOf i).block
  offset := (t.nodeOf i).offset
  ch := (t.nodeOf i).ch

/-- The characters of a node's span as a version reads them. -/
def items (t : Tree) (path : Nat → Path Bytes) (v : Version) (i : Nat) : List (Fugue.Item Bytes Char) :=
  (range (t.nodeOf i).len).map fun m => { t.charOf path i m with dead := t.dead v i }

/-- The document that a tree holds. -/
def docOf (t : Tree) (path : Nat → Path Bytes) : Doc Bytes Char where
  chars := {a | ∃ i m, t.Held i ∧ m < (t.nodeOf i).len ∧ t.charOf path i m = a}
  marks := {e | ∃ i m step, t.Held i ∧ m < (t.nodeOf i).len ∧ step ∈ (t.nodeOf i).deletedBy ∧
    e = (path i ++ runDown m, t.ids.getD step [])}

variable {t : Tree} {path : Nat → Path Bytes} {v : Version} {i : Nat}

theorem mem_items {x : Fugue.Item Bytes Char} :
    x ∈ t.items path v i ↔ ∃ m < (t.nodeOf i).len, x = { t.charOf path i m with dead := t.dead v i } := by
  simp only [items, mem_map, mem_range, eq_comm]

theorem length_shown_items (t : Tree) (path : Nat → Path Bytes) (v : Version) (i : Nat) :
    (shown (t.items path v i)).length = t.weight v i := by
  cases hd : t.dead v i <;> simp [shown, items, weight, hd, filter_map, Function.comp_def]

theorem length_shown_flatMap (t : Tree) (path : Nat → Path Bytes) (v : Version) (l : List Nat) :
    (shown (l.flatMap (t.items path v))).length = (l.map (t.weight v)).sum := by
  induction l with
  | nil => rfl
  | cons i l ih => simp [length_shown_items, ih]

/-- Two nodes that differ at most in their children. -/
structure Same (n n' : Node) : Prop where
  block : n'.block = n.block
  offset : n'.offset = n.offset
  ch : n'.ch = n.ch
  len : n'.len = n.len
  deletedBy : n'.deletedBy = n.deletedBy

theorem Same.refl (n : Node) : Same n n := ⟨rfl, rfl, rfl, rfl, rfl⟩

section Same
variable {t t' : Tree} {path path' : Nat → Path Bytes} {i : Nat}

section
variable (h : Same (t.nodeOf i) (t'.nodeOf i))
include h

theorem Same.charOf (hi : t'.ids = t.ids) (hp : path' i = path i) (m : Nat) :
    t'.charOf path' i m = t.charOf path i m := by
  unfold Tree.charOf
  rw [h.offset, h.ch, h.block, hp]
  cases (t.nodeOf i).block <;> simp [blockId, hi]

theorem Same.dead (v : Version) : t'.dead v i = t.dead v i := by
  rw [Tree.dead, h.deletedBy, Tree.dead]

theorem Same.weight (v : Version) : t'.weight v i = t.weight v i := by
  rw [Tree.weight, h.dead, h.len, Tree.weight]

theorem Same.items (hi : t'.ids = t.ids) (hp : path' i = path i)
    (v : Version) : t'.items path' v i = t.items path v i := by
  unfold Tree.items
  rw [h.len, h.dead]
  exact map_congr_left fun m _ => by rw [h.charOf hi hp]

theorem Same.present (v : Version) : t'.present v i = t.present v i := by
  rw [Tree.present, h.block, Tree.present]

end

end Same

/-! ### One node more -/

@[simp] theorem length_modify (t : Tree) (i : Nat) (f : Node → Node) : (t.modify i f).nodes.length = t.nodes.length := by
  simp [modify]

theorem nodeOf_modify_self (h : i < t.nodes.length) (f : Node → Node) : (t.modify i f).nodeOf i = f (t.nodeOf i) := by
  simp [modify, nodeOf, h, getD_eq_getElem?_getD]

variable {j : Nat}

theorem nodeOf_modify_ne (h : j ≠ i) (f : Node → Node) : (t.modify i f).nodeOf j = t.nodeOf j := by
  simp [modify, nodeOf, getD_eq_getElem?_getD, Ne.symm h]

def push (t : Tree) (n : Node) : Tree := { t with nodes := t.nodes ++ [n] }

@[simp] theorem length_push (t : Tree) (n : Node) : (t.push n).nodes.length = t.nodes.length + 1 := by
  simp [push]

theorem nodeOf_push_self (t : Tree) (n : Node) : (t.push n).nodeOf t.nodes.length = n := by
  simp [push, nodeOf]

theorem nodeOf_push_lt (h : j < t.nodes.length) (n : Node) : (t.push n).nodeOf j = t.nodeOf j := by
  simp [push, nodeOf, getD_eq_getElem?_getD, getElem?_append_left h]

theorem held_push_iff {t' : Tree} (hlen : t'.nodes.length = t.nodes.length + 1) (hsize : 0 < t.nodes.length) (i : Nat) :
    t'.Held i ↔ t.Held i ∨ i = t.nodes.length := by
  unfold Held
  omega

/-- The paths with one more, for a new node. -/
def addPath (path : Nat → Path Bytes) (i : Nat) (q : Path Bytes) : Nat → Path Bytes := fun j => if j = i then q else path j

@[simp] theorem addPath_self (path : Nat → Path Bytes) (i : Nat) (q : Path Bytes) : addPath path i q i = q := if_pos rfl

theorem addPath_ne (h : j ≠ i) (q : Path Bytes) : addPath path i q j = path j :=
  if_neg h

/-! ### Hanging a character on a node -/

/-- The new node `n` hangs under `parent`, between the siblings with smaller and greater keys. -/
structure Attached (t t' : Tree) (n : Node) (parent : Nat) (side : Side) : Prop where
  ids : t'.ids = t.ids
  length : t'.nodes.length = t.nodes.length + 1
  new : t'.nodeOf t.nodes.length = n
  same : ∀ i < t.nodes.length, Same (t.nodeOf i) (t'.nodeOf i)
  kids : ∀ i < t.nodes.length, ∀ s, ¬ (i = parent ∧ s = side) → (t'.nodeOf i).kids s = (t.nodeOf i).kids s
  siblings : ∃ l r, (t.nodeOf parent).kids side = l ++ r ∧ (t'.nodeOf parent).kids side = l ++ t.nodes.length :: r ∧
    (∀ c ∈ l, t.key c < t.id n.block) ∧ ∀ c ∈ r, t.id n.block < t.key c

theorem key_congr {t' : Tree} (hi : t'.ids = t.ids) (h : (t'.nodeOf i).block = (t.nodeOf i).block) :
    t'.key i = t.key i := by
  unfold key
  rw [h]
  cases (t.nodeOf i).block <;> simp [id, hi]

/-- The siblings before a new node's place are those with smaller keys, when none has its key. -/
theorem takeWhile_cmpId {kids : List Nat} (index : Nat) (hsort : kids.Pairwise fun a b => t.key a < t.key b)
    (hne : ∀ c ∈ kids, t.key c ≠ t.key index) :
    (∀ c ∈ kids.takeWhile (fun kid => t.cmpId kid index == .lt), t.key c < t.key index) ∧
      ∀ c ∈ kids.dropWhile (fun kid => t.cmpId kid index == .lt), t.key index < t.key c := by
  have hlt : ∀ c ∈ kids, (t.cmpId c index == .lt) = true ↔ t.key c < t.key index := by
    intro c hc
    have heq : compare (t.key c) (t.key index) ≠ .eq := fun he => hne c hc (Std.LawfulEqCmp.eq_of_compare he)
    rw [beq_iff_eq, cmpId, Ordering.then_eq_lt, ← Bytes.compare_eq_lt]
    exact or_iff_left fun hboth => heq hboth.1
  constructor
  · intro c hc
    have hp := mem_takeWhile_imp hc
    exact (hlt c (( takeWhile_prefix _).subset hc)).mp hp
  · induction kids with
    | nil => simp
    | cons k kids ih =>
      rw [pairwise_cons] at hsort
      rw [dropWhile_cons]
      split
      · exact ih hsort.2 (fun c hc => hne c (by simp [hc])) fun c hc => hlt c (by simp [hc])
      · rename_i hk
        have hgt : t.key index < t.key k :=
          lt_of_le_of_ne (not_lt.mp fun h => hk ((hlt k (by simp)).mpr h)) (hne k (by simp)).symm
        intro c hc
        rcases mem_cons.mp hc with rfl | hc
        · exact hgt
        · exact hgt.trans (hsort.1 c hc)

theorem attach_attached (h : t.Rep path) {n : Node} {parent : Nat} {side : Side}
    (hp : parent < t.nodes.length) (hk : ∀ c ∈ (t.nodeOf parent).kids side, t.key c ≠ t.id n.block) :
    Attached t (t.attach n parent side).1 n parent side := by
  have hlt : ∀ c ∈ (t.nodeOf parent).kids side, c < t.nodes.length := fun c hc => (h.kid parent side c hc).1.2
  have hkeys : ∀ c < t.nodes.length, (t.push n).key c = t.key c := fun c hc =>
    key_congr rfl (by rw [nodeOf_push_lt hc])
  have hnew : (t.push n).key t.nodes.length = t.id n.block := by
    rw [key, nodeOf_push_self]
    rfl
  have hsort : ((t.nodeOf parent).kids side).Pairwise fun a b => (t.push n).key a < (t.push n).key b :=
    (h.sorted parent side).imp_of_mem fun ha hb hab => by rwa [hkeys _ (hlt _ ha), hkeys _ (hlt _ hb)]
  obtain ⟨hbef, hafter⟩ := takeWhile_cmpId t.nodes.length hsort fun c hc => by
    rw [hkeys c (hlt c hc), hnew]
    exact hk c hc
  generalize hl : ((t.nodeOf parent).kids side).takeWhile
    (fun kid => (t.push n).cmpId kid t.nodes.length == .lt) = l at hbef
  generalize hr : ((t.nodeOf parent).kids side).dropWhile
    (fun kid => (t.push n).cmpId kid t.nodes.length == .lt) = r at hafter
  have hsp : (t.nodeOf parent).kids side = l ++ r := by rw [← hl, ← hr, takeWhile_append_dropWhile]
  let f : Node → Node := fun p => match side with
    | .left => { p with left := p.left.insertIdx l.length t.nodes.length }
    | .right => { p with right := p.right.insertIdx l.length t.nodes.length }
  have hatt : (t.attach n parent side).1 = (t.push n).modify parent f := by
    cases side
    all_goals
      simp only [Node.kids] at hl
      simp only [attach]
      rw [show ({ t with nodes := t.nodes ++ [n] } : Tree) = t.push n from rfl, nodeOf_push_lt hp, hl]
  have hf : ∀ p, Same p (f p) := fun p => by cases side <;> exact ⟨rfl, rfl, rfl, rfl, rfl⟩
  have hfkids : ∀ p s, s ≠ side → (f p).kids s = p.kids s := fun p s hs => by
    cases side <;> cases s <;> first | rfl | exact absurd rfl hs
  have hself : ((t.push n).modify parent f).nodeOf parent = f (t.nodeOf parent) := by
    rw [nodeOf_modify_self (by simp; omega), nodeOf_push_lt hp]
  have hother : ∀ i < t.nodes.length, i ≠ parent → ((t.push n).modify parent f).nodeOf i = t.nodeOf i :=
    fun i hi hne => by rw [nodeOf_modify_ne hne, nodeOf_push_lt hi]
  rw [hatt]
  refine ⟨rfl, by simp, ?_, ?_, ?_, l, r, hsp, ?_, ?_, ?_⟩
  · rw [nodeOf_modify_ne (Nat.ne_of_gt hp), nodeOf_push_self]
  · intro i hi
    by_cases he : i = parent
    · rw [he, hself]
      exact hf _
    · rw [hother i hi he]
      exact Same.refl _
  · intro i hi s hns
    by_cases he : i = parent
    · rw [he, hself]
      exact hfkids _ s fun hs => hns ⟨he, hs⟩
    · rw [hother i hi he]
  · rw [hself]
    have : (f (t.nodeOf parent)).kids side = ((t.nodeOf parent).kids side).insertIdx l.length t.nodes.length := by
      cases side <;> rfl
    rw [this, hsp, insertIdx_middle]
  · intro c hc
    rw [← hkeys c (hlt c (hsp ▸ mem_append_left r hc)), ← hnew]
    exact hbef c hc
  · intro c hc
    rw [← hkeys c (hlt c (hsp ▸ mem_append_right l hc)), ← hnew]
    exact hafter c hc

namespace Attached
variable {t t' : Tree} {n : Node} {parent : Nat} {side : Side} {path : Nat → Path Bytes} {q : Path Bytes}

section
variable (h : Attached t t' n parent side)
include h

theorem held_iff (hrep : t.Rep path) (i : Nat) : t'.Held i ↔ t.Held i ∨ i = t.nodes.length :=
  held_push_iff h.length hrep.size i

theorem key (hi : i < t.nodes.length) : t'.key i = t.key i :=
  key_congr h.ids (h.same i hi).block

theorem key_new : t'.key t.nodes.length = t.id n.block := by
  unfold Tree.key
  rw [h.new]
  cases n.block <;> simp [Tree.id, h.ids]

theorem hang (hi : i < t.nodes.length) (s : Side) :
    t'.hang (addPath path t.nodes.length q) i s = t.hang path i s := by
  cases s
  · exact addPath_ne (Nat.ne_of_lt hi) q
  · simp only [Tree.hang]
    rw [addPath_ne (Nat.ne_of_lt hi), (h.same i hi).len]

theorem rep (hrep : t.Rep path) (hpar : parent < t.nodes.length)
    (hside : parent = ROOT → side = .right) (hlen : n.len = 1) (hblock : n.block ≠ .root)
    (hleaf : ∀ s, n.kids s = []) (hq : q = t.hang path parent side ++ [side.step (t.id n.block)])
    (hfresh : ∀ i m, t.Held i → m < (t.nodeOf i).len → path i ++ runDown m ≠ q) :
    t'.Rep (addPath path t.nodes.length q) := by
  have hsize := hrep.size
  have hheld := h.held_iff hrep
  have hroot : ROOT < t.nodes.length := hsize
  have hold : ∀ {i}, t.Held i → addPath path t.nodes.length q i = path i := fun hi => addPath_ne (Nat.ne_of_lt hi.2) q
  -- Every child is an old one of the same parent, or the new one.
  have hkids : ∀ i s, ∀ c ∈ (t'.nodeOf i).kids s,
      (i < t.nodes.length ∧ c ∈ (t.nodeOf i).kids s) ∨ (i = parent ∧ s = side ∧ c = t.nodes.length) := by
    intro i s c hc
    rcases Nat.lt_trichotomy i t.nodes.length with hi | rfl | hi
    · by_cases hp : i = parent ∧ s = side
      · obtain ⟨l, r, ho, hn, -, -⟩ := h.siblings
        obtain ⟨rfl, rfl⟩ := hp
        rw [hn, mem_append, mem_cons] at hc
        rcases hc with hc | rfl | hc
        · exact .inl ⟨hi, ho ▸ mem_append_left r hc⟩
        · exact .inr ⟨rfl, rfl, rfl⟩
        · exact .inl ⟨hi, ho ▸ mem_append_right l hc⟩
      · rw [h.kids i hi s hp] at hc
        exact .inl ⟨hi, hc⟩
    · rw [h.new, hleaf] at hc
      cases hc
    · rw [nodeOf_of_le (by rw [h.length]; omega)] at hc
      cases s <;> cases hc
  refine ⟨by rw [h.length]; omega, ?_, ?_, ?_, ?_, ?_, ?_, ?_, ?_, ?_⟩
  · rw [addPath_ne (Nat.ne_of_lt hroot), hrep.rootPath]
  · rw [(h.same ROOT hroot).len, hrep.rootLen]
  · have := h.kids ROOT hroot .left fun hp => by cases (hside hp.1.symm).symm.trans hp.2.symm
    exact this.trans hrep.rootLeft
  · intro i s c hc
    rcases hkids i s c hc with ⟨hi, hc⟩ | ⟨rfl, rfl, rfl⟩
    · obtain ⟨hcheld, hp⟩ := hrep.kid i s c hc
      rw [hheld, hold hcheld, h.hang hi, h.key hcheld.2]
      exact ⟨.inl hcheld, hp⟩
    · rw [hheld, addPath_self, h.hang hpar, h.key_new]
      exact ⟨.inr rfl, hq⟩
  · intro i s
    rcases Nat.lt_trichotomy i t.nodes.length with hi | rfl | hi
    · have hkeys : ∀ c ∈ (t.nodeOf i).kids s, t'.key c = t.key c := fun c hc => h.key (hrep.kid i s c hc).1.2
      have hs := hrep.sorted i s
      by_cases hp : i = parent ∧ s = side
      · obtain ⟨rfl, rfl⟩ := hp
        obtain ⟨l, r, ho, hn, hl, hr⟩ := h.siblings
        rw [ho] at hs hkeys
        rw [hn]
        have hs' : (l ++ r).Pairwise fun a b => t'.key a < t'.key b :=
          hs.imp_of_mem fun ha hb hab => by rwa [hkeys _ ha, hkeys _ hb]
        rw [pairwise_append] at hs' ⊢
        refine ⟨hs'.1, pairwise_cons.mpr ⟨fun c hc => ?_, hs'.2.1⟩, fun a ha b hb => ?_⟩
        · rw [h.key_new, hkeys c (mem_append_right l hc)]
          exact hr c hc
        · rcases mem_cons.mp hb with rfl | hb
          · rw [h.key_new, hkeys a (mem_append_left r ha)]
            exact hl a ha
          · exact hs'.2.2 a ha b hb
      · rw [h.kids i hi s hp]
        exact hs.imp_of_mem fun ha hb hab => by rwa [hkeys _ ha, hkeys _ hb]
    · rw [h.new, hleaf]
      exact Pairwise.nil
    · rw [nodeOf_of_le (by rw [h.length]; omega)]
      cases s <;> exact Pairwise.nil
  · intro c hc
    rcases (hheld c).mp hc with hc | rfl
    · obtain ⟨i, hi, s, hk⟩ := hrep.hung c hc
      refine ⟨i, by rw [h.length]; omega, s, ?_⟩
      by_cases hp : i = parent ∧ s = side
      · obtain ⟨rfl, rfl⟩ := hp
        obtain ⟨l, r, ho, hn, -, -⟩ := h.siblings
        rw [ho, mem_append] at hk
        rw [hn, mem_append, mem_cons]
        exact hk.imp_right .inr
      · rw [h.kids i hi s hp]
        exact hk
    · obtain ⟨l, r, -, hn, -, -⟩ := h.siblings
      exact ⟨parent, by rw [h.length]; omega, side, by rw [hn]; simp⟩
  · intro i hi
    rcases (hheld i).mp hi with hi | rfl
    · rw [(h.same i hi.2).len, (h.same i hi.2).block]
      exact hrep.len i hi
    · rw [h.new]
      exact .inl hlen
  · intro i hi
    rcases (hheld i).mp hi with hi | rfl
    · rw [(h.same i hi.2).block]
      exact hrep.block i hi
    · rw [h.new]
      exact hblock
  · intro i j m k hi hj hm hk he
    rcases (hheld i).mp hi with hi | rfl <;> rcases (hheld j).mp hj with hj | rfl
    · rw [(h.same i hi.2).len] at hm
      rw [(h.same j hj.2).len] at hk
      rw [hold hi, hold hj] at he
      exact hrep.inj i j m k hi hj hm hk he
    · rw [(h.same i hi.2).len] at hm
      rw [h.new, hlen, Nat.lt_one_iff] at hk
      rw [hold hi, addPath_self, hk, runDown_zero, append_nil] at he
      exact absurd he (hfresh i m hi hm)
    · rw [(h.same j hj.2).len] at hk
      rw [h.new, hlen, Nat.lt_one_iff] at hm
      rw [hold hj, addPath_self, hm, runDown_zero, append_nil] at he
      exact absurd he.symm (hfresh j k hj hk)
    · rw [h.new, hlen, Nat.lt_one_iff] at hm hk
      exact ⟨rfl, hm.trans hk.symm⟩

theorem items_old (hi : i < t.nodes.length) (v : Version) :
    t'.items (addPath path t.nodes.length q) v i = t.items path v i :=
  (h.same i hi).items h.ids (addPath_ne (Nat.ne_of_lt hi) q) v

theorem charOf_new :
    t'.charOf (addPath path t.nodes.length q) t.nodes.length 0 = ⟨q, t.blockId n.block, n.offset, n.ch⟩ := by
  unfold charOf
  rw [h.new, runDown_zero]
  cases n.block <;> simp [blockId, h.ids]

theorem items_new (hl : n.len = 1) (hlive : n.deletedBy = []) (v : Version) :
    t'.items (addPath path t.nodes.length q) v t.nodes.length =
      [{ path := q, block := t.blockId n.block, offset := n.offset, ch := n.ch, dead := false }] := by
  have hd : t'.dead v t.nodes.length = false := by simp [dead, h.new, hlive]
  rw [items, h.new, hl, hd]
  simp [h.charOf_new]

theorem docOf (hrep : t.Rep path) (hl : n.len = 1) (hlive : n.deletedBy = []) :
    t'.docOf (addPath path t.nodes.length q) =
      ⟨insert ⟨q, t.blockId n.block, n.offset, n.ch⟩ (t.docOf path).chars, (t.docOf path).marks⟩ := by
  have hheld := h.held_iff hrep
  have hold : ∀ {i}, t.Held i → addPath path t.nodes.length q i = path i := fun hi => addPath_ne (Nat.ne_of_lt hi.2) q
  ext e
  · constructor
    · rintro ⟨i, m, hi, hm, rfl⟩
      rcases (hheld i).mp hi with hi | rfl
      · refine .inr ⟨i, m, hi, (h.same i hi.2).len ▸ hm, ?_⟩
        rw [(h.same i hi.2).charOf h.ids (hold hi)]
      · rw [h.new, hl, Nat.lt_one_iff] at hm
        exact .inl (hm ▸ h.charOf_new)
    · rintro (rfl | ⟨i, m, hi, hm, rfl⟩)
      · exact ⟨t.nodes.length, 0, (hheld _).mpr (.inr rfl), by rw [h.new, hl]; exact Nat.one_pos, h.charOf_new⟩
      · refine ⟨i, m, (hheld i).mpr (.inl hi), (h.same i hi.2).len.symm ▸ hm, ?_⟩
        rw [(h.same i hi.2).charOf h.ids (hold hi)]
  · constructor
    · rintro ⟨i, m, step, hi, hm, hs, rfl⟩
      rcases (hheld i).mp hi with hi | rfl
      · refine ⟨i, m, step, hi, (h.same i hi.2).len ▸ hm, (h.same i hi.2).deletedBy ▸ hs, ?_⟩
        rw [hold hi, h.ids]
      · rw [h.new, hlive] at hs
        cases hs
    · rintro ⟨i, m, step, hi, hm, hs, rfl⟩
      refine ⟨i, m, step, (hheld i).mpr (.inl hi), (h.same i hi.2).len.symm ▸ hm,
        (h.same i hi.2).deletedBy.symm ▸ hs, ?_⟩
      rw [hold hi, h.ids]

end

end Attached

/-! ### Splitting a span -/

/-- `t'` is `t` with the span `i` split after its first `k` characters. -/
structure Splits (t t' : Tree) (i k : Nat) : Prop where
  ids : t'.ids = t.ids
  length : t'.nodes.length = t.nodes.length + 1
  first : t'.nodeOf i = { t.nodeOf i with len := k, right := [t.nodes.length] }
  rest : t'.nodeOf t.nodes.length = { t.nodeOf i with len := (t.nodeOf i).len - k, left := [] }
  other : ∀ j < t.nodes.length, j ≠ i → t'.nodeOf j = t.nodeOf j

namespace Splits
variable {t t' : Tree} {i k : Nat} {path : Nat → Path Bytes}

section
variable (h : Splits t t' i k)
include h

theorem held_iff (hrep : t.Rep path) (j : Nat) : t'.Held j ↔ t.Held j ∨ j = t.nodes.length :=
  held_push_iff h.length hrep.size j

theorem block_old (hj : j < t.nodes.length) : (t'.nodeOf j).block = (t.nodeOf j).block := by
  by_cases he : j = i
  · rw [he, h.first]
  · rw [h.other j hj he]

theorem key_old (hj : j < t.nodes.length) : t'.key j = t.key j :=
  key_congr h.ids (h.block_old hj)

/-- The character of `t` that character `m` of node `j` was. -/
def was (t : Tree) (i k j m : Nat) : Nat × Nat := if j = t.nodes.length then (i, k + m) else (j, m)

theorem was_spec (hrep : t.Rep path) (hi : t.Held i) (hk : k < (t.nodeOf i).len) {m : Nat}
    (hj : t'.Held j) (hm : m < (t'.nodeOf j).len) :
    t.Held (was t i k j m).1 ∧ (was t i k j m).2 < (t.nodeOf (was t i k j m).1).len ∧
      t'.charOf (addPath path t.nodes.length (path i ++ runDown k)) j m =
        t.charOf path (was t i k j m).1 (was t i k j m).2 ∧
      (t'.nodeOf j).deletedBy = (t.nodeOf (was t i k j m).1).deletedBy := by
  rcases (h.held_iff hrep j).mp hj with hj | rfl
  · have hne := Nat.ne_of_lt hj.2
    rw [was, if_neg hne]
    by_cases he : j = i
    · subst he
      rw [h.first] at hm ⊢
      refine ⟨hj, Nat.lt_trans hm hk, ?_, rfl⟩
      unfold charOf
      rw [h.first, addPath_ne hne]
      cases (t.nodeOf j).block <;> simp [blockId, h.ids]
    · rw [h.other j hj.2 he] at hm ⊢
      refine ⟨hj, hm, ?_, rfl⟩
      unfold charOf
      rw [h.other j hj.2 he, addPath_ne hne]
      cases (t.nodeOf j).block <;> simp [blockId, h.ids]
  · rw [was, if_pos rfl]
    rw [h.rest] at hm ⊢
    simp only at hm
    refine ⟨hi, by simp only; omega, ?_, rfl⟩
    unfold charOf
    rw [h.rest, addPath_self, append_assoc, ← runDown_add]
    cases (t.nodeOf i).block <;> simp [blockId, h.ids]

/-- The rest of a span is the run's next character and those after it. -/
theorem rep (hr : t.Rep path) (hi : t.Held i) (hpos : 0 < k) (hk : k < (t.nodeOf i).len) :
    t'.Rep (addPath path t.nodes.length (path i ++ runDown k)) := by
  have hsize := hr.size
  have hheld := h.held_iff hr
  have hbase : (t.nodeOf i).block = .base := by
    rcases hr.len i hi with h1 | ⟨-, h1⟩
    · omega
    · exact h1
  have ho : ∀ {j}, j < t.nodes.length → addPath path t.nodes.length (path i ++ runDown k) j = path j :=
    fun hj => addPath_ne (Nat.ne_of_lt hj) _
  have hroot : ROOT < t.nodes.length := hsize
  have hne : ROOT ≠ i := hi.ne_root.symm
  have hkeyNew : t'.key t.nodes.length = [] := by rw [key, h.rest, hbase]; rfl
  refine ⟨by rw [h.length]; omega, ?_, ?_, ?_, ?_, ?_, ?_, ?_, ?_, ?_⟩
  · rw [ho hroot, hr.rootPath]
  · rw [h.other ROOT hroot hne, hr.rootLen]
  · rw [h.other ROOT hroot hne, hr.rootLeft]
  · intro j s c hc
    -- An old child keeps its path.
    have hkid : ∀ {p}, c ∈ (t.nodeOf p).kids s →
        t'.Held c ∧ addPath path t.nodes.length (path i ++ runDown k) c = t.hang path p s ++ [s.step (t'.key c)] := by
      intro p hc
      obtain ⟨hcheld, hp⟩ := hr.kid p s c hc
      rw [hheld, ho hcheld.2, h.key_old hcheld.2]
      exact ⟨.inl hcheld, hp⟩
    rcases Nat.lt_trichotomy j t.nodes.length with hj | rfl | hj
    · by_cases he : j = i
      · subst he
        cases s with
        | left =>
          rw [h.first] at hc
          have := hkid (p := j) hc
          simp only [hang] at this ⊢
          rwa [ho hj]
        | right =>
          rw [h.first] at hc
          obtain rfl := mem_singleton.mp hc
          refine ⟨(hheld _).mpr (.inr rfl), ?_⟩
          obtain ⟨k, rfl⟩ := Nat.exists_eq_add_of_lt hpos
          rw [addPath_self, hkeyNew, hang, ho hj, h.first, append_assoc]
          simp only [Nat.zero_add, Nat.add_sub_cancel, Side.step, runDown_succ]
      · rw [h.other j hj he] at hc
        have := hkid hc
        cases s
        · simp only [hang] at this ⊢
          rwa [ho hj]
        · simp only [hang] at this ⊢
          rwa [ho hj, h.other j hj he]
    · rw [h.rest] at hc
      cases s with
      | left => cases hc
      | right =>
        have := hkid (p := i) hc
        simp only [hang] at this ⊢
        rw [addPath_self, h.rest, append_assoc (path i), ← runDown_add]
        have hl : k + ((t.nodeOf i).len - k - 1) = (t.nodeOf i).len - 1 := by omega
        rwa [hl]
    · rw [nodeOf_of_le (by rw [h.length]; omega)] at hc
      cases s <;> cases hc
  · intro j s
    have hs : ∀ p s, ((t.nodeOf p).kids s).Pairwise fun a b => t'.key a < t'.key b := fun p s =>
      (hr.sorted p s).imp_of_mem fun ha hb hab => by
        rwa [h.key_old (hr.kid p s _ ha).1.2, h.key_old (hr.kid p s _ hb).1.2]
    rcases Nat.lt_trichotomy j t.nodes.length with hj | rfl | hj
    · by_cases he : j = i
      · subst he
        rw [h.first]
        cases s with
        | left => exact hs j .left
        | right => exact pairwise_singleton _ _
      · rw [h.other j hj he]
        exact hs j s
    · rw [h.rest]
      cases s with
      | left => exact Pairwise.nil
      | right => exact hs i .right
    · rw [nodeOf_of_le (by rw [h.length]; omega)]
      cases s <;> exact Pairwise.nil
  · intro c hc
    rcases (hheld c).mp hc with hc | rfl
    · obtain ⟨p, hp, s, hk⟩ := hr.hung c hc
      by_cases he : p = i
      · subst he
        cases s with
        | left => exact ⟨p, by rw [h.length]; omega, .left, by rw [h.first]; exact hk⟩
        | right => exact ⟨t.nodes.length, by rw [h.length]; omega, .right, by rw [h.rest]; exact hk⟩
      · exact ⟨p, by rw [h.length]; omega, s, by rw [h.other p hp he]; exact hk⟩
    · exact ⟨i, by rw [h.length]; exact Nat.lt_succ_of_lt hi.2, .right, by rw [h.first]; simp [Node.kids]⟩
  · intro j hj
    rcases (hheld j).mp hj with hj | rfl
    · by_cases he : j = i
      · rw [he, h.first]
        exact .inr ⟨hpos, hbase⟩
      · rw [h.other j hj.2 he]
        exact hr.len j hj
    · rw [h.rest]
      exact .inr ⟨by simp only; omega, hbase⟩
  · intro j hj
    rcases (hheld j).mp hj with hj | rfl
    · rw [h.block_old hj.2]
      exact hr.block j hj
    · rw [h.rest]
      exact hr.block i hi
  · intro j j' m m' hj hj' hm hm' he
    obtain ⟨h1, h2, h3, -⟩ := h.was_spec hr hi hk hj hm
    obtain ⟨h1', h2', h3', -⟩ := h.was_spec hr hi hk hj' hm'
    have hp := congrArg Atom.path h3
    have hp' := congrArg Atom.path h3'
    have hinj := hr.inj _ _ _ _ h1 h1' h2 h2' (hp.symm.trans (he.trans hp'))
    -- Where a character was tells where it is: the two parts of the span are told apart by its index.
    have hshort : ∀ {j m}, t'.Held j → m < (t'.nodeOf j).len → j = i → m < k := by
      rintro j m - hm rfl
      rw [h.first] at hm
      exact hm
    unfold was at hinj
    split at hinj <;> split at hinj <;> simp only at hinj
    · omega
    · have := hshort hj' hm' hinj.1.symm
      omega
    · have := hshort hj hm hinj.1
      omega
    · exact hinj

/-- Every character of `t` is still there, in one of the two parts when it was in the span. -/
theorem is_spec (hrep : t.Rep path) (hk : k < (t.nodeOf i).len) {m : Nat} (hj : t.Held j)
    (hm : m < (t.nodeOf j).len) : ∃ j' m', t'.Held j' ∧ m' < (t'.nodeOf j').len ∧ was t i k j' m' = (j, m) := by
  have hheld := h.held_iff hrep
  have hne := Nat.ne_of_lt hj.2
  by_cases he : j = i
  · subst he
    by_cases hlt : m < k
    · exact ⟨j, m, (hheld j).mpr (.inl hj), by rw [h.first]; exact hlt, if_neg hne⟩
    · refine ⟨t.nodes.length, m - k, (hheld _).mpr (.inr rfl), by rw [h.rest]; simp only; omega, ?_⟩
      rw [was, if_pos rfl]
      congr 1
      omega
  · exact ⟨j, m, (hheld j).mpr (.inl hj), by rw [h.other j hj.2 he]; exact hm, if_neg hne⟩

theorem docOf (hrep : t.Rep path) (hi : t.Held i) (hk : k < (t.nodeOf i).len) :
    t'.docOf (addPath path t.nodes.length (path i ++ runDown k)) = t.docOf path := by
  ext e
  · constructor
    · rintro ⟨j, m, hj, hm, rfl⟩
      obtain ⟨h1, h2, h3, -⟩ := h.was_spec hrep hi hk hj hm
      exact ⟨_, _, h1, h2, h3.symm⟩
    · rintro ⟨j, m, hj, hm, rfl⟩
      obtain ⟨j', m', hj', hm', hwas⟩ := h.is_spec hrep hk hj hm
      obtain ⟨-, -, h3, -⟩ := h.was_spec hrep hi hk hj' hm'
      rw [hwas] at h3
      exact ⟨j', m', hj', hm', h3⟩
  · constructor
    · rintro ⟨j, m, step, hj, hm, hs, rfl⟩
      obtain ⟨h1, h2, h3, h4⟩ := h.was_spec hrep hi hk hj hm
      have hp := congrArg Atom.path h3
      exact ⟨_, _, step, h1, h2, h4 ▸ hs, by rw [h.ids]; exact congrArg (·, _) hp⟩
    · rintro ⟨j, m, step, hj, hm, hs, rfl⟩
      obtain ⟨j', m', hj', hm', hwas⟩ := h.is_spec hrep hk hj hm
      obtain ⟨-, -, h3, h4⟩ := h.was_spec hrep hi hk hj' hm'
      rw [hwas] at h3 h4
      have hp := congrArg Atom.path h3
      exact ⟨j', m', step, hj', hm', h4.symm ▸ hs, by rw [h.ids]; exact congrArg (·, _) hp.symm⟩

theorem items_other (hj : j < t.nodes.length) (hne : j ≠ i) (v : Version) :
    t'.items (addPath path t.nodes.length (path i ++ runDown k)) v j = t.items path v j :=
  Same.items (h.other j hj hne ▸ Same.refl _) h.ids (addPath_ne (Nat.ne_of_lt hj) _) v

theorem items_parts (hrep : t.Rep path) (hi : t.Held i) (hk : k < (t.nodeOf i).len) (v : Version) :
    t'.items (addPath path t.nodes.length (path i ++ runDown k)) v i ++
      t'.items (addPath path t.nodes.length (path i ++ runDown k)) v t.nodes.length =
        t.items path v i := by
  have hheld := h.held_iff hrep
  have hd : t'.dead v i = t.dead v i := by rw [dead, h.first, dead]
  have hd' : t'.dead v t.nodes.length = t.dead v i := by rw [dead, h.rest, dead]
  have hl : (t.nodeOf i).len = k + ((t.nodeOf i).len - k) := by omega
  have hf : ∀ m < k, t'.charOf (addPath path t.nodes.length (path i ++ runDown k)) i m = t.charOf path i m := by
    intro m hm
    have := (h.was_spec hrep hi hk ((hheld i).mpr (.inl hi)) (m := m) (by rw [h.first]; exact hm)).2.2.1
    rwa [was, if_neg (Nat.ne_of_lt hi.2)] at this
  have hr : ∀ m < (t.nodeOf i).len - k,
      t'.charOf (addPath path t.nodes.length (path i ++ runDown k)) t.nodes.length m = t.charOf path i (k + m) := by
    intro m hm
    have := (h.was_spec hrep hi hk ((hheld _).mpr (.inr rfl)) (m := m) (by rw [h.rest]; exact hm)).2.2.1
    rwa [was, if_pos rfl] at this
  unfold items
  rw [hd, hd', h.first, h.rest, hl, range_add, map_append, map_map]
  simp only [Nat.add_sub_cancel_left]
  congr 1
  · exact map_congr_left fun m hm => by rw [hf m (mem_range.mp hm)]
  · exact map_congr_left fun m hm => by
      simp only [Function.comp_apply]
      rw [hr m (mem_range.mp hm)]

end

end Splits

/-! ### Marking a node as deleted -/

/-- The node with one more block that deletes it. -/
def mark (t : Tree) (i step : Nat) : Tree := t.modify i fun n => { n with deletedBy := n.deletedBy ++ [step] }

section Mark
variable {t : Tree} {path : Nat → Path Bytes} {i : Nat}

theorem nodeOf_mark (hi : i < t.nodes.length) (step j : Nat) : (t.mark i step).nodeOf j =
      if j = i then { t.nodeOf j with deletedBy := (t.nodeOf j).deletedBy ++ [step] } else t.nodeOf j := by
  by_cases h : j = i
  · rw [if_pos h, h, mark, nodeOf_modify_self hi]
  · rw [if_neg h, mark, nodeOf_modify_ne h]

theorem held_mark (i step j : Nat) : (t.mark i step).Held j ↔ t.Held j := by
  unfold Held
  rw [mark, length_modify]

theorem mark_fields (path : Nat → Path Bytes) (hi : i < t.nodes.length) (step j : Nat) :
    ((t.mark i step).nodeOf j).block = (t.nodeOf j).block ∧ ((t.mark i step).nodeOf j).len = (t.nodeOf j).len ∧
      (∀ s, ((t.mark i step).nodeOf j).kids s = (t.nodeOf j).kids s) ∧
      ∀ m, (t.mark i step).charOf path j m = t.charOf path j m := by
  unfold charOf
  rw [nodeOf_mark hi]
  split
  · exact ⟨rfl, rfl, fun s => by cases s <;> rfl, fun m => rfl⟩
  · exact ⟨rfl, rfl, fun s => rfl, fun m => rfl⟩

theorem Rep.mark (h : t.Rep path) (hi : i < t.nodes.length) (step : Nat) : (t.mark i step).Rep path := by
  have hf := mark_fields path hi step
  have hkey : ∀ j, (t.mark i step).key j = t.key j := fun j => key_congr rfl (hf j).1
  have hh : ∀ j s, (t.mark i step).hang path j s = t.hang path j s := fun j s => by
    cases s
    · rfl
    · simp only [hang]
      rw [(hf j).2.1]
  refine ⟨by rw [Tree.mark, length_modify]; exact h.size, h.rootPath, by rw [(hf _).2.1]; exact h.rootLen,
    ((hf _).2.2.1 .left).trans h.rootLeft, ?_, ?_, ?_, ?_, ?_, ?_⟩
  · intro j s c hc
    rw [(hf j).2.2.1] at hc
    rw [held_mark, hh, hkey]
    exact h.kid j s c hc
  · intro j s
    rw [(hf j).2.2.1]
    simp only [hkey]
    exact h.sorted j s
  · intro c hc
    obtain ⟨j, hj, s, hk⟩ := h.hung c ((held_mark i step c).mp hc)
    exact ⟨j, by rw [Tree.mark, length_modify]; exact hj, s, by rw [(hf j).2.2.1]; exact hk⟩
  · intro j hj
    rw [(hf j).1, (hf j).2.1]
    exact h.len j ((held_mark i step j).mp hj)
  · intro j hj
    rw [(hf j).1]
    exact h.block j ((held_mark i step j).mp hj)
  · intro j j' m m' hj hj' hm hm'
    rw [(hf j).2.1] at hm
    rw [(hf j').2.1] at hm'
    exact h.inj j j' m m' ((held_mark i step j).mp hj) ((held_mark i step j').mp hj') hm hm'

theorem docOf_mark (hi : t.Held i) (step : Nat) :
    (t.mark i step).docOf path = ⟨(t.docOf path).chars, (t.docOf path).marks ∪
      {e | ∃ m < (t.nodeOf i).len, e = (path i ++ runDown m, t.ids.getD step [])}⟩ := by
  have hf := fun j => mark_fields path hi.2 step j
  ext e
  · simp only [docOf, Set.mem_ofPred_eq, held_mark, (hf _).2.1, (hf _).2.2.2]
  · simp only [docOf, Set.mem_ofPred_eq, held_mark, (hf _).2.1, Set.mem_union]
    constructor
    · rintro ⟨j, m, step', hj, hm, hs, rfl⟩
      rw [nodeOf_mark hi.2] at hs
      split at hs
      · rename_i he
        rcases mem_append.mp hs with hs | hs
        · exact .inl ⟨j, m, step', hj, hm, hs, rfl⟩
        · subst he
          rw [mem_singleton.mp hs]
          exact .inr ⟨m, hm, rfl⟩
      · exact .inl ⟨j, m, step', hj, hm, hs, rfl⟩
    · rintro (⟨j, m, step', hj, hm, hs, rfl⟩ | ⟨m, hm, rfl⟩)
      · refine ⟨j, m, step', hj, hm, ?_, rfl⟩
        rw [nodeOf_mark hi.2]
        split
        · exact mem_append_left _ hs
        · exact hs
      · exact ⟨i, m, step, hi, hm, by rw [nodeOf_mark hi.2]; simp, rfl⟩

theorem dead_mark_self (hi : i < t.nodes.length) {step : Nat} (hv : v.has (.step step) = true) :
    (t.mark i step).dead v i = true := by
  simp [dead, nodeOf_mark hi, hv]

theorem same_mark (hi : i < t.nodes.length) (step : Nat) (hne : j ≠ i) : Same (t.nodeOf j) ((t.mark i step).nodeOf j) := by
  rw [nodeOf_mark hi, if_neg hne]
  exact Same.refl _

theorem items_mark_self (hi : i < t.nodes.length) {step : Nat} (hv : v.has (.step step) = true) :
    (t.mark i step).items path v i = (t.items path v i).map fun x => { x with dead := true } := by
  have hf := mark_fields path hi step i
  unfold items
  rw [hf.2.1, dead_mark_self hi hv, map_map]
  exact map_congr_left fun m _ => by
    simp only [Function.comp_apply]
    rw [hf.2.2.2 m]

end Mark

end Tree
end Defra.Text
