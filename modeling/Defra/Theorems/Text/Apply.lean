import Defra.Theorems.Text.Session

/-! The ops of one block, applied to the tree of the blocks before it, are the session of the block on its own
    version. Each op reads the kept order or traverses the version anew: both list the version's characters. -/

namespace Defra.Text
open TreePath Fugue List

def TextOp.edit : TextOp → Edit Char
  | .insert pos text => .insert pos.toNat text
  | .delete pos len => .delete pos.toNat (saturatingAdd pos len)

theorem TextOp.apply_eq_onText (text : List Char) (op : TextOp) : op.apply text = op.edit.onText text := by
  cases op <;> rfl

theorem TextOp.edit_le (op : TextOp) {start stop : Nat} (h : op.edit = .delete start stop) : start ≤ stop := by
  cases op with
  | insert pos text => cases h
  | delete pos len =>
    injection h with h1 h2
    have hlt := pos.toNat_lt
    rw [← h2, saturatingAdd]
    omega

namespace Tree

def fullWeight (t : Tree) (i : Nat) : Nat := if (t.nodeOf i).deletedBy.isEmpty then (t.nodeOf i).len else 0

def Kept (t : Tree) (path : Nat → Path Bytes) : Prop :=
  ∀ order, t.order = some order →
    order.Ok t.fullWeight ∧ t.InOrder path order.intoNodes ∧ ∀ i, i ∈ order.intoNodes ↔ t.Held i

/-- It holds the document `d` with what the session `s` has added. -/
structure Between (ids : List Bytes) (step : Nat) (d : Doc Bytes Char) (s : Session Bytes Char) (t : Tree)
    (path : Nat → Path Bytes) : Prop where
  ids_eq : t.ids = ids
  rep : t.Rep path
  doc : t.docOf path = d ∪ s.contribution (ids.getD step [])
  bound : t.Bound step
  kept : t.Kept path

def Sees (ids : List Bytes) (v : Version) (step : Nat) (S : Set Bytes) : Prop :=
  ∀ p ≤ step, v.has (.step p) = true ↔ ids.getD p [] ∈ S

/-- The tree is read at a version that sees the blocks of `S`. -/
structure ReadAt (ids : List Bytes) (v : Version) (step : Nat) (S : Set Bytes) (t : Tree) (path : Nat → Path Bytes) :
    Prop where
  ids_eq : t.ids = ids
  rep : t.Rep path
  bound : t.Bound step
  sees : Sees ids v step S

section
variable {ids : List Bytes} {v : Version} {step : Nat} {d past : Doc Bytes Char} {s : Session Bytes Char}
  {t : Tree} {path : Nat → Path Bytes} {S : Set Bytes}

namespace ReadAt
variable (h : ReadAt ids v step S t path) {i : Nat}
include h

theorem present_iff (hi : t.Held i) : t.present v i = true ↔
      t.blockId (t.nodeOf i).block = none ∨ ∃ b ∈ S, t.blockId (t.nodeOf i).block = some b := by
  rw [present]
  cases hb : (t.nodeOf i).block with
  | root => exact absurd hb (h.rep.block i hi)
  | base => simp [Version.has, blockId]
  | step p =>
    rw [h.sees p ((h.bound i hi).1 p hb), ← h.ids_eq]
    simp [blockId]

theorem mem_only_chars {a : Atom Bytes Char} : a ∈ ((t.docOf path).only S).chars ↔
    ∃ i m, t.Held i ∧ t.present v i = true ∧ m < (t.nodeOf i).len ∧ t.charOf path i m = a := by
  constructor
  · rintro ⟨⟨i, m, hi, hm, rfl⟩, hb⟩
    exact ⟨i, m, hi, (h.present_iff hi).mpr hb, hm, rfl⟩
  · rintro ⟨i, m, hi, hp, hm, rfl⟩
    exact ⟨⟨i, m, hi, hm, rfl⟩, (h.present_iff hi).mp hp⟩

theorem dead_iff {m : Nat} (hi : t.Held i) (hm : m < (t.nodeOf i).len) :
    t.dead v i = true ↔ ∃ b, (path i ++ runDown m, b) ∈ ((t.docOf path).only S).marks := by
  rw [dead, any_eq_true]
  constructor
  · rintro ⟨p, hp, hhas⟩
    refine ⟨ids.getD p [], ⟨i, m, p, hi, hm, hp, by rw [h.ids_eq]⟩, ?_⟩
    exact (h.sees p ((h.bound i hi).2 p hp)).mp hhas
  · rintro ⟨b, ⟨j, n, p, hj, hn, hp, he⟩, hb⟩
    obtain ⟨he1, rfl⟩ := Prod.mk.injEq .. ▸ he
    obtain ⟨rfl, rfl⟩ := h.rep.inj i j m n hi hj hm hn he1
    rw [h.ids_eq] at hb
    exact ⟨p, hp, (h.sees p ((h.bound i hi).2 p hp)).mpr hb⟩

theorem listing {l : List Nat} (hl : t.InOrder path l) (hmem : ∀ i, i ∈ l ↔ t.Held i ∧ t.present v i = true) :
    Listing ((t.docOf path).only S) (l.flatMap (t.items path v)) where
  sorted := (items_inOrder t path v l).mpr hl
  mem x := by
    rw [mem_flatMap, h.mem_only_chars]
    constructor
    · rintro ⟨i, hi, hx⟩
      obtain ⟨m, hm, rfl⟩ := mem_items.mp hx
      obtain ⟨hheld, hp⟩ := (hmem i).mp hi
      exact ⟨⟨i, m, hheld, hp, hm, rfl⟩, h.dead_iff hheld hm⟩
    · rintro ⟨⟨i, m, hheld, hp, hm, ha⟩, hd⟩
      refine ⟨i, (hmem i).mpr ⟨hheld, hp⟩, mem_items.mpr ⟨m, hm, ?_⟩⟩
      cases x with
      | mk a dead =>
        subst ha
        congr 1
        rw [Bool.eq_iff_iff, hd]
        exact (h.dead_iff hheld hm).symm

/-- A version holds the parent of every node it holds when it holds the parent of every character. -/
theorem present_closed (hclosed : ∀ a ∈ ((t.docOf path).only S).chars, ∀ p e, a.path = p ++ [e] →
      p = [] ∨ ∃ a' ∈ ((t.docOf path).only S).chars, a'.path = p)
    (i) (side : Side) (hi : t.Held i) (c : Nat) (hc : c ∈ (t.nodeOf i).kids side)
    (hp : t.present v c = true) : t.present v i = true := by
  obtain ⟨hcheld, hcp⟩ := h.rep.kid i side c hc
  have hx := h.mem_only_chars.mpr ⟨c, 0, hcheld, hp, h.rep.len_pos hcheld, rfl⟩
  have hilen := h.rep.len_pos hi
  obtain ⟨m, hm, hh⟩ : ∃ m < (t.nodeOf i).len, t.hang path i side = path i ++ runDown m := by
    cases side
    · exact ⟨0, hilen, by rw [runDown_zero, append_nil]; rfl⟩
    · exact ⟨(t.nodeOf i).len - 1, by omega, rfl⟩
  rcases hclosed _ hx (path i ++ runDown m) (side.step (t.key c))
    (by simp only [charOf, runDown_zero, append_nil]; rw [hcp, hh]) with hnil | ⟨a, ha, hap⟩
  · exact absurd (append_eq_nil_iff.mp hnil).1 (h.rep.path_ne_nil hi)
  · obtain ⟨j, n, hj, hjp, hn, rfl⟩ := h.mem_only_chars.mp ha
    obtain ⟨rfl, -⟩ := h.rep.inj j i n m hj hi hn hm hap
    exact hjp

end ReadAt

theorem Between.readAt (h : Between ids step d s t path) (hsees : Sees ids v step S) : ReadAt ids v step S t path :=
  ⟨h.ids_eq, h.rep, h.bound, hsees⟩

section
variable (ht : Turn ids v step)
include ht

theorem present_of_linear (hrep : t.Rep path) (hbound : t.Bound step)
    (hlinear : v.ancestry = .prefixTo step) {i : Nat} (hi : t.Held i) : t.present v i = true := by
  rw [present]
  cases hb : (t.nodeOf i).block with
  | root => exact absurd hb (hrep.block i hi)
  | base => rfl
  | step p =>
    have := (hbound i hi).1 p hb
    simp only [Version.has, ht.own, hlinear, Ancestry.contains, Bool.or_eq_true, beq_iff_eq, Origin.step.injEq,
      decide_eq_true_eq]
    omega

theorem weight_of_linear (hbound : t.Bound step)
    (hlinear : v.ancestry = .prefixTo step) {i : Nat} (hi : t.Held i) : t.weight v i = t.fullWeight i := by
  have hdead : t.dead v i = !(t.nodeOf i).deletedBy.isEmpty := by
    rw [dead]
    cases hd : (t.nodeOf i).deletedBy with
    | nil => rfl
    | cons p ps =>
      have := (hbound i hi).2 p (by simp [hd])
      have hh : v.has (.step p) = true := by
        simp only [Version.has, ht.own, hlinear, Ancestry.contains, Bool.or_eq_true, beq_iff_eq, Origin.step.injEq,
          decide_eq_true_eq]
        omega
      simp [hh]
  rw [weight, hdead, fullWeight]
  cases (t.nodeOf i).deletedBy.isEmpty <;> rfl

theorem Between.sim (hsees : Sees ids v step S) (h : Between ids step d s t path) (hs : s.Ok past (ids.getD step []))
    (ho : (d ∪ s.contribution (ids.getD step [])).only S = past ∪ s.contribution (ids.getD step []))
    (linear : Bool) (hl : linear = true → v.ancestry = .prefixTo step) :
    Sim ids v step d s t path (t.orderFor v linear) := by
  have hlist : Listing ((t.docOf path).only S) s.items := by
    rw [h.doc, ho]
    exact hs.listing
  have hread := h.readAt hsees
  have hclosed := hread.present_closed fun a ha p e hp => hlist.closed hs.view ha hp
  -- Any order of the version's nodes will do: there is only one.
  suffices hsuff : (t.orderFor v linear).Ok (t.weight v) ∧
      t.InOrder path (t.orderFor v linear).intoNodes ∧
      ∀ i, i ∈ (t.orderFor v linear).intoNodes ↔ t.Held i ∧ t.present v i = true from
    ⟨h.ids_eq, h.rep, hsuff.1, (hread.listing hsuff.2.1 hsuff.2.2).unique hlist, hsuff.2.2, hs.view, h.doc, h.bound⟩
  have hfresh : ∀ keep : Nat → Bool, (∀ i, t.Held i → keep i = t.present v i) →
      t.InOrder path (t.traverseLoop keep (2 * t.nodes.length) [.visit ROOT] []) ∧
      ∀ i, i ∈ t.traverseLoop keep (2 * t.nodes.length) [.visit ROOT] [] ↔ t.Held i ∧ t.present v i = true := by
    intro keep hkeep
    have hspec := h.rep.traverseLoop_spec keep fun i side hi c hc hk => by
      rw [hkeep i hi]
      exact hclosed i side hi c hc (by rw [← hkeep c (h.rep.kid i side c hc).1]; exact hk)
    refine ⟨hspec.1, fun i => (hspec.2 i).trans ?_⟩
    exact and_congr_right fun hi => by rw [hkeep i hi]
  have hn : ∀ nodes, t.InOrder path nodes ∧ (∀ i, i ∈ nodes ↔ t.Held i ∧ t.present v i = true) →
      (Order.new nodes (t.weight v)).Ok (t.weight v) ∧
      t.InOrder path (Order.new nodes (t.weight v)).intoNodes ∧
      ∀ i, i ∈ (Order.new nodes (t.weight v)).intoNodes ↔ t.Held i ∧ t.present v i = true := by
    intro nodes hnodes
    obtain ⟨hok, hinto⟩ := Order.new_spec nodes (t.weight v)
    rw [hinto]
    exact ⟨hok, hnodes⟩
  cases linear with
  | false =>
    have hfor : t.orderFor v false = Order.new (t.traverse (some v)) (t.weight v) := by
      unfold orderFor
      cases t.order <;> rfl
    rw [hfor]
    exact hn _ (hfresh (t.present v) fun i _ => rfl)
  | true =>
    have hall : ∀ i, t.Held i → true = t.present v i := fun i hi =>
      (present_of_linear ht h.rep h.bound (hl rfl) hi).symm
    cases hkept : t.order with
    | none =>
      have hfor : t.orderFor v true = Order.new (t.traverse none) (t.weight v) := by
        unfold orderFor
        rw [hkept]
        rfl
      rw [hfor]
      exact hn _ (hfresh (fun _ => true) hall)
    | some order =>
      have hfor : t.orderFor v true = order := by
        unfold orderFor
        rw [hkept]
        rfl
      obtain ⟨hok, hord, hmem⟩ := h.kept order hkept
      rw [hfor]
      refine ⟨hok.congr fun i hi => weight_of_linear ht h.bound (hl rfl) ((hmem i).mp hi), hord, fun i => ?_⟩
      rw [hmem i]
      exact ⟨fun hi => ⟨hi, (hall i hi).symm⟩, fun hi => hi.1⟩

theorem Sim.between {order : Order} (h : Sim ids v step d s t path order)
    (linear : Bool) (hl : linear = true → v.ancestry = .prefixTo step) :
    Between ids step d s { t with order := if linear then some order else none } path := by
  refine ⟨h.ids_eq, ⟨h.rep.size, h.rep.rootPath, h.rep.rootLen, h.rep.rootLeft, h.rep.kid, h.rep.sorted, h.rep.hung,
    h.rep.len, h.rep.block, h.rep.inj⟩, h.doc, h.bound, fun order' ho => ?_⟩
  cases linear with
  | false => cases ho
  | true =>
    obtain rfl := Option.some.inj ho
    have hheld : ∀ i, i ∈ order.intoNodes ↔ t.Held i := fun i =>
      (h.holds i).trans ⟨fun hi => hi.1, fun hi => ⟨hi, present_of_linear ht h.rep h.bound (hl rfl) hi⟩⟩
    exact ⟨h.ok.congr fun i hi => (weight_of_linear ht h.bound (hl rfl) ((hheld i).mp hi)).symm, h.inOrder, hheld⟩

variable {anc : Ancestry}

/-- What `apply` does to the tree and the order that it reads. -/
def applyOn (t : Tree) (order : Order) (op : TextOp) (v : Version) (block nextOffset : Nat) :
    Except Error (Tree × Order × Nat) :=
  match op with
  | .insert pos text => t.applyInsert order v block pos.toNat text nextOffset
  | .delete pos len => (t.applyDelete order v block pos len).map fun (t, order) => (t, order, nextOffset)

omit ht in
theorem apply_eq (op : TextOp) (nextOffset : Nat) : t.apply op step anc nextOffset =
    (t.applyOn (t.orderFor ⟨anc, .step step⟩ (anc == .prefixTo step)) op ⟨anc, .step step⟩ step nextOffset).map
      fun (t, order, nextOffset) => ({ t with order := if anc == .prefixTo step then some order else none }, nextOffset) := by
  cases op with
  | insert pos text =>
    simp only [Tree.apply, applyOn]
    cases applyInsert t _ _ step _ text nextOffset <;> rfl
  | delete pos len =>
    simp only [Tree.apply, applyOn]
    cases applyDelete t _ _ step pos len <;> rfl

theorem Sim.applyOn {order : Order} (h : Sim ids v step d s t path order) (op : TextOp) :
    ∃ t' path' order', t.applyOn order op v step s.offset = .ok (t', order', (s.apply (ids.getD step []) op.edit).offset) ∧
      Sim ids v step d (s.apply (ids.getD step []) op.edit) t' path' order' := by
  cases op with
  | insert pos text =>
    obtain ⟨t', path', order', heq, hsim⟩ := h.applyInsert ht pos.toNat text
    exact ⟨t', path', order', heq, hsim⟩
  | delete pos len =>
    obtain ⟨t', path', order', heq, hsim⟩ := h.applyDelete ht pos len
    exact ⟨t', path', order', by rw [Tree.applyOn, heq]; rfl, hsim⟩

end

theorem Between.apply (ht : Turn ids ⟨anc, .step step⟩ step)
    (hsees : Sees ids ⟨anc, .step step⟩ step S) (h : Between ids step d s t path)
    (hs : s.Ok past (ids.getD step []))
    (ho : (d ∪ s.contribution (ids.getD step [])).only S = past ∪ s.contribution (ids.getD step [])) (op : TextOp) :
    ∃ t' path', t.apply op step anc s.offset = .ok (t', (s.apply (ids.getD step []) op.edit).offset) ∧
      Between ids step d (s.apply (ids.getD step []) op.edit) t' path' := by
  have hlinear : (anc == .prefixTo step) = true → anc = .prefixTo step := fun hl => by simpa using hl
  obtain ⟨t', path', order', heq, hsim⟩ := (h.sim ht hsees hs ho (anc == .prefixTo step) hlinear).applyOn ht op
  exact ⟨_, path', by rw [apply_eq, heq]; rfl, hsim.between ht _ hlinear⟩

theorem only_contribution (hb : ids.getD step [] ∈ S) (hd : d.only S = past) (s : Session Bytes Char) :
    (d ∪ s.contribution (ids.getD step [])).only S = past ∪ s.contribution (ids.getD step []) := by
  rw [Doc.only_union, hd, Session.contribution_only s hb]

theorem Between.applyOps (ht : Turn ids ⟨anc, .step step⟩ step)
    (hsees : Sees ids ⟨anc, .step step⟩ step S) (hb : ids.getD step [] ∈ S) (hd : d.only S = past)
    (ops : List TextOp) :
    ∀ {s : Session Bytes Char} {t : Tree} {path : Nat → Path Bytes}, Between ids step d s t path →
      s.Ok past (ids.getD step []) →
      ∃ t' path', ops.foldlM (fun (state : Tree × Nat) op => state.1.apply op step anc state.2) (t, s.offset) =
          .ok (t', ((ops.map TextOp.edit).foldl (Session.apply (ids.getD step [])) s).offset) ∧
        Between ids step d ((ops.map TextOp.edit).foldl (Session.apply (ids.getD step [])) s) t' path' := by
  induction ops with
  | nil => exact fun {s t path} h _ => ⟨t, path, rfl, h⟩
  | cons op ops ih =>
    intro s t path h hs
    obtain ⟨t₁, path₁, heq, h₁⟩ := h.apply ht hsees hs (only_contribution hb hd s) op
    obtain ⟨t', path', heq', h'⟩ := ih h₁ (hs.apply op.edit)
    refine ⟨t', path', ?_, h'⟩
    rw [foldlM_cons]
    simp only [heq, bind, Except.bind] at heq' ⊢
    exact heq'

end
end Tree
end Defra.Text
