import Mathlib.Data.Finset.Lattice.Fold
import Defra.Lib.FugueReplica
import Defra.Text.Tree
import Defra.Theorems.Text.Order

/-! The tree of a replay as a set of paths. Every node has a path, a span's characters the paths down its
    run, and a traversal lists the nodes of a version in the reading order of their paths. -/

namespace Defra.Text
open List TreePath Fugue

/-! ### Nodes and their paths -/

def Node.kids (n : Node) : Side → List Nat
  | .left => n.left
  | .right => n.right

def Side.step : Side → Bytes → Step Bytes
  | .left => .left
  | .right => .right

@[simp] theorem Side.key_step (side : Side) (k : Bytes) : (side.step k).key = k := by cases side <;> rfl

theorem Side.step_lt (side : Side) {a b : Bytes} (h : a < b) : (side.step a).lt (side.step b) := by
  cases side <;> exact h

namespace Tree

def key (t : Tree) (i : Nat) : Bytes := t.id (t.nodeOf i).block

variable {keep : Nat → Bool} {t : Tree} (k : Nat)

/-- The run of `k` steps down a span. -/
def runDown : Path Bytes := replicate k (.right [])

@[simp] theorem runDown_zero : runDown 0 = [] := rfl

theorem runDown_add (j k : Nat) : runDown (j + k) = runDown j ++ runDown k := replicate_add ..

theorem runDown_succ : runDown (k + 1) = runDown k ++ [.right []] := runDown_add k 1

/-- A left child hangs on the node's first character, a right child on its last. -/
def hang (t : Tree) (path : Nat → Path Bytes) (i : Nat) : Side → Path Bytes
  | .left => path i
  | .right => path i ++ runDown ((t.nodeOf i).len - 1)

/-- The node is one of the tree, other than the root. -/
def Held (t : Tree) (i : Nat) : Prop := 0 < i ∧ i < t.nodes.length

/-- Every node hangs on its parent, siblings stand in the order of their keys, and no two characters share a path. -/
structure Rep (t : Tree) (path : Nat → Path Bytes) : Prop where
  size : 0 < t.nodes.length
  rootPath : path ROOT = []
  rootLen : (t.nodeOf ROOT).len = 0
  rootLeft : (t.nodeOf ROOT).left = []
  kid : ∀ i side, ∀ c ∈ (t.nodeOf i).kids side, t.Held c ∧ path c = t.hang path i side ++ [side.step (t.key c)]
  sorted : ∀ i side, ((t.nodeOf i).kids side).Pairwise fun a b => t.key a < t.key b
  hung : ∀ c, t.Held c → ∃ i < t.nodes.length, ∃ side, c ∈ (t.nodeOf i).kids side
  len : ∀ i, t.Held i → (t.nodeOf i).len = 1 ∨ 0 < (t.nodeOf i).len ∧ (t.nodeOf i).block = .base
  block : ∀ i, t.Held i → (t.nodeOf i).block ≠ .root
  inj : ∀ i j m n, t.Held i → t.Held j → m < (t.nodeOf i).len → n < (t.nodeOf j).len →
    path i ++ runDown m = path j ++ runDown n → i = j ∧ m = n

theorem Held.ne_root {i : Nat} (h : t.Held i) : i ≠ ROOT := Nat.ne_of_gt h.1

theorem nodeOf_of_le {i : Nat} (h : t.nodes.length ≤ i) : t.nodeOf i = blank .root 0 := by
  simp [nodeOf, h]

namespace Rep
variable {t : Tree} {path : Nat → Path Bytes}

theorem len_pos (h : t.Rep path) {i : Nat} (hi : t.Held i) : 0 < (t.nodeOf i).len := by
  rcases h.len i hi with h1 | ⟨h1, -⟩
  · omega
  · exact h1

theorem kid_path (h : t.Rep path) {i c : Nat} {side : Side} (hc : c ∈ (t.nodeOf i).kids side) :
    t.Held c ∧ ∃ s r, path c = path i ++ s :: r := by
  obtain ⟨hheld, hp⟩ := h.kid i side c hc
  refine ⟨hheld, ?_⟩
  rw [hp]
  cases side with
  | left => exact ⟨_, [], rfl⟩
  | right =>
    rw [hang, append_assoc]
    cases runDown ((t.nodeOf i).len - 1) with
    | nil => exact ⟨_, [], rfl⟩
    | cons s r => exact ⟨s, r ++ [.right (t.key c)], rfl⟩

theorem path_ne_nil (h : t.Rep path) {i : Nat} (hi : t.Held i) : path i ≠ [] := by
  obtain ⟨p, -, side, hp⟩ := h.hung i hi
  obtain ⟨-, s, r, he⟩ := h.kid_path hp
  simp [he]

end Rep

/-! ### Traversals -/

/-- The nodes of the subtree of `i` down to depth `d`, in reading order. -/
def subtree (t : Tree) (keep : Nat → Bool) : Nat → Nat → List Nat
  | 0, _ => []
  | d + 1, i =>
    ((t.nodeOf i).left.filter keep).flatMap (t.subtree keep d) ++ [i] ++
      ((t.nodeOf i).right.filter keep).flatMap (t.subtree keep d)

/-- The traversal of `stack` appends `l`, in two turns a node. -/
def Walks (t : Tree) (keep : Nat → Bool) (stack : List Item) (l : List Nat) : Prop :=
  ∀ fuel rest out, t.traverseLoop keep (2 * l.length + fuel) (stack ++ rest) out =
    t.traverseLoop keep fuel rest (out ++ l)

theorem Walks.append {s s' : List Item} {l l' : List Nat} (h : t.Walks keep s l) (h' : t.Walks keep s' l')
    : t.Walks keep (s ++ s') (l ++ l') := by
  intro fuel rest out
  have hf : 2 * (l ++ l').length + fuel = 2 * l.length + (2 * l'.length + fuel) := by
    rw [length_append]
    omega
  rw [hf, append_assoc, h, h', append_assoc]

theorem walks_flatMap (sub : Nat → List Nat) {kids : List Nat} (h : ∀ c ∈ kids, t.Walks keep [.visit c] (sub c))
    : t.Walks keep (kids.map .visit) (kids.flatMap sub) := by
  induction kids with
  | nil => exact fun fuel rest out => by simp
  | cons c kids ih =>
    exact (h c (by simp)).append (ih fun c' hc' => h c' (by simp [hc']))

section Traverse
variable {t : Tree} {path : Nat → Path Bytes} {keep : Nat → Bool} {depth : Nat}

theorem Rep.walks_subtree (h : t.Rep path) (hdepth : ∀ i, t.Held i → (path i).length ≤ depth) :
    ∀ (d i : Nat), t.Held i → depth < (path i).length + d → t.Walks keep [.visit i] (t.subtree keep d i)
  | 0, i, hi, hd => by
    have := hdepth i hi
    omega
  | d + 1, i, hi, hd => by
    have hk : ∀ side, ∀ c ∈ (t.nodeOf i).kids side, t.Walks keep [.visit c] (t.subtree keep d c) := by
      intro side c hc
      obtain ⟨hheld, s, r, hp⟩ := h.kid_path hc
      refine h.walks_subtree hdepth d c hheld ?_
      rw [hp, length_append, length_cons]
      omega
    have hl := walks_flatMap (t.subtree keep d) fun c (hc : c ∈ (t.nodeOf i).left.filter keep) =>
      hk .left c (mem_of_mem_filter hc)
    have hr := walks_flatMap (t.subtree keep d) fun c (hc : c ∈ (t.nodeOf i).right.filter keep) =>
      hk .right c (mem_of_mem_filter hc)
    intro fuel rest out
    -- One turn visits the node and one emits it, between the two walks over its children.
    have hf : 2 * (t.subtree keep (d + 1) i).length + fuel =
        2 * (((t.nodeOf i).left.filter keep).flatMap (t.subtree keep d)).length +
          ((2 * (((t.nodeOf i).right.filter keep).flatMap (t.subtree keep d)).length + fuel) + 1) + 1 := by
      simp only [subtree, length_append, length_singleton]
      omega
    rw [hf, singleton_append, traverseLoop, if_neg hi.ne_root, append_assoc, append_assoc, hl,
      singleton_append, traverseLoop, hr]
    simp [subtree]

theorem Rep.mem_subtree (h : t.Rep path) : ∀ {d i m : Nat}, t.Held i → keep i = true → m ∈ t.subtree keep d i →
      t.Held m ∧ keep m = true ∧ path i <+: path m
  | 0, i, m, _, _, hm => by simp [subtree] at hm
  | d + 1, i, m, hi, hk, hm => by
    have hkids : ∀ side, ∀ c ∈ (t.nodeOf i).kids side, keep c = true →
        m ∈ t.subtree keep d c → t.Held m ∧ keep m = true ∧ path i <+: path m := by
      intro side c hc hkc hmc
      obtain ⟨hheld, s, r, hp⟩ := h.kid_path hc
      obtain ⟨hm1, hm2, hm3⟩ := h.mem_subtree hheld hkc hmc
      exact ⟨hm1, hm2, IsPrefix.trans ⟨s :: r, hp.symm⟩ hm3⟩
    simp only [subtree, mem_append, mem_flatMap, mem_filter, mem_singleton] at hm
    rcases hm with (⟨c, ⟨hc, hkc⟩, hmc⟩ | rfl) | ⟨c, ⟨hc, hkc⟩, hmc⟩
    · exact hkids .left c hc hkc hmc
    · exact ⟨hi, hk, prefix_refl _⟩
    · exact hkids .right c hc hkc hmc

/-! ### Reading order -/

/-- Every character of `i` reads before every character of `j`. -/
def Precedes (t : Tree) (path : Nat → Path Bytes) (i j : Nat) : Prop :=
  ∀ m < (t.nodeOf i).len, ∀ n < (t.nodeOf j).len, Before (path i ++ runDown m) (path j ++ runDown n)

/-- The nodes are in reading order. -/
def InOrder (t : Tree) (path : Nat → Path Bytes) (l : List Nat) : Prop := l.Pairwise (t.Precedes path)

theorem runDown_before {m n : Nat} (h : m < n) (p : Path Bytes) : Before (p ++ runDown m) (p ++ runDown n) := by
  obtain ⟨k, rfl⟩ := Nat.exists_eq_add_of_lt h
  rw [Nat.add_assoc, runDown_add, ← append_assoc]
  exact before_append_right (p ++ runDown m) [] (runDown k)

theorem Rep.inOrder_kids (h : t.Rep path) {d : Nat}
    (ih : ∀ c, t.Held c → keep c = true → t.InOrder path (t.subtree keep d c)) (i : Nat) (side : Side) :
    t.InOrder path ((((t.nodeOf i).kids side).filter keep).flatMap (t.subtree keep d)) := by
  have hkeys := (h.sorted i side).filter keep
  have hk := fun c (hc : c ∈ ((t.nodeOf i).kids side).filter keep) => h.kid i side c (mem_of_mem_filter hc)
  have hkeep := fun c (hc : c ∈ ((t.nodeOf i).kids side).filter keep) => (mem_filter.mp hc).2
  generalize ((t.nodeOf i).kids side).filter keep = kids at hkeys hk hkeep
  induction kids with
  | nil => exact Pairwise.nil
  | cons c kids ihk =>
    rw [pairwise_cons] at hkeys
    have hrest := ihk hkeys.2 (fun c' hc' => hk c' (by simp [hc'])) fun c' hc' => hkeep c' (by simp [hc'])
    have hunder : ∀ c' ∈ c :: kids, ∀ m ∈ t.subtree keep d c',
        ∃ r, path m = t.hang path i side ++ side.step (t.key c') :: r := by
      intro c' hc' m hm
      obtain ⟨r, hr⟩ := (h.mem_subtree (hk c' hc').1 (hkeep c' hc') hm).2.2
      exact ⟨r, by rw [← hr, (hk c' hc').2, append_assoc]; rfl⟩
    refine pairwise_append.mpr ⟨ih c (hk c (by simp)).1 (hkeep c (by simp)), hrest, ?_⟩
    intro m hm m' hm' k _ k' _
    obtain ⟨c', hc', hm'⟩ := mem_flatMap.mp hm'
    obtain ⟨r, hr⟩ := hunder c (by simp) m hm
    obtain ⟨r', hr'⟩ := hunder c' (by simp [hc']) m' hm'
    rw [hr, hr', append_assoc, append_assoc, before_append_iff]
    exact before_cons.mpr (.inl (side.step_lt (hkeys.1 c' hc')))

theorem Rep.precedes_right (h : t.Rep path) {i c j : Nat} (hc : c ∈ (t.nodeOf i).kids .right)
    (hq : path c <+: path j) : t.Precedes path i j := by
  intro m hm n _
  obtain ⟨r, hr⟩ := hq
  rw [← hr, (h.kid i .right c hc).2, hang]
  have hlast : (t.nodeOf i).len - 1 = m + ((t.nodeOf i).len - 1 - m) := by omega
  rw [hlast, runDown_add]
  cases (t.nodeOf i).len - 1 - m with
  | zero =>
    rw [runDown_zero, append_nil, append_assoc, append_assoc]
    exact before_append_right _ _ _
  | succ k =>
    rw [← append_assoc, append_assoc _ (runDown (k + 1)), append_assoc _ (_ ++ _), append_assoc _ (_ ++ _)]
    exact before_append_right _ _ _

theorem Rep.left_precedes (h : t.Rep path) {i c j : Nat} (hc : c ∈ (t.nodeOf i).kids .left)
    (hq : path c <+: path j) : t.Precedes path j i := by
  intro m _ n _
  obtain ⟨r, hr⟩ := hq
  have hl : Before (path j ++ runDown m) (path i) := by
    rw [← hr, (h.kid i .left c hc).2, append_assoc, append_assoc]
    exact append_left_before _ _ _
  cases n with
  | zero => rwa [runDown_zero, append_nil]
  | succ n => exact before_trans hl (before_append_right _ _ _)

theorem Rep.inOrder_subtree (h : t.Rep path) :
    ∀ {d i : Nat}, t.Held i → keep i = true → t.InOrder path (t.subtree keep d i)
  | 0, i, _, _ => Pairwise.nil
  | d + 1, i, hi, hk => by
    have hkids := h.inOrder_kids (fun c hc hkc => h.inOrder_subtree (d := d) hc hkc) i
    have hb : ∀ side, ∀ m ∈ (((t.nodeOf i).kids side).filter keep).flatMap (t.subtree keep d),
        ∃ c ∈ (t.nodeOf i).kids side, path c <+: path m := by
      intro side m hm
      obtain ⟨c, hc, hm⟩ := mem_flatMap.mp hm
      obtain ⟨hc, hkc⟩ := mem_filter.mp hc
      exact ⟨c, hc, (h.mem_subtree (h.kid i side c hc).1 hkc hm).2.2⟩
    have hpos := h.len_pos hi
    refine pairwise_append.mpr ⟨pairwise_append.mpr ⟨hkids .left, pairwise_singleton _ _, ?_⟩, hkids .right, ?_⟩
    · intro m hm n hn
      rw [mem_singleton.mp hn]
      obtain ⟨c, hc, hp⟩ := hb .left m hm
      exact h.left_precedes hc hp
    · intro m hm n hn
      obtain ⟨c, hc, hp⟩ := hb .right n hn
      rcases mem_append.mp hm with hm | hm
      · -- The node itself lies between its two sides.
        obtain ⟨c', hc', hp'⟩ := hb .left m hm
        intro k hk k' hk'
        exact before_trans (h.left_precedes hc' hp' k hk 0 hpos) (h.precedes_right hc hp 0 hpos k' hk')
      · rw [mem_singleton.mp hm]
        exact h.precedes_right hc hp

theorem Rep.pairwise_path (h : t.Rep path) {l : List Nat} (hl : t.InOrder path l) (hheld : ∀ i ∈ l, t.Held i) :
    l.Pairwise fun i j => Before (path i) (path j) :=
  hl.imp_of_mem fun hi hj hij => by
    have := hij 0 (h.len_pos (hheld _ hi)) 0 (h.len_pos (hheld _ hj))
    simpa using this

theorem Rep.nodup (h : t.Rep path) {l : List Nat} (hl : t.InOrder path l) (hheld : ∀ i ∈ l, t.Held i) : l.Nodup :=
  Nodup.of_map path (nodup_of_sorted (h.pairwise_path hl hheld))

theorem self_mem_subtree (t : Tree) (keep : Nat → Bool) {d : Nat} (hd : 0 < d) (i : Nat) : i ∈ t.subtree keep d i := by
  cases d with
  | zero => exact absurd hd (Nat.lt_irrefl 0)
  | succ d => simp [subtree]

theorem Rep.kid_mem_subtree (h : t.Rep path) (hdepth : ∀ i, t.Held i → (path i).length ≤ depth) :
    ∀ {d i p c : Nat}, depth < (path i).length + d → p ∈ t.subtree keep d i →
      ∀ {side}, c ∈ (t.nodeOf p).kids side → keep c = true → c ∈ t.subtree keep d i
  | 0, i, p, c, _, hp, _, _, _ => by simp [subtree] at hp
  | d + 1, i, p, c, hd, hp, side, hc, hkc => by
    have hdeep : ∀ side, ∀ k ∈ (t.nodeOf i).kids side, depth < (path k).length + d := by
      intro side k hk
      obtain ⟨-, s, r, he⟩ := h.kid_path hk
      rw [he, length_append, length_cons]
      omega
    simp only [subtree, mem_append, mem_flatMap, mem_filter, mem_singleton] at hp ⊢
    rcases hp with (⟨k, ⟨hk, hkk⟩, hpk⟩ | rfl) | ⟨k, ⟨hk, hkk⟩, hpk⟩
    · exact .inl (.inl ⟨k, ⟨hk, hkk⟩, h.kid_mem_subtree hdepth (hdeep .left k hk) hpk hc hkc⟩)
    · have hpos : 0 < d := by
        have := hdeep side c hc
        have := hdepth c (h.kid_path hc).1
        omega
      cases side with
      | left => exact .inl (.inl ⟨c, ⟨hc, hkc⟩, self_mem_subtree t keep hpos c⟩)
      | right => exact .inr ⟨c, ⟨hc, hkc⟩, self_mem_subtree t keep hpos c⟩
    · exact .inr ⟨k, ⟨hk, hkk⟩, h.kid_mem_subtree hdepth (hdeep .right k hk) hpk hc hkc⟩

/-- When it keeps the parent of every node it keeps, a traversal lists exactly these, in reading order. -/
theorem Rep.traverseLoop_spec (h : t.Rep path) (keep : Nat → Bool)
    (hclosed : ∀ i side, t.Held i → ∀ c ∈ (t.nodeOf i).kids side, keep c = true → keep i = true) :
    t.InOrder path (t.traverseLoop keep (2 * t.nodes.length) [.visit ROOT] []) ∧
      ∀ i, i ∈ t.traverseLoop keep (2 * t.nodes.length) [.visit ROOT] [] ↔ t.Held i ∧ keep i = true := by
  obtain ⟨depth, hd⟩ : ∃ depth, ∀ i, t.Held i → (path i).length ≤ depth :=
    ⟨(Finset.range t.nodes.length).sup fun i => (path i).length, fun i hi =>
      Finset.le_sup (f := fun i => (path i).length) (Finset.mem_range.mpr hi.2)⟩
  generalize hl : ((t.nodeOf ROOT).right.filter keep).flatMap (t.subtree keep depth) = l
  have hkid : ∀ c ∈ (t.nodeOf ROOT).kids .right, depth < (path c).length + depth := by
    intro c hc
    have := length_pos_iff.mpr (h.path_ne_nil (h.kid ROOT .right c hc).1)
    omega
  have hmem : ∀ i, i ∈ l → t.Held i ∧ keep i = true := by
    intro i hi
    obtain ⟨c, hc, hi⟩ := mem_flatMap.mp (hl ▸ hi)
    obtain ⟨hc, hkc⟩ := mem_filter.mp hc
    obtain ⟨h1, h2, -⟩ := h.mem_subtree (h.kid ROOT .right c hc).1 hkc hi
    exact ⟨h1, h2⟩
  have hsort : t.InOrder path l := hl ▸ h.inOrder_kids (fun c hc hkc => h.inOrder_subtree hc hkc) ROOT .right
  -- Every kept node is reached: its parent is, or is the root.
  have hall : ∀ n i, (path i).length = n → t.Held i → keep i = true → i ∈ l := by
    intro n
    induction n using Nat.strong_induction_on with
    | _ n ih =>
      rintro i rfl hi hk
      obtain ⟨p, hp, side, hk'⟩ := h.hung i hi
      by_cases hroot : p = ROOT
      · subst hroot
        cases side with
        | left => exact absurd hk' (by simp [Node.kids, h.rootLeft])
        | right =>
          rw [← hl]
          refine mem_flatMap.mpr ⟨i, mem_filter.mpr ⟨hk', hk⟩, self_mem_subtree t keep ?_ i⟩
          exact Nat.lt_of_lt_of_le (length_pos_iff.mpr (h.path_ne_nil hi)) (hd i hi)
      · have hheld : t.Held p := ⟨Nat.pos_of_ne_zero hroot, hp⟩
        obtain ⟨-, s, r, he⟩ := h.kid_path hk'
        have hpl := ih (path p).length (by rw [he, length_append, length_cons]; omega) p rfl hheld
          (hclosed p side hheld i hk' hk)
        obtain ⟨c, hc, hpc⟩ := mem_flatMap.mp (hl ▸ hpl)
        rw [← hl]
        exact mem_flatMap.mpr ⟨c, hc,
          h.kid_mem_subtree hd (hkid c (mem_of_mem_filter hc)) hpc hk' hk⟩
  have hshort : l.length + 1 ≤ t.nodes.length := by
    have hsub : (ROOT :: l).Subperm (range t.nodes.length) := by
      refine subperm_of_subset (nodup_cons.mpr ⟨fun hr => (hmem ROOT hr).1.ne_root rfl, ?_⟩) ?_
      · exact h.nodup hsort fun i hi => (hmem i hi).1
      · intro i hi
        rcases mem_cons.mp hi with rfl | hi
        · exact mem_range.mpr h.size
        · exact mem_range.mpr (hmem i hi).1.2
    have := hsub.length_le
    rwa [length_cons, length_range] at this
  have hrun : t.traverseLoop keep (2 * t.nodes.length) [.visit ROOT] [] = l := by
    have hwalk := walks_flatMap (t.subtree keep depth) fun c (hc : c ∈ (t.nodeOf ROOT).right.filter keep) =>
      h.walks_subtree hd depth c (h.kid ROOT .right c (mem_of_mem_filter hc)).1
        (hkid c (mem_of_mem_filter hc))
    rw [hl] at hwalk
    have hfuel : 2 * t.nodes.length = (2 * l.length + (2 * t.nodes.length - 2 * l.length - 1)) + 1 := by omega
    rw [hfuel, traverseLoop, if_pos rfl, h.rootLeft]
    have := hwalk (2 * t.nodes.length - 2 * l.length - 1) [] []
    simp only [filter_nil, map_nil, nil_append]
    rw [this]
    cases 2 * t.nodes.length - 2 * l.length - 1 <;> rfl
  rw [hrun]
  exact ⟨hsort, fun i => ⟨hmem i, fun hi => hall _ i rfl hi.1 hi.2⟩⟩

end Traverse
end Tree
end Defra.Text
