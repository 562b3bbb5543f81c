import Mathlib.Algebra.GroupWithZero.Nat
import Mathlib.Algebra.BigOperators.Group.Finset.Basic
import Mathlib.Algebra.Order.BigOperators.Group.Finset
import Mathlib.Logic.Relation
import Mathlib.Data.List.Chain
import Mathlib.Data.List.Nodup

/-! # Depth-first walks

A walk goes down from a root to the parents of each node. Its stack holds the path it is on, each node with how many of its
parents were looked at. A node is done when all its parents are, or when it is skipped. A parent that is on the stack is a
cycle. -/

namespace DepthFirst
open List
variable {ι : Type} (par : ι → List ι) (skip : ι → Bool)

/-! ### Walks -/

/-- A walk from the root can come to `x`. -/
def Under (root x : ι) : Prop := Relation.ReflTransGen (fun a p => p ∈ par a) root x

def OnCycle (a : ι) : Prop := Relation.TransGen (fun a p => p ∈ par a) a a

/-- The path that the walk is on, its end first, and the nodes it is done with, in order. -/
structure State (ι : Type) where
  stack : List (ι × Nat)
  done : List ι

def State.path (s : State ι) : List ι := s.stack.map Prod.fst

/-- One step: a node is skipped, looks at its next parent, goes down to it or is done. -/
inductive Step : State ι → State ι → Prop
  | skip {a n rest done} (h : skip a = true) : Step ⟨(a, n) :: rest, done⟩ ⟨rest, done ++ [a]⟩
  | advance {a n rest done p} (h : (par a)[n]? = some p) (hp : p ∈ done) :
      Step ⟨(a, n) :: rest, done⟩ ⟨(a, n + 1) :: rest, done⟩
  | push {a n rest done p} (h : (par a)[n]? = some p) (hdone : p ∉ done) (hpath : p ∉ a :: rest.map Prod.fst) :
      Step ⟨(a, n) :: rest, done⟩ ⟨(p, 0) :: (a, n + 1) :: rest, done⟩
  | finish {a n rest done} (h : skip a = false) (hn : (par a)[n]? = none) :
      Step ⟨(a, n) :: rest, done⟩ ⟨rest, done ++ [a]⟩

/-- The next parent is on the path already. -/
def Cyclic (s : State ι) : Prop := ∃ a n rest p, s.stack = (a, n) :: rest ∧ (par a)[n]? = some p ∧ p ∈ s.path

/-- A node stands below the child it was pushed for, whose other parents looked at are done. -/
def Pushed (done : List ι) (above below : ι × Nat) : Prop :=
  ∃ before after, par below.1 = before ++ above.1 :: after ∧ below.2 = before.length + 1 ∧ ∀ p ∈ before, p ∈ done

/-! ### The invariant -/

/-- What holds in every state of a walk from `root`. -/
structure Inv (root : ι) (s : State ι) : Prop where
  nodup : (s.path ++ s.done).Nodup
  under : ∀ a ∈ s.path ++ s.done, Under par root a
  root : root ∈ s.path ++ s.done
  chain : s.stack.IsChain (Pushed par s.done)
  top : ∀ f ∈ s.stack.head?, ∀ p ∈ (par f.1).take f.2, p ∈ s.done
  bounded : ∀ f ∈ s.stack, f.2 ≤ (par f.1).length
  before : ∀ l a r, s.done = l ++ a :: r → skip a = false → ∀ p ∈ par a, p ∈ l

variable {par skip} {root : ι} {s s' : State ι}

theorem Inv.start (root : ι) : Inv par skip root ⟨[(root, 0)], []⟩ where
  nodup := nodup_singleton root
  under a ha := mem_singleton.mp ha ▸ .refl
  root := mem_singleton_self root
  chain := .singleton _
  top f hf p hp := by
    cases hf
    simp at hp
  bounded f hf := mem_singleton.mp hf ▸ Nat.zero_le _
  before l a r h := by simp at h

theorem Inv.of_nil {skip' : ι → Bool} (h : Inv par skip root s) (hd : s.done = []) : Inv par skip' root s :=
  { h with before := fun l a r hl => by simp [hd] at hl }

theorem Pushed.mono {done done' : List ι} (h : ∀ p ∈ done, p ∈ done') {above below : ι × Nat}
    (hpushed : Pushed par done above below) : Pushed par done' above below := by
  obtain ⟨before, after, hps, hn, hb⟩ := hpushed
  exact ⟨before, after, hps, hn, fun p hp => h p (hb p hp)⟩

theorem Inv.pop {a : ι} {n : Nat} {rest : List (ι × Nat)} {done : List ι} (h : Inv par skip root ⟨(a, n) :: rest, done⟩)
    (hbef : skip a = false → ∀ p ∈ par a, p ∈ done) : Inv par skip root ⟨rest, done ++ [a]⟩ := by
  have hperm : ((a :: rest.map Prod.fst) ++ done).Perm (rest.map Prod.fst ++ (done ++ [a])) := by
    rw [← append_assoc]
    exact (perm_append_singleton a _).symm
  have hm : ∀ p ∈ done, p ∈ done ++ [a] := fun p hp => mem_append_left _ hp
  obtain ⟨hhead, hc⟩ := isChain_cons.mp h.chain
  refine ⟨hperm.nodup_iff.mp h.nodup, fun b hb => h.under b (hperm.mem_iff.mpr hb), hperm.mem_iff.mp h.root,
    hc.imp fun _ _ => Pushed.mono hm, fun f hf p hp => ?_, fun f hf => h.bounded f (mem_cons_of_mem _ hf),
    fun l b r hl hs p hp => ?_⟩
  · obtain ⟨before, after, hps, hn, hd⟩ := hhead f hf
    have ht : (par f.1).take f.2 = before ++ [a] := by
      rw [hps, hn, take_length_add_append]
      rfl
    rw [ht] at hp
    exact mem_append.mpr ((mem_append.mp hp).imp_left (hd p))
  · rcases eq_nil_or_concat' r with rfl | ⟨r, x, rfl⟩
    · obtain ⟨rfl, rfl⟩ : done = l ∧ a = b := by simpa using hl
      exact hbef hs p hp
    · obtain ⟨rfl, -⟩ := append_inj' (hl.trans (append_assoc l (b :: r) [x]).symm) rfl
      exact h.before l b r rfl hs p hp

theorem Inv.step (h : Inv par skip root s) (hstep : Step par skip s s') : Inv par skip root s' := by
  cases hstep with
  | skip hs =>
    refine h.pop fun hnot => ?_
    cases hs.symm.trans hnot
  | @finish a n rest done hs hn =>
    refine h.pop fun _ p hp => h.top _ rfl p ?_
    rwa [take_of_length_le (getElem?_eq_none_iff.mp hn)]
  | @advance a n rest done p hp hd =>
    refine { h with
      chain := ?_
      top := fun f hf q hq => ?_
      bounded := fun f hf => ?_ }
    · obtain ⟨hhead, hc⟩ := isChain_cons.mp h.chain
      exact isChain_cons.mpr ⟨hhead, hc⟩
    · cases hf
      rw [take_add_one, hp] at hq
      rcases mem_append.mp hq with hq | hq
      · exact h.top _ rfl q hq
      · exact mem_singleton.mp hq ▸ hd
    · rcases mem_cons.mp hf with rfl | hf
      · exact (List.getElem?_eq_some_iff.mp hp).1
      · exact h.bounded f (mem_cons_of_mem _ hf)
  | @push a n rest done p hp hd hpath =>
    obtain ⟨hlt, hget⟩ := List.getElem?_eq_some_iff.mp hp
    have hmem : p ∈ par a := hget ▸ getElem_mem hlt
    have ha : a ∈ State.path ⟨(a, n) :: rest, done⟩ ++ done := mem_append_left _ mem_cons_self
    refine ⟨nodup_cons.mpr ⟨?_, h.nodup⟩, fun b hb => ?_, mem_cons_of_mem p h.root, ?_, fun f hf q hq => ?_,
      fun f hf => ?_, h.before⟩
    · exact fun hin => (mem_append.mp hin).elim hpath hd
    · rcases mem_cons.mp hb with rfl | hb
      · exact (h.under a ha).tail hmem
      · exact h.under b hb
    · obtain ⟨hhead, hc⟩ := isChain_cons.mp h.chain
      refine isChain_cons.mpr ⟨fun f hf => ?_, isChain_cons.mpr ⟨hhead, hc⟩⟩
      cases hf
      refine ⟨(par a).take n, (par a).drop (n + 1), ?_, ?_, h.top _ rfl⟩
      · rw [← hget, cons_getElem_drop_succ, take_append_drop]
      · rw [length_take_of_le hlt.le]
    · cases hf
      simp at hq
    · rcases mem_cons.mp hf with rfl | hf
      · exact Nat.zero_le _
      · rcases mem_cons.mp hf with rfl | hf
        · exact hlt
        · exact h.bounded f (mem_cons_of_mem _ hf)

theorem Inv.below (h : Inv par skip root s) {a : ι} {n : Nat} {rest : List (ι × Nat)} (hs : s.stack = (a, n) :: rest) :
    ∀ b ∈ s.path, Under par b a := by
  have hc := h.chain
  rw [State.path, hs]
  rw [hs] at hc
  clear h hs
  induction rest generalizing a n with
  | nil =>
    intro b hb
    cases mem_singleton.mp hb
    exact .refl
  | cons f rest ih =>
    obtain ⟨hhead, hc⟩ := isChain_cons.mp hc
    obtain ⟨before, after, hp, -⟩ := hhead f rfl
    intro b hb
    rcases mem_cons.mp hb with rfl | hb
    · exact .refl
    · refine (ih hc b hb).tail ?_
      rw [hp]
      exact mem_append_right _ mem_cons_self

theorem Inv.onCycle (h : Inv par skip root s) (hcyclic : Cyclic par s) : ∃ a, Under par root a ∧ OnCycle par a := by
  obtain ⟨a, n, rest, p, hs, hp, hpath⟩ := hcyclic
  refine ⟨p, h.under p (mem_append_left _ hpath), ?_⟩
  exact Relation.TransGen.tail' (h.below hs p hpath) (mem_of_getElem? hp)

/-! ### At the end -/

section End
variable (hclosed : ∀ a, Under par root a → skip a = true → ∀ p ∈ par a, skip p = true)

include hclosed

theorem Inv.mem_done (h : Inv par skip root s) (hend : s.stack = []) {x : ι} (hx : Under par root x)
    (hs : skip x = false) : x ∈ s.done := by
  have hr : root ∈ s.done := by
    have := h.root
    rwa [State.path, hend] at this
  induction hx with
  | refl => exact hr
  | @tail b c hb hbc ih =>
    have hs' : skip b = false := Bool.eq_false_iff.mpr fun hb' => by
      cases (hclosed b hb hb' c hbc).symm.trans hs
    obtain ⟨l, r, hl⟩ := append_of_mem (ih hs')
    rw [hl]
    exact mem_append_left _ (h.before l b r hl hs' c hbc)

theorem Inv.done_before (h : Inv par skip root s) {x y : ι} (hx : Under par root x)
    (hxy : Relation.TransGen (fun a p => p ∈ par a) x y) (hs : skip y = false) :
    ∀ l r, s.done = l ++ x :: r → y ∈ l := by
  have hup : ∀ {a b : ι}, Under par root a → b ∈ par a → skip b = false → skip a = false := fun ha hb hnot =>
    Bool.eq_false_iff.mpr fun ha' => by cases (hclosed _ ha ha' _ hb).symm.trans hnot
  induction hxy with
  | single hxy => exact fun l r hl => h.before l x r hl (hup hx hxy hs) _ hxy
  | @tail b c hxb hbc ih =>
    intro l r hl
    have hs' := hup (hx.trans hxb.to_reflTransGen) hbc hs
    obtain ⟨l₁, l₂, rfl⟩ := append_of_mem (ih hs' l r hl)
    exact mem_append_left _ (h.before l₁ b (l₂ ++ x :: r) (by rw [hl]; simp) hs' c hbc)

theorem Inv.acyclic (h : Inv par skip root s) (hend : s.stack = []) {x : ι} (hx : Under par root x)
    (hs : skip x = false) : ¬OnCycle par x := by
  intro hcycle
  obtain ⟨l, r, hl⟩ := append_of_mem (h.mem_done hclosed hend hx hs)
  have hmem := h.done_before hclosed hx hcycle hs l r hl
  have hn := (nodup_append.mp h.nodup).2.1
  rw [hl, nodup_append] at hn
  exact hn.2.2 x hmem x mem_cons_self rfl

end End

/-! ### Walks end -/

section Work
variable [DecidableEq ι] (nodes : Finset ι)

def unmet (s : State ι) : Finset ι := nodes.filter fun a => a ∉ s.path ++ s.done

/-- What is left to do: each step makes it less. -/
def work (par : ι → List ι) (nodes : Finset ι) (s : State ι) : Nat :=
  ∑ a ∈ unmet nodes s, ((par a).length + 2) + (s.stack.map fun f => (par f.1).length + 1 - f.2).sum

variable {nodes}

theorem unmet_congr (h : (s.path ++ s.done).Perm (s'.path ++ s'.done)) : unmet nodes s = unmet nodes s' :=
  Finset.filter_congr fun _ _ => not_congr h.mem_iff

theorem unmet_push {p : ι} (h : s'.path ++ s'.done = p :: (s.path ++ s.done)) : unmet nodes s' = (unmet nodes s).erase p := by
  ext a
  simp only [unmet, Finset.mem_filter, Finset.mem_erase, h, mem_cons, not_or]
  exact and_left_comm

theorem work_lt (h : Inv par skip root s) (hnodes : ∀ a, Under par root a → a ∈ nodes) (hs : Step par skip s s') :
    work par nodes s' < work par nodes s := by
  have hpop : ∀ {a : ι} {n : Nat} {rest : List (ι × Nat)} {done : List ι}, n ≤ (par a).length →
      work par nodes ⟨rest, done ++ [a]⟩ < work par nodes ⟨(a, n) :: rest, done⟩ := by
    intro a n rest done hn
    have hperm : (rest.map Prod.fst ++ (done ++ [a])).Perm ((a :: rest.map Prod.fst) ++ done) := by
      rw [← append_assoc]
      exact perm_append_singleton a _
    have hu : unmet nodes ⟨rest, done ++ [a]⟩ = unmet nodes ⟨(a, n) :: rest, done⟩ := unmet_congr hperm
    rw [work, work, hu, map_cons, sum_cons]
    dsimp only
    omega
  cases hs with
  | skip => exact hpop (h.bounded _ mem_cons_self)
  | finish => exact hpop (h.bounded _ mem_cons_self)
  | @advance a n rest done p hp hd =>
    have hlt := (List.getElem?_eq_some_iff.mp hp).1
    have hu : unmet nodes ⟨(a, n + 1) :: rest, done⟩ = unmet nodes ⟨(a, n) :: rest, done⟩ := unmet_congr (.refl _)
    rw [work, work, hu, map_cons, sum_cons, map_cons, sum_cons]
    dsimp only
    omega
  | @push a n rest done p hp hd hpath =>
    have hunder := (h.step (.push hp hd hpath)).under p (mem_append_left _ mem_cons_self)
    have hu : unmet nodes ⟨(p, 0) :: (a, n + 1) :: rest, done⟩ = (unmet nodes ⟨(a, n) :: rest, done⟩).erase p :=
      unmet_push rfl
    have hmem : p ∈ unmet nodes ⟨(a, n) :: rest, done⟩ :=
      Finset.mem_filter.mpr ⟨hnodes p hunder, fun hin => (mem_append.mp hin).elim hpath hd⟩
    have hsum := Finset.add_sum_erase _ (fun a => (par a).length + 2) hmem
    rw [work, work, hu]
    simp only [map_cons, sum_cons]
    omega

theorem work_start (hr : root ∈ nodes) :
    work par nodes ⟨[(root, 0)], []⟩ < 2 * nodes.card + ∑ a ∈ nodes, (par a).length := by
  have hu : unmet nodes ⟨[(root, 0)], []⟩ = nodes.erase root := by
    ext a
    simp [unmet, State.path, and_comm]
  have hsum := Finset.add_sum_erase nodes (fun a => (par a).length + 2) hr
  have htotal : ∑ a ∈ nodes, ((par a).length + 2) = ∑ a ∈ nodes, (par a).length + nodes.card * 2 := by
    rw [Finset.sum_add_distrib, Finset.sum_const_nat fun _ _ => rfl]
  rw [work, hu]
  simp only [map_cons, map_nil, sum_cons, sum_nil]
  omega

end Work

end DepthFirst
