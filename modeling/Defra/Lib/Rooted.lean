import Mathlib.Logic.Relation
import Mathlib.Data.List.Chain
import Mathlib.Data.List.Nodup

/-! # Rooted trees

A tree given by the parent of each node. Between two nodes there is one path without a repetition, and each of its steps is told
by where it leads: up from a node that is not above the end, down to the child that is. -/

namespace Rooted
open List Relation
variable {α : Type} (par : α → Option α)

/-! ### Trees -/

/-- `a` is `x` or one of its ancestors. -/
def Above (a x : α) : Prop := ReflTransGen (fun c p => par c = some p) x a

/-- Every node is below the root, which is below none. -/
structure IsTree (root : α) (nodes : Set α) : Prop where
  root_mem : root ∈ nodes
  parent_root : par root = none
  parent_mem : ∀ {x p}, par x = some p → x ∈ nodes ∧ p ∈ nodes
  above : ∀ {x}, x ∈ nodes → Above par root x

def Adjacent (x y : α) : Prop := par x = some y ∨ par y = some x

/-- A path from `s` to `t` that repeats no node. -/
structure IsPath (s t : α) (path : List α) : Prop where
  head : path.head? = some s
  last : path.getLast? = some t
  chain : path.IsChain (Adjacent par)
  nodup : path.Nodup

variable {par} {root s t x y c p : α} {nodes : Set α} {path rest : List α}

theorem Above.parent_or_eq (h : Above par c x) : c = x ∨ ∃ p, par x = some p ∧ Above par c p := by
  rcases ReflTransGen.cases_head h with rfl | ⟨p, hp, h⟩
  · exact .inl rfl
  · exact .inr ⟨p, hp, h⟩

theorem above_parent (h : par x = some p) : Above par p x := .single h

theorem Above.trans (hxy : Above par x y) (hyc : Above par y c) : Above par x c :=
  ReflTransGen.trans hyc hxy

theorem Above.total (hx : Above par x c) (hy : Above par y c) : Above par x y ∨ Above par y x := by
  induction hx using ReflTransGen.head_induction_on with
  | refl => exact .inr hy
  | head hstep hx ih =>
    rcases hy.parent_or_eq with rfl | ⟨p, hp, hy⟩
    · exact .inl (.head hstep hx)
    · rw [hstep] at hp
      cases hp
      exact ih hy

namespace IsTree
variable (h : IsTree par root nodes)
include h

theorem not_above_parent (hp : par x = some p) : ¬Above par x p := by
  have hx := h.above (h.parent_mem hp).1
  induction hx using ReflTransGen.head_induction_on generalizing p with
  | refl =>
    rw [h.parent_root] at hp
    cases hp
  | head hstep _ ih =>
    rw [hstep] at hp
    cases hp
    intro ha
    -- the parent is on the cycle too
    rcases ha.parent_or_eq with rfl | ⟨q, hq, ha⟩
    · exact ih hstep .refl
    · exact ih hq (.tail ha hstep)

theorem child_unique {c' : α} (hc : par c = some p) (hc' : par c' = some p) (hct : Above par c t)
    (hct' : Above par c' t) : c = c' := by
  have hof : ∀ {c c' : α}, par c = some p → par c' = some p → Above par c c' → c = c' := by
    intro c c' hc hc' habove
    rcases habove.parent_or_eq with rfl | ⟨q, hq, habove⟩
    · rfl
    · rw [hc'] at hq
      cases hq
      exact absurd habove (h.not_above_parent hc)
  rcases hct.total hct' with habove | habove
  · exact hof hc hc' habove
  · exact (hof hc' hc habove).symm

end IsTree

/-! ### Paths -/

namespace IsPath

theorem nil_absurd (h : IsPath par s t []) : False := nomatch h.head

theorem cons_head (h : IsPath par s t (x :: path)) : x = s := Option.some.inj h.head

theorem tail (h : IsPath par s t (s :: y :: rest)) : IsPath par y t (y :: rest) :=
  ⟨rfl, by simpa using h.last, h.chain.tail, h.nodup.tail⟩

theorem adjacent (h : IsPath par s t (s :: y :: rest)) : Adjacent par s y := (isChain_cons_cons.mp h.chain).1

theorem not_mem (h : IsPath par s t (s :: y :: rest)) : s ∉ y :: rest := (nodup_cons.mp h.nodup).1

theorem singleton (h : IsPath par s t [x]) : x = s ∧ s = t :=
  ⟨h.cons_head, (h.cons_head ▸ Option.some.inj h.last : s = t)⟩

theorem suffix {front : List α} (h : IsPath par s t (front ++ x :: rest)) : IsPath par x t (x :: rest) :=
  ⟨rfl, by simpa using h.last, h.chain.right_of_append, (nodup_append.mp h.nodup).2.1⟩

theorem upto {front : List α} (h : IsPath par s t (front ++ x :: rest)) : IsPath par s x (front ++ [x]) := by
  have hsp : front ++ x :: rest = (front ++ [x]) ++ rest := by simp
  refine ⟨?_, by simp, (hsp ▸ h.chain).left_of_append, (nodup_append.mp (hsp ▸ h.nodup)).1⟩
  have hh := h.head
  cases front with
  | nil => exact hh
  | cons z front => exact hh

theorem reverse (h : IsPath par s t path) : IsPath par t s path.reverse := by
  refine ⟨by rw [head?_reverse, h.last], by rw [getLast?_reverse, h.head], ?_, nodup_reverse.mpr h.nodup⟩
  rw [isChain_reverse]
  exact h.chain.imp fun _ _ hxy => hxy.symm

theorem not_loop (h : IsPath par s s (s :: y :: rest)) : False := h.not_mem (mem_of_getLast? h.tail.last)

theorem mem_of_enters (h : IsPath par y t path) (hxt : Above par x t) (hxy : ¬Above par x y) : x ∈ path := by
  induction path generalizing y with
  | nil => exact h.nil_absurd.elim
  | cons z rest ih =>
    obtain rfl := h.cons_head
    cases rest with
    | nil =>
      obtain ⟨_, rfl⟩ := h.singleton
      exact absurd hxt hxy
    | cons w rest =>
      by_cases hxw : Above par x w
      · rcases h.adjacent with hup | hdown
        · exact absurd (hxw.trans (above_parent hup)) hxy
        · rcases hxw.parent_or_eq with rfl | ⟨q, hq, hxq⟩
          · exact mem_cons_of_mem _ mem_cons_self
          · rw [hdown] at hq
            cases hq
            exact absurd hxq hxy
      · exact mem_cons_of_mem _ (ih h.tail hxw)

/-- A path that starts in a subtree and does not go through the parent of its top ends in it. -/
theorem above_of_stays (h : IsPath par y t path) (hcy : Above par c y) (hp : par c = some p) (hnot : p ∉ path) :
    Above par c t := by
  induction path generalizing y with
  | nil => exact h.nil_absurd.elim
  | cons z rest ih =>
    obtain rfl := h.cons_head
    cases rest with
    | nil =>
      obtain ⟨_, rfl⟩ := h.singleton
      exact hcy
    | cons w rest =>
      have hr : p ∉ w :: rest := fun hmem => hnot (mem_cons_of_mem _ hmem)
      rcases h.adjacent with hup | hdown
      · rcases hcy.parent_or_eq with rfl | ⟨q, hq, hcq⟩
        · rw [hp] at hup
          cases hup
          exact absurd mem_cons_self hr
        · rw [hup] at hq
          cases hq
          exact ih h.tail hcq hr
      · exact ih h.tail (hcy.trans (above_parent hdown)) hr

theorem not_above_of_up (htree : IsTree par root nodes) (h : IsPath par s t (s :: y :: rest)) (hup : par s = some y) :
    ¬Above par s t :=
  fun habove => h.not_mem (h.tail.mem_of_enters habove (htree.not_above_parent hup))

theorem above_of_down (h : IsPath par s t (s :: y :: rest)) (hdown : par y = some s) : Above par y t :=
  h.tail.above_of_stays .refl hdown h.not_mem

/-- Between two nodes there is one path. -/
theorem unique (htree : IsTree par root nodes) {path' : List α} (h : IsPath par s t path) (h' : IsPath par s t path') :
    path = path' := by
  induction path generalizing s path' with
  | nil => exact h.nil_absurd.elim
  | cons x rest ih =>
    obtain rfl := h.cons_head
    cases path' with
    | nil => exact h'.nil_absurd.elim
    | cons x' rest' =>
      obtain rfl := h'.cons_head
      cases rest with
      | nil =>
        obtain ⟨_, rfl⟩ := h.singleton
        cases rest' with
        | nil => rfl
        | cons z l => exact h'.not_loop.elim
      | cons y rest =>
        cases rest' with
        | nil =>
          obtain ⟨_, rfl⟩ := h'.singleton
          exact h.not_loop.elim
        | cons y' rest' =>
          have hsame : y = y' := by
            rcases h.adjacent with hup | hdown
            · rcases h'.adjacent with hup' | hdown'
              · exact Option.some.inj (hup.symm.trans hup')
              · exact absurd ((above_parent hdown').trans (h'.above_of_down hdown')) (h.not_above_of_up htree hup)
            · rcases h'.adjacent with hup' | hdown'
              · exact absurd ((above_parent hdown).trans (h.above_of_down hdown)) (h'.not_above_of_up htree hup')
              · exact htree.child_unique hdown hdown' (h.above_of_down hdown) (h'.above_of_down hdown')
          subst hsame
          rw [ih h.tail h'.tail]

end IsPath

theorem exists_path_of_reach (h : ReflTransGen (Adjacent par) s t) : ∃ path, IsPath par s t path := by
  induction h using ReflTransGen.head_induction_on with
  | refl => exact ⟨[t], rfl, rfl, by simp, by simp⟩
  | @head x y hstep _ ih =>
    obtain ⟨path, hp⟩ := ih
    by_cases hmem : x ∈ path
    · -- cut the loop
      obtain ⟨front, back, rfl⟩ := append_of_mem hmem
      refine ⟨x :: back, rfl, ?_, hp.chain.right_of_append, (nodup_append.mp hp.nodup).2.1⟩
      simpa using hp.last
    · cases path with
      | nil => exact hp.nil_absurd.elim
      | cons z rest =>
        obtain rfl := hp.cons_head
        exact ⟨x :: z :: rest, rfl, by simpa using hp.last, isChain_cons_cons.mpr ⟨hstep, hp.chain⟩,
          nodup_cons.mpr ⟨hmem, hp.nodup⟩⟩

namespace IsTree

theorem exists_path (h : IsTree par root nodes) (hs : s ∈ nodes) (ht : t ∈ nodes) : ∃ path, IsPath par s t path := by
  have hup : ReflTransGen (Adjacent par) s root :=
    ReflTransGen.mono (fun _ _ hp => Or.inl hp) _ _ (h.above hs)
  have hdown : ReflTransGen (Adjacent par) root t := by
    have ha := h.above ht
    induction ha using ReflTransGen.head_induction_on with
    | refl => exact .refl
    | head hstep _ ih => exact (ih (h.parent_mem hstep).2).tail (.inr hstep)
  exact exists_path_of_reach (hup.trans hdown)

/-- What holds of a node and goes to the parent and the children of a node holds of every node. -/
theorem forall_of_closed (h : IsTree par root nodes) {P : α → Prop} (hx : x ∈ nodes) (hP : P x)
    (hup : ∀ {y p}, P y → par y = some p → P p) (hdown : ∀ {y c}, P y → par c = some y → P c) (hy : y ∈ nodes) : P y := by
  have hr : P root := by
    have ha := h.above hx
    induction ha using ReflTransGen.head_induction_on with
    | refl => exact hP
    | head hstep _ ih => exact ih (h.parent_mem hstep).2 (hup hP hstep)
  have ha := h.above hy
  induction ha using ReflTransGen.head_induction_on with
  | refl => exact hr
  | head hstep _ ih => exact hdown (ih (h.parent_mem hstep).2) hstep

end IsTree
end Rooted
