import Mathlib.Logic.Relation
import Mathlib.Data.List.Nodup

/-! # Block DAGs

Blocks name their parents by ID. A replica may take them in any order where each follows its parents. -/

namespace Dag
open List
variable {ι β : Type} (id : β → ι) (par : β → List ι)

def IsParent (blocks : List β) (a b : ι) : Prop :=
  a ∈ blocks.map id ∧ ∃ block ∈ blocks, id block = b ∧ a ∈ par block

def IsAncestor (blocks : List β) : ι → ι → Prop := Relation.TransGen (IsParent id par blocks)

/-- `order` holds the blocks, each after its parents. -/
structure LinearExtension (blocks order : List β) : Prop where
  perm : order.Perm blocks
  follows : ∀ l block r, order = l ++ block :: r → ∀ p ∈ par block, p ∈ l.map id

variable {id par} {blocks order : List β}

theorem LinearExtension.ancestor_before (hnd : (blocks.map id).Nodup) (h : LinearExtension id par blocks order)
    {a b : ι} (hab : IsAncestor id par blocks a b) :
    ∀ {l : List β} {block : β} {r : List β}, order = l ++ block :: r → id block = b → a ∈ l.map id := by
  have hpar : ∀ {c b : ι}, IsParent id par blocks c b →
      ∀ {l : List β} {block : β} {r : List β}, order = l ++ block :: r → id block = b → c ∈ l.map id := by
    rintro c b ⟨-, other, ho, rfl, hc⟩ l block r hsp hid
    have hb : block ∈ blocks := h.perm.mem_iff.mp (by rw [hsp]; simp)
    obtain rfl := inj_on_of_nodup_map hnd hb ho hid
    exact h.follows l block r hsp c hc
  induction hab with
  | single hab => exact hpar hab
  | tail _ hcb ih =>
    intro l block r hsp hid
    obtain ⟨other, ho, hc⟩ := mem_map.mp (hpar hcb hsp hid)
    obtain ⟨l₁, l₂, rfl⟩ := append_of_mem ho
    have := ih (l := l₁) (r := l₂ ++ block :: r) (by rw [hsp]; simp) hc
    rw [map_append]
    exact mem_append_left _ this

/-- A list of the blocks where no block names itself, a later one or one that is not there. -/
theorem LinearExtension.of_pairwise (blocks : List β) (hperm : order.Perm blocks) (hself : ∀ b ∈ order, id b ∉ par b)
    (hlater : order.Pairwise fun a b => id b ∉ par a) (hps : ∀ b ∈ order, ∀ p ∈ par b, p ∈ order.map id) :
    LinearExtension id par blocks order := by
  refine ⟨hperm, fun l block r hsp p hp => ?_⟩
  obtain ⟨other, ho, rfl⟩ := mem_map.mp (hps block (by simp [hsp]) p hp)
  rw [hsp, pairwise_append, pairwise_cons] at hlater
  rw [hsp, mem_append, mem_cons] at ho
  rcases ho with ho | rfl | ho
  · exact mem_map_of_mem ho
  · exact absurd hp (hself _ (by simp [hsp]))
  · exact absurd hp (hlater.2.1.1 other ho)

theorem acyclic_of_rank (rank : ι → Nat) (h : ∀ block ∈ blocks, ∀ p ∈ par block, rank p < rank (id block)) (a : ι) :
    ¬IsAncestor id par blocks a a := by
  have hlt : ∀ {a b}, IsAncestor id par blocks a b → rank a < rank b := by
    intro a b hab
    induction hab with
    | single hab =>
      obtain ⟨-, block, hb, rfl, hp⟩ := hab
      exact h block hb _ hp
    | tail _ hbc ih =>
      obtain ⟨-, block, hb, rfl, hp⟩ := hbc
      exact Nat.lt_trans ih (h block hb _ hp)
  exact fun ha => Nat.lt_irrefl _ (hlt ha)

end Dag
