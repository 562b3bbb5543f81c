import Mathlib.Order.WellFoundedSet
import Mathlib.Data.List.Nodup

/-! # Walks down a DAG

A walk goes down from some tips. It meets a block once, when a tip or a parent of a visited block names it, and visits the
blocks it met in any order. What it has not met is below a block that it met and did not visit. -/

namespace DagWalk
open List
variable {ι : Type} (par : ι → List ι) (tips : List ι)

/-- `a` is above `b`: `b` is a parent of it, or a parent of one that is below it. -/
def IsAbove : ι → ι → Prop := Relation.TransGen fun a b => b ∈ par a

/-- `x` is a tip, or below one. -/
def Reached (x : ι) : Prop := ∃ t ∈ tips, Relation.ReflTransGen (fun a b => b ∈ par a) t x

/-- The blocks visited, those met and not visited, and those named and not yet looked at. -/
structure Walk (next seen : List ι) (front : Set ι) : Prop where
  nodup : seen.Nodup
  apart : ∀ v ∈ seen, v ∉ front
  visited_reached : ∀ v ∈ seen, Reached par tips v
  frontier_reached : ∀ f ∈ front, Reached par tips f
  next_reached : ∀ n ∈ next, Reached par tips n
  tips_met : ∀ t ∈ tips, t ∈ next ∨ t ∈ seen ∨ t ∈ front
  parents_met : ∀ v ∈ seen, ∀ p ∈ par v, p ∈ next ∨ p ∈ seen ∨ p ∈ front

variable {par tips} {next seen : List ι} {front : Set ι} {x : ι}

theorem Reached.congr {tips' : List ι} (h : ∀ t, t ∈ tips ↔ t ∈ tips') : Reached par tips x ↔ Reached par tips' x := by
  simp only [Reached, h]

namespace Walk

theorem start : Walk par tips tips [] ∅ where
  nodup := nodup_nil
  apart _ h := absurd h not_mem_nil
  visited_reached _ h := absurd h not_mem_nil
  frontier_reached _ h := absurd h (Set.notMem_empty _)
  next_reached t ht := ⟨t, ht, .refl⟩
  tips_met _ ht := .inl ht
  parents_met _ h := absurd h not_mem_nil

theorem meet_seen (h : Walk par tips (x :: next) seen front) (hx : x ∈ seen ∨ x ∈ front) :
    Walk par tips next seen front := by
  have hmet : ∀ {y}, y ∈ x :: next ∨ y ∈ seen ∨ y ∈ front → y ∈ next ∨ y ∈ seen ∨ y ∈ front := by
    rintro y (hy | hy)
    · rcases mem_cons.mp hy with rfl | hy
      · exact .inr hx
      · exact .inl hy
    · exact .inr hy
  exact { h with
    next_reached := fun n hn => h.next_reached n (mem_cons_of_mem _ hn)
    tips_met := fun t ht => hmet (h.tips_met t ht)
    parents_met := fun v hv p hp => hmet (h.parents_met v hv p hp) }

theorem meet_new (h : Walk par tips (x :: next) seen front) (hx : x ∉ seen) :
    Walk par tips next seen (insert x front) := by
  have hmet : ∀ {y}, y ∈ x :: next ∨ y ∈ seen ∨ y ∈ front → y ∈ next ∨ y ∈ seen ∨ y ∈ insert x front := by
    rintro y (hy | hy | hy)
    · rcases mem_cons.mp hy with rfl | hy
      · exact .inr (.inr (Set.mem_insert _ _))
      · exact .inl hy
    · exact .inr (.inl hy)
    · exact .inr (.inr (Set.mem_insert_of_mem _ hy))
  refine { h with
    apart := fun v hv hf => ?_
    frontier_reached := fun f hf => ?_
    next_reached := fun n hn => h.next_reached n (mem_cons_of_mem _ hn)
    tips_met := fun t ht => hmet (h.tips_met t ht)
    parents_met := fun v hv p hp => hmet (h.parents_met v hv p hp) }
  · rcases Set.mem_insert_iff.mp hf with rfl | hf
    · exact hx hv
    · exact h.apart v hv hf
  · rcases Set.mem_insert_iff.mp hf with rfl | hf
    · exact h.next_reached f mem_cons_self
    · exact h.frontier_reached f hf

theorem visit (h : Walk par tips [] seen front) (hx : x ∈ front) :
    Walk par tips (par x) (seen ++ [x]) (front \ {x}) := by
  obtain ⟨t, ht, htx⟩ := h.frontier_reached x hx
  have hmet : ∀ {y}, y ∈ [] ∨ y ∈ seen ∨ y ∈ front →
      y ∈ par x ∨ y ∈ seen ++ [x] ∨ y ∈ front \ {x} := by
    rintro y (hy | hy | hy)
    · exact absurd hy not_mem_nil
    · exact .inr (.inl (mem_append_left _ hy))
    · by_cases heq : y = x
      · exact .inr (.inl (by simp [heq]))
      · exact .inr (.inr ⟨hy, heq⟩)
  refine ⟨?_, fun v hv hf => ?_, fun v hv => ?_, fun f hf => h.frontier_reached f hf.1, fun p hp => ?_,
    fun t ht => hmet (h.tips_met t ht), fun v hv p hp => ?_⟩
  · rw [nodup_append]
    refine ⟨h.nodup, nodup_singleton x, fun v hv y hy heq => ?_⟩
    rw [mem_singleton.mp hy] at heq
    exact h.apart v hv (heq ▸ hx)
  · rcases mem_append.mp hv with hv | hv
    · exact h.apart v hv hf.1
    · exact hf.2 (mem_singleton.mp hv)
  · rcases mem_append.mp hv with hv | hv
    · exact h.visited_reached v hv
    · exact mem_singleton.mp hv ▸ ⟨t, ht, htx⟩
  · exact ⟨t, ht, htx.tail hp⟩
  · rcases mem_append.mp hv with hv | hv
    · exact hmet (h.parents_met v hv p hp)
    · exact .inl (mem_singleton.mp hv ▸ hp)

/-- What is reached was visited, or is at or below a block that was met and not visited. -/
theorem covers (h : Walk par tips [] seen front) (hx : Reached par tips x) :
    x ∈ seen ∨ ∃ f ∈ front, Relation.ReflTransGen (fun a b => b ∈ par a) f x := by
  have hmet : ∀ {y}, y ∈ [] ∨ y ∈ seen ∨ y ∈ front →
      y ∈ seen ∨ ∃ f ∈ front, Relation.ReflTransGen (fun a b => b ∈ par a) f y := by
    rintro y (hy | hy | hy)
    · exact absurd hy not_mem_nil
    · exact .inl hy
    · exact .inr ⟨y, hy, .refl⟩
  obtain ⟨t, ht, htx⟩ := hx
  induction htx with
  | refl => exact hmet (h.tips_met t ht)
  | tail _ hp ih =>
    rcases ih with hv | ⟨f, hf, hfx⟩
    · exact hmet (h.parents_met _ hv _ hp)
    · exact .inr ⟨f, hf, hfx.tail hp⟩

/-- When one block is left and none visited was a root, each visited block is above it. -/
theorem above_last (h : Walk par tips [] seen {x}) (hacy : ∀ a, ¬IsAbove par a a)
    (hroots : ∀ v ∈ seen, par v ≠ []) {v : ι} (hv : v ∈ seen) : IsAbove par v x := by
  have : IsStrictOrder ι fun a b => IsAbove par b a :=
    { irrefl := hacy, trans := fun _ _ _ hab hbc => hbc.trans hab }
  have hwf : {v | v ∈ seen}.WellFoundedOn fun a b => IsAbove par b a := (finite_toSet seen).wellFoundedOn
  refine hwf.induction (P := fun v => IsAbove par v x) hv fun v hv ih => ?_
  obtain ⟨p, hp⟩ := exists_mem_of_ne_nil _ (hroots v hv)
  rcases h.parents_met v hv p hp with hnil | hp' | hp'
  · exact absurd hnil not_mem_nil
  · exact .head hp (ih p hp' (.single hp))
  · exact .single (Set.mem_singleton_iff.mp hp' ▸ hp)

theorem splits (h : Walk par tips [] seen {x}) (hacy : ∀ a, ¬IsAbove par a a)
    (hroots : ∀ v ∈ seen, par v ≠ []) {b : ι} (hb : Reached par tips b) : b = x ∨ IsAbove par b x ∨ IsAbove par x b := by
  rcases h.covers hb with hv | ⟨f, hf, hfb⟩
  · exact .inr (.inl (h.above_last hacy hroots hv))
  · rw [Set.mem_singleton_iff.mp hf] at hfb
    rcases Relation.reflTransGen_iff_eq_or_transGen.mp hfb with heq | hbelow
    · exact .inl heq
    · exact .inr (.inr hbelow)

theorem mem_visited_iff (h : Walk par tips [] seen {x}) (hacy : ∀ a, ¬IsAbove par a a)
    (hroots : ∀ v ∈ seen, par v ≠ []) (b : ι) : b ∈ seen ↔ Reached par tips b ∧ IsAbove par b x := by
  refine ⟨fun hb => ⟨h.visited_reached b hb, h.above_last hacy hroots hb⟩, fun ⟨hb, ha⟩ => ?_⟩
  rcases h.covers hb with hv | ⟨f, hf, hfb⟩
  · exact hv
  · rw [Set.mem_singleton_iff.mp hf] at hfb
    exact absurd (Relation.TransGen.trans_left ha hfb) (hacy b)

end Walk
end DagWalk
