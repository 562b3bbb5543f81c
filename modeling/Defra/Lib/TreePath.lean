import Mathlib.Order.Lattice
import Mathlib.Data.List.Infix
import Mathlib.Order.Defs.LinearOrder

/-! # Paths of an ordered tree

A node is the path to it from the root, each step to a left or a right child, siblings ordered by their keys. A node's left
subtrees come before it and its right ones after it, so the reading order is an order of the paths alone (`Before`). -/

namespace TreePath
open List

/-- One step down: to a left or a right child, by its key among its siblings. -/
inductive Step (α : Type) where
  | left (key : α)
  | right (key : α)
  deriving DecidableEq

abbrev Path (α : Type) := List (Step α)

def Step.key {α : Type} : Step α → α
  | .left key | .right key => key

section Order
variable {α : Type} [LinearOrder α] {s : Step α} {p q : Path α}

def Step.lt : Step α → Step α → Prop
  | .left a, .left b => a < b
  | .left _, .right _ => True
  | .right _, .left _ => False
  | .right a, .right b => a < b

theorem Step.lt_irrefl (s : Step α) : ¬ s.lt s := by
  cases s <;> simp [Step.lt]

theorem Step.lt_trans {t u : Step α} (h : s.lt t) (h' : t.lt u) : s.lt u := by
  cases s <;> cases t <;> cases u <;> simp only [Step.lt] at h h' ⊢
  · exact h.trans h'
  · exact h.trans h'

theorem Step.trichotomy (s t : Step α) : s.lt t ∨ s = t ∨ t.lt s := by
  cases s <;> cases t <;> simp only [Step.lt, Step.left.injEq, Step.right.injEq, true_or, or_true]
  · exact lt_trichotomy _ _
  · exact lt_trichotomy _ _

/-- A node comes after its left subtrees and before its right ones. -/
def Before : Path α → Path α → Prop
  | [], [] => False
  | [], t :: _ => ∃ k, t = .right k
  | s :: _, [] => ∃ k, s = .left k
  | s :: p, t :: q => s.lt t ∨ s = t ∧ Before p q

theorem before_cons {t : Step α} : Before (s :: p) (t :: q) ↔ s.lt t ∨ s = t ∧ Before p q :=
  Iff.rfl

theorem nil_before_cons : Before [] (s :: p) ↔ ∃ k, s = .right k := Iff.rfl

theorem cons_before_nil : Before (s :: p) [] ↔ ∃ k, s = .left k := Iff.rfl

theorem before_irrefl : ∀ p : Path α, ¬ Before p p
  | [] => id
  | s :: p => by
    rintro (h | ⟨-, h⟩)
    · exact s.lt_irrefl h
    · exact before_irrefl p h

theorem before_trans : ∀ {p q r : Path α}, Before p q → Before q r → Before p r
  | [], [], _, h, _ => h.elim
  | _, [], [], _, h => h.elim
  | [], t :: q, [], h, h' => by
    obtain ⟨k, rfl⟩ := nil_before_cons.mp h
    obtain ⟨k', hk⟩ := cons_before_nil.mp h'
    cases hk
  | s :: p, [], u :: r, h, h' => by
    obtain ⟨k, rfl⟩ := cons_before_nil.mp h
    obtain ⟨k', rfl⟩ := nil_before_cons.mp h'
    exact .inl trivial
  | [], t :: q, u :: r, h, h' => by
    obtain ⟨k, rfl⟩ := nil_before_cons.mp h
    rcases before_cons.mp h' with h' | ⟨rfl, -⟩
    · cases u with
      | left k' => exact h'.elim
      | right k' => exact ⟨k', rfl⟩
    · exact ⟨k, rfl⟩
  | s :: p, t :: q, [], h, h' => by
    obtain ⟨k, rfl⟩ := cons_before_nil.mp h'
    rcases before_cons.mp h with h | ⟨rfl, -⟩
    · cases s with
      | left k' => exact ⟨k', rfl⟩
      | right k' => exact h.elim
    · exact ⟨k, rfl⟩
  | s :: p, t :: q, u :: r, h, h' => by
    rcases before_cons.mp h with hst | ⟨rfl, hpq⟩ <;> rcases before_cons.mp h' with htu | ⟨rfl, hqr⟩
    · exact .inl (Step.lt_trans hst htu)
    · exact .inl hst
    · exact .inl htu
    · exact .inr ⟨rfl, before_trans hpq hqr⟩

/-- Of two nodes, one comes first. -/
theorem before_trichotomy : ∀ p q : Path α, Before p q ∨ p = q ∨ Before q p
  | [], [] => .inr (.inl rfl)
  | [], .left k :: _ => .inr (.inr ⟨k, rfl⟩)
  | [], .right k :: _ => .inl ⟨k, rfl⟩
  | .left k :: _, [] => .inl ⟨k, rfl⟩
  | .right k :: _, [] => .inr (.inr ⟨k, rfl⟩)
  | s :: p, t :: q => by
    rcases s.trichotomy t with h | rfl | h
    · exact .inl (.inl h)
    · rcases before_trichotomy p q with h | rfl | h
      · exact .inl (.inr ⟨rfl, h⟩)
      · exact .inr (.inl rfl)
      · exact .inr (.inr (.inr ⟨rfl, h⟩))
    · exact .inr (.inr (.inl h))

theorem before_asymm (h : Before p q) : ¬ Before q p := fun h' =>
  before_irrefl p (before_trans h h')

theorem ne_of_before (h : Before p q) : p ≠ q := fun he => before_irrefl q (he ▸ h)

@[simp] theorem before_append_iff (p : Path α) {r : Path α} : Before (p ++ q) (p ++ r) ↔ Before q r := by
  induction p with
  | nil => rfl
  | cons s p ih => simp [before_cons, Step.lt_irrefl, ih]

theorem before_append_right (p : Path α) (k : α) (q : Path α) : Before p (p ++ .right k :: q) := by
  have := (before_append_iff p (q := []) (r := .right k :: q)).mpr ⟨k, rfl⟩
  rwa [append_nil] at this

theorem append_left_before (p : Path α) (k : α) (q : Path α) : Before (p ++ .left k :: q) p := by
  have := (before_append_iff p (q := .left k :: q) (r := [])).mpr ⟨k, rfl⟩
  rwa [append_nil] at this

/-- A path that does not pass through `p` is after all of `p`'s subtree or before all of it. -/
theorem append_before_of_apart : ∀ {p q : Path α} (r : Path α), ¬ p <+: q → Before p q → Before (p ++ r) q
  | [], _, _, hp, _ => absurd nil_prefix hp
  | s :: p, [], r, _, h => by
    obtain ⟨k, rfl⟩ := cons_before_nil.mp h
    exact ⟨k, rfl⟩
  | s :: p, t :: q, r, hp, h => by
    rcases before_cons.mp h with hst | ⟨rfl, hpq⟩
    · exact .inl hst
    · rw [prefix_cons_inj] at hp
      exact .inr ⟨rfl, append_before_of_apart r hp hpq⟩

theorem before_append_of_apart : ∀ {p q : Path α} (r : Path α), ¬ p <+: q → Before q p → Before q (p ++ r)
  | [], _, _, hp, _ => absurd nil_prefix hp
  | s :: p, [], r, _, h => by
    obtain ⟨k, rfl⟩ := nil_before_cons.mp h
    exact ⟨k, rfl⟩
  | s :: p, t :: q, r, hp, h => by
    rcases before_cons.mp h with hst | ⟨rfl, hpq⟩
    · exact .inl hst
    · rw [prefix_cons_inj] at hp
      exact .inr ⟨rfl, before_append_of_apart r hp hpq⟩

/-- A path after `p` that passes through it takes a right step there. -/
theorem exists_right_of_before (hp : p <+: q) (h : Before p q) : ∃ k r, q = p ++ .right k :: r := by
  obtain ⟨r, rfl⟩ := hp
  cases r with
  | nil => exact absurd (by simpa using h) (before_irrefl p)
  | cons s r =>
    have h' : Before ([] : Path α) (s :: r) := by
      rw [← before_append_iff p, append_nil]
      exact h
    obtain ⟨k, rfl⟩ := nil_before_cons.mp h'
    exact ⟨k, r, rfl⟩

/-- A path before `p` that passes through it takes a left step there. -/
theorem exists_left_of_before (hp : p <+: q) (h : Before q p) : ∃ k r, q = p ++ .left k :: r := by
  obtain ⟨r, rfl⟩ := hp
  cases r with
  | nil => exact absurd (by simpa using h) (before_irrefl p)
  | cons s r =>
    have h' : Before (s :: r) ([] : Path α) := by
      rw [← before_append_iff p, append_nil]
      exact h
    obtain ⟨k, rfl⟩ := cons_before_nil.mp h'
    exact ⟨k, r, rfl⟩

end Order

end TreePath
