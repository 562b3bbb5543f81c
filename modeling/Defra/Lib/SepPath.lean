import Mathlib.Data.List.Basic
import Mathlib.Data.List.Count
import Mathlib.Algebra.GroupWithZero.Nat

/-! # Paths with a separator

A path writes a separator before each of its segments. Where the segments do not hold the separator, a path tells them. -/

namespace SepPath
open List
variable {α : Type} {sep : α} {as bs : List (List α)}

/-- The segments, a separator before each. -/
def join (sep : α) (segments : List (List α)) : List α := segments.flatMap fun segment => sep :: segment

/-- No segment holds the separator. -/
def Free (sep : α) (segments : List (List α)) : Prop := ∀ segment ∈ segments, sep ∉ segment

theorem free_cons {a : List α} : Free sep (a :: as) ↔ sep ∉ a ∧ Free sep as := forall_mem_cons

@[simp] theorem join_nil : join sep [] = [] := rfl

@[simp] theorem join_cons (a : List α) (as : List (List α)) : join sep (a :: as) = sep :: (a ++ join sep as) := rfl

theorem mem_join {x : α} (h : x ∈ join sep as) : x = sep ∨ ∃ a ∈ as, x ∈ a := by
  obtain ⟨a, ha, hx⟩ := mem_flatMap.mp h
  exact (mem_cons.mp hx).imp id fun hx => ⟨a, ha, hx⟩

theorem append_inj {a b x y : List α} (ha : sep ∉ a) (hb : sep ∉ b) (hx : ∀ c ∈ x.head?, c = sep)
    (hy : ∀ c ∈ y.head?, c = sep) (h : a ++ x = b ++ y) : a = b ∧ x = y := by
  induction a generalizing b with
  | nil =>
    cases b with
    | nil => exact ⟨rfl, h⟩
    | cons c b =>
      rw [nil_append] at h
      have hc : c = sep := hx c (by rw [h]; rfl)
      exact absurd (hc ▸ mem_cons_self) hb
  | cons c a ih =>
    cases b with
    | nil =>
      rw [nil_append] at h
      have hc : c = sep := hy c (by rw [← h]; rfl)
      exact absurd (hc ▸ mem_cons_self) ha
    | cons d b =>
      rw [cons_append, cons_append, cons.injEq] at h
      obtain ⟨rfl, rfl⟩ := ih (fun hm => ha (mem_cons_of_mem _ hm)) (fun hm => hb (mem_cons_of_mem _ hm)) h.2
      exact ⟨by rw [h.1], rfl⟩

theorem head?_join (as : List (List α)) : ∀ c ∈ (join sep as).head?, c = sep := by
  cases as with
  | nil => simp
  | cons a as => simp [eq_comm]

/-- A path tells its segments. -/
theorem join_injective (ha : Free sep as) (hb : Free sep bs) (h : join sep as = join sep bs) : as = bs := by
  induction as generalizing bs with
  | nil => cases bs with
    | nil => rfl
    | cons b bs => simp at h
  | cons a as ih => cases bs with
    | nil => simp at h
    | cons b bs =>
      rw [join_cons, join_cons, cons.injEq] at h
      rw [free_cons] at ha hb
      obtain ⟨rfl, htail⟩ := append_inj ha.1 hb.1 (head?_join as) (head?_join bs) h.2
      rw [ih ha.2 hb.2 htail]

variable [DecidableEq α]

theorem count_join (as : List (List α)) : (join sep as).count sep = as.length + (as.map (count sep)).sum := by
  induction as with
  | nil => rfl
  | cons a as ih =>
    rw [join_cons, count_cons_self, count_append, map_cons, sum_cons, length_cons]
    omega

theorem free_iff_count : Free sep as ↔ (as.map (count sep)).sum = 0 := by
  induction as with
  | nil => simp [Free]
  | cons a as ih => rw [free_cons, ih, map_cons, sum_cons, Nat.add_eq_zero_iff, count_eq_zero]

omit [DecidableEq α] in
theorem dir_prefix_iff (ha : Free sep as) (hb : Free sep bs) :
    join sep as ++ [sep] <+: join sep bs ↔ ∃ c cs, bs = as ++ c :: cs := by
  induction as generalizing bs with
  | nil =>
    cases bs with
    | nil => simp
    | cons b bs => simp
  | cons a as ih =>
    cases bs with
    | nil => simp
    | cons b bs =>
      rw [free_cons] at ha hb
      have hh : ∀ rest, ∀ c ∈ (join sep as ++ [sep] ++ rest).head?, c = sep := by
        cases as <;> simp [eq_comm]
      constructor
      · rintro ⟨rest, h⟩
        have htail : a ++ (join sep as ++ [sep] ++ rest) = b ++ join sep bs := by simpa using h
        obtain ⟨rfl, hr⟩ := append_inj ha.1 hb.1 (hh rest) (head?_join bs) htail
        obtain ⟨c, cs, rfl⟩ := (ih ha.2 hb.2).mp ⟨rest, hr⟩
        exact ⟨c, cs, rfl⟩
      · rintro ⟨c, cs, h⟩
        obtain ⟨rfl, rfl⟩ := cons.inj h
        obtain ⟨rest, hr⟩ := (ih ha.2 hb.2).mpr ⟨c, cs, rfl⟩
        exact ⟨rest, by simpa using hr⟩

/-- A path to a directory that starts a path one segment longer has no separator in its own segments. -/
theorem free_of_dir (hb : Free sep bs) (hlen : as.length + 1 = bs.length)
    (h : join sep as ++ [sep] <+: join sep bs) : Free sep as := by
  obtain ⟨rest, h⟩ := h
  have hc := congrArg (count sep) h
  rw [count_join, free_iff_count.mp hb, append_assoc, count_append, count_join, singleton_append,
    count_cons_self] at hc
  exact free_iff_count.mpr (by omega)

end SepPath
