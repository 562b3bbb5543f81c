import Mathlib.Data.List.Sort

/-! # Sorting

Lists with the same items, each as often, sort to one list. A stable sort by a comparison sorts the parts of a list one by one when
each item of a part is below those of the parts after it. -/

namespace MergeSort
open List

section
variable {α : Type} [LinearOrder α]

theorem pairwise (l : List α) : (l.mergeSort (· ≤ ·)).Pairwise (· ≤ ·) := by
  have h : (l.mergeSort (· ≤ ·)).Pairwise fun a b => decide (a ≤ b) = true :=
    pairwise_mergeSort (by simpa using fun a b c => le_trans) (by simpa using le_total) l
  simpa using h

theorem eq_iff_perm {l m : List α} : l.mergeSort (· ≤ ·) = m.mergeSort (· ≤ ·) ↔ l.Perm m := by
  constructor
  · intro h
    exact (mergeSort_perm l _).symm.trans (h ▸ mergeSort_perm m _)
  · intro h
    have hperm := (mergeSort_perm l (· ≤ ·)).trans (h.trans (mergeSort_perm m (· ≤ ·)).symm)
    exact hperm.eq_of_pairwise' (pairwise l) (pairwise m)

end

/-- The three comparisons of three items agree. -/
def Fits (ab bc ac : Ordering) : Prop := (ab = .eq → ac = bc) ∧ (bc = .eq → ac = ab) ∧ (ab = bc → ac = ab)

instance instDecidableFits (ab bc ac : Ordering) : Decidable (Fits ab bc ac) := inferInstanceAs (Decidable (_ ∧ _))

theorem Fits.then {ab bc ac ab' bc' ac' : Ordering} (h : Fits ab bc ac) (h' : Fits ab' bc' ac') :
    Fits (ab.then ab') (bc.then bc') (ac.then ac') := by
  revert ab bc ac ab' bc' ac'
  decide

theorem Fits.refine {ab bc ac ab' bc' ac' : Ordering} (h : Fits ab bc ac) (hab : ab ≠ .eq → ab' = ab) (hbc : bc ≠ .eq → bc' = bc)
    (hac : ac ≠ .eq → ac' = ac) (heq : ab = .eq → bc = .eq → Fits ab' bc' ac') : Fits ab' bc' ac' := by
  revert ab bc ac ab' bc' ac'
  decide

theorem fits_lowest (o : Ordering) : Fits .lt o .lt ∧ Fits .gt .lt o ∧ Fits o .gt .gt ∧ Fits .lt .gt o := by
  revert o
  decide

theorem fits_equal (o : Ordering) : Fits .eq o o ∧ Fits o .eq o := by
  revert o
  decide

theorem Fits.swap {ab bc ac : Ordering} (h : Fits ab bc ac) : Fits ab.swap bc.swap ac.swap := by
  revert ab bc ac
  decide

theorem Fits.isLE {ab bc ac : Ordering} (h : Fits ab bc ac) : ab.isLE = true → bc.isLE = true → ac.isLE = true := by
  revert ab bc ac
  decide

section
variable {α : Type*} {cmp : α → α → Ordering}

theorem fits_of_transCmp [Std.TransCmp cmp] (a b c : α) : Fits (cmp a b) (cmp b c) (cmp a c) := by
  refine ⟨Std.TransCmp.congr_left, fun h => (Std.TransCmp.congr_right h).symm, fun h => ?_⟩
  cases hab : cmp a b with
  | lt => exact Std.TransCmp.lt_trans hab (h ▸ hab)
  | eq => exact Std.TransCmp.eq_trans hab (h ▸ hab)
  | gt => exact Std.TransCmp.gt_trans hab (h ▸ hab)

theorem transCmp_of_fits (hs : ∀ a b, cmp a b = (cmp b a).swap) (hfits : ∀ a b c, Fits (cmp a b) (cmp b c) (cmp a c)) :
    Std.TransCmp cmp where
  eq_swap := hs _ _
  isLE_trans := (hfits _ _ _).isLE

/-- A comparison in which a missing item comes first. -/
def noneFirst (cmp : α → α → Ordering) : Option α → Option α → Ordering
  | none, none => .eq
  | none, some _ => .lt
  | some _, none => .gt
  | some a, some b => cmp a b

theorem noneFirst_swap (hs : ∀ a b, cmp a b = (cmp b a).swap) (a b : Option α) :
    noneFirst cmp a b = (noneFirst cmp b a).swap := by
  cases a with
  | none => cases b <;> rfl
  | some a =>
    cases b with
    | none => rfl
    | some b => exact hs a b

theorem noneFirst_fits (hfits : ∀ a b c, Fits (cmp a b) (cmp b c) (cmp a c)) (a b c : Option α) :
    Fits (noneFirst cmp a b) (noneFirst cmp b c) (noneFirst cmp a c) := by
  cases a with
  | none =>
    cases b with
    | none => exact (fits_equal _).1
    | some b =>
      cases c with
      | none => exact (fits_lowest .eq).2.2.2
      | some c => exact (fits_lowest (cmp b c)).1
  | some a =>
    cases b with
    | none =>
      cases c with
      | none => exact (fits_equal .gt).2
      | some c => exact (fits_lowest (cmp a c)).2.1
    | some b =>
      cases c with
      | none => exact (fits_lowest (cmp a b)).2.2.1
      | some c => exact hfits a b c

end

/-- The items of a list in order, and what was in order in the list as it stood there. -/
structure StableSort {α : Type*} (le : α → α → Bool) (l sorted : List α) : Prop where
  perm : sorted.Perm l
  ordered : sorted.Pairwise fun a b => le a b = true
  stable : ∀ part : List α, part.Sublist l → part.Pairwise (fun a b => le a b = true) → part.Sublist sorted

section
variable {α : Type*} {le : α → α → Bool} (trans : ∀ a b c, le a b = true → le b c = true → le a c = true)
  (total : ∀ a b, (le a b || le b a) = true)
include trans total

theorem stableSort_mergeSort (l : List α) : StableSort le l (l.mergeSort le) where
  perm := mergeSort_perm l le
  ordered := pairwise_mergeSort trans total l
  stable _ hsub hpart := sublist_mergeSort trans total hpart hsub

theorem mergeSort_cons (a : α) (l : List α) : (a :: l).mergeSort le =
    (l.mergeSort le).takeWhile (fun b => !le a b) ++ a :: (l.mergeSort le).dropWhile fun b => !le a b := by
  obtain ⟨before, after, hc, hsort, hbef⟩ := List.mergeSort_cons trans total a l
  have hsorted := pairwise_mergeSort trans total (a :: l)
  rw [hc, pairwise_append, pairwise_cons] at hsorted
  rw [hc, hsort, takeWhile_append_of_pos hbef, dropWhile_append_of_pos hbef]
  cases after with
  | nil => rw [takeWhile_nil, dropWhile_nil, append_nil]
  | cons b after =>
    have hb : le a b = true := hsorted.2.1.1 b mem_cons_self
    rw [takeWhile_cons_of_neg (by simp [hb]), dropWhile_cons_of_neg (by simp [hb]), append_nil]

/-- Two parts are sorted one by one when no item of the second is below one of the first. -/
theorem mergeSort_append {l m : List α} (h : ∀ a ∈ l, ∀ b ∈ m, le a b = true) :
    (l ++ m).mergeSort le = l.mergeSort le ++ m.mergeSort le := by
  induction l with
  | nil => rw [mergeSort_nil, nil_append, nil_append]
  | cons a l ih =>
    obtain ⟨ha, hl⟩ := forall_mem_cons.mp h
    -- The item stops before the second part at the latest.
    have hstop : ∀ s, ∀ t : List α, (∀ b ∈ t, le a b = true) →
        (s ++ t).takeWhile (fun b => !le a b) = s.takeWhile (fun b => !le a b) ∧
          (s ++ t).dropWhile (fun b => !le a b) = s.dropWhile (fun b => !le a b) ++ t := by
      intro s t ht
      have htake : t.takeWhile (fun b => !le a b) = [] ∧ t.dropWhile (fun b => !le a b) = t := by
        cases t with
        | nil => exact ⟨rfl, rfl⟩
        | cons b t =>
          have hb : le a b = true := ht b mem_cons_self
          exact ⟨takeWhile_cons_of_neg (by simp [hb]), dropWhile_cons_of_neg (by simp [hb])⟩
      induction s with
      | nil => exact ⟨htake.1, htake.2⟩
      | cons b s ih =>
        rw [cons_append, takeWhile_cons, takeWhile_cons, dropWhile_cons, dropWhile_cons]
        split
        · exact ⟨congrArg (b :: ·) ih.1, ih.2⟩
        · exact ⟨rfl, rfl⟩
    have hm : ∀ b ∈ m.mergeSort le, le a b = true := fun b hb => ha b (mem_mergeSort.mp hb)
    rw [cons_append, mergeSort_cons trans total, mergeSort_cons trans total, ih hl, (hstop _ _ hm).1, (hstop _ _ hm).2,
      append_assoc]
    rfl

end

end MergeSort
