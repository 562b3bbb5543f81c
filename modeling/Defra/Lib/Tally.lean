import Mathlib.Algebra.GroupWithZero.Nat
import Defra.Lib.KeyedList

/-! # Maps of counts and of lists

What a map of counts adds up to, and what the lists of a map hold together, told by one key and the rest of the map. -/

variable {κ β : Type} [LinearOrder κ]

namespace KeyedList
open List

variable {s : KeyedList (Prod.fst : κ × β → κ)}

/-! ### One key and the rest -/

theorem toList_perm_of_get? {k : κ} {x : β} (h : s.get? k = some x) : s.toList.Perm ((k, x) :: (s.erase k).toList) :=
  toList_perm_of_find? (find?_of_get? h)

theorem erase_of_get? {k : κ} (h : s.get? k = none) : s.erase k = s := by
  refine ext_find? fun k' => ?_
  rw [find?_erase]
  split
  · rename_i hk
    rw [hk, Option.map_eq_none_iff.mp h]
  · rfl

/-- A key adds one to the count of entries if its entry counts. -/
theorem countP_erase {k : κ} {x : β} (h : s.get? k = some x) (p : κ × β → Bool) :
    s.toList.countP p = (s.erase k).toList.countP p + if p (k, x) then 1 else 0 := by
  rw [(toList_perm_of_get? h).countP_eq, countP_cons]

theorem countP_put (s : KeyedList (Prod.fst : κ × β → κ)) (k : κ) (x : β) (p : κ × β → Bool) :
    (s.put (k, x)).toList.countP p = (s.erase k).toList.countP p + if p (k, x) then 1 else 0 := by
  rw [(s.toList_put_perm (k, x)).countP_eq, countP_cons]

theorem put_of_get? {k : κ} {x : β} (h : s.get? k = some x) : s.put (k, x) = s := by
  refine ext_find? fun k' => ?_
  rw [find?_put]
  split
  · rename_i hk
    rw [hk, find?_of_get? h]
  · rfl

/-! ### Counts -/

/-- What the counts of a map add up to. -/
def total (s : KeyedList (Prod.fst : κ × Nat → κ)) : Nat := (s.toList.map Prod.snd).sum

/-- The total is the count of one key and the total of the others. -/
theorem total_eq (s : KeyedList (Prod.fst : κ × Nat → κ)) (k : κ) : s.total = (s.get? k).getD 0 + (s.erase k).total := by
  cases hg : s.get? k with
  | none => rw [erase_of_get? hg, Option.getD_none, Nat.zero_add]
  | some n =>
    rw [total, ((toList_perm_of_get? hg).map Prod.snd).sum_nat, map_cons]
    rfl

theorem total_put (s : KeyedList (Prod.fst : κ × Nat → κ)) (k : κ) (n : Nat) : (s.put (k, n)).total = n + (s.erase k).total := by
  rw [total, ((s.toList_put_perm (k, n)).map Prod.snd).sum_nat, map_cons]
  rfl

/-! ### Lists -/

section Lists
variable {γ : Type} (s : KeyedList (Prod.fst : κ × List γ → κ))

/-- The map with a list under a key; an empty list is left out. -/
def setList (k : κ) (l : List γ) : KeyedList (Prod.fst : κ × List γ → κ) :=
  if l.isEmpty then s.erase k else s.put (k, l)

/-- The items of all lists of a map. -/
def flat : List γ := s.toList.flatMap Prod.snd

/-- The items are those of one key and those of the others. -/
theorem flat_perm (k : κ) : s.flat.Perm ((s.get? k).getD [] ++ (s.erase k).flat) := by
  cases hg : s.get? k with
  | none =>
    rw [erase_of_get? hg]
    exact .rfl
  | some l => exact (toList_perm_of_get? hg).flatMap_right Prod.snd

theorem flat_setList_perm (k : κ) (l : List γ) : (s.setList k l).flat.Perm (l ++ (s.erase k).flat) := by
  rw [setList]
  split
  · rename_i hl
    rw [isEmpty_iff.mp hl]
    exact .rfl
  · exact (s.toList_put_perm (k, l)).flatMap_right Prod.snd

theorem get?_setList (k k' : κ) (l : List γ) :
    (s.setList k l).get? k' = if k' = k then (if l.isEmpty then none else some l) else s.get? k' := by
  rw [setList]
  split
  · rw [get?_erase]
  · rw [get?_put]

variable {s} in
theorem mem_flat {x : γ} : x ∈ s.flat ↔ ∃ k l, s.get? k = some l ∧ x ∈ l := by
  rw [flat, mem_flatMap]
  constructor
  · rintro ⟨⟨k, l⟩, hmem, hx⟩
    exact ⟨k, l, get?_of_mem hmem, hx⟩
  · rintro ⟨k, l, hg, hx⟩
    exact ⟨(k, l), (find?_eq_some.mp (find?_of_get? hg)).1, hx⟩

theorem length_flat : s.flat.length = (s.toList.map fun entry => entry.2.length).sum :=
  length_flatMap

theorem sum_flat (f : γ → Nat) : (s.flat.map f).sum = (s.toList.map fun entry => (entry.2.map f).sum).sum := by
  rw [flat]
  induction s.toList with
  | nil => rfl
  | cons entry l ih => rw [flatMap_cons, map_append, sum_append, ih, map_cons, sum_cons]

end Lists

end KeyedList
