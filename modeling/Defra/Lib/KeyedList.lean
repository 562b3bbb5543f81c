import Mathlib.Data.List.Sort
import Mathlib.Order.Defs.LinearOrder

/-! # Lists sorted by a key

An ordered map or set, or a vector searched by bisection, is a list whose items have strictly rising keys. Two of them are equal
when they hold the same items (`KeyedList.ext_mem`). -/

variable {κ β : Type} [LinearOrder κ]

/-- A list with at most one item for each key, in the order of the keys. -/
structure KeyedList (key : β → κ) where
  toList : List β
  sorted : toList.Pairwise fun x y => key x < key y

namespace KeyedList
open List Option
variable {key : β → κ} {s t : KeyedList key} {x : β} {l : List β}

instance : Membership β (KeyedList key) := ⟨fun s x => x ∈ s.toList⟩

instance : EmptyCollection (KeyedList key) := ⟨⟨[], .nil⟩⟩

theorem mem_def : x ∈ s ↔ x ∈ s.toList := Iff.rfl

@[simp] theorem not_mem_empty (x : β) : x ∉ (∅ : KeyedList key) := not_mem_nil

theorem toList_inj (h : s.toList = t.toList) : s = t := by
  cases t
  cases h
  rfl

theorem nodup_toList (s : KeyedList key) : s.toList.Nodup :=
  Nodup.of_map key (pairwise_map.mpr (s.sorted.imp ne_of_lt))

theorem ext_mem (h : ∀ x, x ∈ s ↔ x ∈ t) : s = t := by
  refine toList_inj (Perm.eq_of_pairwise (fun x y _ _ hxy hyx => absurd hyx (lt_asymm hxy)) s.sorted t.sorted ?_)
  exact (perm_ext_iff_of_nodup s.nodup_toList t.nodup_toList).mpr h

theorem eq_of_key {y : β} (hx : x ∈ s) (hy : y ∈ s) (he : key x = key y) : x = y :=
  inj_on_of_nodup_map (pairwise_map.mpr (s.sorted.imp ne_of_lt)) hx hy he

/-! ### Lookup -/

def find? (s : KeyedList key) (k : κ) : Option β := s.toList.find? fun x => key x = k

theorem find?_eq_some {k : κ} : s.find? k = some x ↔ x ∈ s ∧ key x = k := by
  constructor
  · intro h
    exact ⟨mem_of_find?_eq_some h, by simpa using find?_some h⟩
  · rintro ⟨hx, rfl⟩
    cases hf : s.find? (key x) with
    | none => simpa using find?_eq_none.mp hf x hx
    | some y => rw [eq_of_key (mem_of_find?_eq_some hf) hx (by simpa using find?_some hf)]

/-- The items from key `lo` on, as long as `p` holds. -/
def rangeWhile (s : KeyedList key) (lo : κ) (p : β → Bool) : List β :=
  (s.toList.dropWhile fun x => key x < lo).takeWhile p

/-- A range read finds every item `p` holds of, when those are one range that starts at `lo`. -/
theorem rangeWhile_eq_filter {lo : κ} {p : β → Bool} (hlo : ∀ x ∈ s, p x = true → lo ≤ key x)
    (hconvex : ∀ x ∈ s, ∀ y ∈ s, lo ≤ key x → key x < key y → p y = true → p x = true) :
    s.rangeWhile lo p = s.toList.filter p := by
  obtain ⟨l, hl⟩ := s
  unfold rangeWhile
  induction l with
  | nil => rfl
  | cons x l ih =>
    obtain ⟨hx, hl⟩ := pairwise_cons.mp hl
    by_cases hlt : key x < lo
    · have hpx : ¬ p x = true := fun hp => not_lt.mpr (hlo x mem_cons_self hp) hlt
      rw [dropWhile_cons_of_pos (by simpa using hlt), filter_cons_of_neg hpx]
      exact ih hl (fun y hy => hlo y (mem_cons_of_mem x hy)) fun y hy z hz =>
        hconvex y (mem_cons_of_mem x hy) z (mem_cons_of_mem x hz)
    · rw [dropWhile_cons_of_neg (by simpa using hlt)]
      -- From `lo` on, what `p` holds of comes first.
      have htake : ∀ m : List β, (∀ y ∈ m, y ∈ x :: l) → (m.Pairwise fun y z => key y < key z) →
          (∀ y ∈ m, lo ≤ key y) → m.takeWhile p = m.filter p := by
        intro m
        induction m with
        | nil => exact fun _ _ _ => rfl
        | cons y m ihm =>
          intro hsub hm hge
          obtain ⟨hy, hm⟩ := pairwise_cons.mp hm
          have hrest := ihm (fun z hz => hsub z (mem_cons_of_mem y hz)) hm
            fun z hz => hge z (mem_cons_of_mem y hz)
          by_cases hp : p y = true
          · rw [takeWhile_cons_of_pos hp, filter_cons_of_pos hp, hrest]
          · rw [takeWhile_cons_of_neg hp, filter_cons_of_neg hp, filter_eq_nil_iff.mpr]
            intro z hz hpz
            exact hp (hconvex y (hsub y mem_cons_self) z (hsub z (mem_cons_of_mem y hz))
              (hge y mem_cons_self) (hy z hz) hpz)
      refine htake (x :: l) (fun y hy => hy) (pairwise_cons.mpr ⟨hx, hl⟩) fun y hy => ?_
      rcases mem_cons.mp hy with rfl | hy
      · exact not_lt.mp hlt
      · exact le_trans (not_lt.mp hlt) (hx y hy).le

/-! ### Insertion and removal -/

def putIn (key : β → κ) (x : β) : List β → List β
  | [] => [x]
  | y :: l => if key x < key y then x :: y :: l else if key y < key x then y :: putIn key x l else x :: l

theorem mem_putIn {y : β} (hl : l.Pairwise fun x y => key x < key y) : y ∈ putIn key x l ↔ y = x ∨ y ∈ l ∧ key y ≠ key x := by
  induction l with
  | nil => simp [putIn]
  | cons z l ih =>
    obtain ⟨hz, hl⟩ := pairwise_cons.mp hl
    rw [putIn]
    split
    · next hlt =>
      have hne : ∀ w ∈ z :: l, key w ≠ key x := by
        intro w hw
        rcases mem_cons.mp hw with rfl | hw
        · exact ne_of_gt hlt
        · exact ne_of_gt (lt_trans hlt (hz w hw))
      rw [mem_cons]
      exact or_congr_right ⟨fun hy => ⟨hy, hne y hy⟩, fun hy => hy.1⟩
    · split
      · next hgt =>
        rw [mem_cons, ih hl, mem_cons]
        constructor
        · rintro (rfl | rfl | ⟨hy, hne⟩)
          · exact .inr ⟨.inl rfl, ne_of_lt hgt⟩
          · exact .inl rfl
          · exact .inr ⟨.inr hy, hne⟩
        · rintro (rfl | ⟨rfl | hy, hne⟩)
          · exact .inr (.inl rfl)
          · exact .inl rfl
          · exact .inr (.inr ⟨hy, hne⟩)
      · next hge hle =>
        have heq : key x = key z := le_antisymm (not_lt.mp hle) (not_lt.mp hge)
        rw [mem_cons, mem_cons]
        constructor
        · rintro (rfl | hy)
          · exact .inl rfl
          · exact .inr ⟨.inr hy, heq ▸ ne_of_gt (hz y hy)⟩
        · rintro (rfl | ⟨rfl | hy, hne⟩)
          · exact .inl rfl
          · exact absurd heq.symm hne
          · exact .inr hy

theorem sorted_putIn (x : β) (hl : l.Pairwise fun x y => key x < key y) :
    (putIn key x l).Pairwise fun x y => key x < key y := by
  induction l with
  | nil => exact pairwise_singleton _ _
  | cons z l ih =>
    obtain ⟨hz, hl'⟩ := pairwise_cons.mp hl
    rw [putIn]
    split
    · next hlt =>
      refine pairwise_cons.mpr ⟨fun w hw => ?_, hl⟩
      rcases mem_cons.mp hw with rfl | hw
      · exact hlt
      · exact lt_trans hlt (hz w hw)
    · split
      · next hgt =>
        refine pairwise_cons.mpr ⟨fun w hw => ?_, ih hl'⟩
        rcases (mem_putIn hl').mp hw with rfl | ⟨hw, -⟩
        · exact hgt
        · exact hz w hw
      · next hge hle =>
        have heq : key x = key z := le_antisymm (not_lt.mp hle) (not_lt.mp hge)
        exact pairwise_cons.mpr ⟨fun w hw => heq ▸ hz w hw, hl'⟩

/-- The list with `x` in the place of the item with its key. -/
def put (s : KeyedList key) (x : β) : KeyedList key := ⟨putIn key x s.toList, sorted_putIn x s.sorted⟩

@[simp] theorem mem_put {y : β} : y ∈ s.put x ↔ y = x ∨ y ∈ s ∧ key y ≠ key x :=
  mem_putIn s.sorted

def filter (s : KeyedList key) (p : β → Bool) : KeyedList key := ⟨s.toList.filter p, s.sorted.filter p⟩

@[simp] theorem mem_filter {p : β → Bool} : x ∈ s.filter p ↔ x ∈ s ∧ p x = true :=
  List.mem_filter

def erase (s : KeyedList key) (k : κ) : KeyedList key := s.filter fun x => key x ≠ k

@[simp] theorem mem_erase {k : κ} : x ∈ s.erase k ↔ x ∈ s ∧ key x ≠ k := by
  simp [erase]

def drop (s : KeyedList key) (n : Nat) : KeyedList key := ⟨s.toList.drop n, s.sorted.drop⟩

theorem le_of_head? {first : β} (h : s.toList.head? = some first) (hx : x ∈ s) : key first ≤ key x := by
  obtain ⟨rest, hr⟩ : ∃ rest, s.toList = first :: rest := head?_eq_some_iff.mp h
  have hs := s.sorted
  rw [mem_def, hr] at hx
  rw [hr] at hs
  rcases mem_cons.mp hx with rfl | hx
  · exact le_rfl
  · exact ((pairwise_cons.mp hs).1 x hx).le

theorem le_of_getLast? {last : β} (h : s.toList.getLast? = some last) (hx : x ∈ s) : key x ≤ key last := by
  obtain ⟨front, hf⟩ := getLast?_eq_some_iff.mp h
  have hs := s.sorted
  rw [mem_def, hf] at hx
  rw [hf] at hs
  rcases mem_append.mp hx with hx | hx
  · exact ((pairwise_append.mp hs).2.2 x hx last (mem_singleton_self last)).le
  · exact (congrArg key (mem_singleton.mp hx)).le

theorem find?_put (s : KeyedList key) (x : β) (k : κ) : (s.put x).find? k = if k = key x then some x else s.find? k := by
  refine ext fun y => ?_
  rw [find?_eq_some, mem_put]
  split
  · rename_i hk
    subst hk
    constructor
    · rintro ⟨rfl | ⟨-, hne⟩, hkey⟩
      · rfl
      · exact absurd hkey hne
    · rintro h
      cases h
      exact ⟨.inl rfl, rfl⟩
  · rename_i hk
    rw [find?_eq_some]
    constructor
    · rintro ⟨rfl | ⟨hmem, -⟩, hkey⟩
      · exact absurd hkey.symm hk
      · exact ⟨hmem, hkey⟩
    · rintro ⟨hmem, hkey⟩
      exact ⟨.inr ⟨hmem, fun he => hk (hkey ▸ he)⟩, hkey⟩

theorem find?_erase (s : KeyedList key) (k k' : κ) : (s.erase k).find? k' = if k' = k then none else s.find? k' := by
  refine ext fun y => ?_
  rw [find?_eq_some, mem_erase]
  split
  · rename_i hk
    simp only [reduceCtorEq, iff_false]
    rintro ⟨⟨-, hne⟩, hkey⟩
    exact hne (hkey.trans hk)
  · rename_i hk
    rw [find?_eq_some]
    exact ⟨fun ⟨⟨hmem, _⟩, hkey⟩ => ⟨hmem, hkey⟩, fun ⟨hmem, hkey⟩ => ⟨⟨hmem, fun he => hk (hkey ▸ he)⟩, hkey⟩⟩

/-- A list is known by what is found under each key. -/
theorem ext_find? (h : ∀ k, s.find? k = t.find? k) : s = t := by
  refine ext_mem fun x => ?_
  have hs : x ∈ s ↔ s.find? (key x) = some x := by simp [find?_eq_some]
  have ht : x ∈ t ↔ t.find? (key x) = some x := by simp [find?_eq_some]
  rw [hs, ht, h]

/-- The list with `x`, unless its key is taken. -/
def add (s : KeyedList key) (x : β) : KeyedList key := if (s.find? (key x)).isSome then s else s.put x

theorem mem_add {y : β} (hinj : ∀ z ∈ s, key z = key x → z = x) : y ∈ s.add x ↔ y = x ∨ y ∈ s := by
  rw [add]
  split
  · rename_i hfound
    obtain ⟨z, hz⟩ := isSome_iff_exists.mp hfound
    obtain ⟨hmem, hk⟩ := find?_eq_some.mp hz
    exact ⟨.inr, fun h => h.elim (fun he => he ▸ hinj z hmem hk ▸ hmem) id⟩
  · rw [mem_put]
    refine or_congr_right ⟨fun h => h.1, fun h => ⟨h, fun hk => ?_⟩⟩
    rename_i hfound
    exact hfound (isSome_iff_exists.mpr ⟨y, find?_eq_some.mpr ⟨h, hk⟩⟩)

/-! ### Several items at once -/

def putAll (s : KeyedList key) (l : List β) : KeyedList key := l.foldl put s

def ofList (l : List β) : KeyedList key := putAll ∅ l

def eraseAll (s : KeyedList key) (l : List κ) : KeyedList key := l.foldl erase s

@[simp] theorem mem_eraseAll {l : List κ} : x ∈ s.eraseAll l ↔ x ∈ s ∧ key x ∉ l := by
  induction l generalizing s with
  | nil => simp [eraseAll]
  | cons k l ih =>
    rw [eraseAll, foldl_cons, ← eraseAll, ih, mem_erase, mem_cons, not_or, and_assoc]

theorem mem_putAll : x ∈ s.putAll l ↔
    l.reverse.find? (fun y => key y = key x) = some x ∨ x ∈ s ∧ ∀ y ∈ l, key y ≠ key x := by
  induction l generalizing s with
  | nil => simp [putAll]
  | cons y l ih =>
    rw [putAll, foldl_cons, ← putAll, ih, mem_put, reverse_cons, find?_append]
    cases hf : l.reverse.find? (fun y => key y = key x) with
    | some z =>
      have hz := mem_of_find?_eq_some hf
      have hk : key z = key x := by simpa using find?_some hf
      have hn : ¬ ∀ w ∈ l, key w ≠ key x := fun h => h z (mem_reverse.mp hz) hk
      simp [hn]
    | none =>
      have hall : ∀ w ∈ l, key w ≠ key x := fun w hw => by
        simpa using find?_eq_none.mp hf w (mem_reverse.mpr hw)
      by_cases hy : key y = key x
      · have hfirst : ¬ ∀ w ∈ y :: l, key w ≠ key x := fun h => h y mem_cons_self hy
        simp only [reduceCtorEq, false_or, and_false, or_false, hfirst, find?_cons, hy, decide_true,
          none_or, some.injEq, ne_eq, not_true_eq_false]
        exact ⟨fun h => h.1.symm, fun h => ⟨h.symm, hall⟩⟩
      · have hne : x ≠ y := fun he => hy (he ▸ rfl)
        simp [hy, hne, Ne.symm hy]

theorem mem_ofList : x ∈ (ofList l : KeyedList key) ↔
    l.reverse.find? (fun y => key y = key x) = some x := by
  rw [ofList, mem_putAll]
  simp

theorem mem_putAll_of_inj (hinj : ∀ x ∈ l, ∀ y ∈ l, key x = key y → x = y) :
    x ∈ s.putAll l ↔ x ∈ l ∨ x ∈ s ∧ ∀ y ∈ l, key y ≠ key x := by
  induction l generalizing s with
  | nil => simp [putAll]
  | cons y l ih =>
    rw [putAll, foldl_cons, ← putAll, ih fun a ha b hb => hinj a (.tail y ha) b (.tail y hb), mem_put, mem_cons]
    constructor
    · rintro (hx | ⟨rfl | ⟨hx, hne⟩, h⟩)
      · exact .inl (.inr hx)
      · exact .inl (.inl rfl)
      · refine .inr ⟨hx, fun z hz => ?_⟩
        rcases mem_cons.mp hz with rfl | hz
        · exact hne.symm
        · exact h z hz
    · rintro ((rfl | hx) | ⟨hx, h⟩)
      · by_cases hlater : x ∈ l
        · exact .inl hlater
        · refine .inr ⟨.inl rfl, fun z hz he => hlater ?_⟩
          rwa [← hinj z (.tail x hz) x mem_cons_self he]
      · exact .inl hx
      · exact .inr ⟨.inr ⟨hx, (h y mem_cons_self).symm⟩, fun z hz => h z (.tail y hz)⟩

theorem mem_ofList_of_inj (hinj : ∀ x ∈ l, ∀ y ∈ l, key x = key y → x = y) : x ∈ (ofList l : KeyedList key) ↔ x ∈ l := by
  rw [ofList, mem_putAll_of_inj hinj]
  simp

theorem putAll_ofList (s : KeyedList key) (l : List β) : s.putAll (ofList l : KeyedList key).toList = s.putAll l := by
  refine ext_mem fun x => ?_
  rw [mem_putAll_of_inj fun a ha b hb => eq_of_key (s := ofList l) ha hb, mem_putAll, ← mem_def, mem_ofList]
  refine or_congr_right (and_congr_right fun _ => ⟨fun h y hy hk => ?_, fun h y hy => ?_⟩)
  · -- The last item of the key is left.
    cases hf : l.reverse.find? (fun z => key z = key x) with
    | none => simpa [hk] using find?_eq_none.mp hf y (mem_reverse.mpr hy)
    | some z =>
      have hz : key z = key x := by simpa using find?_some hf
      refine h z (mem_ofList.mpr ?_) hz
      rw [hz]
      exact hf
  · exact h y (mem_reverse.mp (mem_of_find?_eq_some (mem_ofList.mp hy)))

theorem ofList_toList (s : KeyedList key) : ofList s.toList = s :=
  ext_mem fun _ => mem_ofList_of_inj fun _ hx _ hy he => eq_of_key hx hy he

theorem toList_put_perm (s : KeyedList key) (x : β) : (s.put x).toList.Perm (x :: (s.erase (key x)).toList) := by
  have hnodup : (x :: (s.erase (key x)).toList).Nodup :=
    nodup_cons.mpr ⟨fun hx => (mem_erase.mp hx).2 rfl, (s.erase (key x)).nodup_toList⟩
  refine (perm_ext_iff_of_nodup (s.put x).nodup_toList hnodup).mpr fun y => ?_
  rw [mem_cons, ← mem_def, ← mem_def, mem_put, mem_erase]

theorem toList_perm_of_find? {k : κ} (h : s.find? k = some x) : s.toList.Perm (x :: (s.erase k).toList) := by
  obtain ⟨hmem, rfl⟩ := find?_eq_some.mp h
  have hnodup : (x :: (s.erase (key x)).toList).Nodup :=
    nodup_cons.mpr ⟨fun hx => (mem_erase.mp hx).2 rfl, (s.erase (key x)).nodup_toList⟩
  refine (perm_ext_iff_of_nodup s.nodup_toList hnodup).mpr fun y => ?_
  rw [mem_cons, ← mem_def, ← mem_def, mem_erase]
  constructor
  · intro hy
    by_cases hk : key y = key x
    · exact .inl (eq_of_key hy hmem hk)
    · exact .inr ⟨hy, hk⟩
  · rintro (rfl | hy)
    · exact hmem
    · exact hy.1

theorem mem_put_id {s : KeyedList (id : κ → κ)} {x y : κ} : y ∈ s.put x ↔ y = x ∨ y ∈ s := by
  by_cases h : y = x <;> simp [h]

theorem isSome_find?_id {s : KeyedList (id : κ → κ)} {x : κ} : (s.find? x).isSome ↔ x ∈ s := by
  rw [isSome_iff_exists]
  constructor
  · rintro ⟨y, hy⟩
    obtain ⟨hmem, rfl⟩ := find?_eq_some.mp hy
    exact hmem
  · exact fun hmem => ⟨x, find?_eq_some.mpr ⟨hmem, rfl⟩⟩

/-! ### Maps -/

def get? (s : KeyedList (Prod.fst : κ × β → κ)) (k : κ) : Option β := (s.find? k).map Prod.snd

theorem get?_put (s : KeyedList (Prod.fst : κ × β → κ)) (k k' : κ) (x : β) :
    (s.put (k, x)).get? k' = if k' = k then some x else s.get? k' := by
  rw [get?, find?_put]
  split_ifs <;> rfl

theorem find?_of_get? {s : KeyedList (Prod.fst : κ × β → κ)} {k : κ} (h : s.get? k = some x) : s.find? k = some (k, x) := by
  obtain ⟨⟨k', x'⟩, hf, rfl⟩ := map_eq_some_iff.mp h
  rw [hf]
  exact congrArg some (Prod.ext (find?_eq_some.mp hf).2 rfl)

theorem get?_of_mem {s : KeyedList (Prod.fst : κ × β → κ)} {x : κ × β} (h : x ∈ s) : s.get? x.1 = some x.2 := by
  rw [get?, find?_eq_some.mpr ⟨h, rfl⟩]
  rfl

theorem get?_erase (s : KeyedList (Prod.fst : κ × β → κ)) (k k' : κ) :
    (s.erase k).get? k' = if k' = k then none else s.get? k' := by
  rw [get?, find?_erase]
  split_ifs <;> rfl

@[simp] theorem get?_empty (k : κ) : (∅ : KeyedList (Prod.fst : κ × β → κ)).get? k = none := rfl

end KeyedList
