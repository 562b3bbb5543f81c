import Mathlib.Data.List.Forall2
import Defra.Lib.FugueReplica

/-! # Two trees for one text

What an author sees of an old text is its shown characters and the gaps between them, whatever else its tree holds. A `Frame`
says where these are in one tree, a `Coord` names a place by them, and an edit lands at the same coordinate in every tree
(`Framed.place_eq`). So two trees of one old text read the same after the same edits. -/

namespace Fugue
open Fugue List TreePath

variable {α χ : Type} [LinearOrder α] {n : Nat}

/-! ### Coordinates -/

/-- The old character `g`, or what hangs in gap `g`, right before it. -/
inductive Coord (α : Type) where
  | seat (g : Nat)
  | slot (g : Nat) (key : α) (rest : Path α)

def Coord.Within (n : Nat) : Coord α → Prop
  | .seat g => g < n
  | .slot g _ _ => g ≤ n

def Coord.lt : Coord α → Coord α → Prop
  | .seat g, .seat g' => g < g'
  | .seat g, .slot g' _ _ => g < g'
  | .slot g _ _, .seat g' => g ≤ g'
  | .slot g k r, .slot g' k' r' => g < g' ∨ g = g' ∧ (k < k' ∨ k = k' ∧ Before r r')

theorem Coord.trichotomy (c c' : Coord α) : c.lt c' ∨ c = c' ∨ c'.lt c := by
  cases c with
  | seat g =>
    cases c' with
    | seat g' => simpa only [Coord.lt, Coord.seat.injEq] using lt_trichotomy g g'
    | slot g' k' r' => simpa only [Coord.lt, reduceCtorEq, false_or] using lt_or_ge g g'
  | slot g k r =>
    cases c' with
    | seat g' => simpa only [Coord.lt, reduceCtorEq, false_or] using le_or_gt g g'
    | slot g' k' r' =>
      rcases lt_trichotomy g g' with h | rfl | h
      · exact .inl (.inl h)
      · rcases lt_trichotomy k k' with h | rfl | h
        · exact .inl (.inr ⟨rfl, .inl h⟩)
        · rcases before_trichotomy r r' with h | rfl | h
          · exact .inl (.inr ⟨rfl, .inr ⟨rfl, h⟩⟩)
          · exact .inr (.inl rfl)
          · exact .inr (.inr (.inr ⟨rfl, .inr ⟨rfl, h⟩⟩))
        · exact .inr (.inr (.inr ⟨rfl, .inl h⟩))
      · exact .inr (.inr (.inl h))

/-- Where a tree keeps an old text: character `g` is at `seat g`, and what is inserted right before it hangs on `stem g`. -/
structure Frame (α : Type) [LinearOrder α] (n : Nat) where
  seat : Nat → Path α
  stem : Nat → Path α
  onRight : Nat → Bool
  seat_lt : ∀ g, g + 1 < n → Before (seat g) (seat (g + 1))
  seat_before : ∀ g k r, g < n →
    Before (seat g) (stem (g + 1) ++ (if onRight (g + 1) then .right k else .left k) :: r)
  before_seat : ∀ g k r, g < n → Before (stem g ++ (if onRight g then .right k else .left k) :: r) (seat g)

variable {g : Nat} {c : Coord α} {x : Item α χ}

namespace Frame
variable (F F' : Frame α n)

/-- The step from the stem of gap `g` to what hangs there. -/
def side (g : Nat) (k : α) : Step α := if F.onRight g then .right k else .left k

/-- The path that a coordinate stands for in this tree. -/
def pathOf : Coord α → Path α
  | .seat g => F.seat g
  | .slot g k r => F.stem g ++ F.side g k :: r

/-- The old character before gap `g`, or the root. -/
def left : Nat → Path α
  | 0 => []
  | g + 1 => F.seat g

theorem seat_mono {g' : Nat} (h : g < g') (h' : g' < n) : Before (F.seat g) (F.seat g') := by
  induction g', h using Nat.le_induction with
  | base => exact F.seat_lt g h'
  | succ g' _ ih => exact before_trans (ih (by omega)) (F.seat_lt g' h')

theorem before_seat_of_le {g' : Nat} (k : α) (r : Path α) (h : g ≤ g') (h' : g' < n) :
    Before (F.pathOf (.slot g k r)) (F.seat g') := by
  have hg := F.before_seat g k r (by omega)
  rcases h.eq_or_lt with rfl | h
  · exact hg
  · exact before_trans hg (F.seat_mono h h')

theorem seat_before_of_lt {g' : Nat} (k : α) (r : Path α) (h : g < g') (h' : g' ≤ n) :
    Before (F.seat g) (F.pathOf (.slot g' k r)) := by
  obtain ⟨g', rfl⟩ : ∃ m, g' = m + 1 := ⟨g' - 1, by omega⟩
  have hg := F.seat_before g' k r (by omega)
  rcases (Nat.lt_succ_iff.mp h).eq_or_lt with rfl | h
  · exact hg
  · exact before_trans (F.seat_mono h (by omega)) hg

variable {c' : Coord α}

theorem pathOf_before (hc : c.Within n) (hc' : c'.Within n) (h : c.lt c') : Before (F.pathOf c) (F.pathOf c') := by
  cases c with
  | seat g =>
    cases c' with
    | seat g' => exact F.seat_mono h hc'
    | slot g' k' r' => exact F.seat_before_of_lt k' r' h hc'
  | slot g k r =>
    cases c' with
    | seat g' => exact F.before_seat_of_le k r h hc'
    | slot g' k' r' =>
      rcases h with h | ⟨rfl, h⟩
      · exact before_trans (F.before_seat_of_le k r (Nat.le_refl g) (Nat.lt_of_lt_of_le h hc'))
          (F.seat_before_of_lt k' r' h hc')
      · rw [pathOf, pathOf, before_append_iff, side, side]
        rcases h with h | ⟨rfl, h⟩
        · left
          cases F.onRight g <;> exact h
        · exact .inr ⟨rfl, h⟩

theorem before_iff (hc : c.Within n) (hc' : c'.Within n) : Before (F.pathOf c) (F.pathOf c') ↔ c.lt c' := by
  refine ⟨fun h => ?_, F.pathOf_before hc hc'⟩
  rcases c.trichotomy c' with hlt | rfl | hlt
  · exact hlt
  · exact absurd h (before_irrefl _)
  · exact absurd h (before_asymm (F.pathOf_before hc' hc hlt))

theorem pathOf_inj (hc : c.Within n) (hc' : c'.Within n) (h : F.pathOf c = F.pathOf c') : c = c' := by
  rcases c.trichotomy c' with hlt | rfl | hlt
  · exact absurd (F.pathOf_before hc hc' hlt) (h ▸ before_irrefl _)
  · rfl
  · exact absurd (F.pathOf_before hc' hc hlt) (h ▸ before_irrefl _)

theorem left_before (hg : g ≤ n) (k : α) (r : Path α) (hroot : Before [] (F.pathOf (.slot g k r))) :
    Before (F.left g) (F.pathOf (.slot g k r)) := by
  cases g with
  | zero => exact hroot
  | succ g => exact F.seat_before g k r hg

@[simp] theorem pathOf_append (g : Nat) (k : α) (r t : Path α) :
    F.pathOf (.slot g k r) ++ t = F.pathOf (.slot g k (r ++ t)) := by
  simp [pathOf]

/-- The item stands at coordinate `c`. -/
def Stands (x : Item α χ) (c : Coord α) : Prop := c.Within n ∧ x.path = F.pathOf c

theorem stands_unique {F : Frame α n} (h : F.Stands x c) (h' : F.Stands x c') : c = c' :=
  F.pathOf_inj h.1 h'.1 (h.2.symm.trans h'.2)

end Frame

namespace Frame
variable (F : Frame α n) (l : List (Item α χ))

/-! ### Gaps -/

/-- Gap `g` hangs left of the first character past its own left one: between the two are only characters of the gap. -/
structure LeftGap (g : Nat) : Prop where
  hasRight : HasRight l (F.left g)
  before : Before (F.left g) (F.stem g)
  held : ∃ x ∈ l, x.path = F.stem g
  between : ∀ x ∈ l, Before (F.left g) x.path → Before x.path (F.stem g) → ∃ k r, x.path = F.pathOf (.slot g k r)

/-- A version that holds the old text, with characters in its gaps and nothing else but dead ones. -/
structure Framed : Prop where
  view : View l
  seats : ∀ g < n, ∃ x ∈ l, x.path = F.seat g
  dead : ∀ x ∈ l, (¬ ∃ c, F.Stands x c) → x.dead = true
  right : ∀ g ≤ n, F.onRight g = true → F.stem g = F.left g
  left : ∀ g ≤ n, F.onRight g = false → F.LeftGap l g

end Frame

variable {k : α} {t : Path α}

namespace Frame.Framed
variable {F : Frame α n} {l r : List (Item α χ)} {g : Nat}

theorem gap_before (h : F.Framed (l ++ r)) (hg : g ≤ n) (ho : origin l = F.left g) {y : Item α χ} (hy : y ∈ r)
    (hout : ¬ ∃ k r, y.path = F.pathOf (.slot g k r)) (k : α) (t : Path α) :
    Before (F.pathOf (.slot g k t)) y.path := by
  have hoy := ho ▸ h.view.origin_before y hy
  cases hside : F.onRight g with
  | true =>
    have hs := h.right g hg hside
    rw [Frame.pathOf, hs]
    refine append_before_of_apart _ (fun hp => hout ?_) hoy
    obtain ⟨k', t', he⟩ := exists_right_of_before hp hoy
    exact ⟨k', t', by rw [he, Frame.pathOf, Frame.side, hside, hs]; rfl⟩
  | false =>
    have hgap := h.left g hg hside
    have hs : Before (F.pathOf (.slot g k t)) (F.stem g) := by
      rw [Frame.pathOf, Frame.side, hside]
      exact append_left_before _ k t
    rcases before_trichotomy y.path (F.stem g) with hlt | he | hlt
    · exact absurd (hgap.between y (mem_append_right l hy) hoy hlt) hout
    · exact he ▸ hs
    · exact before_trans hs hlt

theorem gap_next (h : F.Framed (l ++ r)) (hg : g ≤ n) (ho : origin l = F.left g) (hx : x ∈ l ++ r)
    (hxp : x.path = F.pathOf (.slot g k t)) :
    HasRight (l ++ r) (origin l) ∧ ∃ y r' k t, r = y :: r' ∧ y.path = F.pathOf (.slot g k t) := by
  have hox : Before (origin l) x.path := by
    rw [ho, hxp]
    exact F.left_before hg k t (hxp ▸ h.view.rooted x hx)
  have hxr := h.view.mem_of_origin_before hx hox
  constructor
  · cases hs : F.onRight g with
    | true =>
      -- The path down to `x` starts with a right child of the origin.
      have hp : x.path = origin l ++ .right k :: t := by
        rw [hxp, Frame.pathOf, Frame.side, hs, ho, h.right g hg hs]
        rfl
      obtain ⟨z, hz, hzp⟩ := h.view.prefix_mem (p := origin l ++ [.right k]) hx
        ⟨t, by rw [hp, append_assoc]; rfl⟩ (by simp)
      exact ⟨z, hz, k, hzp⟩
    | false => exact ho ▸ (h.left g hg hs).hasRight
  · cases r with
    | nil => cases hxr
    | cons y r =>
      by_contra hout
      have hyx := h.gap_before hg ho (y := y) (by simp)
        (fun ⟨k', t', he⟩ => hout ⟨y, r, k', t', rfl, he⟩) k t
      rw [← hxp] at hyx
      rcases mem_cons.mp hxr with rfl | hxr
      · exact before_irrefl _ hyx
      · exact before_asymm hyx ((pairwise_cons.mp (pairwise_append.mp h.view.sorted).2.1).1 x hxr)

theorem place_empty_gap (h : F.Framed (l ++ r)) (hg : g ≤ n) (ho : origin l = F.left g)
    (hempty : ¬ ∃ x ∈ l ++ r, ∃ k t, x.path = F.pathOf (.slot g k t)) (b : α) :
    place l r b = F.pathOf (.slot g b []) := by
  cases hs : F.onRight g with
  | true =>
    have hstem := h.right g hg hs
    rw [Frame.pathOf, Frame.side, hs, hstem, ← ho]
    refine place_of_not_hasRight b ?_
    rintro ⟨x, hx, k, hxp⟩
    exact hempty ⟨x, hx, k, [], by rw [hxp, Frame.pathOf, Frame.side, hs, hstem, ← ho]; rfl⟩
  | false =>
    have hgap := h.left g hg hs
    obtain ⟨x, hx, hxp⟩ := hgap.held
    have hox : Before (origin l) x.path := by
      rw [ho, hxp]
      exact hgap.before
    have hxr := h.view.mem_of_origin_before hx hox
    cases r with
    | nil => cases hxr
    | cons y r =>
      have hyp : y.path = F.stem g := by
        rcases mem_cons.mp hxr with rfl | hxr
        · exact hxp
        · have hyx := (pairwise_cons.mp (pairwise_append.mp h.view.sorted).2.1).1 x hxr
          have hoy : Before (F.left g) y.path := ho ▸ h.view.origin_before y (by simp)
          exact absurd ⟨y, by simp, hgap.between y (by simp) hoy (hxp ▸ hyx)⟩ hempty
      rw [place_of_hasRight b (ho ▸ hgap.hasRight), hyp, Frame.pathOf, Frame.side, hs]
      rfl

end Frame.Framed

/-! ### Where an insert stands -/

/-- Where a character with key `b` joins gap `g`, before the first character that is there. -/
def joinGap (g : Nat) (b : α) : Option (Coord α) → Coord α
  | some (.slot g' k t) => if g' = g then .slot g k (t ++ [.left b]) else .slot g b []
  | _ => .slot g b []

open Classical in
/-- Where a character with key `b` goes between the coordinates `o` and `next` of a version that holds `K`; `none` is an end
    of the text. -/
noncomputable def settle (K : Set (Coord α)) (b : α) (o next : Option (Coord α)) : Coord α :=
  match o with
  | none => joinGap 0 b next
  | some (.seat g) => joinGap (g + 1) b next
  | some (.slot g k t) =>
    if ∃ j, .slot g k (t ++ [.right j]) ∈ K then joinGap g b next else .slot g k (t ++ [.right b])

variable {r l' : List (Item α χ)}

namespace Frame
variable (F : Frame α n)

/-- The coordinates that the items stand at. -/
def coords (l : List (Item α χ)) : Set (Coord α) := {c | ∃ x ∈ l, F.Stands x c}

/-- The list ends with an item at `o`, or is empty. -/
def EndsAt (l : List (Item α χ)) : Option (Coord α) → Prop
  | none => l = []
  | some c => ∃ l' x, l = l' ++ [x] ∧ F.Stands x c

/-- The first item of the list with a coordinate is at `next`. -/
def StartsAt (r : List (Item α χ)) : Option (Coord α) → Prop
  | none => ∀ x ∈ r, ¬ ∃ c, F.Stands x c
  | some c => ∃ r₁ x r₂, r = r₁ ++ x :: r₂ ∧ (∀ y ∈ r₁, ¬ ∃ c, F.Stands y c) ∧ F.Stands x c

variable {F}

theorem StartsAt.eq_of_cons {next : Option (Coord α)} (h : F.StartsAt (x :: r) next) (hx : F.Stands x c) : next = some c := by
  cases next with
  | none => exact absurd ⟨c, hx⟩ (h x (by simp))
  | some c' =>
    obtain ⟨r₁, y, r₂, he, hr₁, hy⟩ := h
    cases r₁ with
    | nil =>
      obtain ⟨rfl, -⟩ := cons.inj he
      rw [F.stands_unique hy hx]
    | cons z r₁ =>
      obtain ⟨rfl, -⟩ := cons.inj he
      exact absurd ⟨c, hx⟩ (hr₁ x (by simp))

theorem StartsAt.mem (h : F.StartsAt r (some c)) : ∃ x ∈ r, F.Stands x c := by
  obtain ⟨r₁, x, r₂, rfl, -, hx⟩ := h
  exact ⟨x, by simp, hx⟩

variable {l r : List (Item α χ)} {g : Nat} {next : Option (Coord α)}

/-- After an old character, or at the start, a new one joins the characters of the gap. -/
theorem Framed.place_gap (h : F.Framed (l ++ r)) (hg : g ≤ n) (ho : origin l = F.left g) (hn : F.StartsAt r next)
    (b : α) : place l r b = F.pathOf (joinGap g b next) := by
  by_cases hempty : ∃ x ∈ l ++ r, ∃ k t, x.path = F.pathOf (.slot g k t)
  · obtain ⟨x, hx, k, t, hxp⟩ := hempty
    obtain ⟨hright, y, r', k', t', rfl, hyp⟩ := h.gap_next hg ho hx hxp
    obtain rfl := hn.eq_of_cons (c := .slot g k' t') ⟨hg, hyp⟩
    rw [place_of_hasRight b hright, hyp, Frame.pathOf_append, joinGap, if_pos rfl]
  · rw [h.place_empty_gap hg ho hempty b]
    rcases next with - | (m | ⟨m, k, t⟩)
    · rfl
    · rfl
    · have hne : m ≠ g := by
        rintro rfl
        obtain ⟨x, hx, -, hxp⟩ := hn.mem
        exact hempty ⟨x, mem_append_right l hx, k, t, hxp⟩
      rw [joinGap, if_neg hne]

/-- After a character of a gap, a new one is its right child or joins the gap before the next. -/
theorem Framed.place_slot (h : F.Framed (l ++ r)) (hg : g ≤ n)
    (ho : origin l = F.pathOf (.slot g k t)) (hn : F.StartsAt r next) (b : α) :
    place l r b = F.pathOf (settle (F.coords (l ++ r)) b (some (.slot g k t)) next) := by
  have hiff : HasRight (l ++ r) (origin l) ↔ ∃ j, .slot g k (t ++ [.right j]) ∈ F.coords (l ++ r) := by
    constructor
    · rintro ⟨x, hx, j, hxp⟩
      exact ⟨j, x, hx, hg, by rw [hxp, ho, Frame.pathOf_append]⟩
    · rintro ⟨j, x, hx, -, hxp⟩
      exact ⟨x, hx, j, by rw [hxp, ho, Frame.pathOf_append]⟩
  rw [settle]
  by_cases hr : HasRight (l ++ r) (origin l)
  · rw [if_pos (hiff.mp hr)]
    obtain ⟨x, hx, j, hxp⟩ := id hr
    have hox : Before (origin l) x.path := hxp ▸ before_append_right _ j []
    have hxr := h.view.mem_of_origin_before hx hox
    cases r with
    | nil => cases hxr
    | cons y r =>
      -- The next character is under the origin: the right child would come before any other.
      have hunder : origin l <+: y.path := by
        by_contra hp
        have hxy : Before x.path y.path :=
          hxp ▸ append_before_of_apart _ hp (h.view.origin_before y (by simp))
        rcases mem_cons.mp hxr with rfl | hxr
        · exact before_irrefl _ hxy
        · exact before_asymm hxy ((pairwise_cons.mp (pairwise_append.mp h.view.sorted).2.1).1 x hxr)
      obtain ⟨u, hu⟩ := hunder
      have hy : F.Stands y (.slot g k (t ++ u)) := ⟨hg, by rw [← hu, ho, Frame.pathOf_append]⟩
      rw [hn.eq_of_cons hy, place_of_hasRight b hr, hy.2, Frame.pathOf_append, joinGap, if_pos rfl]
  · rw [if_neg (mt hiff.mpr hr), place_of_not_hasRight b hr, ho, Frame.pathOf_append]

/-- Where a character goes is told by the coordinates around it, whatever tree they are in. -/
theorem Framed.place_eq (h : F.Framed (l ++ r)) {o : Option (Coord α)} (ho : F.EndsAt l o) (hn : F.StartsAt r next)
    (b : α) : place l r b = F.pathOf (settle (F.coords (l ++ r)) b o next) := by
  rcases o with - | c
  · obtain rfl : l = [] := ho
    exact h.place_gap (Nat.zero_le n) rfl hn b
  · obtain ⟨l', x, rfl, hc, hx⟩ := ho
    have horigin : origin (l' ++ [x]) = F.pathOf c := by rw [origin_concat, hx]
    cases c with
    | seat g => exact h.place_gap hc horigin hn b
    | slot g k t => exact h.place_slot hc horigin hn b

omit [LinearOrder α] in
theorem joinGap_slot (g : Nat) (b : α) (next : Option (Coord α)) : ∃ k t, joinGap g b next = .slot g k t := by
  rcases next with - | (m | ⟨m, k, t⟩)
  · exact ⟨b, [], rfl⟩
  · exact ⟨b, [], rfl⟩
  · rw [joinGap]
    split
    · exact ⟨k, _, rfl⟩
    · exact ⟨b, [], rfl⟩

theorem EndsAt.settle_slot {o : Option (Coord α)} (ho : F.EndsAt l o) (K : Set (Coord α)) (b : α)
    (next : Option (Coord α)) : ∃ g k t, settle K b o next = .slot g k t ∧ g ≤ n := by
  rcases o with - | (g | ⟨g, k, t⟩)
  · obtain ⟨k, t, he⟩ := joinGap_slot 0 b next
    exact ⟨0, k, t, he, Nat.zero_le n⟩
  · obtain ⟨k, t, he⟩ := joinGap_slot (g + 1) b next
    obtain ⟨-, -, -, hg, -⟩ := ho
    exact ⟨g + 1, k, t, he, hg⟩
  · obtain ⟨-, -, -, hg, -⟩ := ho
    rw [settle]
    split
    · obtain ⟨k', t', he⟩ := joinGap_slot g b next
      exact ⟨g, k', t', he, hg⟩
    · exact ⟨g, k, _, rfl, hg⟩

/-- A character of gap `g` is not between the stem of another gap and the old character before it. -/
theorem Framed.eq_of_between (h : F.Framed l) {g' : Nat} (hg : g ≤ n) (hg' : g' ≤ n) (hside : F.onRight g' = false)
    (hl : Before (F.left g') (F.pathOf (.slot g k t)))
    (hr : Before (F.pathOf (.slot g k t)) (F.stem g')) : g = g' := by
  rcases Nat.lt_trichotomy g g' with hlt | rfl | hlt
  · obtain ⟨m, rfl⟩ : ∃ m, g' = m + 1 := ⟨g' - 1, by omega⟩
    exact absurd hl (before_asymm (F.before_seat_of_le k t (Nat.lt_succ_iff.mp hlt) hg'))
  · rfl
  · -- The old character of the other gap would be between the two as well.
    obtain ⟨x, hx, hxp⟩ := h.seats g' (by omega)
    have hleft : Before (F.left g') (F.seat g') := by
      cases g' with
      | zero => exact hxp ▸ h.view.rooted x hx
      | succ m => exact F.seat_lt m (by omega)
    have hs := before_trans (F.seat_before_of_lt k t hlt hg) hr
    obtain ⟨k', t', he⟩ := (h.left g' hg' hside).between x hx (hxp ▸ hleft) (hxp ▸ hs)
    have hc : (Coord.seat g' : Coord α).Within n := Nat.lt_of_lt_of_le hlt hg
    have hc' : (Coord.slot g' k' t').Within n := hg'
    cases F.pathOf_inj hc hc' (hxp.symm.trans he)

theorem Framed.grow (h : F.Framed l) (hv : View l') (hsup : ∀ y ∈ l, ∃ x ∈ l', x.path = y.path)
    (hsub : ∀ x ∈ l', (∃ y ∈ l, y.path = x.path ∧ (y.dead = true → x.dead = true)) ∨
      ∃ g k t, g ≤ n ∧ x.path = F.pathOf (.slot g k t)) : F.Framed l' := by
  refine ⟨hv, fun g hg => ?_, fun x hx hout => ?_, h.right, fun g hg hside => ?_⟩
  · obtain ⟨y, hy, hyp⟩ := h.seats g hg
    obtain ⟨x, hx, hxp⟩ := hsup y hy
    exact ⟨x, hx, hxp.trans hyp⟩
  · rcases hsub x hx with ⟨y, hy, hyp, hd⟩ | ⟨g, k, t, hg, hxp⟩
    · exact hd (h.dead y hy fun ⟨c, hc, he⟩ => hout ⟨c, hc, hyp ▸ he⟩)
    · exact absurd ⟨.slot g k t, hg, hxp⟩ hout
  · have hgap := h.left g hg hside
    obtain ⟨z, hz, j, hzp⟩ := hgap.hasRight
    obtain ⟨w, hw, hwp⟩ := hgap.held
    obtain ⟨z', hz', hz'p⟩ := hsup z hz
    obtain ⟨w', hw', hw'p⟩ := hsup w hw
    refine ⟨⟨z', hz', j, hz'p.trans hzp⟩, hgap.before, ⟨w', hw', hw'p.trans hwp⟩, ?_⟩
    intro x hx hlx hxs
    rcases hsub x hx with ⟨y, hy, hyp, -⟩ | ⟨g', k, t, hg', hxp⟩
    · rw [← hyp] at hlx hxs ⊢
      exact hgap.between y hy hlx hxs
    · rw [hxp] at hlx hxs
      obtain rfl := h.eq_of_between hg' hg hside hlx hxs
      exact ⟨k, t, hxp⟩

theorem Framed.insert (h : F.Framed (l ++ r)) {b : α} (hx : x.path = place l r b)
    (hg : g ≤ n) (hs : x.path = F.pathOf (.slot g k t)) : F.Framed (l ++ [x] ++ r) := by
  have hmem : ∀ y, y ∈ l ++ [x] ++ r ↔ y ∈ l ++ r ∨ y = x := by
    simp only [mem_append, mem_singleton]
    tauto
  refine h.grow (h.view.insert hx) (fun y hy => ⟨y, (hmem y).mpr (.inl hy), rfl⟩) fun y hy => ?_
  rcases (hmem y).mp hy with hy | rfl
  · exact .inl ⟨y, hy, rfl, id⟩
  · exact .inr ⟨g, k, t, hg, hs⟩

theorem Framed.kill (h : F.Framed l) (start stop i : Nat) : F.Framed (kill start stop i l) := by
  refine h.grow (h.view.kill start stop i) (fun y hy => ?_) fun x hx => ?_
  · have := mem_map_of_mem (f := Item.toAtom) hy
    rw [← map_atom_kill start stop i] at this
    obtain ⟨x, hx, he⟩ := mem_map.mp this
    exact ⟨x, hx, congrArg Atom.path he⟩
  · obtain ⟨y, hy, ha, hd⟩ := (mem_kill (nodup_of_sorted h.view.sorted) i x).mp hx
    exact .inl ⟨y, hy, congrArg Atom.path ha.symm, fun hdead => hd.mpr (.inl hdead)⟩

end Frame

variable {l : List (Item α χ)}

section Twin
variable (F F' : Frame α n)

/-! ### Two trees side by side -/

/-- Both paths have one coordinate, each in its own tree. -/
def SamePath (p p' : Path α) : Prop := ∃ c : Coord α, c.Within n ∧ p = F.pathOf c ∧ p' = F'.pathOf c

/-- At the same coordinate, both dead or both alive, and past the old text the same character of the same block. -/
def Same (x x' : Item α χ) : Prop :=
  ∃ c, F.Stands x c ∧ F'.Stands x' c ∧ x.dead = x'.dead ∧
    ∀ g k t, c = .slot g k t → x.block = x'.block ∧ x.offset = x'.offset ∧ x.ch = x'.ch

open Classical in
noncomputable def Frame.kept (l : List (Item α χ)) : List (Item α χ) := l.filter fun x => ∃ c, F.Stands x c

/-- The items that stand in the first tree are those of the second, one for one. -/
def Alike (l l' : List (Item α χ)) : Prop := Forall₂ (Same F F') (F.kept l) l'

variable {F F'}

theorem Frame.kept_append (l r : List (Item α χ)) : F.kept (l ++ r) = F.kept l ++ F.kept r := filter_append ..

theorem Frame.kept_cons_of_stands (hx : ∃ c, F.Stands x c) (l : List (Item α χ)) :
    F.kept (x :: l) = x :: F.kept l := filter_cons_of_pos (by simpa using hx)

theorem Frame.kept_cons_of_not (hx : ¬ ∃ c, F.Stands x c) (l : List (Item α χ)) :
    F.kept (x :: l) = F.kept l := filter_cons_of_neg (by simpa using hx)

theorem Frame.mem_kept : x ∈ F.kept l ↔ x ∈ l ∧ ∃ c, F.Stands x c := by
  simp [Frame.kept]

/-- The first item is one of both, or is dead and in the first list alone. -/
theorem Alike.rec_on {motive : List (Item α χ) → List (Item α χ) → Prop} (nil : motive [] [])
    (skip : ∀ x l l', x.dead = true → (¬ ∃ c, F.Stands x c) → Alike F F' l l' → motive l l' → motive (x :: l) l')
    (cons : ∀ x x' l l', Same F F' x x' → Alike F F' l l' → motive l l' → motive (x :: l) (x' :: l')) :
    ∀ {l l' : List (Item α χ)}, Alike F F' l l' → (∀ x ∈ l, (¬ ∃ c, F.Stands x c) → x.dead = true) → motive l l' := by
  intro l
  induction l with
  | nil =>
    intro l' h _
    cases h
    exact nil
  | cons x l ih =>
    intro l' h hd
    have hd' : ∀ y ∈ l, (¬ ∃ c, F.Stands y c) → y.dead = true := fun y hy => hd y (mem_cons_of_mem x hy)
    by_cases hx : ∃ c, F.Stands x c
    · rw [Alike, Frame.kept_cons_of_stands hx] at h
      cases h with
      | cons hxx hll => exact cons _ _ _ _ hxx hll (ih hll hd')
    · rw [Alike, Frame.kept_cons_of_not hx] at h
      exact skip _ _ _ (hd x (by simp) hx) hx h (ih h hd')

theorem Alike.cons_skip (hx : ¬ ∃ c, F.Stands x c) (h : Alike F F' l l') : Alike F F' (x :: l) l' := by
  rwa [Alike, Frame.kept_cons_of_not hx]

theorem Alike.cons_same {x' : Item α χ} (hx : Same F F' x x') (h : Alike F F' l l') : Alike F F' (x :: l) (x' :: l') := by
  obtain ⟨c, hc, -⟩ := id hx
  rw [Alike, Frame.kept_cons_of_stands ⟨c, hc⟩]
  exact .cons hx h

theorem Alike.append {r' : List (Item α χ)} (h : Alike F F' l l') (hr : Alike F F' r r') :
    Alike F F' (l ++ r) (l' ++ r') := by
  rw [Alike, Frame.kept_append]
  exact rel_append h hr

variable {l l' r r' : List (Item α χ)}

theorem Alike.shown (h : Alike F F' l l') (hd : ∀ x ∈ l, (¬ ∃ c, F.Stands x c) → x.dead = true) :
    Forall₂ (Same F F') (shown l) (shown l') := by
  refine h.rec_on (motive := fun l l' => Forall₂ (Same F F') (Fugue.shown l) (Fugue.shown l')) .nil ?_ ?_ hd
  · intro x l l' hx _ _ ih
    rwa [shown_cons, if_pos hx]
  · intro x x' l l' hxx _ ih
    obtain ⟨-, -, -, hdead, -⟩ := id hxx
    rw [shown_cons, shown_cons, hdead]
    split
    · exact ih
    · exact .cons hxx ih

theorem Alike.cut (h : Alike F F' l l') (hd : ∀ x ∈ l, (¬ ∃ c, F.Stands x c) → x.dead = true) (p : Nat) :
    Alike F F' (cut p l).1 (cut p l').1 ∧ Alike F F' (cut p l).2 (cut p l').2 := by
  refine h.rec_on (motive := fun l l' => ∀ p, Alike F F' (Fugue.cut p l).1 (Fugue.cut p l').1 ∧
    Alike F F' (Fugue.cut p l).2 (Fugue.cut p l').2) ?_ ?_ ?_ hd p
  · intro p
    cases p <;> exact ⟨.nil, .nil⟩
  · intro x l l' hx hout hl ih p
    cases p with
    | zero =>
      rw [cut_zero, cut_zero]
      exact ⟨.nil, hl.cons_skip hout⟩
    | succ p =>
      rw [Fugue.cut, if_pos hx]
      exact ⟨(ih (p + 1)).1.cons_skip hout, (ih (p + 1)).2⟩
  · intro x x' l l' hxx hl ih p
    cases p with
    | zero => exact ⟨.nil, hl.cons_same hxx⟩
    | succ p =>
      obtain ⟨-, -, -, hdead, -⟩ := id hxx
      rw [Fugue.cut, hdead]
      exact ⟨(ih _).1.cons_same hxx, (ih _).2⟩

theorem Alike.kill (h : Alike F F' l l') (hd : ∀ x ∈ l, (¬ ∃ c, F.Stands x c) → x.dead = true) (start stop i : Nat) :
    Alike F F' (kill start stop i l) (kill start stop i l') ∧
      Forall₂ (SamePath F F') (killed start stop i l) (killed start stop i l') := by
  refine h.rec_on (motive := fun l l' => ∀ i, Alike F F' (Fugue.kill start stop i l) (Fugue.kill start stop i l') ∧
    Forall₂ (SamePath F F') (killed start stop i l) (killed start stop i l')) ?_ ?_ ?_ hd i
  · exact fun i => ⟨.nil, .nil⟩
  · intro x l l' hx hout _ ih i
    rw [Fugue.kill, killed, if_pos hx, if_pos hx]
    exact ⟨(ih i).1.cons_skip hout, (ih i).2⟩
  · intro x x' l l' hxx _ ih i
    obtain ⟨c, hc, hc', hdead, hdata⟩ := id hxx
    rw [Fugue.kill, Fugue.kill, killed, killed, hdead]
    split
    · exact ⟨(ih i).1.cons_same hxx, (ih i).2⟩
    · split
      · exact ⟨(ih (i + 1)).1.cons_same ⟨c, hc, hc', rfl, hdata⟩, .cons ⟨c, hc.1, hc.2, hc'.2⟩ (ih (i + 1)).2⟩
      · exact ⟨(ih (i + 1)).1.cons_same hxx, (ih (i + 1)).2⟩

theorem Alike.endsAt (h : Alike F F' l l') (hlast : l = [] ∨ ∃ l₀ x, l = l₀ ++ [x] ∧ ∃ c, F.Stands x c) :
    ∃ o, F.EndsAt l o ∧ F'.EndsAt l' o := by
  rcases hlast with rfl | ⟨l₀, x, rfl, hx⟩
  · cases h
    exact ⟨none, rfl, rfl⟩
  · rw [Alike, ← forall₂_reverse_iff, Frame.kept_append, Frame.kept_cons_of_stands hx, reverse_append] at h
    obtain ⟨x', l₁, ⟨c, hc, hc', -⟩, -, he⟩ := forall₂_cons_left_iff.mp h
    exact ⟨some c, ⟨l₀, x, rfl, hc⟩, ⟨l₁.reverse, x', reverse_eq_cons_iff.mp he, hc'⟩⟩

theorem Alike.startsAt (h : Alike F F' l l') : ∃ next, F.StartsAt l next ∧ F'.StartsAt l' next := by
  induction l generalizing l' with
  | nil =>
    cases h
    exact ⟨none, by simp [Frame.StartsAt], by simp [Frame.StartsAt]⟩
  | cons x l ih =>
    by_cases hx : ∃ c, F.Stands x c
    · rw [Alike, Frame.kept_cons_of_stands hx] at h
      obtain ⟨x', l'', ⟨c, hc, hc', -⟩, -, rfl⟩ := forall₂_cons_left_iff.mp h
      exact ⟨some c, ⟨[], x, l, rfl, by simp, hc⟩, ⟨[], x', l'', rfl, by simp, hc'⟩⟩
    · rw [Alike, Frame.kept_cons_of_not hx] at h
      obtain ⟨next, hn, hn'⟩ := ih h
      refine ⟨next, ?_, hn'⟩
      cases next with
      | none =>
        intro y hy
        rcases mem_cons.mp hy with rfl | hy
        · exact hx
        · exact hn y hy
      | some c =>
        obtain ⟨r₁, y, r₂, rfl, hr₁, hy⟩ := hn
        refine ⟨x :: r₁, y, r₂, rfl, fun z hz => ?_, hy⟩
        rcases mem_cons.mp hz with rfl | hz
        · exact hx
        · exact hr₁ z hz

omit [LinearOrder α] in
theorem exists_of_forall₂ {β γ : Type} {R : β → γ → Prop} {l : List β} {l' : List γ} (h : Forall₂ R l l') :
    (∀ x ∈ l, ∃ x' ∈ l', R x x') ∧ ∀ x' ∈ l', ∃ x ∈ l, R x x' := by
  induction h with
  | nil => exact ⟨by simp, by simp⟩
  | cons hxx _ ih =>
    constructor
    · intro y hy
      rcases mem_cons.mp hy with rfl | hy
      · exact ⟨_, mem_cons_self, hxx⟩
      · obtain ⟨y', hy', hyy⟩ := ih.1 y hy
        exact ⟨y', mem_cons_of_mem _ hy', hyy⟩
    · intro y hy
      rcases mem_cons.mp hy with rfl | hy
      · exact ⟨_, mem_cons_self, hxx⟩
      · obtain ⟨y', hy', hyy⟩ := ih.2 y hy
        exact ⟨y', mem_cons_of_mem _ hy', hyy⟩

omit [LinearOrder α] in
theorem map_eq_of_forall₂ {β γ δ : Type} {R : β → γ → Prop} {f : β → δ} {f' : γ → δ} {l : List β} {l' : List γ}
    (h : Forall₂ R l l') (hf : ∀ x ∈ l, ∀ x' ∈ l', R x x' → f x = f' x') : l.map f = l'.map f' := by
  induction h with
  | nil => rfl
  | cons hxx _ ih =>
    rw [map_cons, map_cons, hf _ mem_cons_self _ mem_cons_self hxx,
      ih fun x hx x' hx' => hf x (mem_cons_of_mem _ hx) x' (mem_cons_of_mem _ hx')]

theorem Alike.exists_right (h : Alike F F' l l') (hx : x ∈ l) (hc : F.Stands x c) :
    ∃ x' ∈ l', Same F F' x x' := (exists_of_forall₂ h).1 x (Frame.mem_kept.mpr ⟨hx, c, hc⟩)

theorem Alike.exists_left (h : Alike F F' l l') {x' : Item α χ} (hx : x' ∈ l') : ∃ x ∈ l, Same F F' x x' := by
  obtain ⟨x, hx, hxx⟩ := (exists_of_forall₂ h).2 x' hx
  exact ⟨x, (Frame.mem_kept.mp hx).1, hxx⟩

theorem Alike.coords_eq (h : Alike F F' l l') : F.coords l = F'.coords l' := by
  ext c
  constructor
  · rintro ⟨x, hx, hc⟩
    obtain ⟨x', hx', c', hc', hc'', -⟩ := h.exists_right hx hc
    obtain rfl := F.stands_unique hc hc'
    exact ⟨x', hx', hc''⟩
  · rintro ⟨x', hx', hc⟩
    obtain ⟨x, hx, c', hc', hc'', -⟩ := h.exists_left hx'
    obtain rfl := F'.stands_unique hc hc''
    exact ⟨x, hx, hc'⟩

/-- A character put at the same point of two alike versions is the same character of a gap. -/
theorem Alike.place (h : Alike F F' l l') (hr : Alike F F' r r') (hF : F.Framed (l ++ r)) (hF' : F'.Framed (l' ++ r'))
    (hlast : l = [] ∨ ∃ l₀ x, l = l₀ ++ [x] ∧ ∃ c, F.Stands x c) (b : α) :
    ∃ g k t, g ≤ n ∧ place l r b = F.pathOf (.slot g k t) ∧ place l' r' b = F'.pathOf (.slot g k t) := by
  obtain ⟨o, ho, ho'⟩ := h.endsAt hlast
  obtain ⟨next, hn, hn'⟩ := hr.startsAt
  obtain ⟨g, k, t, hs, hg⟩ := ho.settle_slot (F.coords (l ++ r)) b next
  have hp := hF.place_eq ho hn b
  have hp' := hF'.place_eq ho' hn' b
  rw [← (h.append hr).coords_eq, hs] at hp'
  rw [hs] at hp
  exact ⟨g, k, t, hg, hp, hp'⟩

end Twin

namespace Session
variable (F F' : Frame α n)

/-! ### Two sessions side by side -/

/-- The characters of block `b` are in the gaps. -/
def OwnInGaps (b : α) (l : List (Item α χ)) : Prop :=
  ∀ x ∈ l, x.block = some b → ∃ g k t, g ≤ n ∧ x.path = F.pathOf (.slot g k t)

/-- Two sessions of block `b` that edit one text, each in its own tree. -/
structure Twin (b : α) (s s' : Session α χ) : Prop where
  framed : F.Framed s.items
  framed' : F'.Framed s'.items
  alike : Alike F F' s.items s'.items
  own : OwnInGaps F b s.items
  own' : OwnInGaps F' b s'.items
  marks : Forall₂ (SamePath F F') s.marks s'.marks
  offset : s.offset = s'.offset

variable {F F'} {b : α} {s s' : Session α χ}

theorem OwnInGaps.insert (h : OwnInGaps F b (l ++ r))
    (hg : g ≤ n) (hx : x.path = F.pathOf (.slot g k t)) : OwnInGaps F b (l ++ [x] ++ r) := by
  intro y hy hb
  simp only [mem_append, mem_singleton] at hy
  rcases hy with (hy | rfl) | hy
  · exact h y (mem_append_left r hy) hb
  · exact ⟨g, k, t, hg, hx⟩
  · exact h y (mem_append_right l hy) hb

theorem OwnInGaps.kill (h : OwnInGaps F b l) (start stop i : Nat) : OwnInGaps F b (kill start stop i l) := by
  intro x hx hb
  have := mem_map_of_mem (f := Item.toAtom) hx
  rw [map_atom_kill] at this
  obtain ⟨y, hy, he⟩ := mem_map.mp this
  rw [← he] at hb ⊢
  exact h y hy hb

theorem Twin.insertBetween {marks marks' : List (Path α)} (chars : List χ) (hm : Forall₂ (SamePath F F') marks marks') :
    ∀ {l r l' r' : List (Item α χ)} (offset : Nat), F.Framed (l ++ r) → F'.Framed (l' ++ r') → Alike F F' l l' →
      Alike F F' r r' → OwnInGaps F b (l ++ r) → OwnInGaps F' b (l' ++ r') →
      (l = [] ∨ ∃ l₀ x, l = l₀ ++ [x] ∧ ∃ c, F.Stands x c) →
      Twin F F' b ⟨insertBetween b chars offset l r, marks, offset + chars.length⟩
        ⟨insertBetween b chars offset l' r', marks', offset + chars.length⟩ := by
  induction chars with
  | nil => exact fun _ hF hF' hl hr ho ho' _ => ⟨hF, hF', hl.append hr, ho, ho', hm, rfl⟩
  | cons ch chars ih =>
    intro l r l' r' offset hF hF' hl hr ho ho' hlast
    obtain ⟨g, k, t, hg, hp, hp'⟩ := hl.place hr hF hF' hlast b
    have hsame : Same F F' (placed b offset ch l r) (placed b offset ch l' r') :=
      ⟨.slot g k t, ⟨hg, hp⟩, ⟨hg, hp'⟩, rfl, fun _ _ _ _ => ⟨rfl, rfl, rfl⟩⟩
    have := ih (offset + 1) (hF.insert rfl hg hp) (hF'.insert rfl hg hp') (hl.append (Alike.cons_same hsame .nil)) hr
      (ho.insert hg hp) (ho'.insert hg hp') (.inr ⟨l, _, rfl, .slot g k t, hg, hp⟩)
    rwa [Nat.add_right_comm] at this

theorem Twin.apply (h : Twin F F' b s s') (e : Edit χ) : Twin F F' b (s.apply b e) (s'.apply b e) := by
  have hlen := (h.alike.shown h.framed.dead).length_eq
  cases e with
  | insert pos chars =>
    simp only [Session.apply, ← hlen, ← h.offset]
    have hc := h.alike.cut h.framed.dead (min pos (shown s.items).length)
    refine Twin.insertBetween chars h.marks s.offset ?_ ?_ hc.1 hc.2 ?_ ?_ ?_
    · rw [cut_append]
      exact h.framed
    · rw [cut_append]
      exact h.framed'
    · rw [cut_append]
      exact h.own
    · rw [cut_append]
      exact h.own'
    · -- A cut ends at a shown character, and those have coordinates.
      cases hp : min pos (shown s.items).length with
      | zero => exact .inl (by rw [cut_zero])
      | succ p =>
        obtain ⟨l₀, x, he, hx, -⟩ := cut_last (p := p) (l := s.items) (by omega)
        refine .inr ⟨l₀, x, he, ?_⟩
        by_contra hout
        have hmem : x ∈ s.items := by
          rw [← cut_append (p + 1) s.items, he]
          simp
        rw [h.framed.dead x hmem hout] at hx
        cases hx
  | delete start stop =>
    simp only [Session.apply, ← hlen]
    have hk := h.alike.kill h.framed.dead (min start (shown s.items).length) (min stop (shown s.items).length) 0
    exact ⟨h.framed.kill _ _ _, h.framed'.kill _ _ _, hk.1, h.own.kill _ _ _, h.own'.kill _ _ _,
      rel_append h.marks hk.2, h.offset⟩

/-- Sessions that start alike end alike, whatever the edits are. -/
theorem Twin.run (h : Twin F F' b ⟨l, [], 0⟩ ⟨l', [], 0⟩) (edits : List (Edit χ)) :
    Twin F F' b (Session.run b edits l) (Session.run b edits l') := by
  suffices ∀ s s' : Session α χ, Twin F F' b s s' →
      Twin F F' b (edits.foldl (Session.apply b) s) (edits.foldl (Session.apply b) s') from this _ _ h
  induction edits with
  | nil => exact fun _ _ hs => hs
  | cons e edits ih => exact fun s s' hs => ih _ _ (hs.apply e)

end Session
end Fugue
