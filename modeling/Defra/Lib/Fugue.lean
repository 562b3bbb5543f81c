import Mathlib.Data.Set.Lattice
import Defra.Lib.TreePath

/-! # A replicated sequence kept as an ordered tree

Each character is a node of an ordered tree (`TreePath`), named by its path. A block edits its own version: a new character
hangs on the one before it (its left origin), as its right child when it has none there, and otherwise as the left child of the
next. A delete only marks. The paths never change, so a version's order holds inside every later one. -/

namespace Fugue
open List TreePath

variable {α χ : Type}

/-! ### Characters -/

/-- Its path, the block that inserted it (`none` for a text every version starts from), and its offset there. -/
structure Atom (α χ : Type) where
  path : Path α
  block : Option α
  offset : Nat
  ch : χ

structure Item (α χ : Type) extends Atom α χ where
  dead : Bool

/-- The characters that are not deleted. -/
def shown (l : List (Item α χ)) : List (Item α χ) := l.filter fun x => !x.dead

def text (l : List (Item α χ)) : List χ := (shown l).map (·.ch)

@[simp] theorem shown_nil : shown ([] : List (Item α χ)) = [] := rfl

theorem shown_cons (x : Item α χ) (l : List (Item α χ)) : shown (x :: l) = if x.dead then shown l else x :: shown l := by
  unfold shown
  rw [filter_cons]
  cases x.dead <;> rfl

@[simp] theorem shown_append (l l' : List (Item α χ)) : shown (l ++ l') = shown l ++ shown l' :=
  filter_append ..

theorem length_text (l : List (Item α χ)) : (text l).length = (shown l).length := length_map _

/-- The reading order cut right after the first `p` shown characters. -/
def cut : Nat → List (Item α χ) → List (Item α χ) × List (Item α χ)
  | 0, l => ([], l)
  | _ + 1, [] => ([], [])
  | p + 1, x :: l =>
    let parts := cut (if x.dead then p + 1 else p) l
    (x :: parts.1, parts.2)

@[simp] theorem cut_zero (l : List (Item α χ)) : cut 0 l = ([], l) := by
  cases l <;> rfl

theorem cut_append (p : Nat) (l : List (Item α χ)) : (cut p l).1 ++ (cut p l).2 = l := by
  induction l generalizing p with
  | nil => cases p <;> rfl
  | cons x l ih =>
    cases p with
    | zero => rfl
    | succ p => simp [cut, ih]

theorem shown_cut (p : Nat) (l : List (Item α χ)) :
    shown (cut p l).1 = (shown l).take p ∧ shown (cut p l).2 = (shown l).drop p := by
  induction l generalizing p with
  | nil => cases p <;> simp [cut]
  | cons x l ih =>
    cases p with
    | zero => simp [cut]
    | succ p =>
      cases hx : x.dead
      · simp [cut, shown_cons, hx, ih p]
      · simp [cut, shown_cons, hx, ih (p + 1)]

variable {l : List (Item α χ)}

theorem cut_last {p : Nat} (hp : p + 1 ≤ (shown l).length) :
    ∃ l' x, (cut (p + 1) l).1 = l' ++ [x] ∧ x.dead = false ∧ shown l' = (shown l).take p := by
  induction l generalizing p with
  | nil => simp at hp
  | cons x l ih =>
    cases hx : x.dead
    · cases p with
      | zero => exact ⟨[], x, by simp [cut, hx], hx, by simp⟩
      | succ p =>
        obtain ⟨l', y, h1, h2, h3⟩ := ih (p := p) (by simpa [shown_cons, hx] using hp)
        exact ⟨x :: l', y, by simp [cut, hx, h1], h2, by simp [shown_cons, hx, h3]⟩
    · obtain ⟨l', y, h1, h2, h3⟩ := ih (p := p) (by simpa [shown_cons, hx] using hp)
      exact ⟨x :: l', y, by simp [cut, hx, h1], h2, by simp [shown_cons, hx, h3]⟩

variable {r : List (Item α χ)} {x : Item α χ}

theorem cut_eq (hx : x.dead = false) : cut ((shown l).length + 1) (l ++ [x] ++ r) = (l ++ [x], r) := by
  induction l with
  | nil => simp [cut, hx]
  | cons y l ih =>
    cases hy : y.dead
    · simp only [shown_cons, hy, length_cons, Bool.false_eq_true, if_false, cons_append, cut]
      rw [ih]
    · simp only [shown_cons, hy, if_true, cons_append, cut]
      rw [ih]

/-! ### Where a new character hangs -/

/-- The left origin of what is inserted right after `l`: its last character, or the root. -/
def origin (l : List (Item α χ)) : Path α := (l.getLast?.map (·.path)).getD []

@[simp] theorem origin_nil : origin ([] : List (Item α χ)) = [] := rfl

@[simp] theorem origin_concat (l : List (Item α χ)) (x : Item α χ) : origin (l ++ [x]) = x.path := by
  simp [origin]

/-- The version holds a right child of `o`. -/
def HasRight (l : List (Item α χ)) (o : Path α) : Prop := ∃ x ∈ l, ∃ k, x.path = o ++ [.right k]

open Classical in
/-- The right child of the left origin, or the left child of the character after it when the origin has a right child. -/
noncomputable def place (l r : List (Item α χ)) (k : α) : Path α :=
  match r with
  | [] => origin l ++ [.right k]
  | next :: _ => if HasRight (l ++ r) (origin l) then next.path ++ [.left k] else origin l ++ [.right k]

@[simp] theorem place_nil (l : List (Item α χ)) (k : α) : place l [] k = origin l ++ [.right k] := rfl

theorem place_of_hasRight {next : Item α χ} (k : α)
    (h : HasRight (l ++ next :: r) (origin l)) : place l (next :: r) k = next.path ++ [.left k] := if_pos h

theorem place_of_not_hasRight (k : α) (h : ¬ HasRight (l ++ r) (origin l)) : place l r k = origin l ++ [.right k] := by
  cases r with
  | nil => rfl
  | cons next r => exact if_neg h

theorem origin_eq_nil_or_mem (l : List (Item α χ)) : origin l = [] ∨ ∃ y ∈ l, y.path = origin l := by
  rcases l.eq_nil_or_concat' with rfl | ⟨l', z, rfl⟩
  · exact .inl rfl
  · exact .inr ⟨z, by simp, by simp⟩

/-- A new character hangs on the root or on a character of the version, under its own key. -/
theorem place_parent (l r : List (Item α χ)) (k : α) :
    ∃ p s, place l r k = p ++ [s] ∧ s.key = k ∧ (p = [] ∨ ∃ y ∈ l ++ r, y.path = p) := by
  have ho : origin l = [] ∨ ∃ y ∈ l ++ r, y.path = origin l :=
    (origin_eq_nil_or_mem l).imp_right fun ⟨y, hy, he⟩ => ⟨y, mem_append_left r hy, he⟩
  cases r with
  | nil => exact ⟨origin l, .right k, rfl, rfl, ho⟩
  | cons next r =>
    by_cases hr : HasRight (l ++ next :: r) (origin l)
    · exact ⟨next.path, .left k, place_of_hasRight k hr, rfl, .inr ⟨next, by simp, rfl⟩⟩
    · exact ⟨origin l, .right k, place_of_not_hasRight k hr, rfl, ho⟩

/-- The character `ch` of block `b` inserted between `l` and `r`. -/
noncomputable def placed (b : α) (offset : Nat) (ch : χ) (l r : List (Item α χ)) : Item α χ :=
  { path := place l r b, block := some b, offset, ch, dead := false }

/-- The characters `chars` of block `b` inserted between `l` and `r`, each after the one before. -/
noncomputable def insertBetween (b : α) : List χ → Nat → List (Item α χ) → List (Item α χ) → List (Item α χ)
  | [], _, l, r => l ++ r
  | ch :: chars, offset, l, r => insertBetween b chars (offset + 1) (l ++ [placed b offset ch l r]) r

theorem shown_insertBetween (b : α) (chars : List χ) (offset : Nat) (l r : List (Item α χ)) :
    ∃ new : List (Item α χ), new.map (·.ch) = chars ∧
      shown (insertBetween b chars offset l r) = shown l ++ new ++ shown r := by
  induction chars generalizing offset l with
  | nil => exact ⟨[], rfl, by simp [insertBetween]⟩
  | cons ch chars ih =>
    obtain ⟨new, hn, hs⟩ := ih (offset + 1) (l ++ [placed b offset ch l r])
    refine ⟨placed b offset ch l r :: new, by simp [hn, placed], ?_⟩
    rw [insertBetween, hs]
    simp [shown_cons, placed]

/-! ### Deletions -/

/-- Mark the shown characters numbered from `start` to `stop`, the first of `l` being number `i`. -/
def kill (start stop : Nat) : Nat → List (Item α χ) → List (Item α χ)
  | _, [] => []
  | i, x :: l =>
    if x.dead then x :: kill start stop i l
    else if start ≤ i ∧ i < stop then { x with dead := true } :: kill start stop (i + 1) l
    else x :: kill start stop (i + 1) l

/-- The paths that a deletion marks. -/
def killed (start stop : Nat) : Nat → List (Item α χ) → List (Path α)
  | _, [] => []
  | i, x :: l =>
    if x.dead then killed start stop i l
    else if start ≤ i ∧ i < stop then x.path :: killed start stop (i + 1) l
    else killed start stop (i + 1) l

theorem map_atom_kill (start stop i : Nat) (l : List (Item α χ)) :
    (kill start stop i l).map (·.toAtom) = l.map (·.toAtom) := by
  induction l generalizing i with
  | nil => rfl
  | cons x l ih =>
    unfold kill
    split
    · simp [ih]
    · split <;> simp [ih]

variable {start stop : Nat}

theorem shown_kill (h : start ≤ stop) (i : Nat) (l : List (Item α χ)) :
    shown (kill start stop i l) = (shown l).take (start - i) ++ (shown l).drop (stop - i) := by
  induction l generalizing i with
  | nil => simp [kill]
  | cons x l ih =>
    unfold kill
    cases hx : x.dead
    · by_cases hin : start ≤ i ∧ i < stop
      · have hs : start - i = 0 := by omega
        have hs' : start - (i + 1) = 0 := by omega
        have ht : stop - i = (stop - (i + 1)) + 1 := by omega
        simp [shown_cons, hx, hin.1, hin.2, ih, hs, hs', ht]
      · simp only [Bool.false_eq_true, if_false, hin, shown_cons, hx, ih]
        by_cases hlt : i < start
        · have hs : start - i = (start - (i + 1)) + 1 := by omega
          have ht : stop - i = (stop - (i + 1)) + 1 := by omega
          simp [hs, ht]
        · have hs : start - i = 0 := by omega
          have hs' : start - (i + 1) = 0 := by omega
          have ht : stop - i = 0 := by omega
          have ht' : stop - (i + 1) = 0 := by omega
          simp [hs, hs', ht, ht']
    · simp [shown_cons, hx, ih]

def Item.die (x : Item α χ) : Item α χ := { x with dead := true }

theorem kill_append (start stop i : Nat) (l r : List (Item α χ)) :
    kill start stop i (l ++ r) = kill start stop i l ++ kill start stop (i + (shown l).length) r ∧
      killed start stop i (l ++ r) = killed start stop i l ++ killed start stop (i + (shown l).length) r := by
  induction l generalizing i with
  | nil => simp [kill, killed]
  | cons x l ih =>
    cases hx : x.dead
    · have hlen : i + (shown (x :: l)).length = i + 1 + (shown l).length := by
        simp only [shown_cons, hx, Bool.false_eq_true, if_false, length_cons]
        omega
      rw [hlen]
      by_cases hin : start ≤ i ∧ i < stop
      · simp [kill, killed, hx, hin, ih]
      · simp only [cons_append, kill, killed, hx, Bool.false_eq_true, if_false, hin, ih, and_self]
    · simp [kill, killed, hx, shown_cons, ih]

theorem kill_outside (start stop i : Nat) (l : List (Item α χ)) (h : i + (shown l).length ≤ start ∨ stop ≤ i) :
    kill start stop i l = l ∧ killed start stop i l = [] := by
  induction l generalizing i with
  | nil => exact ⟨rfl, rfl⟩
  | cons x l ih =>
    cases hx : x.dead
    · simp only [shown_cons, hx, Bool.false_eq_true, if_false, length_cons] at h
      have hin : ¬ (start ≤ i ∧ i < stop) := by omega
      have := ih (i + 1) (by omega)
      simp only [kill, killed, hx, Bool.false_eq_true, if_false, hin, this, and_self]
    · simp only [shown_cons, hx, if_true] at h
      simp [kill, killed, hx, ih i h]

theorem kill_inside (start stop i : Nat) (l : List (Item α χ)) (h : start ≤ i) (h' : i + (shown l).length ≤ stop) :
    kill start stop i l = l.map Item.die ∧ killed start stop i l = (shown l).map (·.path) := by
  induction l generalizing i with
  | nil => exact ⟨rfl, rfl⟩
  | cons x l ih =>
    cases hx : x.dead
    · simp only [shown_cons, hx, Bool.false_eq_true, if_false, length_cons] at h'
      have hin : start ≤ i ∧ i < stop := by omega
      have := ih (i + 1) (by omega) (by omega)
      simp [kill, killed, hx, hin, this, shown_cons, Item.die]
    · simp only [shown_cons, hx, if_true] at h'
      have hd : x.die = x := by
        cases x
        simp only at hx
        simp [Item.die, hx]
      simp [kill, killed, hx, ih i h h', shown_cons, hd]

theorem kill_empty (h : stop ≤ start) (i : Nat) (l : List (Item α χ)) :
    kill start stop i l = l ∧ killed start stop i l = [] := by
  induction l generalizing i with
  | nil => exact ⟨rfl, rfl⟩
  | cons x l ih =>
    have hin : ¬ (start ≤ i ∧ i < stop) := by omega
    cases hx : x.dead <;> simp [kill, killed, hx, hin, ih]

theorem kill_run (l m r : List (Item α χ)) :
    kill (shown l).length ((shown l).length + (shown m).length) 0 (l ++ m ++ r) = l ++ m.map Item.die ++ r ∧
      killed (shown l).length ((shown l).length + (shown m).length) 0 (l ++ m ++ r) = (shown m).map (·.path) := by
  have hl := kill_outside (shown l).length ((shown l).length + (shown m).length) 0 l
    (.inl (by omega))
  have hm := kill_inside (shown l).length ((shown l).length + (shown m).length) (shown l).length m
    (Nat.le_refl _) (Nat.le_refl _)
  have hr := kill_outside (shown l).length ((shown l).length + (shown m).length)
    ((shown l).length + (shown m).length) r (.inr (Nat.le_refl _))
  simp only [kill_append, Nat.zero_add, shown_append, length_append, hl, hm, hr, nil_append, append_nil,
    and_self]

theorem killed_subset {i : Nat} {p : Path α} (hp : p ∈ killed start stop i l) : ∃ x ∈ l, x.path = p := by
  induction l generalizing i with
  | nil => cases hp
  | cons x l ih =>
    unfold killed at hp
    split at hp
    · obtain ⟨y, hy, hyp⟩ := ih hp
      exact ⟨y, mem_cons_of_mem x hy, hyp⟩
    · split at hp
      · rcases mem_cons.mp hp with rfl | hp
        · exact ⟨x, by simp, rfl⟩
        · obtain ⟨y, hy, hyp⟩ := ih hp
          exact ⟨y, mem_cons_of_mem x hy, hyp⟩
      · obtain ⟨y, hy, hyp⟩ := ih hp
        exact ⟨y, mem_cons_of_mem x hy, hyp⟩

theorem mem_kill (hl : (l.map (·.path)).Nodup) (i : Nat) (y : Item α χ) : y ∈ kill start stop i l ↔
      ∃ x ∈ l, y.toAtom = x.toAtom ∧ (y.dead = true ↔ x.dead = true ∨ x.path ∈ killed start stop i l) := by
  induction l generalizing i with
  | nil => simp [kill]
  | cons x l ih =>
    rw [map_cons, nodup_cons] at hl
    have hself : ∀ j, x.path ∉ killed start stop j l := fun j hp => by
      obtain ⟨z, hz, hzp⟩ := killed_subset hp
      exact hl.1 (mem_map.mpr ⟨z, hz, hzp⟩)
    have hother : ∀ z ∈ l, z.path ≠ x.path := fun z hz he => hl.1 (mem_map.mpr ⟨z, hz, he⟩)
    -- The head is the one character whose fate this turn decides.
    have key : ∀ (j : Nat) (dead : Bool) (ps : List (Path α)), killed start stop i (x :: l) = ps →
        (∀ z ∈ l, z.path ∈ ps ↔ z.path ∈ killed start stop j l) →
        (dead = true ↔ x.dead = true ∨ x.path ∈ ps) →
        (y ∈ { x with dead } :: kill start stop j l ↔ ∃ z ∈ x :: l, y.toAtom = z.toAtom ∧
          (y.dead = true ↔ z.dead = true ∨ z.path ∈ killed start stop i (x :: l))) := by
      intro j dead ps hps hz hx
      rw [hps, mem_cons, ih hl.2]
      constructor
      · rintro (rfl | ⟨z, hzl, ha, hd⟩)
        · exact ⟨x, by simp, rfl, hx⟩
        · exact ⟨z, by simp [hzl], ha, by rw [hd, hz z hzl]⟩
      · rintro ⟨z, hzl, ha, hd⟩
        rcases mem_cons.mp hzl with rfl | hzl
        · left
          cases y with
          | mk a d =>
            congr 1
            rw [Bool.eq_iff_iff, hx]
            exact hd
        · exact .inr ⟨z, hzl, ha, by rw [hd, hz z hzl]⟩
    by_cases hdead : x.dead = true
    · have he : killed start stop i (x :: l) = killed start stop i l := by rw [killed, if_pos hdead]
      rw [kill, if_pos hdead]
      exact key i x.dead _ he (fun z _ => Iff.rfl) (by simp [hself])
    · by_cases hin : start ≤ i ∧ i < stop
      · have he : killed start stop i (x :: l) = x.path :: killed start stop (i + 1) l := by
          rw [killed, if_neg hdead, if_pos hin]
        rw [kill, if_neg hdead, if_pos hin]
        exact key (i + 1) true _ he (fun z hz => by simp [hother z hz]) (by simp)
      · have he : killed start stop i (x :: l) = killed start stop (i + 1) l := by
          rw [killed, if_neg hdead, if_neg hin]
        rw [kill, if_neg hdead, if_neg hin]
        exact key (i + 1) x.dead _ he (fun z _ => Iff.rfl) (by simp [hself])

section View
variable [LinearOrder α] {l r : List (Item α χ)}

/-! ### Versions -/

/-- Its characters in reading order, each with its parent, and nothing left of the root. -/
structure View (l : List (Item α χ)) : Prop where
  sorted : l.Pairwise fun x y => Before x.path y.path
  closed : ∀ x ∈ l, ∀ p s, x.path = p ++ [s] → p = [] ∨ ∃ y ∈ l, y.path = p
  rooted : ∀ x ∈ l, Before [] x.path

theorem View.prefix_mem (h : View l) (hx : x ∈ l) {p : Path α} (hp : p <+: x.path) (hne : p ≠ []) : ∃ y ∈ l, y.path = p := by
  obtain ⟨r, hr⟩ := hp
  induction r using reverseRecOn generalizing x with
  | nil => exact ⟨x, hx, by rw [← hr, append_nil]⟩
  | append_singleton r s ih =>
    rcases h.closed x hx (p ++ r) s (by rw [← hr, append_assoc]) with hn | ⟨y, hy, hyp⟩
    · exact absurd (append_eq_nil_iff.mp hn).1 hne
    · exact ih hy hyp.symm

theorem View.le_origin (h : View (l ++ r)) : ∀ x ∈ l, x.path = origin l ∨ Before x.path (origin l) := by
  intro x hx
  rcases l.eq_nil_or_concat' with rfl | ⟨l', z, rfl⟩
  · cases hx
  · rw [origin_concat]
    rcases mem_append.mp hx with hx | hx
    · have := (pairwise_append.mp (pairwise_append.mp h.sorted).1).2.2
      exact .inr (this x hx z (mem_singleton_self z))
    · exact .inl (by rw [mem_singleton.mp hx])

theorem View.origin_before (h : View (l ++ r)) : ∀ y ∈ r, Before (origin l) y.path := by
  intro y hy
  rcases l.eq_nil_or_concat' with rfl | ⟨l', z, rfl⟩
  · exact h.rooted y hy
  · rw [origin_concat]
    exact (pairwise_append.mp h.sorted).2.2 z (by simp) y hy

theorem View.mem_of_origin_before (h : View (l ++ r)) (hx : x ∈ l ++ r) (hb : Before (origin l) x.path) : x ∈ r := by
  refine (mem_append.mp hx).resolve_left fun hxl => ?_
  rcases h.le_origin x hxl with he | hb'
  · exact before_irrefl _ (he ▸ hb)
  · exact before_asymm hb hb'

/-- Nothing of the view lies under the left origin past it when the origin has no right child. -/
theorem View.not_prefix_of_not_hasRight (h : View (l ++ r)) (hno : ¬ HasRight (l ++ r) (origin l)) :
    ∀ y ∈ r, ¬ origin l <+: y.path := by
  intro y hy hp
  obtain ⟨k, t, ht⟩ := exists_right_of_before hp (h.origin_before y hy)
  obtain ⟨z, hz, hzp⟩ := h.prefix_mem (p := origin l ++ [.right k]) (mem_append_right l hy)
    ⟨t, by rw [ht, append_assoc]; rfl⟩ (by simp)
  exact hno ⟨z, hz, k, hzp⟩

/-- That child would lie between the two. -/
theorem View.not_prefix_of_hasRight {next : Item α χ} (h : View (l ++ next :: r))
    (hright : HasRight (l ++ next :: r) (origin l)) : ¬ next.path <+: origin l := by
  intro hp
  obtain ⟨k, t, ht⟩ := exists_left_of_before hp (h.origin_before next (by simp))
  obtain ⟨z, hz, j, hzp⟩ := hright
  have hoz : Before (origin l) z.path := hzp ▸ before_append_right _ j []
  have hzn : Before z.path next.path := by
    rw [hzp, ht, append_assoc]
    exact append_left_before _ k _
  rcases mem_cons.mp (h.mem_of_origin_before hz hoz) with rfl | hz
  · exact before_irrefl _ hzn
  · have := (pairwise_cons.mp (pairwise_append.mp h.sorted).2.1).1 z hz
    exact before_asymm hzn this

section
variable (h : View (l ++ r))
include h

/-- A new character is right after its left origin: before every character of the version past the origin. -/
theorem View.place_between (k : α) : Before (origin l) (place l r k) ∧ ∀ y ∈ r, Before (place l r k) y.path := by
  cases r with
  | nil => exact ⟨before_append_right _ k [], by simp⟩
  | cons next r =>
    by_cases hright : HasRight (l ++ next :: r) (origin l)
    · rw [place_of_hasRight k hright]
      refine ⟨before_append_of_apart _ (h.not_prefix_of_hasRight hright) (h.origin_before next (by simp)), ?_⟩
      intro y hy
      have hn := append_left_before next.path k []
      rcases mem_cons.mp hy with rfl | hy
      · exact hn
      · exact before_trans hn ((pairwise_cons.mp (pairwise_append.mp h.sorted).2.1).1 y hy)
    · rw [place_of_not_hasRight k hright]
      refine ⟨before_append_right _ k [], fun y hy => ?_⟩
      exact append_before_of_apart _ (h.not_prefix_of_not_hasRight hright y hy) (h.origin_before y hy)

theorem View.before_place (k : α) : ∀ x ∈ l, Before x.path (place l r k) := by
  intro x hx
  rcases h.le_origin x hx with he | hb
  · exact he ▸ (h.place_between k).1
  · exact before_trans hb (h.place_between k).1

theorem View.rooted_place (k : α) : Before [] (place l r k) := by
  rcases origin_eq_nil_or_mem l with hnil | ⟨y, hy, hyp⟩
  · exact hnil ▸ (h.place_between k).1
  · exact before_trans (hyp ▸ h.rooted y (mem_append_left r hy)) (h.place_between k).1

theorem View.insert {k : α} (hx : x.path = place l r k) : View (l ++ [x] ++ r) where
  sorted := by
    have hs := pairwise_append.mp h.sorted
    refine pairwise_append.mpr ⟨pairwise_append.mpr ⟨hs.1, by simp, ?_⟩, hs.2.1, ?_⟩
    · intro y hy z hz
      rw [mem_singleton.mp hz, hx]
      exact h.before_place k y hy
    · intro y hy z hz
      rcases mem_append.mp hy with hy | hy
      · exact hs.2.2 y hy z hz
      · rw [mem_singleton.mp hy, hx]
        exact (h.place_between k).2 z hz
  closed := by
    have keep : ∀ {p : Path α}, (∃ y ∈ l ++ r, y.path = p) → ∃ y ∈ l ++ [x] ++ r, y.path = p := by
      rintro p ⟨y, hy, hyp⟩
      exact ⟨y, by simp only [mem_append] at hy ⊢; tauto, hyp⟩
    intro y hy p s hp
    have hy' : y ∈ l ++ r ∨ y = x := by
      simp only [mem_append, mem_singleton] at hy ⊢
      tauto
    rcases hy' with hy | rfl
    · exact (h.closed y hy p s hp).imp_right keep
    · obtain ⟨p', s', he, -, hp'⟩ := place_parent l r k
      rw [hx, he] at hp
      obtain ⟨rfl, -⟩ := append_inj' hp rfl
      exact hp'.imp_right keep
  rooted := by
    intro y hy
    have hy' : y ∈ l ++ r ∨ y = x := by
      simp only [mem_append, mem_singleton] at hy ⊢
      tauto
    rcases hy' with hy | rfl
    · exact h.rooted y hy
    · exact hx ▸ h.rooted_place k

theorem View.place_not_mem (k : α) : ∀ x ∈ l ++ r, x.path ≠ place l r k := by
  intro x hx
  rcases mem_append.mp hx with hx | hx
  · exact ne_of_before (h.before_place k x hx)
  · exact (ne_of_before ((h.place_between k).2 x hx)).symm

theorem View.place_apart (k : α) : ∀ x ∈ l ++ r, ¬ place l r k <+: x.path := by
  intro x hx hp
  obtain ⟨p, s, he, -⟩ := place_parent l r k
  obtain ⟨y, hy, hyp⟩ := h.prefix_mem hx hp (by simp [he])
  exact h.place_not_mem k y hy hyp

theorem View.place_append_between (k : α) (t : Path α) :
    Before (origin l) (place l r k ++ t) ∧ ∀ y ∈ r, Before (place l r k ++ t) y.path := by
  constructor
  · refine before_append_of_apart t (fun hp => ?_) (h.place_between k).1
    rcases origin_eq_nil_or_mem l with hnil | ⟨y, hy, hyp⟩
    · obtain ⟨p, s, he, -⟩ := place_parent l r k
      rw [hnil, he] at hp
      simp at hp
    · exact h.place_apart k y (mem_append_left r hy) (hyp ▸ hp)
  · intro y hy
    exact append_before_of_apart t (h.place_apart k y (mem_append_right l hy)) ((h.place_between k).2 y hy)

/-- A character just placed has no children, so the next of its run is its right child. -/
theorem View.place_after {k : α} (hx : x.path = place l r k) (j : α) :
    place (l ++ [x]) r j = x.path ++ [.right j] := by
  have hno : ¬ HasRight (l ++ [x] ++ r) (origin (l ++ [x])) := by
    rintro ⟨y, hy, i, hyp⟩
    rw [origin_concat] at hyp
    have hy' : y ∈ l ++ r ∨ y = x := by
      simp only [mem_append, mem_singleton] at hy ⊢
      tauto
    rcases hy' with hy | rfl
    · rcases h.closed y hy x.path (.right i) hyp with hnil | ⟨z, hz, hzp⟩
      · have := h.rooted_place k
        rw [← hx, hnil] at this
        exact before_irrefl [] this
      · exact h.place_not_mem k z hz (hzp.trans hx)
    · simp at hyp
  rw [place_of_not_hasRight j hno, origin_concat]

end

theorem View.kill (h : View l) (start stop i : Nat) : View (Fugue.kill start stop i l) := by
  have hatoms := map_atom_kill start stop i l
  have hmem : ∀ {x : Item α χ}, x ∈ Fugue.kill start stop i l → ∃ y ∈ l, y.toAtom = x.toAtom := fun hx => by
    have := mem_map_of_mem (f := Item.toAtom) hx
    rw [hatoms] at this
    exact mem_map.mp this
  have hmem' : ∀ {y : Item α χ}, y ∈ l → ∃ x ∈ Fugue.kill start stop i l, x.toAtom = y.toAtom := fun hy => by
    have := mem_map_of_mem (f := Item.toAtom) hy
    rw [← hatoms] at this
    exact mem_map.mp this
  refine ⟨?_, ?_, ?_⟩
  · have := (pairwise_map (f := Item.toAtom) (R := fun x y => Before x.path y.path)).mpr h.sorted
    rw [← hatoms] at this
    exact (pairwise_map (f := Item.toAtom) (R := fun x y => Before x.path y.path)).mp this
  · intro x hx p s hp
    obtain ⟨y, hy, he⟩ := hmem hx
    rw [← he] at hp
    refine (h.closed y hy p s hp).imp_right fun ⟨z, hz, hzp⟩ => ?_
    obtain ⟨w, hw, hwe⟩ := hmem' hz
    exact ⟨w, hw, hwe ▸ hzp⟩
  · intro x hx
    obtain ⟨y, hy, he⟩ := hmem hx
    rw [← he]
    exact h.rooted y hy

end View

end Fugue
