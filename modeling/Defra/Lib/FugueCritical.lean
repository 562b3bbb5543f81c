import Defra.Lib.FugueFrame

/-! # Replaying from an old version's text alone

When every later block knows all of an old version, its text alone is enough to replay them: they add, coordinate by coordinate,
what they add over any other tree that shows as many characters (`Restart.mirrors`). -/

namespace Fugue
open List TreePath

variable {α χ : Type} {n : Nat} {x : Item α χ} {l l' : List (Item α χ)}

section FrameOf
variable {l : List (Item α χ)}

/-! ### The frame of a version -/

/-- The path of shown character `g`. -/
def seatOf (l : List (Item α χ)) (g : Nat) : Path α := ((shown l)[g]?.map (·.path)).getD []

open Classical in
/-- What is inserted after the first `g` shown characters is a right child. -/
noncomputable def gapOnRight (l : List (Item α χ)) (g : Nat) : Bool := ¬ HasRight l (origin (cut g l).1)

/-- What is inserted after the first `g` shown characters is a child of this one. -/
noncomputable def gapStem (l : List (Item α χ)) (g : Nat) : Path α :=
  if gapOnRight l g then origin (cut g l).1 else ((cut g l).2.head?.map (·.path)).getD []

theorem origin_cut {g : Nat} (hg : g < (shown l).length) :
    origin (cut (g + 1) l).1 = seatOf l g ∧ ∃ x ∈ l, x.dead = false ∧ x.path = seatOf l g := by
  obtain ⟨l', x, he, hx, hl'⟩ := cut_last (p := g) (l := l) hg
  have hs := (shown_cut (g + 1) l).1
  rw [he, shown_append, hl', shown_cons, hx, take_add_one] at hs
  have hget : (shown l)[g]? = some x := by
    have := append_cancel_left hs
    rw [getElem?_eq_getElem hg] at this ⊢
    simpa [eq_comm] using this
  have hseat : x.path = seatOf l g := by rw [seatOf, hget]; rfl
  refine ⟨by rw [he, origin_concat, hseat], x, ?_, hx, hseat⟩
  rw [← cut_append (g + 1) l, he]
  simp

theorem exists_seatOf (hx : x ∈ l) (hd : x.dead = false) : ∃ g < (shown l).length, x.path = seatOf l g := by
  have hmem : x ∈ shown l := mem_filter.mpr ⟨hx, by simp [hd]⟩
  obtain ⟨g, hg, he⟩ := getElem_of_mem hmem
  exact ⟨g, hg, by rw [seatOf, getElem?_eq_getElem hg, he]; rfl⟩

theorem seatOf_mem_cut {g : Nat} (hg : g < (shown l).length) : ∃ x ∈ (cut g l).2, x.path = seatOf l g := by
  have hmem : (shown l)[g] ∈ shown (cut g l).2 := by
    rw [(shown_cut g l).2]
    exact mem_of_getElem? (i := 0) (by simp [hg])
  refine ⟨(shown l)[g], mem_of_mem_filter hmem, ?_⟩
  rw [seatOf, getElem?_eq_getElem hg]
  rfl

variable [LinearOrder α]

theorem place_cut (hv : View l) (g : Nat) (k : α) : place (cut g l).1 (cut g l).2 k =
    gapStem l g ++ [if gapOnRight l g then .right k else .left k] := by
  have hl := cut_append g l
  by_cases hr : HasRight l (origin (cut g l).1)
  · have hside : gapOnRight l g = false := by simp [gapOnRight, hr]
    rw [gapStem, hside]
    generalize (cut g l).1 = l₁ at *
    generalize (cut g l).2 = l₂ at *
    subst hl
    obtain ⟨x, hx, j, hxp⟩ := id hr
    have hxr := hv.mem_of_origin_before hx (hxp ▸ before_append_right _ j [])
    cases l₂ with
    | nil => cases hxr
    | cons next r => exact place_of_hasRight k hr
  · have hside : gapOnRight l g = true := by simp [gapOnRight, hr]
    rw [gapStem, hside]
    refine place_of_not_hasRight k ?_
    rwa [hl]

/-- What hangs in gap `g` is between the shown characters around it. -/
theorem gap_between (hv : View l) (g : Nat) (k : α) (t : Path α) :
    Before (origin (cut g l).1) (gapStem l g ++ (if gapOnRight l g then .right k else .left k) :: t) ∧
      ∀ y ∈ (cut g l).2, Before (gapStem l g ++ (if gapOnRight l g then .right k else .left k) :: t) y.path := by
  have hplace := place_cut hv g k
  rw [← cut_append g l] at hv
  have := hv.place_append_between k t
  rwa [hplace, append_assoc] at this

theorem gap_apart (hv : View l) (g : Nat) (k : α) (t : Path α) (hx : x ∈ l) :
    x.path ≠ gapStem l g ++ (if gapOnRight l g then .right k else .left k) :: t := by
  intro he
  have hplace := place_cut hv g k
  rw [← cut_append g l] at hv hx
  refine hv.place_apart k x hx ⟨t, ?_⟩
  rw [hplace, he, append_assoc]
  rfl

/-- The seats and gaps of a version's own tree. -/
noncomputable def frameOf (hv : View l) (hn : (shown l).length = n) : Frame α n where
  seat := seatOf l
  stem := gapStem l
  onRight := gapOnRight l
  seat_lt g hg := by
    have hlt : g + 1 < (shown l).length := hn ▸ hg
    rw [seatOf, seatOf, getElem?_eq_getElem hlt, getElem?_eq_getElem (Nat.lt_of_succ_lt hlt)]
    exact pairwise_iff_getElem.mp (hv.sorted.filter fun x => !x.dead) g (g + 1) (Nat.lt_of_succ_lt hlt) hlt
      (Nat.lt_succ_self g)
  seat_before g k t hg := by
    rw [← (origin_cut (hn ▸ hg)).1]
    exact (gap_between hv (g + 1) k t).1
  before_seat g k t hg := by
    obtain ⟨x, hx, hxp⟩ := seatOf_mem_cut (l := l) (hn ▸ hg)
    rw [← hxp]
    exact (gap_between hv g k t).2 x hx

variable (hv : View l) (hn : (shown l).length = n)

theorem frameOf_left {g : Nat} (hg : g ≤ n) : (frameOf hv hn).left g = origin (cut g l).1 := by
  cases g with
  | zero => rw [cut_zero]; rfl
  | succ g => exact (origin_cut (hn ▸ hg)).1.symm

theorem frameOf_stands (hx : x ∈ l) {c : Coord α} (hc : (frameOf hv hn).Stands x c) : ∃ g, c = .seat g ∧ x.dead = false := by
  cases c with
  | seat g =>
    obtain ⟨-, y, hy, hd, hyp⟩ := origin_cut (l := l) (hn ▸ hc.1)
    have hxy := inj_on_of_nodup_map (nodup_of_sorted hv.sorted) hx hy (hc.2.trans hyp.symm)
    exact ⟨g, rfl, hxy ▸ hd⟩
  | slot g k t => exact absurd hc.2 (gap_apart hv g k t hx)

theorem frameOf_shown (hx : x ∈ l) (hd : x.dead = false) : ∃ g, (frameOf hv hn).Stands x (.seat g) := by
  obtain ⟨g, hg, hxp⟩ := exists_seatOf hx hd
  exact ⟨g, show g < n from hn ▸ hg, hxp⟩

theorem frameOf_framed : (frameOf hv hn).Framed l where
  view := hv
  seats g hg := by
    obtain ⟨-, x, hx, -, hxp⟩ := origin_cut (l := l) (hn ▸ hg)
    exact ⟨x, hx, hxp⟩
  dead x hx hout := by
    by_contra hd
    obtain ⟨g, hg⟩ := frameOf_shown hv hn hx (by simpa using hd)
    exact hout ⟨_, hg⟩
  right g hg hside := by
    rw [frameOf_left hv hn hg]
    exact if_pos hside
  left g hg hside := by
    have hr : HasRight l (origin (cut g l).1) := by
      have : gapOnRight l g = false := hside
      simpa [gapOnRight] using this
    have hl := cut_append g l
    have hv' := hv
    obtain ⟨x, hx, j, hxp⟩ := id hr
    rw [← hl] at hv' hx
    have hxr := hv'.mem_of_origin_before hx (hxp ▸ before_append_right _ j [])
    -- The stem is the first character past the gap's left one.
    obtain ⟨next, r, hnext⟩ := exists_cons_of_ne_nil (ne_nil_of_mem hxr)
    have hs : (frameOf hv hn).stem g = next.path := by
      have hs : gapStem l g = next.path := by
        have : gapOnRight l g = false := hside
        simp [gapStem, this, hnext]
      exact hs
    rw [hnext] at hv'
    refine ⟨?_, ?_, ⟨next, ?_, hs.symm⟩, fun y hy hly hys => ?_⟩
    · rwa [frameOf_left hv hn hg]
    · rw [frameOf_left hv hn hg, hs]
      exact hv'.origin_before next (by simp)
    · rw [← hl, hnext]
      simp
    · rw [frameOf_left hv hn hg] at hly
      rw [← hl, hnext] at hy
      rw [hs] at hys
      rcases mem_cons.mp (hv'.mem_of_origin_before hy hly) with rfl | hy
      · exact absurd hys (before_irrefl _)
      · exact absurd hys (before_asymm ((pairwise_cons.mp (pairwise_append.mp hv'.sorted).2.1).1 y hy))

end FrameOf

/-- Two sorted lists whose items pair up, each with some of the other, in the same order. -/
theorem forall₂_of_sorted {β γ : Type} {R : β → γ → Prop} (lt : β → β → Prop) (lt' : γ → γ → Prop)
    (irrefl : ∀ x, ¬ lt x x) (asymm' : ∀ x y, lt' x y → ¬ lt' y x)
    (hiff : ∀ {x y x' y'}, R x x' → R y y' → (lt x y ↔ lt' x' y')) :
    ∀ {l : List β} {l' : List γ}, l.Pairwise lt → l'.Pairwise lt' → (∀ x ∈ l, ∃ x' ∈ l', R x x') →
      (∀ x' ∈ l', ∃ x ∈ l, R x x') → Forall₂ R l l'
  | [], [], _, _, _, _ => .nil
  | [], x' :: l', _, _, _, h' => by
    obtain ⟨x, hx, -⟩ := h' x' (by simp)
    cases hx
  | x :: l, [], _, _, h, _ => by
    obtain ⟨x', hx', -⟩ := h x (by simp)
    cases hx'
  | x :: l, x' :: l', hl, hl', h, h' => by
    obtain ⟨hx, hl⟩ := pairwise_cons.mp hl
    obtain ⟨hx', hl'⟩ := pairwise_cons.mp hl'
    -- Neither head's partner can come later: the orders would disagree.
    have hxx : R x x' := by
      obtain ⟨y', hy', hxy⟩ := h x (by simp)
      rcases mem_cons.mp hy' with rfl | hy'
      · exact hxy
      · obtain ⟨y, hy, hyx⟩ := h' x' (by simp)
        rcases mem_cons.mp hy with rfl | hy
        · exact hyx
        · exact absurd (hx' y' hy') (asymm' _ _ ((hiff hxy hyx).mp (hx y hy)))
    refine .cons hxx (forall₂_of_sorted lt lt' irrefl asymm' hiff hl hl' (fun y hy => ?_) fun y' hy' => ?_)
    · obtain ⟨y', hy', hyy⟩ := h y (mem_cons_of_mem x hy)
      rcases mem_cons.mp hy' with rfl | hy'
      · have := (hiff hxx hyy).mp (hx y hy)
        exact absurd this (asymm' _ _ this)
      · exact ⟨y', hy', hyy⟩
    · obtain ⟨y, hy, hyy⟩ := h' y' (mem_cons_of_mem x' hy')
      rcases mem_cons.mp hy with rfl | hy
      · exact absurd ((hiff hxx hyy).mpr (hx' y' hy')) (irrefl _)
      · exact ⟨y, hy, hyy⟩

section Mirrors
variable [LinearOrder α] (F F' : Frame α n)

/-! ### Documents that mirror each other -/

def SameAtom (a a' : Atom α χ) : Prop :=
  ∃ g k t, g ≤ n ∧ a.path = F.pathOf (.slot g k t) ∧ a'.path = F'.pathOf (.slot g k t) ∧
    a.block = a'.block ∧ a.offset = a'.offset ∧ a.ch = a'.ch

/-- The two documents are the same additions to the two trees. -/
structure Mirrors (d d' : Doc α χ) : Prop where
  chars : ∀ a ∈ d.chars, ∃ a' ∈ d'.chars, SameAtom F F' a a'
  chars' : ∀ a' ∈ d'.chars, ∃ a ∈ d.chars, SameAtom F F' a a'
  marks : ∀ m ∈ d.marks, ∃ p', SamePath F F' m.1 p' ∧ (p', m.2) ∈ d'.marks
  marks' : ∀ m' ∈ d'.marks, ∃ p, SamePath F F' p m'.1 ∧ (p, m'.2) ∈ d.marks

variable {F F'}

theorem Mirrors.marked_iff {d d' : Doc α χ} (h : Mirrors F F' d d') {c : Coord α} (hc : c.Within n) :
    (∃ b, (F.pathOf c, b) ∈ d.marks) ↔ ∃ b, (F'.pathOf c, b) ∈ d'.marks := by
  constructor
  · rintro ⟨b, hb⟩
    obtain ⟨p', ⟨c', hc', hp, rfl⟩, hm⟩ := h.marks _ hb
    obtain rfl := F.pathOf_inj hc hc' hp
    exact ⟨b, hm⟩
  · rintro ⟨b, hb⟩
    obtain ⟨p, ⟨c', hc', rfl, hp⟩, hm⟩ := h.marks' _ hb
    obtain rfl := F'.pathOf_inj hc hc' hp
    exact ⟨b, hm⟩

theorem Session.Twin.mirrors {b : α} {s s' : Session α χ} (h : Session.Twin F F' b s s') :
    Mirrors F F' (s.contribution b) (s'.contribution b) where
  chars := by
    rintro a ⟨hb, x, hx, rfl⟩
    obtain ⟨g, k, t, hg, hxp⟩ := h.own x hx hb
    have hs : F.Stands x (.slot g k t) := ⟨hg, hxp⟩
    obtain ⟨x', hx', c, hc, hc', -, hdata⟩ := h.alike.exists_right hx hs
    obtain rfl := F.stands_unique hc hs
    have hdata := hdata g k t rfl
    exact ⟨x'.toAtom, ⟨hdata.1 ▸ hb, x', hx', rfl⟩, g, k, t, hg, hxp, hc'.2, hdata⟩
  chars' := by
    rintro a ⟨hb, x', hx', rfl⟩
    obtain ⟨g, k, t, hg, hxp⟩ := h.own' x' hx' hb
    have hs : F'.Stands x' (.slot g k t) := ⟨hg, hxp⟩
    obtain ⟨x, hx, c, hc, hc', -, hdata⟩ := h.alike.exists_left hx'
    obtain rfl := F'.stands_unique hc' hs
    have hdata := hdata g k t rfl
    exact ⟨x.toAtom, ⟨hdata.1 ▸ hb, x, hx, rfl⟩, g, k, t, hg, hc.2, hxp, hdata⟩
  marks := by
    rintro m ⟨hb, hm⟩
    obtain ⟨p', hp', hpp⟩ := (exists_of_forall₂ h.marks).1 m.1 hm
    exact ⟨p', hpp, hb, hp'⟩
  marks' := by
    rintro m ⟨hb, hm⟩
    obtain ⟨p, hp, hpp⟩ := (exists_of_forall₂ h.marks).2 m.1 hm
    exact ⟨p, hpp, hb, hp⟩

theorem alike_of_pairs (hl : l.Pairwise fun x y => Before x.path y.path) (hl' : l'.Pairwise fun x y => Before x.path y.path)
    (h : ∀ x ∈ l, ∀ c, F.Stands x c → ∃ x' ∈ l', Same F F' x x') (h' : ∀ x' ∈ l', ∃ x ∈ l, Same F F' x x') :
    Alike F F' l l' := by
  have hiff : ∀ {x y x' y' : Item α χ}, Same F F' x x' → Same F F' y y' →
      (Before x.path y.path ↔ Before x'.path y'.path) := by
    rintro x y x' y' ⟨c, hc, hc', -⟩ ⟨e, he, he', -⟩
    rw [hc.2, hc'.2, he.2, he'.2, F.before_iff hc.1 he.1, F'.before_iff hc.1 he.1]
  refine forall₂_of_sorted (fun x y => Before x.path y.path) (fun x y => Before x.path y.path)
    (fun x => before_irrefl x.path) (fun x y => before_asymm) hiff (hl.filter _) hl' ?_ ?_
  · intro x hx
    obtain ⟨hx, c, hc⟩ := Frame.mem_kept.mp hx
    exact h x hx c hc
  · intro x' hx'
    obtain ⟨x, hx, hxx⟩ := h' x' hx'
    obtain ⟨c, hc, -⟩ := id hxx
    exact ⟨x, Frame.mem_kept.mpr ⟨hx, c, hc⟩, hxx⟩

end Mirrors

section Over
variable [LinearOrder α] {d d' e e' : Doc α χ} {l₀ l₀' : List (Item α χ)}

/-! ### Over an old version -/

/-- A version keeps the frame of an older one it holds, when what it adds is in the gaps. -/
theorem framed_of_listing (hv₀ : View l₀) (hn : (shown l₀).length = n) (h₀ : Listing d l₀)
    (hv : View l) (hl : Listing (d ∪ e) l)
    (he : ∀ a ∈ e.chars, ∃ g k t, g ≤ n ∧ a.path = (frameOf hv₀ hn).pathOf (.slot g k t)) :
    (frameOf hv₀ hn).Framed l := by
  refine (frameOf_framed hv₀ hn).grow hv (fun y hy => ?_) fun x hx => ?_
  · obtain ⟨x, hx, hxy⟩ := hl.exists_item (.inl ((h₀.mem y).mp hy).1)
    exact ⟨x, hx, congrArg Atom.path hxy⟩
  · obtain ⟨ha | ha, hd⟩ := (hl.mem x).mp hx
    · obtain ⟨y, hy, hyx⟩ := h₀.exists_item ha
      refine .inl ⟨y, hy, congrArg Atom.path hyx, fun hdead => hd.mpr ?_⟩
      obtain ⟨b, hb⟩ := ((h₀.mem y).mp hy).2.mp hdead
      exact ⟨b, .inl (by rw [← hyx]; exact hb)⟩
    · exact .inr (he _ ha)

/-- Two versions that show the same number of characters, the second holding no others. -/
structure Over (d d' : Doc α χ) (l₀ l₀' : List (Item α χ)) (n : Nat) : Prop where
  view : View l₀
  view' : View l₀'
  listing : Listing d l₀
  listing' : Listing d' l₀'
  held : d.MarksHeld
  unmarked : d'.marks = ∅
  length : (shown l₀).length = n
  length' : (shown l₀').length = n

namespace Over

section
variable (h : Over d d' l₀ l₀' n)
include h

noncomputable def frame : Frame α n := frameOf h.view h.length

noncomputable def frame' : Frame α n := frameOf h.view' h.length'

theorem not_marked {c : Coord α} (hc : c.Within n) : ¬ ∃ b, (h.frame.pathOf c, b) ∈ d.marks := by
  rintro ⟨b, hb⟩
  obtain ⟨a, ha, hap⟩ := h.held _ hb
  obtain ⟨x, hx, rfl⟩ := h.listing.exists_item ha
  obtain ⟨g, -, hdead⟩ := frameOf_stands h.view h.length hx ⟨hc, hap⟩
  have hmarked := ((h.listing.mem x).mp hx).2.mpr ⟨b, by rw [hap]; exact hb⟩
  rw [hdead] at hmarked
  cases hmarked

theorem alive (hx : x ∈ l₀') : x.dead = false := by
  by_contra hd
  obtain ⟨b, hb⟩ := ((h.listing'.mem x).mp hx).2.mp (by simpa using hd)
  rw [h.unmarked] at hb
  exact hb

theorem alike (hm : Mirrors h.frame h.frame' e e')
    (hl : Listing (d ∪ e) l) (hl' : Listing (d' ∪ e') l') : Alike h.frame h.frame' l l' := by
  -- Two items at one coordinate are dead together: the old marks are elsewhere.
  have hd : ∀ {x x' : Item α χ} {c : Coord α}, x ∈ l → x' ∈ l' → h.frame.Stands x c → h.frame'.Stands x' c →
      x.dead = x'.dead := by
    intro x x' c hx hx' hc hc'
    have hmx := ((hl.mem x).mp hx).2
    have hmx' := ((hl'.mem x').mp hx').2
    rw [Bool.eq_iff_iff, hmx, hmx', hc.2, hc'.2]
    simp only [Doc.union_marks, Set.mem_union, h.unmarked, Set.mem_empty_iff_false, false_or, exists_or,
      h.not_marked hc.1]
    exact hm.marked_iff hc.1
  have hitem : ∀ {a : Atom α χ}, a ∈ (d ∪ e).chars → ∃ x ∈ l, x.toAtom = a := hl.exists_item
  have hitem' : ∀ {a : Atom α χ}, a ∈ (d' ∪ e').chars → ∃ x ∈ l', x.toAtom = a := hl'.exists_item
  refine alike_of_pairs hl.sorted hl'.sorted (fun x hx c hc => ?_) fun x' hx' => ?_
  · rcases ((hl.mem x).mp hx).1 with ha | ha
    · obtain ⟨y, hy, hyx⟩ := h.listing.exists_item ha
      obtain ⟨g, rfl, -⟩ := frameOf_stands h.view h.length hy (c := c) ⟨hc.1, by rw [hyx]; exact hc.2⟩
      obtain ⟨y', hy', hyp⟩ := (frameOf_framed h.view' h.length').seats g hc.1
      obtain ⟨x', hx', he⟩ := hitem' (.inl ((h.listing'.mem y').mp hy').1)
      have hc' : h.frame'.Stands x' (.seat g) := ⟨hc.1, by rw [he]; exact hyp⟩
      exact ⟨x', hx', .seat g, hc, hc', hd hx hx' hc hc', fun _ _ _ he => by cases he⟩
    · obtain ⟨a', ha', g, k, t, hg, hp, hp', hdata⟩ := hm.chars _ ha
      obtain ⟨x', hx', rfl⟩ := hitem' (.inr ha')
      have hcx : h.frame.Stands x (.slot g k t) := ⟨hg, hp⟩
      have hcx' : h.frame'.Stands x' (.slot g k t) := ⟨hg, hp'⟩
      exact ⟨x', hx', .slot g k t, hcx, hcx', hd hx hx' hcx hcx', fun _ _ _ _ => hdata⟩
  · rcases ((hl'.mem x').mp hx').1 with ha | ha
    · obtain ⟨y', hy', hyx⟩ := h.listing'.exists_item ha
      obtain ⟨g, hg⟩ := frameOf_shown h.view' h.length' hy' (h.alive hy')
      obtain ⟨y, hy, hyp⟩ := (frameOf_framed h.view h.length).seats g hg.1
      obtain ⟨x, hx, he⟩ := hitem (.inl ((h.listing.mem y).mp hy).1)
      have hc : h.frame.Stands x (.seat g) := ⟨hg.1, by rw [he]; exact hyp⟩
      have hc' : h.frame'.Stands x' (.seat g) := ⟨hg.1, by rw [← hyx]; exact hg.2⟩
      exact ⟨x, hx, .seat g, hc, hc', hd hx hx' hc hc', fun _ _ _ he => by cases he⟩
    · obtain ⟨a, ha, g, k, t, hg, hp, hp', hdata⟩ := hm.chars' _ ha
      obtain ⟨x, hx, rfl⟩ := hitem (.inr ha)
      have hcx : h.frame.Stands x (.slot g k t) := ⟨hg, hp⟩
      have hcx' : h.frame'.Stands x' (.slot g k t) := ⟨hg, hp'⟩
      exact ⟨x, hx, .slot g k t, hcx, hcx', hd hx hx' hcx hcx', fun _ _ _ _ => hdata⟩

theorem framed (hm : Mirrors h.frame h.frame' e e') (hv : View l) (hl : Listing (d ∪ e) l) : h.frame.Framed l := by
  refine framed_of_listing h.view h.length h.listing hv hl fun a ha => ?_
  obtain ⟨-, -, g, k, t, hg, hp, -⟩ := hm.chars a ha
  exact ⟨g, k, t, hg, hp⟩

theorem framed' (hm : Mirrors h.frame h.frame' e e') (hv : View l')
    (hl : Listing (d' ∪ e') l') : h.frame'.Framed l' := by
  refine framed_of_listing h.view' h.length' h.listing' hv hl fun a ha => ?_
  obtain ⟨-, -, g, k, t, hg, -, hp, -⟩ := hm.chars' a ha
  exact ⟨g, k, t, hg, hp⟩

end

theorem seat_atom (hv₀ : View l₀) (hn : (shown l₀).length = n) (h₀ : Listing d l₀)
    (hl : Listing (d ∪ e) l) (hx : x ∈ l) {g : Nat} (hc : (frameOf hv₀ hn).Stands x (.seat g)) :
    ∃ y, (shown l₀)[g]? = some y ∧ x.toAtom = y.toAtom := by
  have hg : g < (shown l₀).length := hn ▸ hc.1
  have hm : (shown l₀)[g] ∈ l₀ := mem_of_mem_filter (getElem_mem hg)
  refine ⟨_, getElem?_eq_getElem hg, ?_⟩
  obtain ⟨y, hy, hyx⟩ := hl.exists_item (.inl ((h₀.mem _).mp hm).1)
  have hp : x.path = y.path := by
    rw [hyx]
    refine hc.2.trans ?_
    show seatOf l₀ g = _
    rw [seatOf, getElem?_eq_getElem hg]
    rfl
  rw [hl.path_inj hx hy hp, hyx]

/-- The first version's text, read off the second's items by what each old character is. -/
theorem text_eq (h : Over d d' l₀ l₀' n) (hm : Mirrors h.frame h.frame' e e') (hv : View l)
    (hl : Listing (d ∪ e) l) (hl' : Listing (d' ∪ e') l') {read : Atom α χ → χ}
    (ho : ∀ (g : Nat) (y y' : Item α χ), (shown l₀)[g]? = some y → (shown l₀')[g]? = some y' → read y'.toAtom = y.ch)
    (hnew : ∀ a ∈ e'.chars, read a = a.ch) : text l = (shown l').map fun x => read x.toAtom := by
  refine map_eq_of_forall₂ ((h.alike hm hl hl').shown (h.framed hm hv hl).dead) fun x hx x' hx' hxx => ?_
  have hx := mem_of_mem_filter hx
  have hx' := mem_of_mem_filter hx'
  obtain ⟨c, hc, hc', -, hdata⟩ := hxx
  cases c with
  | seat g =>
    obtain ⟨y, hy, hxy⟩ := seat_atom h.view h.length h.listing hl hx hc
    obtain ⟨y', hy', hxy'⟩ := seat_atom h.view' h.length' h.listing' hl' hx' hc'
    rw [hxy', ho g y y' hy hy', hxy]
  | slot g k t =>
    rw [(hdata g k t rfl).2.2]
    rcases ((hl'.mem x').mp hx').1 with ha | ha
    · -- An old character is in a seat, not in a gap.
      obtain ⟨y', hy', hyx⟩ := h.listing'.exists_item ha
      obtain ⟨g', hg'⟩ := frameOf_shown h.view' h.length' hy' (h.alive hy')
      have hs : h.frame'.Stands x' (.seat g') := ⟨hg'.1, by rw [← hyx]; exact hg'.2⟩
      cases h.frame'.stands_unique hs hc'
    · exact (hnew _ ha).symm

end Over
end Over

namespace History
variable [LinearOrder α] {H H' : History α χ} {C C' : α → Doc α χ} {P D S : Set α}

/-- What the blocks of `S` add. -/
def added (C : α → Doc α χ) (S : Set α) : Doc α χ := ⟨⋃ b ∈ S, (C b).chars, ⋃ b ∈ S, (C b).marks⟩

omit [LinearOrder α] in
theorem doc_union (P S : Set α) : H.doc C (P ∪ S) = H.doc C P ∪ added C S := by
  ext a
  · simp only [doc, added, Doc.union_chars, Set.biUnion_union, Set.union_assoc]
  · simp only [doc, added, Doc.union_marks, Set.biUnion_union]

omit [LinearOrder α] in
theorem doc_eq_added (S : Set α) : H.doc C S = H.doc C ∅ ∪ added C S := by
  rw [← doc_union, Set.empty_union]

theorem mirrors_added {F F' : Frame α n} (h : ∀ b ∈ S, Mirrors F F' (C b) (C' b)) :
    Mirrors F F' (added C S) (added C' S) where
  chars a ha := by
    obtain ⟨b, hb, ha⟩ := Set.mem_iUnion₂.mp ha
    obtain ⟨a', ha', haa⟩ := (h b hb).chars a ha
    exact ⟨a', Set.mem_iUnion₂.mpr ⟨b, hb, ha'⟩, haa⟩
  chars' a ha := by
    obtain ⟨b, hb, ha⟩ := Set.mem_iUnion₂.mp ha
    obtain ⟨a', ha', haa⟩ := (h b hb).chars' a ha
    exact ⟨a', Set.mem_iUnion₂.mpr ⟨b, hb, ha'⟩, haa⟩
  marks m hm := by
    obtain ⟨b, hb, hm⟩ := Set.mem_iUnion₂.mp hm
    obtain ⟨p, hp, hpm⟩ := (h b hb).marks m hm
    exact ⟨p, hp, Set.mem_iUnion₂.mpr ⟨b, hb, hpm⟩⟩
  marks' m hm := by
    obtain ⟨b, hb, hm⟩ := Set.mem_iUnion₂.mp hm
    obtain ⟨p, hp, hpm⟩ := (h b hb).marks' m hm
    exact ⟨p, hp, Set.mem_iUnion₂.mpr ⟨b, hb, hpm⟩⟩

/-- The blocks of `D` know all of `P`, and `H'` replays them without it. -/
structure Restarts (H H' : History α χ) (P D : Set α) : Prop where
  past : ∀ b ∈ D, H.past b = P ∪ H'.past b
  later : ∀ b ∈ D, H'.past b ⊆ D
  edits : ∀ b ∈ D, H.edits b = H'.edits b

theorem Replays.not_own (h : H.Replays S C) (hbase : ∀ a ∈ H.base, a.block = none) {b : α} (hp : H.past b ⊆ S)
    (hb : b ∉ H.past b) (hl : Listing (H.doc C (H.past b)) l) : ∀ x ∈ l, x.block ≠ some b := by
  intro x hx he
  rcases mem_doc_chars.mp ((hl.mem x).mp hx).1 with ha | ⟨a, ha, hxa⟩
  · rw [hbase _ ha] at he
    cases he
  · rw [h.block (hp ha) _ hxa] at he
    exact hb (Option.some.inj he ▸ ha)

theorem Restarts.mirrors (h : Restarts H H' P D) (hwf : WellFounded fun a b => a ∈ H.past b)
    (hbase : ∀ a ∈ H.base, a.block = none) (hb' : ∀ a ∈ H'.base, a.block = none) (hC : H.Replays (P ∪ D) C)
    (hC' : H'.Replays D C') {l₀ l₀' : List (Item α χ)} (ho : Over (H.doc C P) (H'.doc C' ∅) l₀ l₀' n) :
    ∀ b ∈ D, Mirrors ho.frame ho.frame' (C b) (C' b) := by
  intro b
  induction b using hwf.induction with
  | h b ih =>
    intro hb
    have hp := h.past b hb
    have hsub : H'.past b ⊆ H.past b := hp ▸ Set.subset_union_right
    have hself : b ∉ H.past b := hwf.irrefl.irrefl b
    obtain ⟨l, hv, hl, -, he⟩ := hC b (.inr hb)
    obtain ⟨l', hv', hl', -, he'⟩ := hC' b hb
    have hm := mirrors_added (S := H'.past b) fun a ha => ih a (hsub ha) (h.later b hb ha)
    have hown := hC.not_own hbase (hp ▸ Set.union_subset_union_right P (h.later b hb)) hself hl
    have hown' := hC'.not_own hb' (h.later b hb) (mt (fun hmem => hsub hmem) hself) hl'
    rw [hp, doc_union] at hl
    rw [doc_eq_added] at hl'
    have htwin : Session.Twin ho.frame ho.frame' b ⟨l, [], 0⟩ ⟨l', [], 0⟩ :=
      ⟨ho.framed hm hv hl, ho.framed' hm hv' hl', ho.alike hm hl hl',
        fun x hx hxb => absurd hxb (hown x hx), fun x hx hxb => absurd hxb (hown' x hx), .nil, rfl⟩
    rw [he, he', h.edits b hb]
    exact (htwin.run (H'.edits b)).mirrors

theorem Restarts.text_eq (h : Restarts H H' P D) (hwf : WellFounded fun a b => a ∈ H.past b)
    (hbase : ∀ a ∈ H.base, a.block = none) (hb' : ∀ a ∈ H'.base, a.block = none) (hC : H.Replays (P ∪ D) C)
    (hC' : H'.Replays D C') {l₀ l₀' : List (Item α χ)} (ho : Over (H.doc C P) (H'.doc C' ∅) l₀ l₀' n) (hS : S ⊆ D)
    (hv : View l) (hl : Listing (H.doc C (P ∪ S)) l) (hl' : Listing (H'.doc C' S) l')
    {read : Atom α χ → χ}
    (hold : ∀ (g : Nat) (y y' : Item α χ), (shown l₀)[g]? = some y → (shown l₀')[g]? = some y' → read y'.toAtom = y.ch)
    (hnew : ∀ a, a.block ≠ none → read a = a.ch) : text l = (shown l').map fun x => read x.toAtom := by
  have hm := mirrors_added fun b hb => h.mirrors hwf hbase hb' hC hC' ho b (hS hb)
  rw [doc_union] at hl
  rw [doc_eq_added] at hl'
  refine ho.text_eq hm hv hl hl' hold fun a ha => hnew a ?_
  obtain ⟨b, hb, ha⟩ := Set.mem_iUnion₂.mp ha
  rw [hC'.block (hS hb) a ha]
  exact Option.some_ne_none b

end History
end Fugue
