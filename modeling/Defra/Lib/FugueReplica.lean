import Mathlib.Data.List.Nodup
import Mathlib.Order.WellFounded
import Defra.Lib.Fugue

/-! # Documents: what the blocks of a replicated sequence leave

A document is what its blocks inserted and marked. A block adds what its edits make of its own version (`contribution`), which
depends on its past alone, so replicas that merge the same blocks, in whatever order, hold the same document. -/

namespace Fugue
open List TreePath

variable {α χ : Type}

/-! ### Documents -/

/-- What a set of blocks inserted and marked, each with its block. -/
@[ext] structure Doc (α χ : Type) where
  chars : Set (Atom α χ)
  marks : Set (Path α × α)

namespace Doc

instance : Union (Doc α χ) := ⟨fun d e => ⟨d.chars ∪ e.chars, d.marks ∪ e.marks⟩⟩

@[simp] theorem union_chars (d e : Doc α χ) : (d ∪ e).chars = d.chars ∪ e.chars := rfl

@[simp] theorem union_marks (d e : Doc α χ) : (d ∪ e).marks = d.marks ∪ e.marks := rfl

/-- What blocks outside `S` did left out. -/
def only (d : Doc α χ) (S : Set α) : Doc α χ where
  chars := {a | a ∈ d.chars ∧ (a.block = none ∨ ∃ b ∈ S, a.block = some b)}
  marks := {m | m ∈ d.marks ∧ m.2 ∈ S}

theorem only_union (d e : Doc α χ) (S : Set α) : (d ∪ e).only S = d.only S ∪ e.only S := by
  ext a
  · simp only [only, union_chars, Set.mem_union, Set.mem_ofPred_eq, or_and_right]
  · simp only [only, union_marks, Set.mem_union, Set.mem_ofPred_eq]
    tauto

end Doc

variable {d : Doc α χ} {l l' : List (Item α χ)} {a : Atom α χ}

section Listing
variable [LinearOrder α]

/-! ### Listings -/

/-- `l` lists a document: its characters in reading order, the marked ones dead. -/
structure Listing (d : Doc α χ) (l : List (Item α χ)) : Prop where
  sorted : l.Pairwise fun x y => Before x.path y.path
  mem : ∀ x, x ∈ l ↔ x.toAtom ∈ d.chars ∧ (x.dead = true ↔ ∃ b, (x.path, b) ∈ d.marks)

theorem nodup_of_sorted {β : Type} {path : β → Path α} {l : List β}
    (h : l.Pairwise fun x y => Before (path x) (path y)) : (l.map path).Nodup :=
  pairwise_map.mpr (h.imp ne_of_before)

theorem eq_of_sorted {β : Type} {path : β → Path α} {l l' : List β}
    (h : l.Pairwise fun x y => Before (path x) (path y)) (h' : l'.Pairwise fun x y => Before (path x) (path y))
    (hm : ∀ x, x ∈ l ↔ x ∈ l') : l = l' := by
  refine Perm.eq_of_pairwise (fun x y _ _ hxy hyx => absurd hyx (before_asymm hxy)) h h' ?_
  exact (perm_ext_iff_of_nodup (Nodup.of_map _ (nodup_of_sorted h)) (Nodup.of_map _ (nodup_of_sorted h'))).mpr hm

theorem Listing.unique (h : Listing d l) (h' : Listing d l') : l = l' :=
  eq_of_sorted h.sorted h'.sorted fun x => (h.mem x).trans (h'.mem x).symm

theorem Listing.path_inj (h : Listing d l) {x y : Item α χ} (hx : x ∈ l) (hy : y ∈ l) (he : x.path = y.path) : x = y :=
  inj_on_of_nodup_map (nodup_of_sorted h.sorted) hx hy he

theorem Listing.exists_item (h : Listing d l) (ha : a ∈ d.chars) : ∃ x ∈ l, x.toAtom = a := by
  by_cases hm : ∃ b, (a.path, b) ∈ d.marks
  · exact ⟨⟨a, true⟩, (h.mem _).mpr ⟨ha, by simpa using hm⟩, rfl⟩
  · exact ⟨⟨a, false⟩, (h.mem _).mpr ⟨ha, by simpa using hm⟩, rfl⟩

theorem Listing.closed (h : Listing d l) (hv : View l)
    (ha : a ∈ d.chars) {p : Path α} {s : Step α} (hp : a.path = p ++ [s]) : p = [] ∨ ∃ a' ∈ d.chars, a'.path = p := by
  obtain ⟨x, hx, rfl⟩ := h.exists_item ha
  refine (hv.closed x hx p s hp).imp_right ?_
  rintro ⟨y, hy, hyp⟩
  exact ⟨y.toAtom, ((h.mem y).mp hy).1, hyp⟩

def Doc.MarksHeld (d : Doc α χ) : Prop := ∀ m ∈ d.marks, ∃ a ∈ d.chars, a.path = m.1

theorem Listing.insert {r : List (Item α χ)} (h : Listing d (l ++ r)) (hv : View (l ++ r))
    (hm : d.MarksHeld) {x : Item α χ} {k : α} (hx : x.path = place l r k) (hdead : x.dead = false) :
    Listing ⟨insert x.toAtom d.chars, d.marks⟩ (l ++ [x] ++ r) where
  sorted := (hv.insert hx).sorted
  mem := by
    -- The place is fresh, so no mark is on it.
    have hf : ∀ a ∈ d.chars, a.path ≠ x.path := by
      intro a ha he
      by_cases hd : ∃ b, (a.path, b) ∈ d.marks
      · exact hv.place_not_mem k ⟨a, true⟩ ((h.mem _).mpr ⟨ha, by simpa using hd⟩) (he.trans hx)
      · exact hv.place_not_mem k ⟨a, false⟩ ((h.mem _).mpr ⟨ha, by simpa using hd⟩) (he.trans hx)
    have hnomark : ¬ ∃ b, (x.path, b) ∈ d.marks := by
      rintro ⟨b, hb⟩
      obtain ⟨a, ha, hap⟩ := hm _ hb
      exact hf a ha hap
    intro y
    have hsp : y ∈ l ++ [x] ++ r ↔ y ∈ l ++ r ∨ y = x := by
      simp only [mem_append, mem_singleton]
      tauto
    rw [hsp, h.mem y]
    constructor
    · rintro (⟨hy, hd⟩ | rfl)
      · exact ⟨.inr hy, hd⟩
      · exact ⟨.inl rfl, by simp only [hdead, Bool.false_eq_true, false_iff]; exact hnomark⟩
    · rintro ⟨he | hy, hd⟩
      · right
        cases y with
        | mk a dead =>
          subst he
          have hd' : dead = false := by
            cases dead
            · rfl
            · exact absurd (hd.mp rfl) hnomark
          rw [hd', ← hdead]
      · exact .inl ⟨hy, hd⟩

theorem Listing.kill (h : Listing d l) (b : α) (start stop : Nat) :
    Listing ⟨d.chars, d.marks ∪ {m | m.2 = b ∧ m.1 ∈ killed start stop 0 l}⟩ (kill start stop 0 l) where
  sorted := by
    have := pairwise_map (f := Item.toAtom) (R := fun x y => Before x.path y.path) |>.mpr h.sorted
    rw [← map_atom_kill start stop 0] at this
    exact (pairwise_map (f := Item.toAtom) (R := fun x y => Before x.path y.path)).mp this
  mem := by
    intro y
    rw [mem_kill (nodup_of_sorted h.sorted)]
    have hmark : ∀ p : Path α, (∃ b', (p, b') ∈ d.marks ∪ {m | m.2 = b ∧ m.1 ∈ killed start stop 0 l}) ↔
        (∃ b', (p, b') ∈ d.marks) ∨ p ∈ killed start stop 0 l := by
      intro p
      constructor
      · rintro ⟨b', hb | ⟨-, hp⟩⟩
        · exact .inl ⟨b', hb⟩
        · exact .inr hp
      · rintro (⟨b', hb⟩ | hp)
        · exact ⟨b', .inl hb⟩
        · exact ⟨b, .inr ⟨rfl, hp⟩⟩
    rw [hmark]
    constructor
    · rintro ⟨x, hx, ha, hd⟩
      obtain ⟨hx, hxd⟩ := (h.mem x).mp hx
      rw [ha]
      exact ⟨hx, by rw [hd, hxd]⟩
    · rintro ⟨ha, hd⟩
      by_cases hm : ∃ b', (y.path, b') ∈ d.marks
      · exact ⟨⟨y.toAtom, true⟩, (h.mem _).mpr ⟨ha, by simpa using hm⟩, rfl, by simpa [hm] using hd⟩
      · exact ⟨⟨y.toAtom, false⟩, (h.mem _).mpr ⟨ha, by simpa using hm⟩, rfl, by simpa [hm] using hd⟩

end Listing

/-! ### Sessions -/

/-- Positions count shown characters, and one past the end is the end. -/
inductive Edit (χ : Type) where
  | insert (pos : Nat) (chars : List χ)
  | delete (start stop : Nat)

/-- What an edit does to plain text. -/
def Edit.onText (t : List χ) : Edit χ → List χ
  | .insert pos chars => t.take (min pos t.length) ++ chars ++ t.drop (min pos t.length)
  | .delete start stop => t.take (min start t.length) ++ t.drop (min stop t.length)

/-- Its characters, the paths the block marked, and how many characters it inserted. -/
structure Session (α χ : Type) where
  items : List (Item α χ)
  marks : List (Path α)
  offset : Nat

namespace Session

/-- An edit of a session: the block's new characters hang where it reads. -/
noncomputable def apply (b : α) (s : Session α χ) : Edit χ → Session α χ
  | .insert pos chars =>
    let parts := cut (min pos (shown s.items).length) s.items
    { s with items := insertBetween b chars s.offset parts.1 parts.2, offset := s.offset + chars.length }
  | .delete start stop =>
    let start := min start (shown s.items).length
    let stop := min stop (shown s.items).length
    { s with items := kill start stop 0 s.items, marks := s.marks ++ killed start stop 0 s.items }

noncomputable def run (b : α) (edits : List (Edit χ)) (l : List (Item α χ)) : Session α χ :=
  edits.foldl (apply b) ⟨l, [], 0⟩

theorem text_apply (b : α) (s : Session α χ) (e : Edit χ) (he : ∀ start stop, e = .delete start stop → start ≤ stop) :
    text (s.apply b e).items = e.onText (text s.items) := by
  cases e with
  | insert pos chars =>
    obtain ⟨new, hn, hs⟩ := shown_insertBetween b chars s.offset
      (cut (min pos (shown s.items).length) s.items).1 (cut (min pos (shown s.items).length) s.items).2
    have hc := shown_cut (min pos (shown s.items).length) s.items
    simp only [apply, text, hs, hc.1, hc.2, Edit.onText, map_append, hn, map_take, map_drop,
      length_map]
  | delete start stop =>
    have hle : min start (shown s.items).length ≤ min stop (shown s.items).length := by
      have := he start stop rfl
      omega
    simp only [apply, text, shown_kill hle, Edit.onText, Nat.sub_zero, map_append, map_take, map_drop,
      length_map]

theorem text_run (b : α) (edits : List (Edit χ)) (l : List (Item α χ))
    (he : ∀ start stop, .delete start stop ∈ edits → start ≤ stop) :
    text (run b edits l).items = edits.foldl Edit.onText (text l) := by
  suffices ∀ s : Session α χ, text (edits.foldl (apply b) s).items = edits.foldl Edit.onText (text s.items) from
    this ⟨l, [], 0⟩
  induction edits with
  | nil => exact fun _ => rfl
  | cons e edits ih =>
    intro s
    rw [foldl_cons, foldl_cons, ih (fun start stop h => he start stop (mem_cons_of_mem e h)),
      text_apply b s e (fun start stop h => he start stop (h ▸ mem_cons_self))]

/-- What a session adds for its block. -/
def contribution (b : α) (s : Session α χ) : Doc α χ where
  chars := {a | a.block = some b ∧ ∃ x ∈ s.items, x.toAtom = a}
  marks := {m | m.2 = b ∧ m.1 ∈ s.marks}

variable {b : α}

theorem contribution_only (s : Session α χ) {S : Set α} (hb : b ∈ S) : (s.contribution b).only S = s.contribution b := by
  ext a
  · exact ⟨fun h => h.1, fun h => ⟨h, .inr ⟨b, hb, h.1⟩⟩⟩
  · exact ⟨fun h => h.1, fun h => ⟨h, h.1 ▸ hb⟩⟩

theorem contribution_placed (d : Doc α χ) (b : α) (l r : List (Item α χ)) (marks : List (Path α)) (offset : Nat) (ch : χ) :
    d ∪ contribution b ⟨l ++ [Fugue.placed b offset ch l r] ++ r, marks, offset + 1⟩ =
      ⟨insert (Fugue.placed b offset ch l r).toAtom (d ∪ contribution b ⟨l ++ r, marks, offset⟩).chars,
        (d ∪ contribution b ⟨l ++ r, marks, offset⟩).marks⟩ := by
  ext a
  · simp only [contribution, Doc.union_chars, Set.mem_union, Set.mem_ofPred_eq, Set.mem_insert_iff, mem_append,
      mem_singleton]
    constructor
    · rintro (ha | ⟨hb, x, (hx | rfl) | hx, rfl⟩)
      · exact .inr (.inl ha)
      · exact .inr (.inr ⟨hb, x, .inl hx, rfl⟩)
      · exact .inl rfl
      · exact .inr (.inr ⟨hb, x, .inr hx, rfl⟩)
    · rintro (rfl | ha | ⟨hb, x, hx | hx, rfl⟩)
      · exact .inr ⟨rfl, _, .inl (.inr rfl), rfl⟩
      · exact .inl ha
      · exact .inr ⟨hb, x, .inl (.inl hx), rfl⟩
      · exact .inr ⟨hb, x, .inr hx, rfl⟩
  · rfl

theorem contribution_kill (d : Doc α χ) (b : α) (s : Session α χ) (start stop : Nat) :
    d ∪ contribution b ⟨kill start stop 0 s.items, s.marks ++ killed start stop 0 s.items, s.offset⟩ =
      ⟨(d ∪ s.contribution b).chars,
        (d ∪ s.contribution b).marks ∪ {m | m.2 = b ∧ m.1 ∈ killed start stop 0 s.items}⟩ := by
  ext a
  · simp only [contribution, Doc.union_chars, Set.mem_union, Set.mem_ofPred_eq]
    rw [← mem_map (f := Item.toAtom), ← mem_map (f := Item.toAtom), map_atom_kill]
  · simp only [contribution, Doc.union_marks, Set.mem_union, Set.mem_ofPred_eq, mem_append]
    tauto

variable [LinearOrder α]

/-- The session of block `b` reads what its past `d` holds with what the block has added. -/
structure Ok (d : Doc α χ) (b : α) (s : Session α χ) : Prop where
  view : View s.items
  listing : Listing (d ∪ s.contribution b) s.items
  held : (d ∪ s.contribution b).MarksHeld

theorem Ok.placed {r : List (Item α χ)} {marks : List (Path α)} {offset : Nat} (h : Ok d b ⟨l ++ r, marks, offset⟩) (ch : χ) :
    Ok d b ⟨l ++ [Fugue.placed b offset ch l r] ++ r, marks, offset + 1⟩ := by
  refine ⟨h.view.insert rfl, ?_, ?_⟩
  · rw [contribution_placed]
    exact h.listing.insert h.view h.held rfl rfl
  · rw [contribution_placed]
    intro m hm
    obtain ⟨a, ha, hap⟩ := h.held m hm
    exact ⟨a, .inr ha, hap⟩

theorem Ok.insertBetween {marks : List (Path α)} (chars : List χ) :
    ∀ {l r : List (Item α χ)} {offset : Nat}, Ok d b ⟨l ++ r, marks, offset⟩ →
      Ok d b ⟨Fugue.insertBetween b chars offset l r, marks, offset + chars.length⟩ := by
  induction chars with
  | nil => exact fun h => h
  | cons ch chars ih =>
    intro l r offset h
    have := ih (h.placed ch)
    rwa [Nat.add_right_comm] at this

theorem Ok.apply {s : Session α χ} (h : Ok d b s) (e : Edit χ) : Ok d b (s.apply b e) := by
  cases e with
  | insert pos chars =>
    have hparts := cut_append (min pos (shown s.items).length) s.items
    refine Ok.insertBetween (l := (cut (min pos (shown s.items).length) s.items).1)
      (r := (cut (min pos (shown s.items).length) s.items).2) chars ?_
    rw [hparts]
    exact h
  | delete start stop =>
    have hl := h.listing.kill b (min start (shown s.items).length) (min stop (shown s.items).length)
    refine ⟨h.view.kill _ _ _, ?_, ?_⟩
    · exact (contribution_kill d b s _ _).symm ▸ hl
    · refine (contribution_kill d b s _ _).symm ▸ ?_
      rintro m (hm | ⟨-, hm⟩)
      · exact h.held m hm
      · obtain ⟨x, hx, hxp⟩ := killed_subset hm
        exact ⟨x.toAtom, ((h.listing.mem x).mp hx).1, hxp⟩

theorem Ok.run (h : Ok d b ⟨l, [], 0⟩) (edits : List (Edit χ)) : Ok d b (Session.run b edits l) := by
  suffices ∀ s : Session α χ, Ok d b s → Ok d b (edits.foldl (Session.apply b) s) from this _ h
  induction edits with
  | nil => exact fun _ hs => hs
  | cons e edits ih => exact fun s hs => ih _ (hs.apply e)

theorem Ok.start (b : α) (hv : View l) (hl : Listing d l) (hm : d.MarksHeld) : Ok d b ⟨l, [], 0⟩ := by
  have hdoc : d ∪ contribution b ⟨l, [], 0⟩ = d := by
    ext a
    · simp only [contribution, Doc.union_chars, Set.mem_union, Set.mem_ofPred_eq, or_iff_left_iff_imp, and_imp]
      rintro - ⟨x, hx, rfl⟩
      exact ((hl.mem x).mp hx).1
    · simp [contribution]
  exact ⟨hv, by rwa [hdoc], by rwa [hdoc]⟩

end Session

/-! ### Histories -/

/-- The text every version starts from, each block's strict ancestors and its edits. -/
structure History (α χ : Type) where
  base : Set (Atom α χ)
  past : α → Set α
  edits : α → List (Edit χ)

namespace History
variable {H : History α χ} {C C' : α → Doc α χ} {S T : Set α} {b : α}

/-- What the blocks of `S` leave when each block `b` adds `C b`. -/
def doc (H : History α χ) (C : α → Doc α χ) (S : Set α) : Doc α χ where
  chars := H.base ∪ ⋃ b ∈ S, (C b).chars
  marks := ⋃ b ∈ S, (C b).marks

theorem doc_congr (h : ∀ b ∈ S, C b = C' b) : H.doc C S = H.doc C' S := by
  unfold doc
  congr 1
  · rw [Set.iUnion₂_congr fun b hb => by rw [h b hb]]
  · rw [Set.iUnion₂_congr fun b hb => by rw [h b hb]]

theorem doc_insert (b : α) (S : Set α) : H.doc C (insert b S) = H.doc C S ∪ C b := by
  ext a
  · simp only [doc, Doc.union_chars, Set.biUnion_insert, Set.mem_union]
    tauto
  · simp only [doc, Doc.union_marks, Set.biUnion_insert, Set.mem_union]
    tauto

theorem mem_doc_chars : a ∈ (H.doc C S).chars ↔ a ∈ H.base ∨ ∃ b ∈ S, a ∈ (C b).chars := by
  simp [doc]

theorem mem_doc_marks {m : Path α × α} : m ∈ (H.doc C S).marks ↔ ∃ b ∈ S, m ∈ (C b).marks := by
  simp [doc]

theorem doc_mono (hST : S ⊆ T) : (H.doc C S).chars ⊆ (H.doc C T).chars ∧ (H.doc C S).marks ⊆ (H.doc C T).marks := by
  constructor
  · intro a ha
    rw [mem_doc_chars] at ha ⊢
    exact ha.imp_right fun ⟨b, hb, hab⟩ => ⟨b, hST hb, hab⟩
  · intro m hm
    rw [mem_doc_marks] at hm ⊢
    obtain ⟨b, hb, hab⟩ := hm
    exact ⟨b, hST hb, hab⟩

variable [LinearOrder α]

/-- The text every version starts from is one run under the root that no block inserted. -/
structure BaseOk (H : History α χ) : Prop where
  block : ∀ a ∈ H.base, a.block = none
  closed : ∀ a ∈ H.base, ∀ p s, a.path = p ++ [s] → p = [] ∨ ∃ a' ∈ H.base, a'.path = p
  rooted : ∀ a ∈ H.base, Before [] a.path

/-- `C` gives what each block of `S` adds: what its edits make of its own past. -/
def Replays (H : History α χ) (S : Set α) (C : α → Doc α χ) : Prop :=
  ∀ b ∈ S, ∃ l, View l ∧ Listing (H.doc C (H.past b)) l ∧ (H.doc C (H.past b)).MarksHeld ∧
    C b = (Session.run b (H.edits b) l).contribution b

/-- What a block adds depends on its past alone, whatever else was merged and in whatever order. -/
theorem contribution_unique (hwf : WellFounded fun a b => a ∈ H.past b) (hS : ∀ b ∈ S, H.past b ⊆ S)
    (hT : ∀ b ∈ T, H.past b ⊆ T) (h : H.Replays S C) (h' : H.Replays T C') : ∀ b ∈ S, b ∈ T → C b = C' b := by
  intro b
  induction b using hwf.induction with
  | h b ih =>
    intro hb hb'
    obtain ⟨l, -, hl, -, he⟩ := h b hb
    obtain ⟨l', -, hl', -, he'⟩ := h' b hb'
    have hp : H.doc C (H.past b) = H.doc C' (H.past b) :=
      doc_congr fun a ha => ih a ha (hS b hb ha) (hT b hb' ha)
    rw [hp] at hl
    rw [he, he', hl.unique hl']

theorem doc_unique (hwf : WellFounded fun a b => a ∈ H.past b) (hS : ∀ b ∈ S, H.past b ⊆ S) (h : H.Replays S C)
    (h' : H.Replays S C') : H.doc C S = H.doc C' S :=
  doc_congr fun b hb => contribution_unique hwf hS hS h h' b hb hb

section
variable (h : H.Replays S C)
include h

theorem Replays.mono (hT : T ⊆ S) : H.Replays T C := fun b hb => h b (hT hb)

theorem Replays.block (hb : b ∈ S) : ∀ a ∈ (C b).chars, a.block = some b := by
  obtain ⟨l, -, -, -, he⟩ := h b hb
  rw [he]
  exact fun a ha => ha.1

theorem Replays.mark (hb : b ∈ S) : ∀ m ∈ (C b).marks, m.2 = b := by
  obtain ⟨l, -, -, -, he⟩ := h b hb
  rw [he]
  exact fun m hm => hm.1

omit h in
theorem Replays.only (h : H.Replays T C) (hbase : H.BaseOk) (S : Set α) : (H.doc C T).only S = H.doc C (S ∩ T) := by
  ext a
  · simp only [Doc.only, Set.mem_ofPred_eq, mem_doc_chars, Set.mem_inter_iff]
    constructor
    · rintro ⟨ha | ⟨b, hb, hab⟩, hS⟩
      · exact .inl ha
      · have hblock := h.block hb a hab
        rcases hS with hnone | ⟨c, hc, hs⟩
        · rw [hnone] at hblock
          cases hblock
        · rw [hs] at hblock
          obtain rfl := Option.some.inj hblock
          exact .inr ⟨c, ⟨hc, hb⟩, hab⟩
    · rintro (ha | ⟨b, ⟨hbS, hbT⟩, hab⟩)
      · exact ⟨.inl ha, .inl (hbase.block a ha)⟩
      · exact ⟨.inr ⟨b, hbT, hab⟩, .inr ⟨b, hbS, h.block hbT a hab⟩⟩
  · simp only [Doc.only, Set.mem_ofPred_eq, mem_doc_marks, Set.mem_inter_iff]
    constructor
    · rintro ⟨⟨b, hb, hab⟩, hS⟩
      rw [h.mark hb a hab] at hS
      exact ⟨b, ⟨hS, hb⟩, hab⟩
    · rintro ⟨b, ⟨hbS, hbT⟩, hab⟩
      exact ⟨⟨b, hbT, hab⟩, by rw [h.mark hbT a hab]; exact hbS⟩

theorem Replays.session (hb : b ∈ S) : ∃ s, C b = Session.contribution b s ∧
    View s.items ∧ Listing (H.doc C (insert b (H.past b))) s.items ∧ (H.doc C (insert b (H.past b))).MarksHeld := by
  obtain ⟨l, hv, hl, hm, hC⟩ := h b hb
  have hok := (Session.Ok.start b hv hl hm).run (H.edits b)
  refine ⟨_, hC, hok.view, ?_, ?_⟩
  · rw [doc_insert, hC]
    exact hok.listing
  · rw [doc_insert, hC]
    exact hok.held

theorem Replays.closed (hbase : H.BaseOk) (hS : ∀ b ∈ S, H.past b ⊆ S) (ha : a ∈ (H.doc C S).chars) :
    Before [] a.path ∧ ∀ p s, a.path = p ++ [s] → p = [] ∨ ∃ a' ∈ (H.doc C S).chars, a'.path = p := by
  rcases mem_doc_chars.mp ha with ha | ⟨b, hb, hab⟩
  · refine ⟨hbase.rooted a ha, fun p s hp => (hbase.closed a ha p s hp).imp_right ?_⟩
    rintro ⟨a', ha', hp'⟩
    exact ⟨a', mem_doc_chars.mpr (.inl ha'), hp'⟩
  · obtain ⟨s, hC, hv, hl, -⟩ := h.session hb
    rw [hC] at hab
    obtain ⟨-, x, hx, rfl⟩ := hab
    refine ⟨hv.rooted x hx, fun p s hp => (hv.closed x hx p s hp).imp_right ?_⟩
    rintro ⟨y, hy, hyp⟩
    have hsub := (doc_mono (H := H) (C := C) (Set.insert_subset hb (hS b hb))).1
    exact ⟨y.toAtom, hsub ((hl.mem y).mp hy).1, hyp⟩

theorem Replays.view (hbase : H.BaseOk) (hS : ∀ b ∈ S, H.past b ⊆ S) (hl : Listing (H.doc C S) l) : View l where
  sorted := hl.sorted
  rooted x hx := (h.closed hbase hS ((hl.mem x).mp hx).1).1
  closed x hx p s hp := by
    refine ((h.closed hbase hS ((hl.mem x).mp hx).1).2 p s hp).imp_right ?_
    rintro ⟨a, ha, hap⟩
    obtain ⟨y, hy, rfl⟩ := hl.exists_item ha
    exact ⟨y, hy, hap⟩

theorem Replays.marksHeld (hS : ∀ b ∈ S, H.past b ⊆ S) : (H.doc C S).MarksHeld := by
  intro m hm
  obtain ⟨b, hb, hab⟩ := mem_doc_marks.mp hm
  obtain ⟨s, -, -, -, hheld⟩ := h.session hb
  obtain ⟨a, ha, hap⟩ := hheld m (mem_doc_marks.mpr ⟨b, Set.mem_insert b _, hab⟩)
  exact ⟨a, (doc_mono (Set.insert_subset hb (hS b hb))).1 ha, hap⟩

end

open Classical in
theorem Replays.extend (h : H.Replays T C) (hbase : H.BaseOk) (hT : ∀ a ∈ T, H.past a ⊆ T) (hb : b ∉ T)
    (hp : H.past b ⊆ T) (hclosed : ∀ a ∈ H.past b, H.past a ⊆ H.past b)
    (hl : Listing (H.doc C (H.past b)) l) : ∃ C', H.Replays (insert b T) C' ∧ (∀ a ∈ T, C' a = C a) ∧
      H.doc C' (insert b T) = H.doc C T ∪ (Session.run b (H.edits b) l).contribution b := by
  have hsame : ∀ a ∈ T, Function.update C b ((Session.run b (H.edits b) l).contribution b) a = C a := fun a ha =>
    Function.update_of_ne (ne_of_mem_of_not_mem ha hb) _ _
  have hd : ∀ S : Set α, S ⊆ T →
      H.doc (Function.update C b ((Session.run b (H.edits b) l).contribution b)) S = H.doc C S := fun S hS =>
    doc_congr fun a ha => hsame a (hS ha)
  refine ⟨Function.update C b ((Session.run b (H.edits b) l).contribution b), ?_, hsame, ?_⟩
  · rintro a (rfl | ha)
    · rw [hd _ hp, Function.update_self]
      exact ⟨l, (h.mono hp).view hbase hclosed hl, hl, (h.mono hp).marksHeld hclosed, rfl⟩
    · rw [hd _ (hT a ha), hsame a ha]
      exact h a ha
  · rw [doc_insert, hd T (Set.Subset.refl T), Function.update_self]

/-- The characters of `T` that blocks of `S` inserted stand as `S` alone lists them. -/
theorem Replays.listing_filter (h : H.Replays T C) (hST : S ⊆ T) (hbase : ∀ a ∈ H.base, a.block = none)
    (hl : Listing (H.doc C T) l) (hl' : Listing (H.doc C S) l')
    {p : Item α χ → Bool} (hp : ∀ x, p x = true ↔ x.block = none ∨ ∃ b ∈ S, x.block = some b) :
    (l.filter p).map (·.toAtom) = l'.map (·.toAtom) := by
  have hsort : ∀ {l : List (Item α χ)}, (l.Pairwise fun x y => Before x.path y.path) →
      (l.map (·.toAtom)).Pairwise fun x y => Before x.path y.path := fun h => pairwise_map.mpr h
  refine eq_of_sorted (hsort (hl.sorted.filter p)) (hsort hl'.sorted) fun a => ?_
  -- A listing holds an atom exactly when its document does.
  have hatom : ∀ {d : Doc α χ} {l : List (Item α χ)}, Listing d l → ((∃ x ∈ l, x.toAtom = a) ↔ a ∈ d.chars) := by
    intro d l hl
    constructor
    · rintro ⟨x, hx, rfl⟩
      exact ((hl.mem x).mp hx).1
    · exact hl.exists_item
  rw [mem_map, mem_map, hatom hl']
  constructor
  · rintro ⟨x, hx, rfl⟩
    obtain ⟨hx, hpx⟩ := mem_filter.mp hx
    rcases ((hl.mem x).mp hx).1 with ha | ha
    · exact .inl ha
    · obtain ⟨b, hb, hab⟩ := Set.mem_iUnion₂.mp ha
      have hblock := h.block hb _ hab
      rcases (hp x).mp hpx with hn | ⟨c, hc, hs⟩
      · rw [hn] at hblock
        cases hblock
      · rw [hs] at hblock
        obtain rfl := Option.some.inj hblock
        exact .inr (Set.mem_iUnion₂.mpr ⟨c, hc, hab⟩)
  · intro ha
    have haT : a ∈ (H.doc C T).chars := ha.imp id fun ha => by
      obtain ⟨b, hb, hab⟩ := Set.mem_iUnion₂.mp ha
      exact Set.mem_iUnion₂.mpr ⟨b, hST hb, hab⟩
    obtain ⟨x, hx, rfl⟩ := (hatom hl).mpr haT
    refine ⟨x, mem_filter.mpr ⟨hx, (hp x).mpr ?_⟩, rfl⟩
    rcases ha with ha | ha
    · exact .inl (hbase _ ha)
    · obtain ⟨b, hb, hab⟩ := Set.mem_iUnion₂.mp ha
      exact .inr ⟨b, hb, h.block (hST hb) _ hab⟩

/-- Its edits on the text of its past give the text of its past with the block. -/
theorem Replays.text_insert (h : H.Replays S C) (hb : b ∈ S)
    (hl : Listing (H.doc C (H.past b)) l) (hl' : Listing (H.doc C (insert b (H.past b))) l')
    (he : ∀ start stop, .delete start stop ∈ H.edits b → start ≤ stop) :
    text l' = (H.edits b).foldl Edit.onText (text l) := by
  obtain ⟨l₀, hv, hl₀, hm, hC⟩ := h b hb
  obtain rfl := hl.unique hl₀
  have hok := (Session.Ok.start b hv hl hm).run (H.edits b)
  have hlist := hok.listing
  rw [← hC, ← doc_insert] at hlist
  rw [hl'.unique hlist, Session.text_run b (H.edits b) l he]

end History
end Fugue
