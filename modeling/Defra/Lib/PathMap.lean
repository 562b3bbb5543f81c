import Mathlib.Data.List.Nodup
import Mathlib.Data.List.Infix

/-! # What stands at each path of a tree

A tree of maps is read path by path: a path is absent, a map or a plain value. An edit at a path replaces what is at and below
it, so a path reads what the last edit that decides it says. -/

namespace PathMap
open List
variable {κ α : Type} [DecidableEq κ] {path : List κ}

/-! ### Edits of a tree -/

inductive Place (α : Type) where
  | absent
  | map
  | value (a : α)

/-- An edit puts a value, makes a map or cuts off what is there. -/
inductive Edit (α : Type) where
  | put (a : α)
  | map
  | cut

def Edit.place : Edit α → Place α
  | .put a => .value a
  | .map => .map
  | .cut => .absent

def Edit.isCut : Edit α → Bool
  | .cut => true
  | _ => false

structure Op (κ α : Type) where
  path : List κ
  edit : Edit α

variable (ops : List (Op κ α)) (op : Op κ α)

/-- What the op says of `path`, where `place` stood. -/
def Op.at (path : List κ) (place : Place α) : Place α :=
  if op.path <+: path then if path = op.path then op.edit.place else .absent
  else if path <+: op.path ∧ op.edit.isCut = false then .map
  else place

/-- What `ops` in order say of `path`, where `place` stood. -/
def readAt (path : List κ) (place : Place α) : Place α :=
  ops.foldl (fun place op => op.at path place) place

/-- The op says what is at the path. -/
def Op.Decides (path : List κ) : Prop := op.path <+: path ∨ path <+: op.path ∧ op.edit.isCut = false

theorem Op.at_of_not_decides {op : Op κ α} (h : ¬op.Decides path) (place : Place α) : op.at path place = place := by
  obtain ⟨habove, hb⟩ := not_or.mp h
  rw [Op.at, if_neg habove, if_neg hb]

theorem readAt_of_not_decides {ops : List (Op κ α)} (h : ∀ op ∈ ops, ¬op.Decides path) (place : Place α) :
    readAt ops path place = place := by
  induction ops generalizing place with
  | nil => rfl
  | cons op ops ih =>
    obtain ⟨hop, ho⟩ := forall_mem_cons.mp h
    rw [readAt, foldl_cons, op.at_of_not_decides hop]
    exact ih ho place

/-! ### Layered ops -/

/-- No op is at the path of an earlier one or above it. -/
def Layered : Prop := ops.Pairwise fun a b => ¬b.path <+: a.path

def Op.PutsBelow (path : List κ) : Prop := path <+: op.path ∧ op.path ≠ path ∧ op.edit.isCut = false

theorem readAt_append (place : Place α) :
    readAt (ops ++ [op]) path place = op.at path (readAt ops path place) := foldl_append ..

/-- Ops that are not above a path either make it a map or leave it. -/
theorem readAt_of_not_above {ops : List (Op κ α)} (h : ∀ op ∈ ops, ¬op.path <+: path) (place : Place α) :
    readAt ops path place = place ∨ readAt ops path place = .map := by
  induction ops using reverseRecOn with
  | nil => exact .inl rfl
  | append_singleton ops op ih =>
    rw [forall_mem_append, forall_mem_singleton] at h
    rw [readAt_append, Op.at, if_neg h.2]
    split
    · exact .inr rfl
    · exact ih h.1

namespace Layered
variable {ops : List (Op κ α)} {op : Op κ α}

omit [DecidableEq κ] in
theorem append_singleton (h : Layered (ops ++ [op])) : Layered ops ∧ ∀ a ∈ ops, ¬op.path <+: a.path := by
  obtain ⟨ho, -, hlast⟩ := pairwise_append.mp h
  exact ⟨ho, fun a ha => hlast a ha op (mem_singleton_self op)⟩

variable (h : Layered ops)
include h

theorem readAt_of_below (hop : op ∈ ops) (hb : op.PutsBelow path) (place : Place α) :
    readAt ops path place = .map := by
  induction ops using reverseRecOn with
  | nil => cases hop
  | append_singleton ops last ih =>
    obtain ⟨ho, hl⟩ := h.append_singleton
    rw [readAt_append, Op.at]
    rcases mem_append.mp hop with hop | hop
    · rw [if_neg fun habove => hl op hop (habove.trans hb.1), ih ho hop, ite_self]
    · cases mem_singleton.mp hop
      rw [if_neg fun habove => hb.2.1 (habove.eq_of_length_le hb.1.length_le), if_pos ⟨hb.1, hb.2.2⟩]

theorem readAt_of_at (hop : op ∈ ops) (hp : op.path = path) (hnone : ∀ other ∈ ops, ¬other.PutsBelow path)
    (place : Place α) : readAt ops path place = op.edit.place := by
  induction ops using reverseRecOn with
  | nil => cases hop
  | append_singleton ops last ih =>
    obtain ⟨ho, hl⟩ := h.append_singleton
    rw [forall_mem_append, forall_mem_singleton] at hnone
    rw [readAt_append]
    rcases mem_append.mp hop with hop | hop
    · have hnot : ¬last.path <+: path := hp ▸ hl op hop
      rw [last.at_of_not_decides, ih ho hop hnone.1]
      exact not_or.mpr ⟨hnot, fun hq => hnone.2 ⟨hq.1, fun he => hnot (he ▸ prefix_rfl), hq.2⟩⟩
    · cases mem_singleton.mp hop
      rw [Op.at, hp, if_pos prefix_rfl, if_pos rfl]

theorem readAt_of_above (hop : op ∈ ops) (habove : op.path <+: path) (hat : ∀ other ∈ ops, other.path = path → other.edit = .cut)
    (hnone : ∀ other ∈ ops, ¬other.PutsBelow path) (place : Place α) : readAt ops path place = .absent := by
  induction ops using reverseRecOn with
  | nil => cases hop
  | append_singleton ops last ih =>
    obtain ⟨ho, hl⟩ := h.append_singleton
    rw [forall_mem_append, forall_mem_singleton] at hnone hat
    rw [readAt_append, Op.at]
    split
    · split
      · rename_i heq
        rw [hat.2 heq.symm]
        rfl
      · rfl
    · rename_i hnot
      rw [if_neg fun hq => hnone.2 ⟨hq.1, fun he => hnot (he ▸ prefix_rfl), hq.2⟩]
      refine ih ho ((mem_append.mp hop).resolve_right fun hmem => ?_) hat.1 hnone.1
      cases mem_singleton.mp hmem
      exact hnot habove

omit [DecidableEq κ] in
theorem eq_of_path {other : Op κ α} (hop : op ∈ ops) (ho : other ∈ ops) (hp : op.path = other.path) : op = other := by
  have hnodup : (ops.map Op.path).Nodup := by
    refine pairwise_map.mpr (h.imp fun {a b} hnot heq => hnot ?_)
    rw [heq]
  exact inj_on_of_nodup_map hnodup hop ho hp

end Layered

/-! ### Walking down -/

/-- What stands at `base` and then `path`, when only paths below maps are reached. -/
def walk (places : List κ → Place α) (base : List κ) : List κ → Place α
  | [] => places base
  | key :: path =>
    match places base with
    | .map => walk places (base ++ [key]) path
    | _ => .absent

omit [DecidableEq κ] in
theorem walk_append {places : List κ → Place α} {base : List κ}
    (h : ∀ p, p <+: path → p ≠ path → walk places base p = .map) (rest : List κ) :
    walk places base (path ++ rest) = walk places (base ++ path) rest := by
  induction path generalizing base with
  | nil => rw [nil_append, append_nil]
  | cons key path ih =>
    have hroot : places base = .map := h [] nil_prefix (cons_ne_nil _ _).symm
    have hc : ∀ p, walk places base (key :: p) = walk places (base ++ [key]) p := fun p => by rw [walk, hroot]
    rw [cons_append, hc, ih fun p hp hne => ?_, append_assoc, singleton_append]
    rw [← hc]
    exact h (key :: p) (cons_prefix_cons.mpr ⟨rfl, hp⟩) fun he => hne (cons.inj he).2

omit [DecidableEq κ] in
theorem walk_absent {places : List κ → Place α} {base : List κ} (h : places base = .absent) (path : List κ) :
    walk places base path = .absent := by
  cases path with
  | nil => exact h
  | cons key path => rw [walk, h]

end PathMap
