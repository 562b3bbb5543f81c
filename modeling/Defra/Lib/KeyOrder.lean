import Mathlib.Data.List.Lex
import Mathlib.Order.Compare
import Defra.Lib.Wire

/-! # Order-preserving keys

A code keeps the order of its values whatever follows them when two codes that differ do so before either ends (`Before`): then
they may be put one after the other (`Agrees.append`), or turned around item by item (`Agrees.map`). -/

namespace KeyOrder
open List
variable {β : Type} [LinearOrder β] {p q r s : List β} {o : Ordering}

/-- `p` is smaller than `q` where they first differ, and neither ends before that. -/
inductive Before : List β → List β → Prop where
  | head {x y : β} (p q : List β) : x < y → Before (x :: p) (y :: q)
  | cons (x : β) {p q : List β} : Before p q → Before (x :: p) (x :: q)

namespace Before

theorem append (h : Before p q) (r s : List β) : Before (p ++ r) (q ++ s) := by
  induction h with
  | head p q hlt => exact .head _ _ hlt
  | cons x _ ih => exact .cons x ih

theorem prepend (h : Before p q) (r : List β) : Before (r ++ p) (r ++ q) := by
  induction r with
  | nil => exact h
  | cons x r ih => exact .cons x ih

theorem lt (h : Before p q) : p < q := by
  induction h with
  | head p q hlt => exact Lex.rel hlt
  | cons x _ ih => exact Lex.cons ih

theorem map {γ : Type} [LinearOrder γ] {f : β → γ} (hf : ∀ x y, x < y → f y < f x) (h : Before p q) :
    Before (q.map f) (p.map f) := by
  induction h with
  | head p q hlt => exact .head _ _ (hf _ _ hlt)
  | cons x _ ih => exact .cons (f x) ih

theorem incomparable (h : Before p q) : ¬p <+: q ∧ ¬q <+: p := by
  induction h with
  | head p q hlt =>
    constructor <;> intro h
    · exact hlt.ne (cons_prefix_cons.mp h).1
    · exact hlt.ne' (cons_prefix_cons.mp h).1
  | cons x _ ih =>
    exact ⟨fun h => ih.1 (cons_prefix_cons.mp h).2, fun h => ih.2 (cons_prefix_cons.mp h).2⟩

theorem of_lt (h : p < q) (hl : p.length = q.length) : Before p q := by
  induction h with
  | nil => cases hl
  | cons _ ih => exact .cons _ (ih (Nat.succ.inj hl))
  | rel hlt => exact .head _ _ hlt

theorem irrefl (h : Before p p) : False := h.incomparable.1 (prefix_refl p)

theorem asymm (h : Before p q) (h' : Before q p) : False := lt_irrefl p (h.lt.trans h'.lt)

end Before

/-- Two keys are in the order `o`: equal, or one before the other. -/
def Agrees : Ordering → List β → List β → Prop
  | .lt, p, q => Before p q
  | .eq, p, q => p = q
  | .gt, p, q => Before q p

namespace Agrees

theorem prepend (h : Agrees o p q) (r : List β) : Agrees o (r ++ p) (r ++ q) := by
  cases o with
  | lt => exact Before.prepend h r
  | eq => exact congrArg _ h
  | gt => exact Before.prepend h r

theorem cons (h : Agrees o p q) (x : β) : Agrees o (x :: p) (x :: q) := h.prepend [x]

theorem append {o' : Ordering} (h : Agrees o p q) (h' : Agrees o' r s) : Agrees (o.then o') (p ++ r) (q ++ s) := by
  cases o with
  | lt => exact Before.append h r s
  | eq =>
    cases (h : p = q)
    exact h'.prepend p
  | gt => exact Before.append h s r

theorem map {γ : Type} [LinearOrder γ] {f : β → γ} (hf : ∀ x y, x < y → f y < f x) (h : Agrees o p q) :
    Agrees o.swap (p.map f) (q.map f) := by
  cases o with
  | lt => exact Before.map hf h
  | eq => exact congrArg _ h
  | gt => exact Before.map hf h

theorem cmp_eq [DecidableLT (List β)] (h : Agrees o p q) : cmp p q = o := by
  have hirrefl : ∀ p : List β, ¬p < p := fun p => lt_irrefl p
  unfold cmp cmpUsing
  cases o with
  | lt => rw [if_pos (Before.lt h)]
  | eq =>
    cases (h : p = q)
    rw [if_neg (hirrefl p), if_neg (hirrefl p)]
  | gt => rw [if_neg fun hlt => hirrefl p (lt_trans hlt (Before.lt h)), if_pos (Before.lt h)]

theorem lt_iff (h : Agrees o p q) : p < q ↔ o = .lt := by
  cases o with
  | lt => exact iff_of_true (Before.lt h) rfl
  | eq =>
    cases (h : p = q)
    exact iff_of_false (lt_irrefl p) (by decide)
  | gt => exact iff_of_false (fun hlt => lt_irrefl p (lt_trans hlt (Before.lt h))) (by decide)

theorem eq_of_prefix (h : Agrees o p q) (hpre : p <+: q) : p = q := by
  cases o with
  | lt => exact absurd hpre (Before.incomparable h).1
  | eq => exact h
  | gt => exact absurd hpre (Before.incomparable h).2

theorem of_cmp {α : Type} [LT α] [DecidableLT α] {a b : α} (hlt : a < b → Before p q) (heq : ¬a < b → ¬b < a → p = q)
    (hgt : b < a → Before q p) : Agrees (cmp a b) p q := by
  unfold cmp cmpUsing
  split
  · exact hlt ‹_›
  · split
    · exact hgt ‹_›
    · exact heq ‹_› ‹_›

end Agrees

/-- Two keys are the same, or differ before either ends. -/
inductive Apart (p q : List β) : Prop where
  | before : Before p q → Apart p q
  | same : p = q → Apart p q
  | after : Before q p → Apart p q

namespace Apart

theorem of_prefix_free (h : p <+: q → p = q) (h' : q <+: p → q = p) : Apart p q := by
  induction p generalizing q with
  | nil => exact .same (h nil_prefix)
  | cons x p ih =>
    cases q with
    | nil => exact .same (h' nil_prefix).symm
    | cons y q =>
      rcases lt_trichotomy x y with hlt | rfl | hgt
      · exact .before (.head _ _ hlt)
      · have ih := ih (fun hpre => (cons.inj (h (cons_prefix_cons.mpr ⟨rfl, hpre⟩))).2)
          fun hpre => (cons.inj (h' (cons_prefix_cons.mpr ⟨rfl, hpre⟩))).2
        cases ih with
        | before hb => exact .before (.cons x hb)
        | same he => exact .same (congrArg _ he)
        | after ha => exact .after (.cons x ha)
      · exact .after (.head _ _ hgt)

theorem symm (h : Apart p q) : Apart q p := by
  cases h with
  | before h => exact .after h
  | same h => exact .same h.symm
  | after h => exact .before h

theorem lt_iff (h : Apart p q) : p < q ↔ Before p q := by
  refine ⟨fun hlt => ?_, Before.lt⟩
  cases h with
  | before h => exact h
  | same h => exact absurd (h ▸ hlt) (lt_irrefl q)
  | after h => exact absurd (hlt.trans h.lt) (lt_irrefl p)

theorem append_lt_iff (h : Apart p q) : p ++ r < q ++ s ↔ p < q ∨ p = q ∧ r < s := by
  rw [h.lt_iff]
  cases h with
  | before h => exact ⟨fun _ => .inl h, fun _ => (h.append r s).lt⟩
  | same h =>
    cases h
    have hi : ¬Before p p := Before.irrefl
    have hcancel : p ++ r < p ++ s ↔ r < s := by
      induction p with
      | nil => exact Iff.rfl
      | cons x p ih => rw [cons_append, cons_append, cons_lt_cons_self, ih Before.irrefl]
    rw [hcancel]
    exact ⟨fun hlt => .inr ⟨rfl, hlt⟩, fun h => h.elim (fun h => absurd h hi) And.right⟩
  | after h =>
    refine ⟨fun hlt => absurd (hlt.trans (h.append s r).lt) (lt_irrefl _), ?_⟩
    rintro (hb | ⟨rfl, -⟩)
    · exact (hb.asymm h).elim
    · exact h.irrefl.elim

theorem append_prefix_iff (h : Apart p q) : p ++ r <+: q ++ s ↔ p = q ∧ r <+: s := by
  cases h with
  | before h =>
    refine ⟨fun hpre => absurd hpre (h.append r s).incomparable.1, ?_⟩
    rintro ⟨rfl, -⟩
    exact h.irrefl.elim
  | same h =>
    cases h
    rw [prefix_append_right_inj]
    exact ⟨fun h => ⟨rfl, h⟩, And.right⟩
  | after h =>
    refine ⟨fun hpre => absurd hpre (h.append s r).incomparable.2, ?_⟩
    rintro ⟨rfl, -⟩
    exact h.irrefl.elim

end Apart

end KeyOrder
