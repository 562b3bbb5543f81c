import Mathlib.Data.Set.Card
import Mathlib.Order.FixedPoints

/-! # Rules with exceptions

Rules derive facts from facts, unless some others hold. With the exceptions fixed, the facts derived are a least fixpoint; a
model takes its own facts for the exceptions. Each set of rules has a partial model, and where no fact depends on an exception
to itself it is the only model. -/

namespace Alternating
variable {α : Type}

/-- `step P N` is what follows in one step from the facts `P`, with exceptions looked up in `N`. -/
structure Rules (α : Type) where
  step : Set α → Set α → Set α
  mono : ∀ {P P' N N' : Set α}, P ⊆ P' → N' ⊆ N → step P N ⊆ step P' N'

namespace Rules
variable (rules : Rules α)

/-- What follows with the exceptions `N`, without going through the facts of `avoid`. -/
def avoiding (N avoid : Set α) : Set α :=
  OrderHom.lfp ⟨fun P => rules.step P N \ avoid, fun _ _ h => Set.sdiff_subset_sdiff_left (rules.mono h subset_rfl)⟩

/-- What follows with the exceptions `N`. -/
def least (N : Set α) : Set α := rules.avoiding N ∅

variable {rules} {N N' avoid P : Set α} {x : α}

theorem mem_avoiding : x ∈ rules.avoiding N avoid ↔ x ∈ rules.step (rules.avoiding N avoid) N ∧ x ∉ avoid := by
  have h := OrderHom.map_lfp
    ⟨fun P => rules.step P N \ avoid, fun _ _ h => Set.sdiff_subset_sdiff_left (rules.mono h subset_rfl)⟩
  exact (Set.ext_iff.mp h x).symm

theorem avoiding_subset (h : rules.step P N \ avoid ⊆ P) : rules.avoiding N avoid ⊆ P :=
  OrderHom.lfp_le _ h

theorem step_least : rules.step (rules.least N) N = rules.least N := by
  ext x
  exact ⟨fun h => mem_avoiding.mpr ⟨h, Set.notMem_empty x⟩, fun h => (mem_avoiding.mp h).1⟩

theorem least_subset (h : rules.step P N ⊆ P) : rules.least N ⊆ P :=
  avoiding_subset (Set.sdiff_subset.trans h)

theorem least_anti (h : N' ⊆ N) : rules.least N ⊆ rules.least N' :=
  least_subset ((rules.mono subset_rfl h).trans step_least.subset)

theorem avoiding_subset_least : rules.avoiding N avoid ⊆ rules.least N :=
  avoiding_subset (Set.sdiff_subset.trans step_least.subset)

/-- A fact that follows without going through `avoid` follows without going through itself either. -/
theorem step_avoiding (h : x ∈ rules.avoiding N avoid) : x ∈ rules.step (rules.avoiding N (insert x avoid)) N := by
  by_contra hnot
  have hsub : rules.avoiding N avoid ⊆ rules.avoiding N (insert x avoid) := by
    refine avoiding_subset fun y hy => mem_avoiding.mpr ⟨hy.1, fun hmem => ?_⟩
    rcases Set.mem_insert_iff.mp hmem with rfl | hmem
    · exact hnot hy.1
    · exact hy.2 hmem
  exact (mem_avoiding.mp (hsub h)).2 (Set.mem_insert x avoid)

variable (rules)

/-- The facts that hold, and the facts that may hold. -/
structure IsPartial (T U : Set α) : Prop where
  holds : T = rules.least U
  possible : U = rules.least T
  subset : T ⊆ U

def IsModel (M : Set α) : Prop := M = rules.least M

def holding : Set α :=
  OrderHom.lfp ⟨fun T => rules.least (rules.least T), fun _ _ h => least_anti (least_anti h)⟩

def possible : Set α := rules.least rules.holding

theorem least_least_holding : rules.least (rules.least rules.holding) = rules.holding :=
  OrderHom.map_lfp ⟨fun T => rules.least (rules.least T), fun _ _ h => least_anti (least_anti h)⟩

theorem holding_subset {M : Set α} (h : rules.least (rules.least M) ⊆ M) : rules.holding ⊆ M :=
  OrderHom.lfp_le _ h

theorem isPartial_holding : rules.IsPartial rules.holding rules.possible where
  holds := rules.least_least_holding.symm
  possible := rfl
  subset := rules.holding_subset (by rw [possible, rules.least_least_holding])

variable {rules} {T U M : Set α}

theorem IsModel.between (h : rules.IsModel M) : rules.holding ⊆ M ∧ M ⊆ rules.possible := by
  have hh : rules.holding ⊆ M := rules.holding_subset (by rw [← h, ← h])
  refine ⟨hh, ?_⟩
  calc M = rules.least M := h
    _ ⊆ rules.least rules.holding := least_anti hh

theorem IsPartial.mem_holds (h : rules.IsPartial T U) : x ∈ T ↔ x ∈ rules.step T U := by
  rw [h.holds, step_least]

theorem IsPartial.mem_possible (h : rules.IsPartial T U) : x ∈ U ↔ x ∈ rules.step U T := by
  rw [h.possible, step_least]

/-- `depends x y`: the rules for `x` look at `y`; `excludes x y`: an exception does. -/
structure Looks (rules : Rules α) (depends excludes : α → α → Prop) : Prop where
  depends_of_excludes : ∀ {x y}, excludes x y → depends x y
  step : ∀ {x P P' N N'}, (∀ y, depends x y → y ∈ P → y ∈ P') → (∀ y, excludes x y → y ∈ N' → y ∈ N) →
    x ∈ rules.step P N → x ∈ rules.step P' N'

variable {depends excludes : α → α → Prop}

/-- `y` is looked at below an exception of `x`. -/
def Below (depends excludes : α → α → Prop) (y x : α) : Prop :=
  ∃ a b, Relation.ReflTransGen depends x a ∧ excludes a b ∧ Relation.ReflTransGen depends b y

theorem possible_subset_holding (hlooks : Looks rules depends excludes) (hwf : WellFounded (Below depends excludes)) :
    rules.possible ⊆ rules.holding := by
  have hpartial := rules.isPartial_holding
  have hall : ∀ x y, Relation.ReflTransGen depends x y → y ∈ rules.possible → y ∈ rules.holding := by
    intro x
    induction x using hwf.induction with
    | _ x ih =>
      have hsub : rules.possible ⊆ {y | Relation.ReflTransGen depends x y → y ∈ rules.holding} := by
        refine least_subset fun y hy hxy => hpartial.mem_holds.mpr ?_
        refine hlooks.step (fun z hyz (hz : _ → z ∈ rules.holding) => hz (hxy.tail hyz)) (fun z hyz => ?_) hy
        -- below an exception of `x` what holds is settled
        exact ih z ⟨y, z, hxy, hyz, .refl⟩ z .refl
      exact fun y hxy hy => hsub hy hxy
  exact fun x hx => hall x x .refl hx

theorem isModel_holding (hlooks : Looks rules depends excludes) (hwf : WellFounded (Below depends excludes)) :
    rules.IsModel rules.holding := by
  have heq : rules.possible = rules.holding :=
    (possible_subset_holding hlooks hwf).antisymm rules.isPartial_holding.subset
  calc rules.holding = rules.least rules.possible := rules.isPartial_holding.holds
    _ = rules.least rules.holding := by rw [heq]

theorem IsModel.eq_holding (hlooks : Looks rules depends excludes) (hwf : WellFounded (Below depends excludes))
    (h : rules.IsModel M) : M = rules.holding :=
  (h.between.2.trans (possible_subset_holding hlooks hwf)).antisymm h.between.1

end Rules

/-- A transitive relation without cycles is well-founded when each element has finitely many below it. -/
theorem wellFounded_of_finite {r : α → α → Prop} (htrans : ∀ {x y z}, r x y → r y z → r x z) (hirrefl : ∀ x, ¬r x x)
    (hfinite : ∀ x, {y | r y x}.Finite) : WellFounded r := by
  refine Subrelation.wf (r := InvImage (· < ·) fun x => {y | r y x}.ncard) (fun {x y} hxy => ?_) (InvImage.wf _ wellFounded_lt)
  refine Set.ncard_lt_ncard ⟨fun z hz => htrans hz hxy, fun hsub => ?_⟩ (hfinite y)
  exact hirrefl x (hsub hxy)

end Alternating
