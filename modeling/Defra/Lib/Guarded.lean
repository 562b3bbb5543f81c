import Mathlib.Init

/-! # Computations over a guarded state

`Guarded I x Q` says that `x` keeps the invariant `I` of the state, whether it fails or not, and that its result, when it gives
one, has `Q`. What is written stays when a computation fails. -/

namespace Guarded
variable {σ ε α β : Type}

/-- The result of a run, and the state it leaves. -/
def outcome (x : ExceptT ε (StateM σ) α) (s : σ) : Except ε α × σ := x.run.run s

end Guarded

open Guarded in
/-- `x` keeps `I`, and a result of it has `Q`. -/
def Guarded {σ ε α : Type} (I : σ → Prop) (x : ExceptT ε (StateM σ) α) (Q : α → Prop) : Prop :=
  ∀ s, I s → I (outcome x s).2 ∧ ∀ a, (outcome x s).1 = .ok a → Q a

namespace Guarded
variable {σ ε α β : Type} {I : σ → Prop} {x : ExceptT ε (StateM σ) α} {f : α → ExceptT ε (StateM σ) β} {P : α → Prop}
  {Q : β → Prop}

theorem pure {a : α} (h : P a) : Guarded I (pure a : ExceptT ε (StateM σ) α) P :=
  fun _ hs => ⟨hs, fun _ heq => Except.ok.inj heq ▸ h⟩

theorem throw (e : ε) : Guarded I (throw e : ExceptT ε (StateM σ) α) P :=
  fun _ hs => ⟨hs, fun _ heq => nomatch heq⟩

theorem liftExcept {r : Except ε α} (h : ∀ a, r = .ok a → P a) :
    Guarded I (MonadExcept.ofExcept r : ExceptT ε (StateM σ) α) P := by
  cases r with
  | error e => exact throw e
  | ok a => exact pure (h a rfl)

theorem outcome_bind (x : ExceptT ε (StateM σ) α) (f : α → ExceptT ε (StateM σ) β) (s : σ) :
    outcome (x >>= f) s = match outcome x s with
      | (.ok a, t) => outcome (f a) t
      | (.error e, t) => (.error e, t) := by
  show (ExceptT.bindCont f (x.run.run s).1).run (x.run.run s).2 = _
  unfold outcome
  cases hx : x.run.run s with
  | mk r t =>
    cases r with
    | error e => rfl
    | ok a => rfl

theorem bind (hx : Guarded I x P) (hf : ∀ a, P a → Guarded I (f a) Q) : Guarded I (x >>= f) Q := by
  intro s hs
  have hfirst := hx s hs
  rw [outcome_bind]
  cases hr : outcome x s with
  | mk r t =>
    rw [hr] at hfirst
    cases r with
    | error e => exact ⟨hfirst.1, fun _ heq => nomatch heq⟩
    | ok a => exact hf a (hfirst.2 a rfl) t hfirst.1

theorem get : Guarded I (getThe σ : ExceptT ε (StateM σ) σ) I :=
  fun _ hs => ⟨hs, fun _ heq => Except.ok.inj heq ▸ hs⟩

theorem modify {g : σ → σ} (h : ∀ s, I s → I (g s)) : Guarded I (modifyThe σ g : ExceptT ε (StateM σ) PUnit) fun _ => True :=
  fun s hs => ⟨h s hs, fun _ _ => trivial⟩

theorem mono {P' : α → Prop} (hx : Guarded I x P) (h : ∀ a, P a → P' a) : Guarded I x P' :=
  fun s hs => ⟨(hx s hs).1, fun a ha => h a ((hx s hs).2 a ha)⟩

end Guarded
