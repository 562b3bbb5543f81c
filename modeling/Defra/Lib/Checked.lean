import Mathlib.Init

/-! # Computations that can fail

What a computation that came through says of its steps. -/

namespace Checked
variable {ε α β : Type}

theorem bind {x : Except ε α} {f : α → Except ε β} {b : β} (h : x >>= f = .ok b) : ∃ a, x = .ok a ∧ f a = .ok b := by
  cases x with
  | error e => cases h
  | ok a => exact ⟨a, rfl, h⟩

theorem bind_of_ok {x : Except ε α} {a : α} (h : x = .ok a) (f : α → Except ε β) : x >>= f = f a := by
  rw [h]
  rfl

theorem mapError {ε' : Type} {x : Except ε α} {f : ε → ε'} {a : α} (h : x.mapError f = .ok a) : x = .ok a := by
  cases x with
  | error e => cases h
  | ok b => exact congrArg Except.ok (Except.ok.inj h)

theorem foldlM {f : α → β → Except ε α} {P : List β → α → Prop}
    (step : ∀ {s b rest s'}, P (b :: rest) s → f s b = .ok s' → P rest s') :
    ∀ {l : List β} {s s' : α}, P l s → l.foldlM f s = .ok s' → P [] s'
  | [], _, _, hs, h => by
    exact Except.ok.inj h ▸ hs
  | b :: l, s, s', hs, h => by
    obtain ⟨t, ht, h⟩ := bind h
    exact foldlM step (step hs ht) h

end Checked
