import Mathlib.Init

/-! # Runs

What each step of a run keeps, the run keeps: a property of its states, or a relation to the states of another run of the same
steps. -/

namespace Run
open List
universe u
variable {σ τ : Type} {κ : Type u} {f : σ → κ → σ} {g : τ → κ → τ} {Ok : κ → Prop}

theorem invariant {P : σ → Prop} (step : ∀ {s c}, Ok c → P s → P (f s c)) :
    ∀ {cs : List κ} {s : σ}, (∀ c ∈ cs, Ok c) → P s → P (cs.foldl f s)
  | [], _, _, hs => hs
  | c :: cs, s, hok, hs => by
    rw [foldl_cons]
    exact invariant step (fun d hd => hok d (mem_cons_of_mem c hd)) (step (hok c mem_cons_self) hs)

theorem always {P : σ → Prop} (step : ∀ {s c}, P s → P (f s c)) (cs : List κ) {s : σ} (hs : P s) : P (cs.foldl f s) :=
  invariant (fun _ => step) (fun _ _ => trivial) hs

/-- Of a run whose steps may fail. -/
theorem alwaysSome {f : σ → κ → Option σ} {P : σ → Prop} (step : ∀ {s c s'}, P s → f s c = some s' → P s') :
    ∀ {cs : List κ} {s s' : σ}, P s → cs.foldlM f s = some s' → P s'
  | [], _, _, hs, h => Option.some.inj h ▸ hs
  | _ :: _, _, _, hs, h => by
    obtain ⟨_, hstep, h⟩ := Option.bind_eq_some_iff.mp h
    exact alwaysSome step (step hs hstep) h

theorem simulation {R : σ → τ → Prop} (step : ∀ {s t c}, Ok c → R s t → R (f s c) (g t c)) :
    ∀ {cs : List κ} {s : σ} {t : τ}, (∀ c ∈ cs, Ok c) → R s t → R (cs.foldl f s) (cs.foldl g t)
  | [], _, _, _, hst => hst
  | c :: cs, s, t, hok, hst => by
    rw [foldl_cons, foldl_cons]
    exact simulation step (fun d hd => hok d (mem_cons_of_mem c hd)) (step (hok c mem_cons_self) hst)

end Run
