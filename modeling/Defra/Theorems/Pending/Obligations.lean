import Defra.Theorems.Pending.Register

/-! # No pending obligation is dropped

A registration takes only the record of a root that it links. So a root that was registered is live, was removed or quarantined, or
is behind such a root by links. -/

namespace Defra.Pending
open Option KeyedList Relation List
variable {Cid : Type} [LinearOrder Cid] {slots per : UInt64} {s : Store Cid} {root other : Cid}
  {ts : List (Transition Cid)} {t : Transition Cid}

def Store.Live (s : Store Cid) (root : Cid) : Prop := (s.records.get? root).isSome

/-- A transition for which `P` holds was committed. -/
def Happened (slots per : UInt64) (P : Store Cid → Transition Cid → Prop) (ts : List (Transition Cid)) : Prop :=
  ∃ before t after, ts = before ++ t :: after ∧ P (run slots per before) t

/-- The transition registers `root`, which links `parents`, and is admitted. -/
def Admits (slots per : UInt64) (root : Cid) (parents : List Cid) (s : Store Cid) (t : Transition Cid) : Prop :=
  ∃ record ticket retired, t = .register root parents record ticket ∧
    (s.register root parents record ⟨slots, per, ticket⟩).2 = .registered retired

def Registered (slots per : UInt64) (ts : List (Transition Cid)) (root : Cid) : Prop :=
  Happened slots per (fun s t => ∃ parents, Admits slots per root parents s t) ts

def Links (slots per : UInt64) (ts : List (Transition Cid)) (root parent : Cid) : Prop :=
  Happened slots per (fun s t => ∃ parents, Admits slots per root parents s t ∧ parent ∈ parents)
    ts

/-- `root`'s live record was taken away by a removal or a quarantine. -/
def Dropped (slots per : UInt64) (ts : List (Transition Cid)) (root : Cid) : Prop :=
  Happened slots per (fun s t => s.Live root ∧
    (t = .remove root ∨ ∃ e, t = .quarantine root e)) ts

variable {P : Store Cid → Transition Cid → Prop} {parents : List Cid}

theorem Happened.concat (h : Happened slots per P ts) (t : Transition Cid) :
    Happened slots per P (ts ++ [t]) := by
  obtain ⟨before, happened, after, rfl, hP⟩ := h
  exact ⟨before, happened, after ++ [t], by simp, hP⟩

theorem happened_last (h : P (run slots per ts) t) : Happened slots per P (ts ++ [t]) :=
  ⟨ts, t, [], rfl, h⟩

theorem Happened.cases_concat (h : Happened slots per P (ts ++ [t])) :
    Happened slots per P ts ∨ P (run slots per ts) t := by
  obtain ⟨before, happened, after, hsp, hP⟩ := h
  rcases eq_nil_or_concat after with rfl | ⟨after, last, rfl⟩
  · obtain ⟨rfl, hl⟩ := append_inj' hsp rfl
    exact .inr (singleton_inj.mp hl ▸ hP)
  · rw [concat_eq_append, ← cons_append, ← append_assoc] at hsp
    exact .inl ⟨before, happened, after, (append_inj' hsp rfl).1, hP⟩

theorem retiredBy_mem {head : Option (Scope × Push.HeadVersion Cid)} {current : Option (Push.HeadVersion Cid)}
    (h : retiredBy head parents current = some root) : root ∈ parents := by
  obtain ⟨head, -, hdec⟩ := bind_eq_some_iff.mp h
  cases current with
  | none => cases hdec
  | some current =>
    by_cases hlinks : current.cid ≠ head.2.cid ∧ current.cid ∈ parents
    · simp only [ScopeDecision.of, if_pos hlinks, some.injEq] at hdec
      exact hdec ▸ hlinks.2
    · simp only [ScopeDecision.of, if_neg hlinks, reduceCtorEq] at hdec

theorem Store.live_register (s : Store Cid) (root : Cid) (record : PersistedPendingDag) (capacity : Capacity)
    (h : s.Live other) : (s.register root parents record capacity).1.Live other ∨
      other ∈ parents ∧ ∃ retired, (s.register root parents record capacity).2 = .registered retired := by
  rcases s.register_cases root parents record capacity with ⟨refused, hr, -⟩ | ⟨after, slot, halike, hr⟩
  · rw [hr]
    exact .inl h
  · by_cases hretired : s.retires root parents record = some other
    · exact .inr ⟨retiredBy_mem hretired, _, by rw [hr]⟩
    · rw [hr]
      simp only [Live, get?_put, halike.records, get?_records_retire, if_neg hretired]
      split
      · exact .inl rfl
      · exact .inl h

theorem Store.live_registered {record : PersistedPendingDag} {capacity : Capacity} {retired : Option Cid}
    (h : (s.register root parents record capacity).2 = .registered retired) :
    (s.register root parents record capacity).1.Live root := by
  rcases s.register_cases root parents record capacity with ⟨refused, hr, hrefused⟩ | ⟨after, slot, -, hr⟩
  · rw [hr] at h
    exact absurd h (hrefused retired)
  · rw [hr]
    simp [Live, get?_put]

/-- A root stays live, is dropped, or gives way to a live root that links it. -/
theorem live_step (h : (run slots per ts).Live root) :
    let later := ts ++ [t]
    (run slots per later).Live root ∨ Dropped slots per later root ∨
      ∃ child, Links slots per later child root ∧ (run slots per later).Live child := by
  intro later
  have hr : run slots per later = (run slots per ts).step slots per t := by
    simp [later, run]
  have hd : ∀ {s : Store Cid} {gone}, s.records = (run slots per ts).records → gone ≠ root →
      (s.discharge gone true).1.Live root := by
    intro s gone hsame hne
    rw [Store.Live, s.get?_records_discharge, if_neg (Ne.symm hne), hsame]
    exact h
  rw [hr]
  cases t with
  | register child parents record ticket =>
    rcases (run slots per ts).live_register child record ⟨slots, per, ticket⟩ h with hlive | ⟨hmem, retired, hok⟩
    · exact .inl hlive
    · exact .inr (.inr ⟨child, happened_last ⟨parents, ⟨record, ticket, retired, rfl, hok⟩, hmem⟩, Store.live_registered hok⟩)
  | remove gone =>
    by_cases hg : gone = root
    · exact .inr (.inl (happened_last ⟨h, .inl (by rw [hg])⟩))
    · exact .inl (hd rfl hg)
  | quarantine gone e =>
    by_cases hg : gone = root
    · exact .inr (.inl (happened_last ⟨h, .inr ⟨e, by rw [hg]⟩⟩))
    · exact .inl (hd rfl hg)
  | sweep => exact .inl h

def Kept (slots per : UInt64) (ts : List (Transition Cid)) (root : Cid) : Prop :=
  (run slots per ts).Live root ∨ Dropped slots per ts root

theorem Kept.step (h : Kept slots per ts root) (t : Transition Cid) :
    let later := ts ++ [t]
    Kept slots per later root ∨ ∃ child, TransGen (Links slots per later) child root ∧ Kept slots per later child := by
  rcases h with hlive | hdrop
  · rcases live_step hlive with hlive | hdrop | ⟨child, hlinks, hc⟩
    · exact .inl (.inl hlive)
    · exact .inl (.inr hdrop)
    · exact .inr ⟨child, .single hlinks, .inl hc⟩
  · exact .inl (.inr (hdrop.concat t))

theorem Registered.kept : ∀ {ts : List (Transition Cid)}, Registered slots per ts root →
    Kept slots per ts root ∨
      ∃ later, TransGen (Links slots per ts) later root ∧ Kept slots per ts later := by
  intro ts
  induction ts using reverseRecOn with
  | nil =>
    rintro ⟨before, t, after, hsp, -⟩
    simp at hsp
  | append_singleton ts t ih =>
    intro h
    rcases h.cases_concat with h | ⟨parents, record, ticket, retired, rfl, hok⟩
    · rcases ih h with hk | ⟨later, hlinks, hk⟩
      · exact hk.step t
      · have hlinks := TransGen.mono (fun _ _ h => Happened.concat h t) _ _ hlinks
        rcases hk.step t with hk | ⟨child, hc, hk⟩
        · exact .inr ⟨later, hlinks, hk⟩
        · exact .inr ⟨child, hc.trans hlinks, hk⟩
    · refine .inl (.inl ?_)
      simpa [run, Store.step] using Store.live_registered hok

/-- A root that was registered and neither removed nor quarantined is live, or behind a root that is live or was one of
    these; and no registration takes the record of a root that it does not link. -/
theorem obligations_kept (slots per : UInt64) (ts : List (Transition Cid)) :
    (∀ root, Registered slots per ts root → ¬ Dropped slots per ts root →
      (run slots per ts).Live root ∨ ∃ later, TransGen (Links slots per ts) later root ∧
        ((run slots per ts).Live later ∨ Dropped slots per ts later)) ∧
      ∀ root parents record ticket other, other ∉ parents → (run slots per ts).Live other →
        ((run slots per ts).register root parents record ⟨slots, per, ticket⟩).1.Live other := by
  refine ⟨fun root hr hdrop => ?_, fun root parents record ticket other ho hlive => ?_⟩
  · rcases hr.kept with (hlive | hgone) | hl
    · exact .inl hlive
    · exact absurd hgone hdrop
    · exact .inr hl
  · exact (Store.live_register _ root record _ hlive).resolve_right fun h => ho h.1

/-- The second head of the document links the first, which the same peer announced, and takes over its slot. -/
def twoHeads : List (Transition Nat) :=
  [.register 1 [] ⟨"doc", "notes", some 1, some "peer"⟩ 0, .register 2 [1] ⟨"doc", "notes", some 2, some "peer"⟩ 0]

theorem twoHeads_kept : ¬(run 8 8 twoHeads).Live 1 ∧ ∃ later, TransGen (Links 8 8 twoHeads) later 1 ∧
    ((run 8 8 twoHeads).Live later ∨ Dropped 8 8 twoHeads later) := by
  have hgone : ¬(run 8 8 twoHeads).Live 1 := by
    rw [Store.Live]
    decide +kernel
  have hregistered : Registered 8 8 twoHeads 1 :=
    ⟨[], _, [_], rfl, [], _, _, none, rfl, rfl⟩
  have hdrop : ¬Dropped 8 8 twoHeads 1 := by
    rintro ⟨before, t, after, hsp, -, hgone⟩
    have hmem : t ∈ twoHeads := hsp ▸ by simp
    simp only [twoHeads, mem_cons, not_mem_nil, or_false] at hmem
    rcases hmem with rfl | rfl <;> simp at hgone
  exact ⟨hgone, ((obligations_kept 8 8 twoHeads).1 1 hregistered hdrop).resolve_left hgone⟩

end Defra.Pending
