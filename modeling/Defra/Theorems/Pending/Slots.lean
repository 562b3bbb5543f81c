import Mathlib.Algebra.GroupWithZero.Nat
import Defra.Lib.Run
import Defra.Theorems.Pending.Register

/-! # The pending store keeps its slots and shares

Every live record holds one slot and one charge, and each count is the number of the charges to it, after every transition. -/

namespace Defra.Pending
open Store Option KeyedList Push List
variable {Cid : Type} [LinearOrder Cid] {slots per : UInt64} {s : Store Cid} {root older : Cid} {stored : Stored}
  {slot : Nat} {record : PersistedPendingDag} {key : Bytes} {after : Store Cid}
  (records : KeyedList (Prod.fst : Cid × Stored → Cid))

def slotOf (root : Cid) : Option Nat := (records.get? root).bind Stored.slot

/-- The records and the slots are inverse to each other. -/
structure Slotted (slots : UInt64) (s : Store Cid) : Prop where
  holds : ∀ root, (s.records.get? root).isSome → (slotOf s.records root).isSome
  held : ∀ slot root, slotOf s.records root = some slot → s.slots.get? slot = some root
  live : ∀ slot root, s.slots.get? slot = some root → slotOf s.records root = some slot
  lt : ∀ slot root, s.slots.get? slot = some root → slot < max slots.toNat 1

/-- The charges are the live records', and the counts those of the charges. -/
structure Charged (per : UInt64) (s : Store Cid) : Prop where
  live : ∀ root, (s.charges.get? root).isSome = (s.records.get? root).isSome
  count : ∀ key, s.count key = s.charges.toList.countP (·.2 = key)
  le : ∀ key, s.count key ≤ max per.toNat 1

/-- Slots and charges are kept. -/
structure Sound (slots per : UInt64) (s : Store Cid) : Prop where
  slotted : Slotted slots s
  charged : Charged per s

theorem slotOf_put (root other : Cid) (stored : Stored) :
    slotOf (records.put (root, stored)) other = if other = root then stored.slot else slotOf records other := by
  rw [slotOf, get?_put]
  split <;> rfl

theorem slotOf_erase (root other : Cid) :
    slotOf (records.erase root) other = if other = root then none else slotOf records other := by
  rw [slotOf, get?_erase]
  split <;> rfl

/-! ### Slots -/

namespace Slotted

theorem release (h : Slotted slots s) (hs : slotOf s.records root = some slot) :
    Slotted slots { s with records := s.records.erase root, slots := s.slots.erase slot } := by
  obtain ⟨hh, hheld, hlive, hlt⟩ := h
  constructor <;> simp only [get?_erase, slotOf_erase] <;> grind

theorem takeNew (h : Slotted slots s) (hr : slotOf s.records root = none) (hs : s.slots.get? slot = none)
    (hnew : slot < max slots.toNat 1) :
    Slotted slots { s with
      records := s.records.put (root, { record, slot }), slots := s.slots.put (slot, root) } := by
  obtain ⟨hh, hheld, hlive, hlt⟩ := h
  constructor <;> simp only [get?_put, slotOf_put] <;> grind

theorem takeOver (h : Slotted slots s) (hr : slotOf s.records root = none) (hs : slotOf s.records older = some slot) :
    Slotted slots { s with
      records := (s.records.erase older).put (root, { record, slot }), slots := s.slots.put (slot, root) } := by
  obtain ⟨hh, hheld, hlive, hlt⟩ := h
  constructor <;> simp only [get?_put, slotOf_put, get?_erase, slotOf_erase] <;> grind

theorem refresh (h : Slotted slots s) (hr : s.records.get? root = some stored) :
    Slotted slots { s with records := s.records.put (root, { record, slot := stored.slot }) } := by
  have hown : slotOf s.records root = stored.slot := by rw [slotOf, hr, bind_some]
  obtain ⟨hh, hheld, hlive, hlt⟩ := h
  constructor <;> simp only [get?_put, slotOf_put] <;> grind

end Slotted

/-! ### Charges -/

namespace Charged

section
variable (h : Charged per s)
include h

theorem charge_of_live (hr : s.records.get? root = some stored) : ∃ key, s.charges.get? root = some key :=
  isSome_iff_exists.mp (by rw [h.live, hr, isSome_some])

theorem free_of_new (hr : s.records.get? root = none) : s.charges.get? root = none := by
  have hl := h.live root
  rw [hr] at hl
  exact isSome_eq_false_iff.mp hl |> isNone_iff_eq_none.mp

theorem giveBack (hcharge : s.charges.get? root = some key) :
    Charged per { s.giveBack root with records := s.records.erase root } := by
  have hc : ∀ other, (s.giveBack root).count other = if other = key then s.count key - 1 else s.count other := by
    simp only [Store.giveBack, hcharge, Store.count]
    split <;> simp only [get?_erase, get?_put] <;> grind
  have hcharges : (s.giveBack root).charges = s.charges.erase root := by rw [Store.giveBack, hcharge]
  refine ⟨fun other => ?_, fun other => ?_, fun other => ?_⟩
  · rw [hcharges, get?_erase, get?_erase]
    split
    · rfl
    · exact h.live other
  · have ho := h.count other
    rw [countP_erase hcharge] at ho
    refine (hc other).trans ?_
    split at ho <;> split <;> grind
  · have hle := h.le other
    refine (hc other).le.trans ?_
    split <;> grind

theorem charge {peer : Option String} (hr : s.records.get? root = none)
    (hheld : s.count (countKey peer) < max per.toNat 1) :
    Charged per { s.charge root peer (s.count (countKey peer)) with
      records := s.records.put (root, stored) } := by
  have hfree := h.free_of_new hr
  have hm : min (s.count (countKey peer) + 1) (2 ^ 64 - 1) = s.count (countKey peer) + 1 := by
    have := per.toNat_lt
    omega
  have hc : ∀ other, (s.charge root peer (s.count (countKey peer))).count other =
      s.count other + if countKey peer = other then 1 else 0 := by
    simp only [Store.charge, Store.count, get?_put] at hm ⊢
    grind
  refine ⟨fun other => ?_, fun other => ?_, fun other => ?_⟩
  · simp only [Store.charge, get?_put]
    split
    · rfl
    · exact h.live other
  · refine (hc other).trans ?_
    simp only [Store.charge, countP_put, erase_of_get? hfree, h.count other, decide_eq_true_eq]
  · have hle := h.le other
    refine (hc other).le.trans ?_
    split <;> grind

theorem handOver (hr : s.records.get? root = none) (ho : s.records.get? older = some stored) (own : Stored) :
    Charged per { s.handOver older root with records := (s.records.erase older).put (root, own) } := by
  obtain ⟨key, hcharge⟩ := h.charge_of_live ho
  have hfree : (s.charges.erase older).get? root = none := by
    rw [get?_erase, h.free_of_new hr, ite_self]
  simp only [Store.handOver, hcharge]
  refine ⟨fun other => ?_, fun other => ?_, h.le⟩
  · have hl := h.live other
    simp only [get?_put, get?_erase]
    grind
  · refine (h.count other).trans ?_
    rw [countP_put, erase_of_get? hfree, countP_erase hcharge]

theorem refresh (hr : s.records.get? root = some stored) {own : Stored} :
    Charged per { s with records := s.records.put (root, own) } := by
  refine ⟨fun other => ?_, h.count, h.le⟩
  rw [h.live, get?_put]
  split
  · rename_i ho
    rw [ho, hr]
    rfl
  · rfl

end

end Charged

theorem Slotted.slot_of_live (h : Slotted slots s) (hr : s.records.get? root = some stored) :
    ∃ slot, stored.slot = some slot ∧ slotOf s.records root = some slot := by
  have hown : slotOf s.records root = stored.slot := by rw [slotOf, hr, bind_some]
  obtain ⟨slot, hs⟩ := isSome_iff_exists.mp (h.holds root (by rw [hr, isSome_some]))
  exact ⟨slot, hown ▸ hs, hs⟩

theorem Slotted.congr (h : Slotted slots s) (hr : after.records = s.records)
    (hs : after.slots = s.slots) : Slotted slots after := by
  obtain ⟨hh, hheld, hlive, hlt⟩ := h
  rw [← hr, ← hs] at *
  exact ⟨hh, hheld, hlive, hlt⟩

theorem Charged.congr (h : Charged per s) (hr : after.records = s.records)
    (hcounts : after.counts = s.counts) (hc : after.charges = s.charges) : Charged per after := by
  obtain ⟨hlive, hcnt, hle⟩ := h
  simp only [Store.count, ← hr, ← hcounts, ← hc] at *
  exact ⟨hlive, hcnt, hle⟩

/-! ### Taking a slot -/

/-- What a registration takes before it writes its record. -/
def Taken (slots per : UInt64) (s : Store Cid) (root : Cid) (record : PersistedPendingDag) :
    Store Cid × Except (Admission Cid) (Option Nat) → Prop
  | (after, .error refused) => after = s ∧ ∀ retired, refused ≠ .registered retired
  | (after, .ok slot) => Sound slots per { after with records := after.records.put (root, { record, slot }) }

namespace Sound

section
variable (h : Sound slots per s)
include h

theorem discharge (root : Cid) : Sound slots per (s.discharge root true).1 := by
  rw [Store.discharge]
  cases hr : s.records.get? root with
  | none => exact h
  | some stored =>
    obtain ⟨slot, hs, hown⟩ := h.slotted.slot_of_live hr
    obtain ⟨key, hcharge⟩ := h.charged.charge_of_live hr
    have hc := h.charged.giveBack hcharge
    simp only [giveBack, hcharge] at hc
    simp only [hs, map_some, getD_some, if_true, free, giveBack, hcharge]
    exact ⟨(h.slotted.release hown).congr rfl rfl, hc.congr rfl rfl rfl⟩

theorem takeNew (hr : s.records.get? root = none) (record : PersistedPendingDag) (ticket : UInt64) :
    Taken slots per s root record ((s.takeNew root record ⟨slots, per, ticket⟩).map id (·.map some)) := by
  rw [Store.takeNew]
  split
  · exact ⟨rfl, fun _ h => by cases h⟩
  · rename_i hheld
    rcases s.claim_cases root ticket slots with hclaim | ⟨slot, hclaim, hfree, hlt⟩
    · simp only [hclaim]
      exact ⟨rfl, fun _ h => by cases h⟩
    · simp only [hclaim]
      have hn : slotOf s.records root = none := by rw [slotOf, hr, bind_none]
      exact ⟨(h.slotted.takeNew hn hfree hlt).congr rfl rfl, (h.charged.charge hr (not_le.mp hheld)).congr rfl rfl rfl⟩

theorem takeOver (hr : s.records.get? root = none) (record : PersistedPendingDag)
    (ticket : UInt64) (retired : Option Cid) :
    Taken slots per s root record (s.takeOver root record ⟨slots, per, ticket⟩ retired) := by
  cases retired with
  | none => exact h.takeNew hr record ticket
  | some older =>
    cases ho : s.records.get? older with
    | none => simpa only [Store.takeOver, Store.discharge, ho, map_some] using h.takeNew hr record ticket
    | some stored =>
      obtain ⟨slot, hs, hown⟩ := h.slotted.slot_of_live ho
      obtain ⟨key, hcharge⟩ := h.charged.charge_of_live ho
      have hn : slotOf s.records root = none := by rw [slotOf, hr, bind_none]
      have hc := h.charged.handOver hr ho { record, slot }
      simp only [handOver, hcharge] at hc
      simp only [Store.takeOver, Store.discharge, ho, map_some, hs, getD_some, Store.assign,
        handOver, hcharge, if_false, Bool.false_eq_true]
      exact ⟨(h.slotted.takeOver hn hown).congr rfl rfl, hc.congr rfl rfl rfl⟩

theorem refresh (hr : s.records.get? root = some stored) (record : PersistedPendingDag) :
    Sound slots per { s with records := s.records.put (root, { record, slot := stored.slot }) } :=
  ⟨h.slotted.refresh hr, h.charged.refresh hr⟩

end

end Sound

theorem Sound.takeSlot (h : Sound slots per s) (record : PersistedPendingDag) (ticket : UInt64) {retired : Option Cid}
    (hne : ∀ older, retired = some older → root ≠ older) :
    Taken slots per s root record (s.takeSlot root record ⟨slots, per, ticket⟩ retired) := by
  rw [Store.takeSlot]
  cases hr : s.records.get? root with
  | none => exact h.takeOver hr record ticket retired
  | some own =>
    cases retired with
    | none => exact h.refresh hr record
    | some older =>
      exact (h.discharge older).refresh ((s.get?_records_discharge older root true).trans ((if_neg (hne older rfl)).trans hr)) record

/-- A registration is refused and changes nothing, or keeps the store sound. -/
theorem Sound.register (h : Sound slots per s) (root : Cid) (parents : List Cid) (record : PersistedPendingDag)
    (ticket : UInt64) :
    Sound slots per (s.register root parents record ⟨slots, per, ticket⟩).1 ∧
      ((∀ retired, (s.register root parents record ⟨slots, per, ticket⟩).2 ≠ .registered retired) →
        (s.register root parents record ⟨slots, per, ticket⟩).1 = s) := by
  rw [Store.register]
  generalize hretired : retiredBy (scopeHead root record) parents
    ((scopeHead root record).bind fun head => s.heads.get? (head.1.key SCOPE_PREFIX)) = retired
  have ht := h.takeSlot record ticket fun older ho => retiredBy_ne (hretired.trans ho)
  generalize s.takeSlot root record ⟨slots, per, ticket⟩ retired = taken at ht ⊢
  obtain ⟨after, refused | slot⟩ := taken
  · obtain ⟨rfl, -⟩ := ht
    exact ⟨h, fun _ => rfl⟩
  · exact ⟨⟨ht.slotted.congr rfl rfl, ht.charged.congr rfl rfl rfl⟩, fun hr => absurd rfl (hr retired)⟩

theorem Sound.step (h : Sound slots per s) (t : Transition Cid) :
    Sound slots per (s.step slots per t) := by
  cases t with
  | register root parents record ticket => exact (h.register root parents record ticket).1
  | remove root => exact h.discharge root
  | quarantine root e =>
    have hw : Sound slots per { s with quarantined := s.quarantined.put (root, e) } :=
      ⟨h.slotted.congr rfl rfl, h.charged.congr rfl rfl rfl⟩
    exact hw.discharge root
  | sweep => exact ⟨h.slotted.congr rfl rfl, h.charged.congr rfl rfl rfl⟩

theorem Sound.run (slots per : UInt64) (ts : List (Transition Cid)) : Sound slots per (run slots per ts) :=
  Run.always (fun h => h.step _) ts ⟨⟨nofun, nofun, nofun, nofun⟩, ⟨fun _ => rfl, fun _ => rfl, fun _ => Nat.zero_le _⟩⟩

theorem Slotted.length_le (h : Slotted slots s) : s.slots.toList.length ≤ max slots.toNat 1 := by
  have hnodup : (s.slots.toList.map Prod.fst).Nodup := pairwise_map.mpr (s.slots.sorted.imp ne_of_lt)
  have hsub : s.slots.toList.map Prod.fst ⊆ range (max slots.toNat 1) := by
    intro slot hs
    obtain ⟨e, he, rfl⟩ := mem_map.mp hs
    exact mem_range.mpr (h.lt _ _ (get?_of_mem he))
  simpa using (subperm_of_subset hnodup hsub).length_le

/-- After every sequence of transitions, the held slots and the live records are in bijection, the charges are the live
    records', each count is that of its charges, both within capacity, and a refused registration writes nothing. -/
theorem slots_and_shares (slots per : UInt64) (ts : List (Transition Cid)) :
    let s := run slots per ts
    (∀ root, (s.records.get? root).isSome → ∃! slot, s.slots.get? slot = some root) ∧
      (∀ slot root, s.slots.get? slot = some root ↔ ∃ stored, s.records.get? root = some stored ∧ stored.slot = some slot) ∧
      s.slots.toList.length ≤ max slots.toNat 1 ∧
      (∀ root, (s.charges.get? root).isSome = (s.records.get? root).isSome) ∧
      (∀ peer, s.count (countKey peer) = s.charges.toList.countP (·.2 = countKey peer) ∧
        s.count (countKey peer) ≤ max per.toNat 1) ∧
      ∀ root parents record ticket,
        (∀ retired, (s.register root parents record ⟨slots, per, ticket⟩).2 ≠ .registered retired) →
          (s.register root parents record ⟨slots, per, ticket⟩).1 = s := by
  intro s
  have h : Sound slots per s := Sound.run slots per ts
  refine ⟨fun root hr => ?_, fun slot root => ?_, h.slotted.length_le, h.charged.live,
    fun peer => ⟨h.charged.count _, h.charged.le _⟩, fun root parents record ticket => (h.register root parents record ticket).2⟩
  · obtain ⟨slot, hs⟩ := isSome_iff_exists.mp (h.slotted.holds root hr)
    refine ⟨slot, h.slotted.held slot root hs, fun other ho => ?_⟩
    exact some.inj ((h.slotted.live other root ho).symm.trans hs)
  · rw [← bind_eq_some_iff]
    exact ⟨h.slotted.live slot root, h.slotted.held slot root⟩

end Defra.Pending
