import Mathlib.Algebra.GroupWithZero.Nat
import Defra.Pending.Store

/-! What a discharge and a registration do to the records and the heads of scopes, whatever slots and shares they move. -/

namespace Defra.Pending
open Option KeyedList Push
variable {Cid : Type} [LinearOrder Cid] {s after : Store Cid} {root older other : Cid} {record : PersistedPendingDag}
  {parents : List Cid} {key : Bytes} {capacity : Capacity} {retired : Option Cid}

def scopeKey (root : Cid) (record : PersistedPendingDag) : Option Bytes := (scopeHead root record).map (·.1.key SCOPE_PREFIX)

namespace Store

/-- The two stores hold the same records and heads. -/
structure Alike (s after : Store Cid) : Prop where
  records : after.records = s.records
  heads : after.heads = s.heads

theorem alike_giveBack (s : Store Cid) (root : Cid) : s.Alike (s.giveBack root) := by
  rw [giveBack]
  split <;> exact ⟨rfl, rfl⟩

theorem alike_handOver (s : Store Cid) (older root : Cid) : s.Alike (s.handOver older root) := by
  rw [handOver]
  split <;> exact ⟨rfl, rfl⟩

theorem discharge_none {release : Bool} (h : s.records.get? root = none) : s.discharge root release = (s, none) := by
  rw [discharge, h]

theorem discharge_some {stored : Stored} (h : s.records.get? root = some stored) (release : Bool) :
    (s.discharge root release).2 = some stored ∧ (s.discharge root release).1.records = s.records.erase root ∧
      (s.discharge root release).1.heads =
        (((scopeKey root stored.record).filter fun key => (s.heads.get? key).any (·.cid = root)).map s.heads.erase).getD
          s.heads := by
  have halike : ∀ erased : Store Cid,
      erased.Alike (if release then ((stored.slot.map erased.free).getD erased).giveBack root else erased) := by
    intro erased
    split
    · have hback := alike_giveBack ((stored.slot.map erased.free).getD erased) root
      cases hs : stored.slot <;> rw [hs] at hback <;> exact ⟨hback.records, hback.heads⟩
    · exact ⟨rfl, rfl⟩
  have hboth := halike { s with records := s.records.erase root }
  simp only [discharge, h, hboth.records, hboth.heads, scopeKey]
  exact ⟨trivial, trivial, trivial⟩

theorem get?_records_discharge (s : Store Cid) (root other : Cid) (release : Bool) :
    (s.discharge root release).1.records.get? other = if other = root then none else s.records.get? other := by
  cases hr : s.records.get? root with
  | none =>
    rw [discharge_none hr]
    split
    · rename_i ho
      rw [ho, hr]
    · rfl
  | some stored => rw [(discharge_some hr release).2.1, get?_erase]

/-- The store once the root that a registration retires is gone. -/
def retire (s : Store Cid) (retired : Option Cid) : Store Cid := (retired.map fun older => (s.discharge older true).1).getD s

theorem get?_records_retire (s : Store Cid) (retired : Option Cid) (other : Cid) :
    (s.retire retired).records.get? other = if retired = some other then none else s.records.get? other := by
  cases retired with
  | none => rfl
  | some older =>
    refine (s.get?_records_discharge older other true).trans ?_
    simp only [some.injEq, eq_comm]

theorem claim_cases (s : Store Cid) (root : Cid) (ticket capacity : UInt64) :
    s.claim root ticket capacity = (s, none) ∨ ∃ slot, s.claim root ticket capacity = (s.assign slot root, some slot) ∧
      s.slots.get? slot = none ∧ slot < max capacity.toNat 1 := by
  rw [claim]
  split
  · rename_i slot hf
    obtain ⟨probe, -, hp⟩ := List.mem_map.mp (List.mem_of_find?_eq_some hf)
    refine .inr ⟨slot, rfl, by simpa using List.find?_some hf, ?_⟩
    rw [← hp]
    exact Nat.mod_lt _ (by omega)
  · exact .inl rfl

/-- A new root is refused and nothing is written, or the records and heads stay as they are. -/
theorem takeNew_cases (s : Store Cid) (root : Cid) (record : PersistedPendingDag) (capacity : Capacity) :
    (∃ refused, s.takeNew root record capacity = (s, .error refused) ∧ ∀ retired, refused ≠ .registered retired) ∨
      ∃ after slot, s.takeNew root record capacity = (after, .ok slot) ∧ s.Alike after := by
  rw [takeNew]
  split
  · exact .inl ⟨_, rfl, nofun⟩
  · rcases s.claim_cases root capacity.ticket capacity.slots with hclaim | ⟨slot, hclaim, -⟩
    · rw [hclaim]
      exact .inl ⟨_, rfl, nofun⟩
    · rw [hclaim]
      exact .inr ⟨_, slot, rfl, rfl, rfl⟩

theorem takeSlot_cases (s : Store Cid) (root : Cid) (record : PersistedPendingDag) (capacity : Capacity) (retired : Option Cid) :
    (∃ refused, s.takeSlot root record capacity retired = (s, .error refused) ∧ ∀ retired, refused ≠ .registered retired) ∨
      ∃ after slot, s.takeSlot root record capacity retired = (after, .ok slot) ∧ (s.retire retired).Alike after := by
  have hnew : ∀ gone : Store Cid, gone = s → gone = s.retire retired →
      (∃ refused, (gone.takeNew root record capacity).map id (·.map some) = (s, .error refused) ∧
        ∀ retired, refused ≠ .registered retired) ∨
      ∃ after slot, (gone.takeNew root record capacity).map id (·.map some) = (after, .ok slot) ∧ (s.retire retired).Alike after := by
    rintro gone rfl hg
    rcases gone.takeNew_cases root record capacity with ⟨refused, htake, hrefused⟩ | ⟨after, slot, htake, halike⟩
    · exact .inl ⟨refused, by rw [htake]; rfl, hrefused⟩
    · exact .inr ⟨after, slot, by rw [htake]; rfl, hg ▸ halike⟩
  rw [takeSlot]
  split
  · exact .inr ⟨_, _, rfl, rfl, rfl⟩
  · cases retired with
    | none => exact hnew s rfl rfl
    | some older =>
      cases ho : s.records.get? older with
      | none =>
        have hsame : s.retire (some older) = s := by rw [retire, map_some, getD_some, discharge_none ho]
        simpa only [takeOver, discharge_none ho, map_some] using hnew s rfl hsame.symm
      | some stored =>
        obtain ⟨hs, hr, hh⟩ := discharge_some ho false
        obtain ⟨-, hr', hh'⟩ := discharge_some ho true
        generalize hg : s.discharge older false = gone at hs hr hh
        obtain ⟨gone, taken⟩ := gone
        obtain rfl : taken = some stored := hs
        simp only [takeOver, map_some, hg]
        have hover := alike_handOver ((stored.slot.map fun slot => gone.assign slot root).getD gone) older root
        have ha : gone.Alike ((stored.slot.map fun slot => gone.assign slot root).getD gone) := by
          cases stored.slot <;> exact ⟨rfl, rfl⟩
        refine .inr ⟨_, stored.slot, rfl, ?_, ?_⟩
        · rw [hover.records, ha.records, hr]
          exact hr'.symm
        · rw [hover.heads, ha.heads, hh]
          exact hh'.symm

def currentOf (s : Store Cid) (root : Cid) (record : PersistedPendingDag) : Option (HeadVersion Cid) :=
  (scopeHead root record).bind fun head => s.heads.get? (head.1.key SCOPE_PREFIX)

def retires (s : Store Cid) (root : Cid) (parents : List Cid) (record : PersistedPendingDag) : Option Cid :=
  retiredBy (scopeHead root record) parents (s.currentOf root record)

/-- It is refused and writes nothing, or retires a root and writes a record and, unless its scope keeps a newer one, a head. -/
theorem register_cases (s : Store Cid) (root : Cid) (parents : List Cid) (record : PersistedPendingDag) (capacity : Capacity) :
    (∃ refused, s.register root parents record capacity = (s, refused) ∧ ∀ retired, refused ≠ .registered retired) ∨
      ∃ after slot, (s.retire (s.retires root parents record)).Alike after ∧
        s.register root parents record capacity =
          ({ after with
             records := after.records.put (root, { record, slot })
             heads := (scopeHead root record).elim after.heads fun head =>
               if (s.retires root parents record).isSome ∨ (s.currentOf root record).all (· ≤ head.2) then
                 after.heads.put (head.1.key SCOPE_PREFIX, head.2)
               else after.heads }, .registered (s.retires root parents record)) := by
  have htake := s.takeSlot_cases root record capacity (s.retires root parents record)
  rw [register]
  rw [← currentOf, ← retires]
  rcases htake with ⟨refused, htake, hr⟩ | ⟨after, slot, htake, halike⟩
  · exact .inl ⟨refused, by rw [htake], hr⟩
  · refine .inr ⟨after, slot, halike, ?_⟩
    rw [htake]
    cases scopeHead root record <;> rfl

end Store

theorem retiredBy_ne {parents : List Cid} {current : Option (HeadVersion Cid)}
    (h : retiredBy (scopeHead root record) parents current = some older) : root ≠ older := by
  obtain ⟨⟨scope, version⟩, hh, hdec⟩ := bind_eq_some_iff.mp h
  have hv : version.cid = root := by
    obtain ⟨peer, -, priority, -, rfl, rfl⟩ : ∃ peer, record.sourcePeer = some peer ∧ ∃ priority, record.headPriority = some priority ∧
        _ ∧ _ := by simpa [scopeHead, bind_eq_some_iff] using hh
    rfl
  cases current with
  | none => cases hdec
  | some head =>
    by_cases hlinks : head.cid ≠ version.cid ∧ head.cid ∈ parents
    · simp only [ScopeDecision.of, if_pos hlinks, some.injEq] at hdec
      exact hv ▸ hdec ▸ Ne.symm hlinks.1
    · simp only [ScopeDecision.of, if_neg hlinks, reduceCtorEq] at hdec

end Defra.Pending
