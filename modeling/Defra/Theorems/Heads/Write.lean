import Defra.Heads.Document
import Defra.Theorems.Merge.HeadSetBytes

/-! What a publication's write does to each name. -/

namespace Defra.Merge.HeadSet
open List Write

variable {set : Set} (write : Write) (name : Bytes)

theorem mem_live {name : Bytes} {priority : UInt64} :
    (name, priority) ∈ set.live ↔ stateAt set.names name = .live priority := by
  rw [stateAt_eq_iff (by simp), Set.live, mem_filterMap]
  constructor
  · rintro ⟨⟨other, state⟩, hmem, hl⟩
    cases state <;> cases hl
    exact hmem
  · exact fun hmem => ⟨_, hmem, rfl⟩

theorem mem_ahead {name : Bytes} : name ∈ set.ahead ↔ stateAt set.names name = .ahead := by
  rw [stateAt_eq_iff (by decide), Set.ahead, mem_filterMap]
  constructor
  · rintro ⟨⟨other, state⟩, hmem, ha⟩
    cases state <;> cases ha
    exact hmem
  · exact fun hmem => ⟨_, hmem, rfl⟩

theorem isLive_iff {name : Bytes} : set.isLive name = true ↔ ∃ priority, stateAt set.names name = .live priority := by
  unfold Set.isLive Set.state stateAt
  cases set.names.find? name with
  | none => simp
  | some entry => cases hs : entry.2 <;> simp [hs]

def Write.func : Func := ((write.entries.find? name).map Prod.snd).getD .identity

theorem Write.funcAt_entries : funcAt write.entries.toList name = write.func name := by
  unfold funcAt func KeyedList.find?
  congr 3
  funext entry
  exact decide_eq_decide.mpr Iff.rfl

@[simp] theorem Write.func_empty : func {} name = .identity := rfl

theorem Write.func_andThen (f : Func) (other : Bytes) :
    (write.andThen name f).func other = if other = name then (write.func name).andThen f else write.func other := by
  change (((write.entries.put (name, (write.func name).andThen f)).find? other).map Prod.snd).getD .identity = _
  rw [KeyedList.find?_put]
  by_cases h : other = name
  · rw [if_pos h, if_pos h]
    rfl
  · rw [if_neg h, if_neg h]
    rfl

@[simp] theorem stateAt_apply (set : Set) (write : Write) (name : Bytes) :
    stateAt (set.apply write).names name = (write.func name).apply (stateAt set.names name) := by
  rw [← write.funcAt_entries]
  exact stateAt_foldl write.entries.sorted set.names name

theorem Write.func_of_isEmpty {write : Write} (h : write.isEmpty = true) (name : Bytes) : write.func name = .identity := by
  have hall : ∀ e ∈ write.entries.toList, e.2 = .identity := by simpa [isEmpty] using h
  rw [← write.funcAt_entries, ← funcAt_filter write.entries.sorted]
  refine funcAt_of_not_mem fun e he => ?_
  rw [mem_filter] at he
  exact absurd (hall e he.1) (of_decide_eq_true he.2)

/-- The write that does `pick` to each parent. -/
def pickAll {Cid : Type} (names : Cid → Bytes) (pick : Cid → Func) (write : Write) (parents : List Cid) : Write :=
  parents.foldl (fun write parent => write.andThen (names parent) (pick parent)) write

section
variable {Cid : Type} {names : Cid → Bytes} {pick : Cid → Func}

/-- A parent listed again is done to again, which changes nothing. -/
theorem func_pickAll [DecidableEq Cid] (hn : Function.Injective names) (parents : List Cid) (write : Write) {c : Cid}
    {s : State} (hagain : c ∈ parents → (pick c).apply ((pick c).apply ((write.func (names c)).apply s)) =
      (pick c).apply ((write.func (names c)).apply s)) :
    ((pickAll names pick write parents).func (names c)).apply s =
      if c ∈ parents then (pick c).apply ((write.func (names c)).apply s) else (write.func (names c)).apply s := by
  induction parents generalizing write with
  | nil => simp [pickAll]
  | cons parent parents ih =>
    rw [pickAll, foldl_cons, ← pickAll]
    by_cases hp : c = parent
    · subst hp
      have hf : ((write.andThen (names c) (pick c)).func (names c)).apply s =
          (pick c).apply ((write.func (names c)).apply s) := by
        rw [func_andThen, if_pos rfl, Func.andThen_apply]
      have hdone := hagain mem_cons_self
      rw [ih _ fun _ => by rw [hf, hdone, hdone], hf, hdone, ite_self, if_pos mem_cons_self]
    · have hf : (write.andThen (names parent) (pick parent)).func (names c) = write.func (names c) := by
        rw [func_andThen, if_neg fun h => hp (hn h)]
      rw [ih _ fun hc => by rw [hf, hagain (mem_cons_of_mem _ hc)], hf]
      simp only [mem_cons, hp, false_or]

theorem func_pickAll_other {other : Bytes} (ho : ∀ c, names c ≠ other) (parents : List Cid) (write : Write) :
    (pickAll names pick write parents).func other = write.func other := by
  induction parents generalizing write with
  | nil => rfl
  | cons parent parents ih =>
    rw [pickAll, foldl_cons, ← pickAll, ih, func_andThen, if_neg fun h => ho parent h.symm]

/-- What publishing a block does to each name: `pick` to its parents, an `add` to its own. -/
theorem func_add_pickAll [DecidableEq Cid] (hn : Function.Injective names) {parents : List Cid} {cid : Cid}
    (hcid : cid ∉ parents) (priority : UInt64) {c : Cid} {s : State}
    (hagain : c ∈ parents → (pick c).apply ((pick c).apply s) = (pick c).apply s) :
    (((pickAll names pick {} parents).add (names cid) priority).func (names c)).apply s =
      if c = cid then (Func.add priority).apply s else if c ∈ parents then (pick c).apply s else s := by
  have hp : ((pickAll names pick {} parents).func (names c)).apply s = if c ∈ parents then (pick c).apply s else s := by
    rw [func_pickAll hn parents {} (by simpa using hagain), func_empty, Func.identity_apply]
  rw [add, func_andThen]
  by_cases h : c = cid
  · subst h
    rw [if_pos rfl, if_pos rfl, Func.andThen_apply, hp, if_neg hcid]
  · rw [if_neg fun hc => h (hn hc), if_neg h, hp]

theorem func_add_pickAll_other {other : Bytes} (ho : ∀ c, names c ≠ other) (parents : List Cid) (cid : Cid)
    (priority : UInt64) : ((pickAll names pick {} parents).add (names cid) priority).func other = .identity := by
  rw [add, func_andThen, if_neg fun h => ho cid h.symm, func_pickAll_other ho, func_empty]

end

end Defra.Merge.HeadSet

namespace Defra.Heads
open Merge.HeadSet

theorem stateAt_mergeSet (set : Set) (write : Write) (name : Bytes) :
    stateAt (mergeSet set write).names name = (write.func name).apply (stateAt set.names name) := by
  unfold mergeSet
  split
  · rw [Write.func_of_isEmpty ‹_›, Func.identity_apply]
  · exact stateAt_apply set write name

end Defra.Heads
