import Defra.Stored.Field
import Defra.Theorems.Json.Frontier
import Mathlib.Data.Set.Countable
import Mathlib.Data.Set.List
import Mathlib.Logic.Equiv.List

/-! A CBOR library that reads back the frontiers whose values are nested at most 252 levels, as `ciborium` does: it stops at 256
    levels, and a value is four levels inside a frontier. Frontiers are countable, so that each has bytes of its own. -/

namespace Defra.Stored
open Json KeyedList List

mutual

def depth : Value → Nat
  | .array items => depthItems items + 1
  | .object ms => depthMembers ms + 1
  | .null | .bool _ | .number _ | .string _ => 0

def depthItems : List Value → Nat
  | [] => 0
  | item :: items => max (depth item) (depthItems items)

def depthMembers : List (String × Value) → Nat
  | [] => 0
  | (_, v) :: ms => max (depth v) (depthMembers ms)

end

theorem depthItems_le {n : Nat} {items : List Value} : depthItems items ≤ n ↔ ∀ item ∈ items, depth item ≤ n := by
  induction items with
  | nil => simp [depthItems]
  | cons item items ih => rw [depthItems, max_le_iff, forall_mem_cons, ih]

theorem depthMembers_le {n : Nat} {ms : List (String × Value)} : depthMembers ms ≤ n ↔ ∀ m ∈ ms, depth m.2 ≤ n := by
  induction ms with
  | nil => simp [depthMembers]
  | cons m ms ih => rw [depthMembers, max_le_iff, forall_mem_cons, ih]

/-! ### Frontiers are countable -/

instance instCountableUInt8 : Countable UInt8 := Function.Injective.countable fun _ _ => UInt8.toNat_inj.mp

instance instCountableString : Countable String :=
  (show Function.Injective utf8 from fun _ _ => utf8_inj).countable

instance instCountableNumber : Countable Number :=
  (show Function.Injective (fun n : Number => match n with
    | .posInt n => (0, (n.toNat : Int))
    | .negInt n => (1, n.toInt)
    | .float bits => (2, (bits.toNat : Int)) : Number → Nat × Int) from fun a b h => by
      cases a <;> cases b <;> simp_all [Int64.toInt_inj, UInt64.toNat_inj]).countable

theorem countable_lists {α : Type} {s : Set α} (h : s.Countable) : {l : List α | ∀ a ∈ l, a ∈ s}.Countable := by
  have := h.to_subtype
  rw [← Set.range_list_map_coe]
  exact Set.countable_range _

/-- A value one level deeper is a list of values, or of values with names. -/
theorem countable_depth_le (n : Nat) : {v : Value | depth v ≤ n}.Countable := by
  have hplain : (Set.range Value.bool ∪ Set.range Value.number ∪ Set.range Value.string ∪ {Value.null}).Countable :=
    (((Set.countable_range _).union (Set.countable_range _)).union (Set.countable_range _)).union (Set.countable_singleton _)
  induction n with
  | zero =>
    refine hplain.mono fun v h => ?_
    cases v with
    | array | object => exact absurd h (by simp [depth])
    | _ => simp
  | succ n ih =>
    have hm : {m : String × Value | depth m.2 ≤ n}.Countable := 
      ((Set.countable_univ.prod ih).mono fun m h => by simpa using h)
    refine ((hplain.union ((countable_lists ih).image .array)).union ((countable_lists hm).image .object)).mono fun v h => ?_
    cases v with
    | array items => exact .inl (.inr ⟨items, depthItems_le.mp (Nat.le_of_succ_le_succ h), rfl⟩)
    | object ms => exact .inr ⟨ms, depthMembers_le.mp (Nat.le_of_succ_le_succ h), rfl⟩
    | _ => simp

instance instCountableValue : Countable Value := by
  refine Set.countable_univ_iff.mp ((Set.countable_iUnion countable_depth_le).mono fun v _ => ?_)
  exact Set.mem_iUnion.mpr ⟨depth v, Set.mem_ofPred.mpr le_rfl⟩

instance instCountableJsonEdit : Countable JsonEdit :=
  (show Function.Injective (fun edit : JsonEdit => match edit with
    | .set v => (0, some v)
    | .map => (1, none)
    | .delete => (2, none) : JsonEdit → Nat × Option Value) from fun a b h => by
      cases a <;> cases b <;> simp_all).countable

theorem exists_number : ∃ number : Frontier → Nat, Function.Injective number := by
  have hentry : Function.Injective fun e : Entry => (e.path, e.block, e.priority, e.edit, e.seen) := by
    rintro ⟨⟩ ⟨⟩ h
    simp_all
  have := hentry.countable
  have hfrontier : Function.Injective fun f : Frontier => (f.removes.toList, f.entries.toList) := by
    rintro ⟨⟩ ⟨⟩ h
    exact congrArg₂ Frontier.mk (toList_inj (Prod.mk.inj h).1) (toList_inj (Prod.mk.inj h).2)
  have := hfrontier.countable
  exact Countable.exists_injective_nat Frontier

noncomputable def numbered (f : Frontier) : Bytes := 0xa2 :: replicate (exists_number.choose f) 0

theorem numbered_inj {f g : Frontier} (h : numbered f = numbered g) : f = g :=
  exists_number.choose_spec (by simpa [numbered] using h)

def ReadsEdit : JsonEdit → Prop
  | .set v => depth v ≤ 252
  | .map | .delete => True

open Classical in
/-- It knows the small numbers, the booleans and null as values. -/
noncomputable def limitedCbor : Cbor where
  isValue bytes := bytes.length = 1 && bytes.all fun byte => byte < 0x18 || (0xf4 ≤ byte && byte ≤ 0xf6)
  encode := numbered
  decode bytes := if h : ∃ f : Frontier, (∀ e ∈ f.entries, ReadsEdit e.edit) ∧ numbered f = bytes then some h.choose else none
  ReadsEdit := ReadsEdit
  encode_ne_nil f := cons_ne_nil _ _
  decode_encode f h := by
    have hex : ∃ g : Frontier, (∀ e ∈ g.entries, ReadsEdit e.edit) ∧ numbered g = numbered f := ⟨f, h, rfl⟩
    rw [dif_pos hex, numbered_inj hex.choose_spec.2]
  decode_encode_none f e he hreads := by
    refine dif_neg fun ⟨g, hg, h⟩ => hreads (hg e ?_)
    rwa [numbered_inj h]
  reads_of_decode bytes f h := by
    split at h
    · rename_i hex
      cases h
      exact hex.choose_spec.1
    · cases h

/-- The native types, and no custom one. -/
noncomputable def nativeCrdts : Crdts := ⟨limitedCbor, fun _ => none⟩

end Defra.Stored
