import Mathlib.Data.Set.List
import Defra.Theorems.Index.Unique

/-! What a unique index holds after any run of calls on it, and what calls then do: a save of values that are held is refused, and
    an entry stays through the calls of other documents. -/

namespace Defra.Index
open List KeyedList

namespace UniqueIndex
variable {idx : UniqueIndex} {doc : UInt64} {store : KvStore} {txn : Txn} {P : IndexEntry → Prop}
  {calls : List (UInt64 × Call)}

/-- The values that a call is to leave in the index. -/
def Call.stores : Call → Option (List NormalValue)
  | .save vals => some vals
  | .update _ news => some news
  | .delete _ => none

/-- The transaction after calls of any documents, whether they fail or not. -/
def runAll (idx : UniqueIndex) (calls : List (UInt64 × Call)) (txn : Txn) : Txn :=
  calls.foldl (fun txn call => (call.2.run idx call.1).after txn) txn

def IsEntry (idx : UniqueIndex) (P : IndexEntry → Prop) (kv : KvPair) : Prop :=
  ∃ e, (EntryOk idx.desc e ∧ P e) ∧ pairOf idx.collectionShortId idx.desc e = kv

/-- The index's part of the store is well-formed entries that `P` holds of. -/
def Sound (idx : UniqueIndex) (P : IndexEntry → Prop) (store : KvStore) : Prop :=
  ∀ kv ∈ store, indexPrefix idx.collectionShortId idx.desc.id <+: kv.key → idx.IsEntry P kv

theorem Sound.exists_holds (h : idx.Sound P store) :
    ∃ es, Holds store idx.collectionShortId idx.desc es ∧ ∀ e ∈ es, P e := by
  have hpairs : (store.toList.filter fun kv => (indexPrefix idx.collectionShortId idx.desc.id).isPrefixOf kv.key) ∈
      Set.range (map fun e : { x // EntryOk idx.desc x ∧ P x } => pairOf idx.collectionShortId idx.desc e) := by
    rw [Set.range_list_map]
    intro kv hkv
    obtain ⟨hmem, hpre⟩ := List.mem_filter.mp hkv
    obtain ⟨e, hentry, hpair⟩ := h kv hmem ( isPrefixOf_iff_prefix.mp hpre)
    exact ⟨⟨e, hentry⟩, hpair⟩
  obtain ⟨es, he⟩ := hpairs
  have hall : ∀ x ∈ es.map Subtype.val, EntryOk idx.desc x ∧ P x := by
    intro x hx
    obtain ⟨e, -, rfl⟩ := mem_map.mp hx
    exact e.2
  refine ⟨es.map Subtype.val, ⟨fun x hx => (hall x hx).1, ?_⟩, fun x hx => (hall x hx).2⟩
  rw [map_congr_left fun x hx => (hall x hx).1.entryPair_eq idx.collectionShortId, ← he, map_map, map_map]
  rfl

theorem Sound.apply {w : Write} (h : idx.Sound P store) (hs : ∀ kv, w = .set kv → idx.IsEntry P kv) :
    idx.Sound P (w.apply store) := by
  intro kv hkv hpre
  rcases mem_apply.mp hkv with hw | ⟨hkv, -⟩
  · exact hs kv hw
  · exact h kv hkv hpre

/-- What a call sets is the entry of its document and values. -/
theorem Call.of_set_mem_plan {call : Call} {kv : KvPair} (hmem : .set kv ∈ call.plan idx doc store) :
    ∃ vals, call.stores = some vals ∧ idx.Valid doc vals ∧ idx.pair doc vals = some kv := by
  cases call with
  | save vals =>
    obtain ⟨hvalid, _, hp, hs, -⟩ := mem_savePlan.mp hmem
    cases hs
    exact ⟨vals, rfl, hvalid, hp⟩
  | update olds news =>
    obtain ⟨⟨hvalid, hlen, -⟩, _, -, hs | ⟨_, hp, hs⟩⟩ := mem_updatePlan.mp hmem
    · cases hs
    · cases hs
      exact ⟨news, rfl, ⟨hvalid.1, hlen⟩, hp⟩
  | delete vals =>
    obtain ⟨-, _, -, hs, -⟩ := mem_deletePlan.mp hmem
    cases hs

theorem Sound.runAll (h : idx.Sound P txn.store) (hc : ∀ call ∈ calls, ∀ vals, call.2.stores = some vals →
    (∀ val ∈ vals, val.Indexable) ∧ P ⟨call.1, vals⟩) : idx.Sound P (idx.runAll calls txn).store := by
  refine foldlRecOn (motive := fun txn : Txn => idx.Sound P txn.store) calls _ h fun txn h call hcall => ?_
  rw [show (call.2.run idx call.1).after txn = _ from call.2.run_writes, store_append]
  refine foldlRecOn (motive := idx.Sound P) _ _ h fun store h w hw => h.apply fun kv hkv => ?_
  obtain ⟨vals, hs, hvalid, hpair⟩ := Call.of_set_mem_plan (hkv ▸ hw)
  obtain ⟨hv, hP⟩ := hc call hcall vals hs
  have hok : EntryOk idx.desc ⟨call.1, vals⟩ := ⟨hvalid.2, hvalid.1, hv⟩
  exact ⟨_, ⟨hok, hP⟩, Option.some.inj ((hok.entryPair_eq _).symm.trans hpair)⟩

/-! ### What a call returns -/

theorem validateDocShortId_ok (h : doc ≠ 0) (name : String) : validateDocShortId doc name txn = .ok () txn := by
  rw [validateDocShortId, if_neg h]
  rfl

theorem validateFieldCount_ok {vals : List NormalValue} (h : vals.length = idx.desc.fields.length) :
    idx.validateFieldCount vals doc txn = .ok () txn := by
  obtain ⟨error, heq⟩ := idx.validateFieldCount_eq
  rw [heq, if_pos h]
  rfl

section
variable {x : IndexEntry} (hok : EntryOk idx.desc x) (hnil : hasNilField x.values = false)
include hok hnil

theorem buildKey_ok : idx.buildKey x.values txn = .ok (entryKey idx.collectionShortId idx.desc x) txn := by
  have hpair := pair_eq hok
  rw [pair_unique hnil] at hpair
  obtain ⟨key, hk, hkv⟩ := Option.map_eq_some_iff.mp hpair
  rw [buildKey, hk, show key = _ from congrArg KvPair.key hkv]
  rfl

theorem save_eq : idx.save x.docShortId x.values txn =
    if (txn.store.find? (entryKey idx.collectionShortId idx.desc x)).isSome then
      .error .uniqueConstraintViolation txn
    else .ok () { txn with writes := txn.writes ++ [.set (pairOf idx.collectionShortId idx.desc x)] } := by
  rw [save, TxnM.bind_ok (validateDocShortId_ok hok.docShortId _), TxnM.bind_ok (validateFieldCount_ok hok.length), hnil,
    if_neg Bool.false_ne_true, TxnM.bind_ok (buildKey_ok hok hnil), TxnM.bind_ok (TxnM.has_eq _)]
  split
  · rfl
  · rw [← value_pairOf hnil]
    rfl

theorem update_refused {olds : List NormalValue} (hlen : olds.length = idx.desc.fields.length) {other : UInt64}
    {kv : KvPair} (hf : txn.store.find? (entryKey idx.collectionShortId idx.desc x) = some kv)
    (hv : decodeDocShortId kv.value = some other) (ho : other ≠ x.docShortId) :
    idx.update x.docShortId olds x.values txn = .error .uniqueConstraintViolation txn := by
  rw [update, TxnM.bind_ok (validateDocShortId_ok hok.docShortId _), TxnM.bind_ok (validateFieldCount_ok hlen),
    TxnM.bind_ok (validateFieldCount_ok hok.length)]
  refine TxnM.bind_error ?_ _
  rw [checkUnique, hnil, Bool.not_false, if_pos rfl, TxnM.bind_ok (buildKey_ok hok hnil), TxnM.bind_ok (TxnM.get_eq ..), hf]
  dsimp only [Option.map_some]
  rw [hv, TxnM.bind_ok (TxnM.ofOption_some ..), if_pos ho]
  rfl

end

/-! ### What other documents leave -/

section
variable {x : IndexEntry} {call : Call}

/-- A call of another document writes under the key of an entry only to update from its values. -/
theorem key_ne_of_mem_plan (hok : EntryOk idx.desc x) (hx : pairOf idx.collectionShortId idx.desc x ∈ store)
    (hid : doc ≠ x.docShortId) (hc : call.Indexable)
    (hfrom : ∀ olds news, call = .update olds news →
      entryKey idx.collectionShortId idx.desc ⟨doc, olds⟩ ≠ entryKey idx.collectionShortId idx.desc x)
    {w : Write} (hw : w ∈ call.plan idx doc store) : w.key ≠ entryKey idx.collectionShortId idx.desc x := by
  -- Keys are equal only of values without a nil field, and the entry's value names its own document.
  have hnil : ∀ {vals}, EntryOk idx.desc ⟨doc, vals⟩ →
      entryKey idx.collectionShortId idx.desc ⟨doc, vals⟩ = entryKey idx.collectionShortId idx.desc x →
      hasNilField vals = false ∧ (pairOf idx.collectionShortId idx.desc x).value = encodeDocShortId x.docShortId := by
    intro vals hv hk
    obtain ⟨hnil, hsame⟩ := of_key_eq hv hok hk
    have hno : hasNilField x.values = false := Bool.eq_false_iff.mpr fun hyes => hid (hsame hyes)
    exact ⟨hnil.trans hno, value_pairOf hno⟩
  have hfind : store.find? (entryKey idx.collectionShortId idx.desc x) = some (pairOf idx.collectionShortId idx.desc x) :=
    find?_eq_some.mpr ⟨hx, rfl⟩
  intro hk
  cases call with
  | save vals =>
    obtain ⟨hvalid, kv, hpair, rfl, hf⟩ := mem_savePlan.mp hw
    have hv : EntryOk idx.desc ⟨doc, vals⟩ := ⟨hvalid.2, hvalid.1, hc⟩
    cases (pair_eq hv).symm.trans hpair
    have hnone := hf (hnil hv hk).1
    rw [show (pairOf _ _ _).key = _ from hk, hfind] at hnone
    cases hnone
  | delete vals =>
    obtain ⟨hvalid, kv, hpair, rfl, hown⟩ := mem_deletePlan.mp hw
    have hv : EntryOk idx.desc ⟨doc, vals⟩ := ⟨hvalid.2, hvalid.1, hc⟩
    cases (pair_eq hv).symm.trans hpair
    obtain ⟨hno, hvalue⟩ := hnil hv hk
    rcases hown hno _ hx hk.symm with hempty | hsame
    · exact encodeDocShortId_ne_nil hok.docShortId (hvalue.symm.trans hempty)
    · have := congrArg decodeDocShortId (hvalue.symm.trans hsame)
      rw [decodeDocShortId_encode hok.docShortId, decodeDocShortId_encode hvalid.1] at this
      exact hid (Option.some.inj this).symm
  | update olds news =>
    obtain ⟨⟨hvalid, hlen, hf⟩, old, ho, rfl | ⟨kv, hpair, rfl⟩⟩ := mem_updatePlan.mp hw
    · have hv : EntryOk idx.desc ⟨doc, olds⟩ := ⟨hvalid.2, hvalid.1, hc.1⟩
      cases (pair_eq hv).symm.trans ho
      exact hfrom olds news rfl hk
    · have hv : EntryOk idx.desc ⟨doc, news⟩ := ⟨hlen, hvalid.1, hc.2⟩
      cases (pair_eq hv).symm.trans hpair
      obtain ⟨hno, hvalue⟩ := hnil hv hk
      rw [free, hno, pair_eq hv, Option.any_some, show (pairOf _ _ _).key = _ from hk, hfind, Option.all_some,
        hvalue, decodeDocShortId_encode hok.docShortId] at hf
      exact hid (Option.some.inj (of_decide_eq_true hf)).symm

theorem mem_runAll (hok : EntryOk idx.desc x) (hx : pairOf idx.collectionShortId idx.desc x ∈ txn.store)
    (hc : ∀ call ∈ calls, call.1 ≠ x.docShortId ∧ call.2.Indexable ∧ ∀ olds news,
      call.2 = .update olds news →
        entryKey idx.collectionShortId idx.desc ⟨call.1, olds⟩ ≠ entryKey idx.collectionShortId idx.desc x) :
    pairOf idx.collectionShortId idx.desc x ∈ (idx.runAll calls txn).store := by
  refine foldlRecOn (motive := fun txn : Txn => pairOf idx.collectionShortId idx.desc x ∈ txn.store) calls _ hx
    fun txn hx call hcall => ?_
  obtain ⟨hid, hindexable, hf⟩ := hc call hcall
  rw [show (call.2.run idx call.1).after txn = _ from call.2.run_writes, store_append]
  refine foldlRecOn (motive := fun store : KvStore => pairOf idx.collectionShortId idx.desc x ∈ store) _ _ hx
    fun store hs w hw => mem_apply.mpr (.inr ⟨hs, ?_⟩)
  exact key_ne_of_mem_plan hok hx hid hindexable hf hw

end

/-- What calls do to an index that holds the entries. Of values without a nil field that are held, a save is refused, and so is
    another document's update to them; a save of other values is done. An entry stays through the calls of other documents, but
    for an update from its own values. -/
structure Enforces (idx : UniqueIndex) (txn : Txn) (es : List IndexEntry) : Prop where
  save_held : ∀ x, EntryOk idx.desc x → hasNilField x.values = false → ∀ y ∈ es,
    entryKey idx.collectionShortId idx.desc y = entryKey idx.collectionShortId idx.desc x →
      idx.save x.docShortId x.values txn = .error .uniqueConstraintViolation txn
  update_held : ∀ x, EntryOk idx.desc x → hasNilField x.values = false → ∀ y ∈ es, y.docShortId ≠ x.docShortId →
    entryKey idx.collectionShortId idx.desc y = entryKey idx.collectionShortId idx.desc x →
      ∀ olds : List NormalValue, olds.length = idx.desc.fields.length →
        idx.update x.docShortId olds x.values txn = .error .uniqueConstraintViolation txn
  save_free : ∀ x, EntryOk idx.desc x → hasNilField x.values = false →
    (∀ y ∈ es, entryKey idx.collectionShortId idx.desc y ≠ entryKey idx.collectionShortId idx.desc x) →
      idx.save x.docShortId x.values txn =
        .ok () { txn with writes := txn.writes ++ [.set (pairOf idx.collectionShortId idx.desc x)] }
  kept : ∀ x ∈ es, ∀ later : List (UInt64 × Call), (∀ call ∈ later, call.1 ≠ x.docShortId ∧ call.2.Indexable ∧
    ∀ olds news, call.2 = .update olds news →
      entryKey idx.collectionShortId idx.desc ⟨call.1, olds⟩ ≠ entryKey idx.collectionShortId idx.desc x) →
    pairOf idx.collectionShortId idx.desc x ∈ (idx.runAll later txn).store

theorem enforces_of_holds {es : List IndexEntry} (hh : Holds txn.store idx.collectionShortId idx.desc es) :
    idx.Enforces txn es := by
  have hmem : ∀ y ∈ es, pairOf idx.collectionShortId idx.desc y ∈ txn.store := by
    intro y hy
    have hpair : some (pairOf idx.collectionShortId idx.desc y) ∈ es.map (entryPair idx.collectionShortId idx.desc) :=
      mem_map.mpr ⟨y, hy, pair_eq (hh.ok y hy)⟩
    rw [← hh.pairs] at hpair
    obtain ⟨kv, hkv, heq⟩ := mem_map.mp hpair
    cases heq
    exact (List.mem_filter.mp hkv).1
  have hf : ∀ x, ∀ y ∈ es,
      entryKey idx.collectionShortId idx.desc y = entryKey idx.collectionShortId idx.desc x →
      txn.store.find? (entryKey idx.collectionShortId idx.desc x) = some (pairOf idx.collectionShortId idx.desc y) :=
    fun x y hy hkey => find?_eq_some.mpr ⟨hmem y hy, hkey⟩
  refine ⟨fun x hok hnil y hy hkey => ?_, fun x hok hnil y hy hid hkey olds hlen => ?_, fun x hok hnil hfree => ?_,
    fun x hx later hl => mem_runAll (hh.ok x hx) (hmem x hx) hl⟩
  · rw [save_eq hok hnil, hf x y hy hkey, Option.isSome_some, if_pos rfl]
  · refine update_refused hok hnil hlen (hf x y hy hkey) ?_ hid
    rw [value_pairOf ((of_key_eq (hh.ok y hy) hok hkey).1.trans hnil), decodeDocShortId_encode (hh.ok y hy).docShortId]
  · rw [save_eq hok hnil, if_neg]
    intro hs
    obtain ⟨kv, hkv⟩ := Option.isSome_iff_exists.mp hs
    obtain ⟨hkv, hkey⟩ := find?_eq_some.mp hkv
    obtain ⟨y, hy, rfl⟩ := exists_entry hh hkv (hkey ▸ prefix_append _ _)
    exact hfree y hy hkey

/-- After any calls of any documents, the index holds well-formed entries in the order of their keys, as its scans take them,
    each stored by a call of its document, and the calls that follow keep their values unique. -/
theorem runAll_enforces (idx : UniqueIndex) (calls : List (UInt64 × Call)) (txn : Txn)
    (hempty : ∀ kv ∈ txn.store, ¬indexPrefix idx.collectionShortId idx.desc.id <+: kv.key)
    (hcalls : ∀ call ∈ calls, ∀ vals, call.2.stores = some vals → ∀ val ∈ vals, val.Indexable) :
    ∃ es, Holds (idx.runAll calls txn).store idx.collectionShortId idx.desc es ∧
      (∀ e ∈ es, ∃ call, (e.docShortId, call) ∈ calls ∧ call.stores = some e.values) ∧
      idx.Enforces (idx.runAll calls txn) es := by
  set given : IndexEntry → Prop := fun e => ∃ call, (e.docShortId, call) ∈ calls ∧ call.stores = some e.values
  have hstart : idx.Sound given txn.store := fun kv hkv hpre => absurd hpre (hempty kv hkv)
  obtain ⟨es, hh, he⟩ := (hstart.runAll fun call hc vals hv =>
    ⟨hcalls call hc vals hv, call.2, hc, hv⟩).exists_holds
  exact ⟨es, hh, he, enforces_of_holds hh⟩

/-- Document 2 tries to take the score of document 1. -/
def rivals : List (UInt64 × Call) :=
  [(1, .save [.scalar (.int 5)]), (2, .save [.scalar (.int 6)]), (2, .update [.scalar (.int 6)] [.scalar (.int 5)])]

/-- A third save of that score is refused, and the entry of document 1 outlives a deletion by document 2. -/
theorem rivals_refused : scoreIndex.save 3 [.scalar (.int 5)] (scoreIndex.runAll rivals ⟨∅, []⟩) =
        .error .uniqueConstraintViolation (scoreIndex.runAll rivals ⟨∅, []⟩) ∧
      pairOf 1 scoreIndex.desc ⟨1, [.scalar (.int 5)]⟩ ∈
        (scoreIndex.runAll [(2, .delete [.scalar (.int 5)])] (scoreIndex.runAll rivals ⟨∅, []⟩)).store := by
  obtain ⟨es, hh, hgiven, henforces⟩ := runAll_enforces scoreIndex rivals ⟨∅, []⟩ nofun (by
    simp only [rivals, mem_cons, not_mem_nil, or_false, forall_eq_or_imp, forall_eq, Call.stores, Option.some.injEq, forall_eq']
    exact ⟨indexable_int 5, indexable_int 6, indexable_int 5⟩)
  have hkv : ⟨[47, 1, 47, 1, 47, 141], [1]⟩ ∈ (scoreIndex.runAll rivals ⟨∅, []⟩).store.toList := by decide
  obtain ⟨⟨doc, vals⟩, hx, hpair⟩ := exists_entry hh (mem_def.mpr hkv) (by decide)
  have hfirst : doc = 1 ∧ vals = [.scalar (.int 5)] := by
    obtain ⟨call, hc, hs⟩ := hgiven _ hx
    simp only [rivals, mem_cons, not_mem_nil, or_false, Prod.mk.injEq] at hc
    rcases hc with ⟨rfl, rfl⟩ | ⟨rfl, rfl⟩ | ⟨rfl, rfl⟩ <;> cases hs
    · exact ⟨rfl, rfl⟩
    · exact absurd hpair (by decide)
    · exact absurd hpair (by decide)
  obtain ⟨rfl, rfl⟩ := hfirst
  refine ⟨henforces.save_held ⟨3, [.scalar (.int 5)]⟩ ⟨rfl, by decide, forall_mem_singleton.mpr (indexable_int 5)⟩ rfl _ hx
    (by decide), henforces.kept _ hx _ (forall_mem_singleton.mpr ⟨by decide, ?_, nofun⟩)⟩
  exact forall_mem_singleton.mpr (indexable_int 5)

end UniqueIndex
end Defra.Index
