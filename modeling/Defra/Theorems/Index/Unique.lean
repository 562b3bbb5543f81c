import Defra.Index.Unique
import Defra.Theorems.Index.Range

/-! A document's calls on a unique index keep the entries of other documents, but for an update from values that another
    document holds: it deletes the old entry without asking whose it is. -/

namespace Defra.Index
open KeyedList List Reader

variable {writes : List Write} {w : Write}

/-! ### What a call writes -/

namespace TxnM
variable {α β : Type} {call : TxnM α} {txn txn' : Txn}

/-- The transaction that a call leaves, whether it fails or not. -/
def after (call : TxnM α) (txn : Txn) : Txn :=
  match call txn with
  | .ok _ txn => txn
  | .error _ txn => txn

/-- The call adds exactly these writes, whether it fails or not. -/
def Writes (call : TxnM α) (txn : Txn) (writes : List Write) : Prop :=
  call.after txn = { txn with writes := txn.writes ++ writes }

variable {a : α} {error : StorageError} {next : α → TxnM β} (key : Bytes)

theorem bind_ok (h : call txn = .ok a txn') (next : α → TxnM β) : (call >>= next) txn = next a txn' := by
  show EStateM.bind call next txn = _
  rw [EStateM.bind, h]

theorem bind_error (h : call txn = .error error txn') (next : α → TxnM β) :
    (call >>= next) txn = .error error txn' := by
  show EStateM.bind call next txn = _
  rw [EStateM.bind, h]

theorem writes_bind (h : call txn = .ok a txn) (hn : (next a).Writes txn writes)
    : (call >>= next).Writes txn writes := by
  rw [Writes, after, bind_ok h]
  exact hn

theorem writes_bind_error (h : call txn = .error error txn) (next : α → TxnM β) : (call >>= next).Writes txn [] := by
  rw [Writes, after, bind_error h, append_nil]

theorem ofOption_some (error : StorageError) (a : α) : ofOption error (some a) txn = .ok a txn := rfl

theorem get_eq : get key txn = .ok ((txn.store.find? key).map KvPair.value) txn := rfl

theorem has_eq : has key txn = .ok (txn.store.find? key).isSome txn := rfl

theorem writes_pure (a : α) : (pure a : TxnM α).Writes txn [] := by
  rw [Writes, append_nil]
  rfl

theorem writes_throw (error : StorageError) : (throw error : TxnM α).Writes txn [] := by
  rw [Writes, append_nil]
  rfl

theorem writes_write (w : Write) : (write w).Writes txn [w] := rfl

theorem writes_bind_write (h : call txn = .ok a { txn with writes := txn.writes ++ [w] })
    (hn : (next a).Writes { txn with writes := txn.writes ++ [w] } writes)
    : (call >>= next).Writes txn (w :: writes) := by
  rw [Writes, after, bind_ok h]
  refine Eq.trans hn ?_
  rw [append_assoc, singleton_append]

end TxnM

open TxnM

namespace UniqueIndex
variable {idx : UniqueIndex} {doc : UInt64} {vals olds news : List NormalValue} {txn : Txn}
  {store : KvStore} {kv held : KvPair}

/-- The values pass the checks that come before all writes. -/
def Valid (idx : UniqueIndex) (doc : UInt64) (vals : List NormalValue) : Prop :=
  doc ≠ 0 ∧ vals.length = idx.desc.fields.length

instance instDecidableValid : Decidable (idx.Valid doc vals) := inferInstanceAs (Decidable (_ ∧ _))

/-- The pair that a document's values are stored as. -/
def pair (idx : UniqueIndex) (doc : UInt64) (vals : List NormalValue) : Option KvPair :=
  entryPair idx.collectionShortId idx.desc ⟨doc, vals⟩

/-- A field is nil, or what is under the key of the values is the document's own. -/
def free (idx : UniqueIndex) (doc : UInt64) (store : KvStore) (vals : List NormalValue) : Bool :=
  hasNilField vals || (idx.pair doc vals).any fun kv =>
    (store.find? kv.key).all fun held => decodeDocShortId held.value = some doc

theorem pair_nil (h : hasNilField vals = true) : idx.pair doc vals =
    (Index.buildKey idx.collectionShortId idx.desc vals doc).map fun key => { key, value := [] } := by
  rw [pair, entryPair, h, Bool.not_true, Bool.and_false]
  exact (Option.map_eq_bind ..).symm

theorem pair_unique (h : hasNilField vals = false) : idx.pair doc vals =
    (Index.buildKey idx.collectionShortId idx.desc vals 0).map fun key =>
      { key, value := encodeDocShortId doc } := by
  rw [pair, entryPair, h, idx.unique]
  exact (Option.map_eq_bind ..).symm

theorem validateDocShortId_eq (name : String) : ∃ error, validateDocShortId doc name =
    if doc = 0 then throw error else pure () := ⟨_, rfl⟩

theorem validateFieldCount_eq : ∃ error, idx.validateFieldCount vals doc =
    if vals.length = idx.desc.fields.length then pure () else throw error := ⟨_, ite_not ..⟩

variable {P : Prop} {next : TxnM Unit} (call : Call)

theorem writes_validateFieldCount (h : next.Writes txn writes) :
    (do idx.validateFieldCount vals doc
        next : TxnM Unit).Writes txn (if vals.length = idx.desc.fields.length then writes else []) := by
  obtain ⟨error, heq⟩ := idx.validateFieldCount_eq
  rw [heq]
  split
  · exact writes_bind rfl h
  · exact writes_bind_error rfl _

theorem writes_validate (h : next.Writes txn writes) :
    (do validateDocShortId doc idx.desc.name
        idx.validateFieldCount vals doc
        next : TxnM Unit).Writes txn (if idx.Valid doc vals then writes else []) := by
  obtain ⟨error, heq⟩ := validateDocShortId_eq idx.desc.name
  rw [heq]
  by_cases hid : doc = 0
  · rw [if_pos hid, if_neg fun hvalid : idx.Valid doc vals => hvalid.1 hid]
    exact writes_bind_error rfl _
  · rw [if_neg hid, if_congr (show idx.Valid doc vals ↔ _ from and_iff_right hid) rfl rfl]
    exact writes_bind rfl (writes_validateFieldCount h)

/-- A call that goes on with an entry's key, in either layout, and ends when the values have none. -/
theorem writes_key {withId noId : Bytes → TxnM Unit} {writes : KvPair → List Write}
    (hid : hasNilField vals = true → ∀ key, (withId key).Writes txn (writes { key, value := [] }))
    (hno : hasNilField vals = false → ∀ key,
      (noId key).Writes txn (writes { key, value := encodeDocShortId doc })) :
    (if hasNilField vals = true then idx.buildKeyWithDocShortId vals doc >>= withId
      else idx.buildKey vals >>= noId).Writes txn ((idx.pair doc vals).elim [] writes) := by
  cases hnil : hasNilField vals with
  | true =>
    rw [buildKeyWithDocShortId, pair_nil hnil]
    cases Index.buildKey idx.collectionShortId idx.desc vals doc with
    | none => exact writes_bind_error rfl _
    | some key => exact writes_bind rfl (hid hnil key)
  | false =>
    rw [buildKey, pair_unique hnil]
    cases Index.buildKey idx.collectionShortId idx.desc vals 0 with
    | none => exact writes_bind_error rfl _
    | some key => exact writes_bind rfl (hno hnil key)

namespace Call

/-! ### Plans -/

/-- The writes of a call, from what the store holds. -/
def plan (idx : UniqueIndex) (doc : UInt64) (store : KvStore) : Call → List Write
  | .save vals =>
    if idx.Valid doc vals then (idx.pair doc vals).elim [] fun kv =>
      if hasNilField vals = false ∧ (store.find? kv.key).isSome then [] else [.set kv]
    else []
  | .update olds news =>
    if idx.Valid doc olds ∧ news.length = idx.desc.fields.length ∧
        idx.free doc store news = true then
      (idx.pair doc olds).elim [] fun old =>
        .delete old.key :: (idx.pair doc news).elim [] fun kv => [.set kv]
    else []
  | .delete vals =>
    if idx.Valid doc vals then (idx.pair doc vals).elim [] fun kv =>
      if hasNilField vals = false ∧ (store.find? kv.key).any (fun held =>
        !held.value.isEmpty && held.value ≠ encodeDocShortId doc) then [] else [.delete kv.key]
    else []

end Call

theorem save_writes : (idx.save doc vals).Writes txn ((Call.save vals).plan idx doc txn.store) := by
  refine writes_validate (writes_key ?_ ?_)
  · intro hnil key
    rw [if_neg (by simp [hnil])]
    exact writes_write _
  · intro hnil key
    refine writes_bind rfl ?_
    cases hhas : (txn.store.find? key).isSome with
    | true =>
      rw [if_pos rfl, if_pos ⟨hnil, rfl⟩]
      exact writes_throw _
    | false =>
      rw [if_neg Bool.false_ne_true, if_neg fun h => Bool.false_ne_true h.2]
      exact writes_write _

theorem delete_writes : (idx.delete doc vals).Writes txn ((Call.delete vals).plan idx doc txn.store) := by
  refine writes_validate (writes_key ?_ ?_)
  · intro hnil key
    rw [if_neg (by simp [hnil])]
    exact writes_write _
  · intro hnil key
    refine writes_bind rfl ?_
    rw [Option.any_map]
    split
    · rename_i hother
      rw [if_pos ⟨hnil, hother⟩]
      exact writes_pure _
    · rename_i hown
      rw [if_neg fun h => hown h.2]
      exact writes_write _

/-- The check of an update writes nothing, and lets the update go on when the new values are free. -/
theorem checkUnique_eq : ∃ error, idx.checkUnique doc news txn =
    bif idx.free doc txn.store news then .ok () txn else .error error txn := by
  unfold checkUnique free
  cases hnil : hasNilField news with
  | true => exact ⟨.encoding, rfl⟩
  | false =>
    rw [Bool.not_false, if_pos rfl, buildKey, pair_unique hnil]
    cases Index.buildKey idx.collectionShortId idx.desc news 0 with
    | none => exact ⟨.encoding, bind_error rfl _⟩
    | some key =>
      rw [Option.map_some, Option.any_some, bind_ok (ofOption_some ..), bind_ok (get_eq ..)]
      cases txn.store.find? key with
      | none => exact ⟨.encoding, rfl⟩
      | some held =>
        dsimp only [Option.map_some, Option.all_some]
        rcases Option.eq_none_or_eq_some (decodeDocShortId held.value) with hn | ⟨other, hs⟩
        · rw [hn]
          exact ⟨.shortId, bind_error rfl _⟩
        · rw [hs, bind_ok (ofOption_some ..)]
          by_cases ho : other = doc
          · rw [if_neg (not_not_intro ho), ho, decide_eq_true rfl]
            exact ⟨.encoding, rfl⟩
          · rw [if_pos ho, decide_eq_false fun h => ho (Option.some.inj h)]
            exact ⟨.uniqueConstraintViolation, rfl⟩

theorem insertNew_writes : (idx.insertNew doc news).Writes txn
    ((idx.pair doc news).elim [] fun kv => [.set kv]) :=
  writes_key (fun _ _ => writes_write _) fun _ _ => writes_write _

theorem deleteOld_eq : ∃ error, idx.deleteOld doc olds txn =
    (idx.pair doc olds).elim (.error error txn) fun old =>
      .ok () { txn with writes := txn.writes ++ [.delete old.key] } := by
  rw [deleteOld]
  cases hnil : hasNilField olds with
  | true =>
    rw [buildKeyWithDocShortId, pair_nil hnil]
    cases Index.buildKey idx.collectionShortId idx.desc olds doc with
    | none => exact ⟨.encoding, bind_error rfl _⟩
    | some key => exact ⟨.encoding, bind_ok rfl _⟩
  | false =>
    rw [buildKey, pair_unique hnil]
    cases Index.buildKey idx.collectionShortId idx.desc olds 0 with
    | none => exact ⟨.encoding, bind_error rfl _⟩
    | some key => exact ⟨.encoding, bind_ok rfl _⟩

theorem update_writes : (idx.update doc olds news).Writes txn ((Call.update olds news).plan idx doc txn.store) := by
  rw [Call.plan, ite_and, ite_and]
  refine writes_validate (writes_validateFieldCount ?_)
  obtain ⟨error, hcheck⟩ := idx.checkUnique_eq
  split
  · rename_i hfree
    rw [hfree] at hcheck
    refine writes_bind hcheck ?_
    obtain ⟨error, hdel⟩ := idx.deleteOld_eq
    cases ho : idx.pair doc olds with
    | none =>
      rw [ho] at hdel
      exact writes_bind_error hdel _
    | some old =>
      rw [ho] at hdel
      exact writes_bind_write hdel insertNew_writes
  · rename_i hfree
    rw [Bool.eq_false_iff.mpr hfree] at hcheck
    exact writes_bind_error hcheck _

/-- Every call writes what its plan says. -/
theorem Call.run_writes : (call.run idx doc).Writes txn (call.plan idx doc txn.store) := by
  cases call with
  | save vals => exact save_writes
  | update olds news => exact update_writes
  | delete vals => exact delete_writes

/-! ### Other documents' entries -/

/-- The entry is another document's. -/
def Foreign (idx : UniqueIndex) (doc : UInt64) (kv : KvPair) : Prop :=
  ∃ other, idx.owner kv = some other ∧ other ≠ doc

/-- Through a call, and wherever it breaks off, the entries of other documents stay as they are. -/
def Keeps (idx : UniqueIndex) (doc : UInt64) (txn : Txn) (call : Call) : Prop :=
  ∀ writes, txn.writes <+: writes → writes <+: ((call.run idx doc).after txn).writes →
    ∀ kv ∈ txn.store, idx.Foreign doc kv → kv ∈ Txn.store { txn with writes }

/-- The write is not to the key of another document's entry, unless it writes that entry. -/
def Spares (idx : UniqueIndex) (doc : UInt64) (store : KvStore) (w : Write) : Prop :=
  ∀ kv ∈ store, idx.Foreign doc kv → w.key = kv.key → w = .set kv

theorem mem_apply : kv ∈ w.apply store ↔ w = .set kv ∨ kv ∈ store ∧ w.key ≠ kv.key := by
  cases w with
  | set kv' =>
    rw [Write.apply, mem_put, Write.set.injEq]
    exact or_congr eq_comm (and_congr_right fun _ => not_congr eq_comm)
  | delete key =>
    rw [Write.apply]
    simp [Write.key, eq_comm]

theorem store_append (base : KvStore) (writes writes' : List Write) :
    Txn.store ⟨base, writes ++ writes'⟩ = writes'.foldl Write.apply (Txn.store ⟨base, writes⟩) := foldl_append ..

/-- A call keeps the entries of others exactly when each of its writes spares them. -/
theorem keeps_iff : idx.Keeps doc txn call ↔ ∀ w ∈ call.plan idx doc txn.store, idx.Spares doc txn.store w := by
  have ha : ((call.run idx doc).after txn).writes = txn.writes ++ call.plan idx doc txn.store :=
    congrArg Txn.writes (call.run_writes)
  rw [Keeps, ha]
  constructor
  · intro h w hw kv hkv hforeign hk
    obtain ⟨before, rest, hp⟩ := append_of_mem hw
    rw [hp] at h
    have hkept := h (txn.writes ++ (before ++ [w])) (prefix_append _ _)
      (prefix_append_right_inj _ |>.mpr ⟨rest, by simp⟩) kv hkv hforeign
    rw [store_append, foldl_append] at hkept
    rcases mem_apply.mp hkept with heq | ⟨-, hne⟩
    · exact heq
    · exact absurd hk hne
  · rintro h _ ⟨writes, rfl⟩ hpre kv hkv hforeign
    rw [prefix_append_right_inj] at hpre
    rw [store_append]
    have hall : ∀ w ∈ writes, w.key = kv.key → w = .set kv := fun w hw => h w (hpre.subset hw) kv hkv hforeign
    clear hpre
    have hkv' : kv ∈ Txn.store ⟨txn.base, txn.writes⟩ := hkv
    generalize Txn.store ⟨txn.base, txn.writes⟩ = store at hkv'
    induction writes generalizing store with
    | nil => exact hkv'
    | cons w writes ih =>
      refine ih (fun v hv => hall v (mem_cons_of_mem w hv)) _ (mem_apply.mpr ?_)
      by_cases hk : w.key = kv.key
      · exact .inl (hall w mem_cons_self hk)
      · exact .inr ⟨hkv', hk⟩

/-- No entry under the key of the values, of those that `P` holds of, is another document's. -/
def Clear (idx : UniqueIndex) (doc : UInt64) (store : KvStore) (vals : List NormalValue) (P : KvPair → Prop) : Prop :=
  ∀ kv, idx.pair doc vals = some kv → ∀ held ∈ store, held.key = kv.key → P held →
    ¬idx.Foreign doc held

/-- What a call asks of the entries under its keys. A save with a nil field and the second half of an update write a pair
    without a value, which leaves such a pair as it is. A deletion without a nil field asks for the owner of an entry with a
    value. The first half of an update asks for no owner. -/
def Call.FromOwn (idx : UniqueIndex) (doc : UInt64) (store : KvStore) : Call → Prop
  | .save vals => idx.Valid doc vals → hasNilField vals = true →
      idx.Clear doc store vals (·.value ≠ [])
  | .update olds news => idx.Valid doc olds → news.length = idx.desc.fields.length →
      idx.free doc store news = true → (idx.pair doc olds).isSome →
      idx.Clear doc store olds (fun _ => True) ∧
        (hasNilField news = true → idx.Clear doc store news (·.value ≠ []))
  | .delete vals => idx.Valid doc vals →
      idx.Clear doc store vals fun held => hasNilField vals = true ∨ held.value = []

/-! ### Which calls spare them -/

theorem mem_guarded [Decidable P] {o : Option KvPair} {f : KvPair → List Write} :
    w ∈ (if P then o.elim [] f else []) ↔ P ∧ ∃ kv, o = some kv ∧ w ∈ f kv := by
  cases o <;> split <;> simp [*]

theorem mem_unless [Decidable P] {v : Write} : w ∈ (if P then [] else [v]) ↔ w = v ∧ ¬P := by
  split <;> simp [*]

/-- What a save writes. -/
theorem mem_savePlan : w ∈ (Call.save vals).plan idx doc store ↔
    idx.Valid doc vals ∧ ∃ kv, idx.pair doc vals = some kv ∧ w = .set kv ∧
      (hasNilField vals = false → store.find? kv.key = none) := by
  refine mem_guarded.trans (and_congr_right fun _ => exists_congr fun kv => and_congr_right fun _ => mem_unless.trans ?_)
  rw [not_and, Option.not_isSome_iff_eq_none]

theorem mem_deletePlan : w ∈ (Call.delete vals).plan idx doc store ↔
    idx.Valid doc vals ∧ ∃ kv, idx.pair doc vals = some kv ∧ w = .delete kv.key ∧
      (hasNilField vals = false → ∀ held ∈ store, held.key = kv.key →
        held.value = [] ∨ held.value = encodeDocShortId doc) := by
  refine mem_guarded.trans (and_congr_right fun _ => exists_congr fun kv => and_congr_right fun _ => mem_unless.trans ?_)
  have hf : ∀ held, store.find? kv.key = some held ↔ held ∈ store ∧ held.key = kv.key :=
    fun _ => find?_eq_some
  simp only [not_and, Option.any_eq_true, hf]
  simp [or_iff_not_imp_left]

theorem mem_updatePlan : w ∈ (Call.update olds news).plan idx doc store ↔
    (idx.Valid doc olds ∧ news.length = idx.desc.fields.length ∧
      idx.free doc store news = true) ∧ ∃ old, idx.pair doc olds = some old ∧
        (w = .delete old.key ∨ ∃ kv, idx.pair doc news = some kv ∧ w = .set kv) := by
  refine mem_guarded.trans (and_congr_right fun _ => exists_congr fun old => and_congr_right fun _ => ?_)
  cases idx.pair doc news <;> simp

theorem spares_delete_iff {key : Bytes} : idx.Spares doc store (.delete key) ↔
    ∀ held ∈ store, held.key = key → ¬idx.Foreign doc held := by
  simp only [Spares, Write.key, reduceCtorEq]
  exact forall₂_congr fun held _ => ⟨fun h hk hforeign => h hforeign hk.symm, fun h hforeign hk =>
    h hk.symm hforeign⟩

/-- A pair without a value leaves such a pair as it is. -/
theorem spares_set_nil (hnil : hasNilField vals = true) (hp : idx.pair doc vals = some kv) :
    idx.Spares doc store (.set kv) ↔ idx.Clear doc store vals (·.value ≠ []) := by
  have hv : kv.value = [] := by
    rw [pair_nil hnil] at hp
    obtain ⟨key, -, rfl⟩ := Option.map_eq_some_iff.mp hp
    rfl
  constructor
  · rintro h _ hp' held he hk hne hforeign
    cases hp.symm.trans hp'
    cases h held he hforeign hk.symm
    exact hne hv
  · intro h held he hforeign hk
    have hempty : held.value = [] := by
      by_contra hne
      exact h kv hp held he hk.symm hne hforeign
    cases held
    cases kv
    cases hk
    cases hempty.trans hv.symm
    rfl

theorem not_foreign_of_value (hown : decodeDocShortId held.value = some doc) : ¬idx.Foreign doc held := by
  rintro ⟨other, ho, hne⟩
  rw [owner] at ho
  split at ho
  · split at ho
    · rename_i hempty
      rw [List.isEmpty_iff.mp hempty] at hown
      cases hown
    · exact hne (Option.some.inj (ho.symm.trans hown))
  · cases ho

/-- Without a nil field, a document writes over an entry only where its value names the document. -/
theorem spares_set_free (hnil : hasNilField vals = false) (hp : idx.pair doc vals = some kv)
    (hf : idx.free doc store vals = true) : idx.Spares doc store (.set kv) := by
  intro held he hforeign hk
  have hfind : store.find? kv.key = some held := find?_eq_some.mpr ⟨he, hk.symm⟩
  rw [free, hnil, hp, Option.any_some, hfind] at hf
  exact absurd hforeign (not_foreign_of_value (of_decide_eq_true hf))

theorem save_spares_iff : (∀ w ∈ (Call.save vals).plan idx doc store, idx.Spares doc store w) ↔
    (Call.save vals).FromOwn idx doc store := by
  simp only [mem_savePlan]
  constructor
  · intro h hvalid hnil kv hpair
    exact (spares_set_nil hnil hpair).mp (h _ ⟨hvalid, kv, hpair, rfl, fun hf => by cases hnil.symm.trans hf⟩) kv hpair
  · rintro h w ⟨hvalid, kv, hpair, rfl, hfree⟩
    cases hnil : hasNilField vals with
    | true => exact (spares_set_nil hnil hpair).mpr (h hvalid hnil)
    | false => exact spares_set_free hnil hpair (by rw [free, hnil, hpair, Option.any_some, hfree hnil]; rfl)

theorem delete_spares_iff : (∀ w ∈ (Call.delete vals).plan idx doc store, idx.Spares doc store w) ↔
    (Call.delete vals).FromOwn idx doc store := by
  simp only [mem_deletePlan]
  constructor
  · intro h hvalid kv hpair held he hkey hasks
    by_cases hown : held.value = encodeDocShortId doc
    · exact not_foreign_of_value (by rw [hown, decodeDocShortId_encode hvalid.1])
    · refine spares_delete_iff.mp (h _ ⟨hvalid, kv, hpair, rfl, fun hnil existing' he' hkey' => ?_⟩) held he hkey
      have hf := find?_eq_some.mpr ⟨he, hkey⟩
      cases hf.symm.trans (find?_eq_some.mpr ⟨he', hkey'⟩)
      exact .inl (hasks.resolve_left (by rw [hnil]; exact Bool.false_ne_true))
  · rintro h w ⟨hvalid, kv, hpair, rfl, hown⟩
    refine spares_delete_iff.mpr fun held he hkey => ?_
    cases hnil : hasNilField vals with
    | true => exact h hvalid kv hpair held he hkey (.inl hnil)
    | false =>
      rcases hown hnil held he hkey with hempty | hv
      · exact h hvalid kv hpair held he hkey (.inr hempty)
      · exact not_foreign_of_value (by rw [hv, decodeDocShortId_encode hvalid.1])

theorem update_spares_iff : (∀ w ∈ (Call.update olds news).plan idx doc store, idx.Spares doc store w) ↔
      (Call.update olds news).FromOwn idx doc store := by
  simp only [mem_updatePlan]
  constructor
  · intro h hvalid hlen hfree hsome
    obtain ⟨old, ho⟩ := Option.isSome_iff_exists.mp hsome
    have hspares := fun w hw => h w ⟨⟨hvalid, hlen, hfree⟩, old, ho, hw⟩
    refine ⟨fun old' ho' held he hkey _ => ?_, fun hnil kv hpair => ?_⟩
    · cases ho.symm.trans ho'
      exact spares_delete_iff.mp (hspares _ (.inl rfl)) held he hkey
    · exact (spares_set_nil hnil hpair).mp (hspares _ (.inr ⟨kv, hpair, rfl⟩)) kv hpair
  · rintro h w ⟨⟨hvalid, hlen, hfree⟩, old, ho, hw⟩
    obtain ⟨hclear, hnew⟩ := h hvalid hlen hfree (Option.isSome_iff_exists.mpr ⟨old, ho⟩)
    rcases hw with rfl | ⟨kv, hpair, rfl⟩
    · exact spares_delete_iff.mpr fun held he hkey => hclear old ho held he hkey trivial
    · cases hnil : hasNilField news with
      | true => exact (spares_set_nil hnil hpair).mpr (hnew hnil)
      | false => exact spares_set_free hnil hpair hfree

theorem keeps_iff_fromOwn : idx.Keeps doc txn call ↔ call.FromOwn idx doc txn.store := by
  rw [keeps_iff]
  cases call with
  | save vals => exact save_spares_iff
  | update olds news => exact update_spares_iff
  | delete vals => exact delete_spares_iff

section
variable {es : List IndexEntry} {x y : IndexEntry}

/-! ### In an index of well-formed entries -/

/-- Entries under one key have the same nil fields, and are of one document where it is in the key. -/
theorem of_key_eq (hx : EntryOk idx.desc x) (hy : EntryOk idx.desc y)
    (hkey : entryKey idx.collectionShortId idx.desc x = entryKey idx.collectionShortId idx.desc y) :
    hasNilField x.values = hasNilField y.values ∧ (hasNilField y.values = true → x.docShortId = y.docShortId) := by
  have hread := (encodeFields_codes hx.length hx.values).2 (keySuffix idx.desc x)
  rw [append_cancel_left hkey, (encodeFields_codes hy.length hy.values).2 (keySuffix idx.desc y)] at hread
  obtain ⟨hv, hsuf⟩ := Prod.mk.inj (Option.some.inj hread)
  have hnil : hasNilField x.values = hasNilField y.values := by
    rw [← hx.hasNilField_scanned, ← hv, hy.hasNilField_scanned]
  refine ⟨hnil, fun hyes => ?_⟩
  rw [keySuffix, keySuffix, hnil, hyes, Bool.not_true, Bool.and_false] at hsuf
  have hid := congrArg decodeDocShortId (cons.inj hsuf).2
  rw [decodeDocShortId_encode hx.docShortId, decodeDocShortId_encode hy.docShortId] at hid
  exact (Option.some.inj hid).symm

theorem pair_eq (hok : EntryOk idx.desc x) :
    idx.pair x.docShortId x.values = some (pairOf idx.collectionShortId idx.desc x) := hok.entryPair_eq _

theorem value_pairOf (hnil : hasNilField x.values = false) :
    (pairOf idx.collectionShortId idx.desc x).value = encodeDocShortId x.docShortId := by
  rw [pairOf, idx.unique, hnil]
  rfl

theorem owner_pairOf (hok : EntryOk idx.desc x) :
    idx.owner (pairOf idx.collectionShortId idx.desc x) = some x.docShortId := by
  have hpre : (indexPrefix idx.collectionShortId idx.desc.id).isPrefixOf
      (pairOf idx.collectionShortId idx.desc x).key = true := isPrefixOf_iff_prefix.mpr (prefix_append _ _)
  rw [owner, if_pos hpre]
  cases hnil : hasNilField x.values with
  | true =>
    have hempty : (pairOf idx.collectionShortId idx.desc x).value = [] := by
      rw [pairOf, hnil, Bool.not_true, Bool.and_false]
      rfl
    rw [hempty, List.isEmpty_nil, if_pos rfl]
    show (RangeIterator.extractEntry _ _).bind _ = _
    rw [hok.extractEntry_eq rfl idx.unique.symm rfl (pair_eq hok)]
    rfl
  | false =>
    rw [value_pairOf hnil, if_neg (by simpa using encodeDocShortId_ne_nil hok.docShortId), decodeDocShortId_encode hok.docShortId]

variable (hh : Holds store idx.collectionShortId idx.desc es)
include hh

/-- Every pair under the prefix of the index is one of its entries. -/
theorem exists_entry (hkv : kv ∈ store) (hpre : indexPrefix idx.collectionShortId idx.desc.id <+: kv.key) :
    ∃ x ∈ es, pairOf idx.collectionShortId idx.desc x = kv := by
  have hmem : some kv ∈ es.map (entryPair idx.collectionShortId idx.desc) := by
    rw [← hh.pairs]
    exact mem_map.mpr ⟨kv, List.mem_filter.mpr ⟨hkv, isPrefixOf_iff_prefix.mpr hpre⟩, rfl⟩
  obtain ⟨x, hx, hpair⟩ := mem_map.mp hmem
  exact ⟨x, hx, Option.some.inj ((pair_eq (hh.ok x hx)).symm.trans hpair)⟩

/-- In an index of well-formed entries, what is under the key of a document's values is the document's where a field is nil,
    and has a value where none is. -/
theorem clear_of_holds (hok : EntryOk idx.desc ⟨doc, vals⟩) :
    idx.Clear doc store vals fun held => hasNilField vals = true ∨ held.value = [] := by
  rintro kv hpair held he hkey hcase ⟨other, howner, hne⟩
  cases (pair_eq hok).symm.trans hpair
  obtain ⟨x, hx, rfl⟩ := exists_entry hh he (hkey ▸ prefix_append _ _)
  obtain ⟨hnil, hid⟩ := of_key_eq (hh.ok x hx) hok hkey
  rw [owner_pairOf (hh.ok x hx)] at howner
  cases hcase' : hasNilField vals with
  | true => exact hne ((Option.some.inj howner).symm.trans (hid hcase'))
  | false =>
    have hempty := hcase.resolve_left (by rw [hcase']; exact Bool.false_ne_true)
    rw [value_pairOf (hnil.trans hcase')] at hempty
    exact encodeDocShortId_ne_nil (hh.ok x hx).docShortId hempty

end

/-- The values of a call have an order. -/
def Call.Indexable : Call → Prop
  | .save vals | .delete vals => ∀ val ∈ vals, val.Indexable
  | .update olds news => (∀ val ∈ olds, val.Indexable) ∧ ∀ val ∈ news, val.Indexable

/-- An update that passes its checks, from values without a nil field whose entry is another document's. -/
def Call.TakesOver (idx : UniqueIndex) (doc : UInt64) (store : KvStore) : Call → Prop
  | .update olds news => idx.Valid doc olds ∧ news.length = idx.desc.fields.length ∧
      idx.free doc store news = true ∧ hasNilField olds = false ∧
      ∃ old, idx.pair doc olds = some old ∧ ∃ kv ∈ store, kv.key = old.key ∧ idx.Foreign doc kv
  | _ => False

theorem fromOwn_iff_of_holds {es : List IndexEntry} (hh : Holds store idx.collectionShortId idx.desc es)
    {call : Call} (hc : call.Indexable) :
    call.FromOwn idx doc store ↔ ¬call.TakesOver idx doc store := by
  cases call with
  | save vals =>
    refine iff_of_true (fun hvalid hnil kv hpair held he hkey _ => ?_) not_false
    exact clear_of_holds hh ⟨hvalid.2, hvalid.1, hc⟩ kv hpair held he hkey (.inl hnil)
  | delete vals => exact iff_of_true (fun hvalid => clear_of_holds hh ⟨hvalid.2, hvalid.1, hc⟩) not_false
  | update olds news =>
    constructor
    · rintro h ⟨hvalid, hlen, hfree, -, old, ho, kv, hkv, hkey, hforeign⟩
      exact (h hvalid hlen hfree (Option.isSome_iff_exists.mpr ⟨old, ho⟩)).1 old ho kv hkv hkey trivial hforeign
    · intro h hvalid hlen hfree _
      have hclear := clear_of_holds hh (⟨hvalid.2, hvalid.1, hc.1⟩ : EntryOk idx.desc ⟨doc, olds⟩)
      have hclear' := clear_of_holds hh (⟨hlen, hvalid.1, hc.2⟩ : EntryOk idx.desc ⟨doc, news⟩)
      refine ⟨fun old ho kv hkv hkey _ hforeign => ?_, fun hnil kv hpair held he hkey _ =>
        hclear' kv hpair held he hkey (.inl hnil)⟩
      cases hnil : hasNilField olds with
      | true => exact hclear old ho kv hkv hkey (.inl hnil) hforeign
      | false => exact h ⟨hvalid, hlen, hfree, hnil, old, ho, kv, hkv, hkey, hforeign⟩

/-- What a call has to find under its keys to keep other documents' entries. In an index of well-formed entries, saves and
    deletions find it, and so do updates but those from values that another document holds. -/
theorem others_kept_iff (idx : UniqueIndex) (doc : UInt64) (txn : Txn) (call : Call) :
    (idx.Keeps doc txn call ↔ call.FromOwn idx doc txn.store) ∧
      ∀ es, Holds txn.store idx.collectionShortId idx.desc es → call.Indexable →
        (idx.Keeps doc txn call ↔ ¬call.TakesOver idx doc txn.store) :=
  ⟨keeps_iff_fromOwn call, fun _ hh hc => (keeps_iff_fromOwn call).trans (fromOwn_iff_of_holds hh hc)⟩

/-! ### Scores -/

/-- An index of a score. -/
def scoreIndex : UniqueIndex where
  collectionShortId := 1
  desc := { name := "score", id := 1, fields := [{ name := "score", descending := false }], unique := true }
  unique := rfl

def scores (es : List (UInt64 × Int64)) : Txn where
  base := .ofList (es.filterMap fun e => scoreIndex.pair e.1 [.scalar (.int e.2)])
  writes := []

/-- Document 2 changes its own score, and the entry of document 3 stays. -/
theorem own_update_kept : scoreIndex.Keeps 2 (scores [(2, 5), (3, 7)]) (.update [.scalar (.int 5)] [.scalar (.int 6)]) := by
  refine (others_kept_iff _ _ _ _).1.mpr fun _ _ _ _ => ⟨fun old ho kv hkv hkey _ => ?_, fun hnil => by cases hnil⟩
  have hp : scoreIndex.pair 2 [.scalar (.int 5)] = some ⟨[47, 1, 47, 1, 47, 141], [2]⟩ := by decide
  have hs : (scores [(2, 5), (3, 7)]).store.toList =
      [⟨[47, 1, 47, 1, 47, 141], [2]⟩, ⟨[47, 1, 47, 1, 47, 143], [3]⟩] := by decide
  cases hp.symm.trans ho
  rw [mem_def, hs, mem_cons, mem_singleton] at hkv
  rcases hkv with rfl | rfl
  · exact not_foreign_of_value (by decide)
  · exact absurd hkey (by decide)

/-- Document 1 has the score of document 2 and is not indexed; when its score changes, the entry of document 2 is gone. -/
theorem loser_update_not_kept : ¬scoreIndex.Keeps 1 (scores [(2, 5)]) (.update [.scalar (.int 5)] [.scalar (.int 6)]) := by
  intro h
  have ha : ((Call.run scoreIndex 1 (.update [.scalar (.int 5)] [.scalar (.int 6)])).after (scores [(2, 5)])).writes =
      [.delete [47, 1, 47, 1, 47, 141], .set ⟨[47, 1, 47, 1, 47, 142], [1]⟩] := by decide
  have hkv : ⟨[47, 1, 47, 1, 47, 141], [2]⟩ ∈ (scores [(2, 5)]).store.toList := by decide
  rw [Keeps, ha] at h
  have hkept := h _ nil_prefix prefix_rfl _ hkv ⟨2, by decide, by decide⟩
  exact absurd (mem_def.mp hkept) (by decide)

end UniqueIndex
end Defra.Index
