import Defra.Theorems.Index.Key
import Defra.Theorems.Index.KeyVarint

/-! The keys of an index's entries, and the loop that scans them. -/

namespace Defra.Index
open List KeyOrder Reader Option

/-! ### Values -/

/-- A nil, or one scalar that has a place in the order of keys. -/
def NormalValue.Indexable (val : NormalValue) : Prop :=
  (val.isNil = true ∨ ∃ value, val.plain = some value) ∧ ∀ value, val.plain = some value → value.Indexable

/-- The bytes of a value in a key. -/
def code (val : NormalValue) (down : Bool) : Bytes := (encodeFieldValue val down).getD []

/-- A value as it is read without its field's kind: text is read as bytes. -/
def Scalar.asBlob : Scalar → Scalar
  | .string s => .bytes (utf8 s)
  | value => value.canonical

/-- A field's value as a scan returns it. -/
def NormalValue.asBlob (val : NormalValue) : NormalValue :=
  match val.plain with
  | none => .null
  | some value => .scalar value.asBlob

theorem Scalar.readAs_blob (value : Scalar) : value.readAs (.scalar .nillableBlob) = some value.asBlob := by
  cases value <;> rfl

namespace NormalValue.Indexable
variable {val x y : NormalValue}

theorem isNil_iff (h : val.Indexable) : val.isNil = true ↔ val.plain = none := by
  obtain ⟨hv, -⟩ := h
  constructor
  · intro hnil
    cases val with
    | nillable value =>
      cases value with
      | none => rfl
      | some _ => cases hnil
    | scalar _ => cases hnil
    | _ => rfl
  · intro hp
    rcases hv with hnil | ⟨value, hs⟩
    · exact hnil
    · rw [hp] at hs
      cases hs

theorem isNil_asBlob (h : val.Indexable) : val.asBlob.isNil = val.isNil := by
  have hiff := h.isNil_iff
  unfold asBlob
  cases hp : val.plain with
  | none => exact (hiff.mpr hp).symm
  | some value =>
    rw [hp] at hiff
    exact (Bool.eq_false_iff.mpr fun hnil => some_ne_none _ (hiff.mp hnil)).symm

theorem encode (h : val.Indexable) (down : Bool) : encodeFieldValue val down = some (code val down) ∧
    Reads (decodeFieldValue down (.scalar .nillableBlob)) (code val down) val.asBlob := by
  unfold code asBlob
  cases hp : val.plain with
  | none =>
    have hnull : encodeFieldValue val down =
        some (if down then encodeNullDescending else encodeNullAscending) := if_pos (h.isNil_iff.mpr hp)
    rw [hnull]
    refine ⟨rfl, ?_⟩
    intro rest
    cases down <;> rfl
  | some value =>
    obtain ⟨bytes, hb⟩ := encodeScalar_isSome (h.2 value hp) down
    rw [encodeFieldValue_of_plain hp, hb]
    exact ⟨rfl, reads_scalar value.readAs_blob (h.2 value hp) hb⟩

/-- The codes of two values differ before either ends. -/
theorem apart (hx : x.Indexable) (hy : y.Indexable) (down : Bool) : Apart (code x down) (code y down) :=
  .of_prefix_free (Reads.prefix_free (hx.encode down).2 (hy.encode down).2)
    (Reads.prefix_free (hy.encode down).2 (hx.encode down).2)

/-- Only a nil in descending order starts with the last byte. -/
theorem head_iff (h : val.Indexable) (down : Bool) :
    (∃ rest, code val down = 0xff :: rest) ↔ down = true ∧ val.isNil = true := by
  unfold code
  cases hp : val.plain with
  | none =>
    have hnil := h.isNil_iff.mpr hp
    have hnull : encodeFieldValue val down =
        some (if down then encodeNullDescending else encodeNullAscending) := if_pos hnil
    rw [hnull, hnil]
    cases down <;> simp [encodeNullDescending, encodeNullAscending, encodedNull, encodedNullDesc]
  | some value =>
    have hnil : ¬val.isNil = true := fun hnil => by
      rw [h.isNil_iff.mp hnil] at hp
      cases hp
    obtain ⟨bytes, hb⟩ := encodeScalar_isSome (h.2 value hp) down
    rw [encodeFieldValue_of_plain hp, hb]
    have hbef := (before_null (h.2 value hp) hb).2
    refine ⟨?_, fun hd => absurd hd.2 hnil⟩
    rintro ⟨rest, rfl⟩
    cases hbef with
    | head _ _ hlt => exact absurd hlt (lt_irrefl _)
    | cons _ hr => cases hr

theorem code_ne_nil (h : val.Indexable) (down : Bool) : code val down ≠ [] := by
  intro hnil
  have := (h.encode down).2 []
  rw [hnil] at this
  cases this

end NormalValue.Indexable

/-! ### Entries and their keys -/

/-- The bytes of the values of all fields. -/
def codes : List IndexedFieldDescription → List NormalValue → Bytes
  | field :: fields, val :: vals => code val field.descending ++ codes fields vals
  | _, _ => []

/-- An entry that an index can hold. -/
structure EntryOk (desc : IndexDescription) (e : IndexEntry) : Prop where
  length : e.values.length = desc.fields.length
  docShortId : e.docShortId ≠ 0
  values : ∀ val ∈ e.values, val.Indexable

variable {doc : UInt64}

theorem encodeDocShortId_of_ne (h : doc ≠ 0) : encodeDocShortId doc = encodeKeyUvarint doc := if_pos h

theorem decodeDocShortId_encode (h : doc ≠ 0) : decodeDocShortId (encodeDocShortId doc) = some doc := by
  rw [encodeDocShortId_of_ne h, decodeDocShortId, (reads_keyUvarint doc).all, bind_eq_bind, bind_some,
    if_neg h]
  rfl

theorem encodeDocShortId_ne_nil (h : doc ≠ 0) : encodeDocShortId doc ≠ [] := by
  intro hnil
  have := decodeDocShortId_encode h
  rw [hnil] at this
  cases this

/-- What follows the values in a key: the document, unless the values alone are unique. -/
def keySuffix (desc : IndexDescription) (e : IndexEntry) : Bytes :=
  if desc.unique && !hasNilField e.values then [] else separator :: encodeDocShortId e.docShortId

/-- The key that an entry is stored under. -/
def entryKey (c : UInt32) (desc : IndexDescription) (e : IndexEntry) : Bytes :=
  indexPrefix c desc.id ++ (codes desc.fields e.values ++ keySuffix desc e)

/-- The entry as a scan returns it. -/
def IndexEntry.scanned (e : IndexEntry) : IndexEntry :=
  { e with values := e.values.map NormalValue.asBlob }

/-- The values of a key are written one after the other, and read back. -/
theorem encodeFields_codes : ∀ {fields : List IndexedFieldDescription} {vals : List NormalValue},
    vals.length = fields.length → (∀ val ∈ vals, val.Indexable) →
      let keyFields := fields.map fun field => ({ kind := .scalar .nillableBlob, descending := field.descending } : IndexField)
      encodeFields keyFields vals = some (codes fields vals) ∧
        Reads (decodeFields keyFields) (codes fields vals) (vals.map NormalValue.asBlob)
  | [], [], _, _ => ⟨rfl, Reads.pure []⟩
  | field :: fields, val :: vals, hl, hvals => by
    obtain ⟨he, hreads⟩ := encodeFields_codes (Nat.succ.inj hl) fun v hv => hvals v (mem_cons_of_mem _ hv)
    obtain ⟨hcode, hread⟩ := (hvals val mem_cons_self).encode field.descending
    exact ⟨encodeFields_cons hcode he, hread.bind (hreads.bind_nil (Reads.pure _))⟩
  | [], _ :: _, h, _ => nomatch h
  | _ :: _, [], h, _ => nomatch h

variable {iter : RangeIterator}

namespace EntryOk
variable {c : UInt32} {desc : IndexDescription} {e : IndexEntry}

theorem hasNilField_scanned (h : EntryOk desc e) :
    hasNilField (e.values.map NormalValue.asBlob) = hasNilField e.values := by
  have hvs := h.values
  unfold hasNilField
  generalize e.values = values at hvs
  induction values with
  | nil => rfl
  | cons val vals ih =>
    rw [map_cons, any_cons, any_cons, (hvs val mem_cons_self).isNil_asBlob,
      ih fun v hv => hvs v (mem_cons_of_mem val hv)]

/-- A well-formed entry is stored under its key. -/
theorem entryPair_eq (h : EntryOk desc e) (c : UInt32) : entryPair c desc e = some
    { key := entryKey c desc e
      value := if desc.unique && !hasNilField e.values then encodeDocShortId e.docShortId else [] } := by
  obtain ⟨hencode, -⟩ := encodeFields_codes h.length h.values
  have hk : ∀ doc, buildKey c desc e.values doc =
      some (indexPrefix c desc.id ++ (codes desc.fields e.values ++
        if doc ≠ 0 then separator :: encodeDocShortId doc else [])) := by
    intro doc
    rw [buildKey, IndexDescription.keyFields, hencode]
    rfl
  unfold entryPair entryKey keySuffix
  split
  · rw [hk 0]
    rfl
  · rw [hk, if_pos h.docShortId]
    rfl

/-- A scan takes an entry back from the pair that stores it. -/
theorem extractEntry_eq (h : EntryOk desc e) (hd : iter.desc = desc)
    (hu : iter.isUnique = desc.unique) (hlen : iter.indexPrefixLen = (indexPrefix c desc.id).length)
    {kv : KvPair} (hkv : entryPair c desc e = some kv) : iter.extractEntry kv = some e.scanned := by
  obtain ⟨-, hread⟩ := encodeFields_codes h.length h.values
  rw [h.entryPair_eq] at hkv
  cases hkv
  rw [RangeIterator.extractEntry, hlen, entryKey, drop_left, hd, IndexDescription.keyFields,
    hread (keySuffix desc e), bind_eq_bind, bind_some]
  dsimp only
  rw [h.hasNilField_scanned, hu, keySuffix]
  have hne := encodeDocShortId_ne_nil h.docShortId
  cases hcond : desc.unique && !hasNilField e.values with
  | true =>
    rw [if_pos rfl, if_pos (by simpa using hne), decodeDocShortId_encode h.docShortId]
    rfl
  | false =>
    obtain ⟨first, rest, hid⟩ := exists_cons_of_ne_nil hne
    have hdec := decodeDocShortId_encode h.docShortId
    rw [hid] at hdec
    rw [if_neg Bool.false_ne_true, if_neg Bool.false_ne_true, Bool.false_and, hid]
    dsimp only
    rw [hdec]
    rfl

end EntryOk

/-! ### The loop of a scan -/

namespace RangeIterator

/-- The scan returns the pair. -/
def returns (iter : RangeIterator) (kv : KvPair) : Bool :=
  !((iter.lowerBoundKey.isSome || iter.upperBoundKey.isSome) && !iter.isKeyWithinBounds kv.key)

def withRest (iter : RangeIterator) (rest : List KvPair) : RangeIterator :=
  { iter with inner := { iter.inner with rest } }

/-- One step of a scan: the first pair to return, and what is left after it. -/
theorem nextIn_spec {entryOf : KvPair → IndexEntry} {rest : List KvPair}
    (hp : ∀ kv ∈ rest, iter.returns kv = false → iter.passed kv.key = false)
    (hext : ∀ kv ∈ rest, iter.returns kv = true → iter.extractEntry kv = some (entryOf kv)) :
    (∃ kv tail, tail.length < rest.length ∧ rest.filter iter.returns = kv :: tail.filter iter.returns ∧ tail ⊆ rest ∧
      iter.nextIn rest = some (some (entryOf kv), iter.withRest tail)) ∨
    (rest.filter iter.returns = [] ∧ ∃ iter', iter.nextIn rest = some (none, iter')) := by
  induction rest with
  | nil => exact .inr ⟨rfl, _, rfl⟩
  | cons kv rest ih =>
    have ih := ih (fun kv hkv => hp kv (mem_cons_of_mem _ hkv)) fun kv hkv => hext kv (mem_cons_of_mem _ hkv)
    cases hr : iter.returns kv with
    | true =>
      refine .inl ⟨kv, rest, Nat.lt_succ_self _, by rw [filter_cons, hr, if_pos rfl],
        subset_cons_self _ _, ?_⟩
      rw [nextIn]
      rw [if_neg (by rw [Bool.not_eq_true, ← Bool.not_eq_true']; exact hr), hext kv mem_cons_self hr]
      rfl
    | false =>
      have hstep : iter.nextIn (kv :: rest) = iter.nextIn rest := by
        rw [nextIn]
        rw [if_pos (by rw [← Bool.not_eq_false']; exact hr), if_neg]
        rw [hp kv mem_cons_self hr]
        exact Bool.false_ne_true
      rw [hstep, filter_cons, hr]
      rcases ih with ⟨kv', tail, hl, hf, hsub, hnext⟩ | hn
      · exact .inl ⟨kv', tail, Nat.lt_succ_of_lt hl, hf, Subset.trans hsub (subset_cons_self _ _), hnext⟩
      · exact .inr hn

/-- A whole scan returns the entries of the pairs that it selects, in their order. -/
theorem collect_eq (he : iter.exhausted = false) {entryOf : KvPair → IndexEntry}
    {calls : Nat} : ∀ {rest : List KvPair}, rest.length < calls →
      (∀ kv ∈ rest, iter.returns kv = false → iter.passed kv.key = false) →
      (∀ kv ∈ rest, iter.returns kv = true → iter.extractEntry kv = some (entryOf kv)) →
      collect calls (iter.withRest rest) = some ((rest.filter iter.returns).map entryOf) := by
  induction calls with
  | zero => exact fun h => absurd h (Nat.not_lt_zero _)
  | succ calls ih =>
    intro rest hc hp hext
    have hn : (iter.withRest rest).next = (iter.withRest rest).nextIn rest :=
      if_neg (by rw [show (iter.withRest rest).exhausted = false from he]; exact Bool.false_ne_true)
    rw [collect, hn, bind_eq_bind]
    rcases (iter.withRest rest).nextIn_spec hp hext with
      ⟨kv, tail, hl, hf, hsub, hstep⟩ | ⟨hf, iter', hstep⟩
    · rw [hstep, bind_some]
      dsimp only
      have hr := ih (show tail.length < calls by omega) (fun kv hkv => hp kv (hsub hkv))
        fun kv hkv => hext kv (hsub hkv)
      rw [show (iter.withRest rest).withRest tail = iter.withRest tail from rfl, hr,
        show rest.filter iter.returns = _ from hf]
      rfl
    · rw [hstep, show rest.filter iter.returns = _ from hf]
      rfl

end RangeIterator

end Defra.Index
