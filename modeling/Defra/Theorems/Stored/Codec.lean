import Defra.Stored.Document

/-! A stored document reads back as it was written. -/

namespace Defra.Stored
open Option KeyedList Reader Reads List

variable {parts : List (UInt32 × StoredField)} (name : CrdtName) (validate : Bool)

theorem CrdtName.new_asStr : CrdtName.new name.asStr = some name := dif_pos name.valid

theorem CrdtName.length_le : (utf8 name.asStr).length ≤ 31 := by
  have h := name.valid
  simp only [isCrdtName, Bool.and_eq_true, decide_eq_true_eq] at h
  exact h.1.1.1.2

theorem reads_kind (kind : ValueKind) : Reads ValueKind.decode kind.encode kind := by
  cases kind with
  | lww => exact (byte 0).bind_nil (pure _)
  | int64 => exact (byte 1).bind_nil (pure _)
  | float32 => exact (byte 2).bind_nil (pure _)
  | float64 => exact (byte 3).bind_nil (pure _)
  | text => exact (byte 4).bind_nil (pure _)
  | json => exact (byte 5).bind_nil (pure _)
  | custom name =>
    have hl : (UInt8.ofNat (utf8 name.asStr).length).toNat = (utf8 name.asStr).length := by
      have := name.length_le
      simp only [UInt8.toNat_ofNat']
      omega
    refine (byte 6).bind ((byte (UInt8.ofNat (utf8 name.asStr).length)).bind ?_)
    rw [hl]
    refine (take (utf8 name.asStr)).bind_nil ?_
    refine (lift (fromUtf8_utf8 name.asStr)).bind_nil ?_
    exact (lift name.new_asStr).bind_nil (pure _)

variable {bytes : Bytes}

theorem reads_sized {written : Bytes} (h : sized bytes = some written) : Reads takeSized written bytes := by
  rw [sized, ite_none_right_eq_some, some.injEq] at h
  obtain ⟨hlength, rfl⟩ := h
  exact (be hlength).bind (take bytes)

theorem reads_field {id : UInt32} {part : StoredField} {name v : Bytes} (hn : sized (utf8 part.name) = some name)
    (hv : sized part.value = some v) : Reads StoredDocument.decodeField
      (Wire.toBe 4 id.toNat ++ part.kind.encode ++ Wire.toBe 8 part.priority.toNat ++ name ++ v) (id, part) := by
  simp only [append_assoc]
  refine (be id.toNat_lt).bind ((reads_kind part.kind).bind ((be part.priority.toNat_lt).bind ?_))
  refine (reads_sized hn).bind ((lift (fromUtf8_utf8 part.name)).bind ?_)
  refine (reads_sized hv).bind_nil ?_
  rw [UInt32.ofNat_toNat, UInt64.ofNat_toNat]
  exact pure _

variable {cbor : Cbor}

/-- The parts of one document are read one after the other, and put in with those before them. -/
theorem reads_fields :
    ∀ {previous : Option UInt32} {body : Bytes} {fields : Fields}, encodeFields cbor previous parts = some body →
      (∀ e ∈ fields, ∃ id ∈ previous, e.1 ≤ id) →
      Reads (StoredDocument.decodeFields cbor validate parts.length fields) body (fields.putAll parts) ∧
        21 * parts.length ≤ body.length := by
  induction parts with
  | nil =>
    intro previous body fields h _
    cases h
    exact ⟨pure fields, le_refl 0⟩
  | cons part parts ih =>
    obtain ⟨id, part⟩ := part
    intro previous body fields h hbef
    rw [encodeFields] at h
    split at h
    · cases h
    · rename_i hok
      simp only [Bool.or_eq_true, not_or, Bool.not_eq_true, Bool.not_eq_false'] at hok
      obtain ⟨⟨hrises, hn⟩, hvalid⟩ := hok
      obtain ⟨name, hsizedName, h⟩ := bind_eq_some_iff.mp h
      obtain ⟨v, hsizedValue, h⟩ := bind_eq_some_iff.mp h
      obtain ⟨rest, hr, h⟩ := bind_eq_some_iff.mp h
      cases h
      have hnew : (fields.find? id).isSome = false := by
        refine isSome_eq_false_iff.mpr (isNone_iff_eq_none.mpr (eq_none_iff_forall_ne_some.mpr ?_))
        intro e he
        obtain ⟨hmem, rfl⟩ := find?_eq_some.mp he
        obtain ⟨last, hl, hle⟩ := hbef e hmem
        rw [mem_def.mp hl] at hrises
        simp [hle] at hrises
      have hbef' : ∀ e ∈ fields.put (id, part), ∃ last ∈ some id, e.1 ≤ last := by
        intro e he
        refine ⟨id, rfl, ?_⟩
        rcases mem_put.mp he with rfl | ⟨he, -⟩
        · exact le_refl id
        · obtain ⟨last, hl, hle⟩ := hbef e he
          rw [mem_def.mp hl] at hrises
          have hlt : last < id := by simpa using hrises
          exact hle.trans hlt.le
      obtain ⟨hread, hlength⟩ := ih hr hbef'
      constructor
      · refine (reads_field hsizedName hsizedValue).bind ?_
        simp only [hn, hvalid, hnew, Bool.not_true, Bool.and_false, Bool.or_false]
        exact hread
      · have hk : 1 ≤ part.kind.encode.length := by simp [ValueKind.encode]
        have hs : ∀ {bytes written : Bytes}, sized bytes = some written → 4 ≤ written.length := by
          intro bytes written h
          rw [sized, ite_none_right_eq_some, some.injEq] at h
          rw [← h.2, length_append, Wire.length_toBe]
          omega
        have h1 := hs hsizedName
        have h2 := hs hsizedValue
        simp only [length_append, length_cons, Wire.length_toBe]
        omega

theorem reads_body {body : Bytes} (hcnt : parts.length < 2 ^ 32) (h : encodeFields cbor none parts = some body) :
    Reads (StoredDocument.decodeBody cbor validate) (Wire.toBe 4 parts.length ++ body) (ofList parts) := by
  obtain ⟨hread, hl⟩ := reads_fields validate h fun e (he : e ∈ (∅ : Fields)) => absurd he (not_mem_empty e)
  refine (be hcnt).bind fun rest => ?_
  change (if parts.length > (body ++ rest).length / 21 then fail
    else StoredDocument.decodeFields cbor validate parts.length ∅) (body ++ rest) = _
  rw [if_neg]
  · exact hread rest
  · rw [length_append]
    omega

variable {doc : StoredDocument}

theorem StoredDocument.decode_encode
    (h : doc.encode cbor = some bytes) : StoredDocument.decode cbor bytes = some doc := by
  rw [encode, encodeAfter, encodeParts, ite_none_right_eq_some] at h
  obtain ⟨hcnt, h⟩ := h
  obtain ⟨body, hb, h⟩ := bind_eq_some_iff.mp h
  rw [ite_none_right_eq_some] at h
  obtain ⟨hnames, h⟩ := h
  cases h
  have hdrop : ([] ++ documentMagic ++ Wire.toBe 4 doc.fields.toList.length ++ body).dropPrefix? documentMagic =
      some (Wire.toBe 4 doc.fields.toList.length ++ body) := by
    simp [documentMagic, dropPrefix?]
  have hf := (reads_body true hcnt hb).all
  rw [ofList_toList] at hf
  rw [decode, decodeInner, hdrop, bind_eq_bind, bind_some, hf, bind_eq_bind, bind_some,
    if_pos hnames]
  rfl

theorem StoredDocument.encodeAfter_eq {start : Bytes} (h : doc.encodeAfter cbor start = some bytes) :
    ∃ v, doc.encode cbor = some v ∧ bytes = start ++ v := by
  rw [encodeAfter, encodeParts, ite_none_right_eq_some] at h
  obtain ⟨hcnt, h⟩ := h
  obtain ⟨body, hb, h⟩ := bind_eq_some_iff.mp h
  rw [ite_none_right_eq_some] at h
  obtain ⟨hnames, h⟩ := h
  cases h
  refine ⟨documentMagic ++ Wire.toBe 4 doc.fields.toList.length ++ body, ?_, by simp⟩
  rw [encode, encodeAfter, encodeParts, if_pos hcnt, hb, bind_eq_bind, bind_some, if_pos hnames]
  rfl

theorem StoredDocument.decode_spec (h : StoredDocument.decode cbor bytes = some doc) :
    (doc.fields.toList.map fun p => p.2.name).Nodup ∧ ∀ p ∈ doc.fields, p.2.isValid cbor = true := by
  have hf : ∀ {count : Nat} {fields after : Fields} {input rest : Bytes},
      decodeFields cbor true count fields input = some (after, rest) → (∀ p ∈ fields, p.2.isValid cbor = true) →
      ∀ p ∈ after, p.2.isValid cbor = true := by
    intro count
    induction count with
    | zero =>
      intro fields after input rest h hall
      obtain ⟨rfl, -⟩ := pure_eq_some.mp h
      exact hall
    | succ count ih =>
      intro fields after input rest h hall
      obtain ⟨⟨id, field⟩, middle, -, h⟩ := bind_eq_some.mp h
      dsimp only at h
      split at h
      · cases h
      · rename_i hok
        simp only [Bool.true_and, Bool.or_eq_true, not_or, Bool.not_eq_true, Bool.not_eq_false'] at hok
        refine ih h fun p hp => ?_
        rcases mem_put.mp hp with rfl | ⟨hp, -⟩
        · exact hok.1.2
        · exact hall p hp
  obtain ⟨input, -, h⟩ := bind_eq_some_iff.mp h
  obtain ⟨fields, hread, h⟩ := bind_eq_some_iff.mp h
  rw [ite_none_right_eq_some] at h
  obtain ⟨hnames, h⟩ := h
  cases h
  refine ⟨hnames, ?_⟩
  obtain ⟨count, middle, -, hread⟩ := bind_eq_some.mp (all_eq_some.mp hread)
  obtain ⟨left, middle', -, hread⟩ := bind_eq_some.mp hread
  split at hread
  · cases hread
  · exact hf hread fun p hp => absurd hp (not_mem_empty p)

end Defra.Stored
