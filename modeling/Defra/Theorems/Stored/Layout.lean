import Defra.Theorems.Stored.Codec

/-! Bytes that decode to a document are its parts, one after the other: they differ from what is written for the document only in
    the order of the parts. -/

namespace Defra.Stored
open List Reader Option KeyedList

def sizedBytes (bytes : Bytes) : Bytes := Wire.toBe 4 bytes.length ++ bytes

def partBytes (part : UInt32 × StoredField) : Bytes :=
  Wire.toBe 4 part.1.toNat ++ part.2.kind.encode ++ Wire.toBe 8 part.2.priority.toNat ++ sizedBytes (utf8 part.2.name) ++
    sizedBytes part.2.value

def FitsSized (part : StoredField) : Prop := (utf8 part.name).length < 2 ^ 32 ∧ part.value.length < 2 ^ 32

variable {input rest : Bytes}

theorem takeSized_eq_some {bytes : Bytes} (h : takeSized input = some (bytes, rest)) :
    input = sizedBytes bytes ++ rest ∧ bytes.length < 2 ^ 32 := by
  obtain ⟨length, middle, hbe, htake⟩ := bind_eq_some.mp h
  obtain ⟨rfl, hlt⟩ := be_eq_some hbe
  obtain ⟨rfl, rfl⟩ := take_eq_some.mp htake
  exact ⟨(append_assoc ..).symm, hlt⟩

theorem CrdtName.asStr_of_new {s : String} {name : CrdtName} (h : CrdtName.new s = some name) : name.asStr = s := by
  unfold CrdtName.new at h
  split at h
  · cases h
    rfl
  · cases h

theorem decodeKind_eq_some {kind : ValueKind} (h : ValueKind.decode input = some (kind, rest)) :
    input = kind.encode ++ rest := by
  obtain ⟨tag, middle, hbyte, h⟩ := bind_eq_some.mp h
  rw [byte_eq_some.mp hbyte]
  split at h
  case h_7 =>
    obtain ⟨length, afterLength, hl, h⟩ := bind_eq_some.mp h
    obtain ⟨bytes, afterBytes, hb, h⟩ := bind_eq_some.mp h
    obtain ⟨s, _, hlift, h⟩ := bind_eq_some.mp h
    obtain ⟨name, _, hlift', h⟩ := bind_eq_some.mp h
    obtain ⟨rfl, rfl⟩ := pure_eq_some.mp h
    obtain ⟨hn, rfl⟩ := lift_eq_some.mp hlift'
    obtain ⟨hs, rfl⟩ := lift_eq_some.mp hlift
    obtain ⟨hafter, hcnt⟩ := take_eq_some.mp hb
    have hutf8 : utf8 name.asStr = bytes := by rw [CrdtName.asStr_of_new hn, utf8_of_fromUtf8 hs]
    show _ = (customTag :: UInt8.ofNat (utf8 name.asStr).length :: utf8 name.asStr) ++ _
    rw [byte_eq_some.mp hl, hafter, hutf8, hcnt, UInt8.ofNat_toNat]
    rfl
  case h_8 => cases h
  all_goals
    obtain ⟨rfl, rfl⟩ := pure_eq_some.mp h
    rfl

theorem decodeField_eq_some {part : UInt32 × StoredField}
    (h : StoredDocument.decodeField input = some (part, rest)) : input = partBytes part ++ rest ∧ FitsSized part.2 := by
  obtain ⟨id, afterId, hid, h⟩ := bind_eq_some.mp h
  obtain ⟨kind, afterKind, hk, h⟩ := bind_eq_some.mp h
  obtain ⟨priority, afterPriority, hp, h⟩ := bind_eq_some.mp h
  obtain ⟨bytes, afterName, hb, h⟩ := bind_eq_some.mp h
  obtain ⟨name, _, hlift, h⟩ := bind_eq_some.mp h
  obtain ⟨v, afterValue, hv, h⟩ := bind_eq_some.mp h
  obtain ⟨rfl, rfl⟩ := pure_eq_some.mp h
  obtain ⟨hn, rfl⟩ := lift_eq_some.mp hlift
  obtain ⟨hid, hidlt⟩ := be_eq_some hid
  obtain ⟨hp, hprioritylt⟩ := be_eq_some hp
  obtain ⟨hb, hnamelt⟩ := takeSized_eq_some hb
  obtain ⟨hv, hvaluelt⟩ := takeSized_eq_some hv
  have hutf8 := utf8_of_fromUtf8 hn
  constructor
  · rw [hid, decodeKind_eq_some hk, hp, hb, hv]
    simp only [partBytes, hutf8, UInt32.toNat_ofNat_of_lt' hidlt, UInt64.toNat_ofNat_of_lt' hprioritylt, append_assoc]
  · exact ⟨hutf8 ▸ hnamelt, hvaluelt⟩

/-- A part that a document can hold. -/
structure Storable (cbor : Cbor) (part : StoredField) : Prop where
  name : part.name.isEmpty = false
  valid : part.isValid cbor = true
  fits : FitsSized part

variable {cbor : Cbor}

/-- The parts read are those that the bytes are laid out as, in the same order, with IDs of their own. -/
theorem decodeFields_eq_some {count : Nat} {fields after : Fields}
    (h : StoredDocument.decodeFields cbor true count fields input = some (after, rest)) :
    ∃ parts : List (UInt32 × StoredField), parts.length = count ∧ input = parts.flatMap partBytes ++ rest ∧
      after = fields.putAll parts ∧ (∀ part ∈ parts, Storable cbor part.2) ∧ (parts.map Prod.fst).Nodup ∧
      ∀ part ∈ parts, fields.find? part.1 = none := by
  induction count generalizing fields input with
  | zero =>
    obtain ⟨rfl, rfl⟩ := pure_eq_some.mp h
    exact ⟨[], rfl, rfl, rfl, by simp, nodup_nil, by simp⟩
  | succ count ih =>
    obtain ⟨part, middle, hp, h⟩ := bind_eq_some.mp h
    obtain ⟨hi, hfits⟩ := decodeField_eq_some hp
    dsimp only at h
    split at h
    · cases h
    · rename_i hok
      simp only [Bool.true_and, Bool.or_eq_true, not_or, Bool.not_eq_true, Bool.not_eq_false', isSome_eq_false_iff,
        isNone_iff_eq_none] at hok
      obtain ⟨⟨hname, hvalid⟩, hnew⟩ := hok
      obtain ⟨parts, hl, hm, rfl, hstorable, hnodup, hr⟩ := ih h
      refine ⟨part :: parts, by rw [length_cons, hl], ?_, rfl, ?_, ?_, ?_⟩
      · rw [hi, hm, flatMap_cons, append_assoc]
      · exact forall_mem_cons.mpr ⟨⟨hname, hvalid, hfits⟩, hstorable⟩
      · rw [map_cons, nodup_cons]
        refine ⟨fun hmem => ?_, hnodup⟩
        obtain ⟨other, ho, hid⟩ := mem_map.mp hmem
        have := hr other ho
        rw [find?_put, if_pos hid] at this
        cases this
      · refine forall_mem_cons.mpr ⟨hnew, fun other ho => ?_⟩
        have := hr other ho
        rw [find?_put] at this
        split at this
        · cases this
        · exact this

theorem sized_eq {bytes : Bytes} (h : bytes.length < 2 ^ 32) : sized bytes = some (sizedBytes bytes) := if_pos h

variable {parts : List (UInt32 × StoredField)}

theorem encodeFields_eq {previous : Option UInt32}
    (hsort : parts.Pairwise fun a b => a.1 < b.1) (hprev : ∀ id ∈ previous, ∀ part ∈ parts, id < part.1)
    (hparts : ∀ part ∈ parts, Storable cbor part.2) :
    encodeFields cbor previous parts = some (parts.flatMap partBytes) := by
  induction parts generalizing previous with
  | nil => rfl
  | cons part parts ih =>
    obtain ⟨hp, hparts⟩ := forall_mem_cons.mp hparts
    obtain ⟨hbelow, hsort⟩ := pairwise_cons.mp hsort
    have hrises : previous.any (part.1 ≤ ·) = false := by
      cases previous with
      | none => rfl
      | some id => simpa using hprev id rfl part mem_cons_self
    have hrest : encodeFields cbor (some part.1) parts = some (parts.flatMap partBytes) :=
      ih hsort (fun id hid => by cases hid; exact hbelow) hparts
    rw [encodeFields, if_neg (by simp [hrises, hp.name, hp.valid]), sized_eq hp.fits.1, sized_eq hp.fits.2, hrest]
    rfl

theorem toList_ofList_perm (h : (parts.map Prod.fst).Nodup) : (ofList parts : Fields).toList.Perm parts := by
  have hinj : ∀ x ∈ parts, ∀ y ∈ parts, x.1 = y.1 → x = y := fun x hx y hy => inj_on_of_nodup_map h hx hy
  refine (perm_ext_iff_of_nodup (nodup_toList _) (Nodup.of_map _ h)).mpr fun x => ?_
  exact mem_ofList_of_inj hinj

namespace StoredDocument

def layout (parts : List (UInt32 × StoredField)) : Bytes :=
  documentMagic ++ Wire.toBe 4 parts.length ++ parts.flatMap partBytes

theorem decode_eq_some {doc : StoredDocument} {bytes : Bytes} (h : StoredDocument.decode cbor bytes = some doc) :
    ∃ parts : List (UInt32 × StoredField), bytes = layout parts ∧ parts.length < 2 ^ 32 ∧ doc.fields.toList.Perm parts ∧
      (∀ part ∈ parts, Storable cbor part.2) ∧ (doc.fields.toList.map fun part => part.2.name).Nodup := by
  obtain ⟨input, hi, h⟩ := bind_eq_some_iff.mp h
  obtain ⟨magic, hmagic, heq⟩ := dropPrefix?_eq_some_iff.mp hi
  obtain ⟨fields, hread, h⟩ := bind_eq_some_iff.mp h
  rw [ite_none_right_eq_some] at h
  obtain ⟨hnames, h⟩ := h
  cases h
  obtain ⟨count, middle, hc, hread⟩ := bind_eq_some.mp (all_eq_some.mp hread)
  obtain ⟨hm, hlt⟩ := be_eq_some hc
  obtain ⟨_, _, hget, hread⟩ := bind_eq_some.mp hread
  cases hget
  split at hread
  · cases hread
  · obtain ⟨parts, rfl, hp, rfl, hstorable, hnodup, -⟩ := decodeFields_eq_some hread
    refine ⟨parts, ?_, hlt, toList_ofList_perm hnodup, hstorable, hnames⟩
    rw [hmagic, eq_of_beq heq, hm, hp, append_nil, layout, append_assoc]

theorem encode_eq {doc : StoredDocument} (hcnt : doc.fields.toList.length < 2 ^ 32)
    (hparts : ∀ part ∈ doc.fields.toList, Storable cbor part.2)
    (hnames : (doc.fields.toList.map fun part => part.2.name).Nodup) :
    doc.encode cbor = some (layout doc.fields.toList) := by
  rw [encode, encodeAfter, encodeParts, if_pos hcnt,
    encodeFields_eq doc.fields.sorted (fun id hid => absurd hid (by simp)) hparts, bind_eq_bind, bind_some,
    if_pos hnames]
  rfl

theorem length_layout_perm {parts' : List (UInt32 × StoredField)} (h : parts.Perm parts') :
    (layout parts).length = (layout parts').length := by
  rw [layout, layout, length_append, (h.flatMap_right partBytes).length_eq]
  simp only [length_append, Wire.length_toBe]

/-- What is written for a document reads back as it. Bytes that decode to one are its parts laid out in an order of their
    own: the names differ, what is written for the document is as long, reads back, and is these bytes if their IDs rise. -/
theorem codec (cbor : Cbor) (doc : StoredDocument) (bytes : Bytes) :
    (doc.encode cbor = some bytes → decode cbor bytes = some doc) ∧
      (decode cbor bytes = some doc →
        (∀ part ∈ doc.fields, part.2.name ≠ "") ∧ (doc.fields.toList.map fun part => part.2.name).Nodup ∧
        ∃ parts written, bytes = layout parts ∧ doc.fields.toList.Perm parts ∧ doc.encode cbor = some written ∧
          written.length = bytes.length ∧ decode cbor written = some doc ∧
          ((parts.map Prod.fst).Pairwise (· < ·) → written = bytes)) := by
  refine ⟨decode_encode, fun h => ?_⟩
  obtain ⟨parts, rfl, hcnt, hperm, hparts, hnames⟩ := decode_eq_some h
  have hstorable : ∀ part ∈ doc.fields.toList, Storable cbor part.2 := fun part hp => hparts part (hperm.mem_iff.mp hp)
  have he := encode_eq (hperm.length_eq ▸ hcnt) hstorable hnames
  refine ⟨fun part hp hn => ?_, hnames, parts, _, rfl, hperm, he, length_layout_perm hperm, decode_encode he,
    fun hrise => ?_⟩
  · have := (hstorable part hp).name
    rw [hn] at this
    cases this
  · have hs : parts.Pairwise fun a b => a.1 < b.1 := pairwise_map.mp hrise
    have hf : doc.fields.toList = parts :=
      hperm.eq_of_pairwise (fun a b _ _ hab hba => absurd hab (lt_asymm hba)) doc.fields.sorted hs
    rw [hf]

end StoredDocument

end Defra.Stored
