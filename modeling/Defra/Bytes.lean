import Mathlib.Data.List.Lex

/-! Machine words and byte strings. `Vec<u8>` and `&[u8]` are lists of bytes, compared in lexicographic order: a byte string
    sorts after its proper prefixes. -/

namespace Defra
open List

instance instLinearOrderUInt8 : LinearOrder UInt8 where
  le_refl _ := UInt8.le_refl _
  le_trans _ _ _ := UInt8.le_trans
  lt_iff_le_not_ge a b := by
    rw [UInt8.lt_iff_toNat_lt, UInt8.le_iff_toNat_le, UInt8.le_iff_toNat_le]
    omega
  le_antisymm _ _ := UInt8.le_antisymm
  le_total := UInt8.le_total
  toDecidableLE := inferInstance

instance instLinearOrderUInt32 : LinearOrder UInt32 where
  le_refl _ := UInt32.le_refl _
  le_trans _ _ _ := UInt32.le_trans
  lt_iff_le_not_ge a b := by
    rw [UInt32.lt_iff_toNat_lt, UInt32.le_iff_toNat_le, UInt32.le_iff_toNat_le]
    omega
  le_antisymm _ _ := UInt32.le_antisymm
  le_total := UInt32.le_total
  toDecidableLE := inferInstance

instance instLinearOrderUInt64 : LinearOrder UInt64 where
  le_refl _ := UInt64.le_refl _
  le_trans _ _ _ := UInt64.le_trans
  lt_iff_le_not_ge a b := by
    rw [UInt64.lt_iff_toNat_lt, UInt64.le_iff_toNat_le, UInt64.le_iff_toNat_le]
    omega
  le_antisymm _ _ := UInt64.le_antisymm
  le_total := UInt64.le_total
  toDecidableLE := inferInstance

abbrev Bytes := List UInt8

theorem Bytes.compare_eq_lt (a b : Bytes) : compare a b = .lt ↔ a < b := by
  induction a generalizing b with
  | nil => cases b <;> simp
  | cons x a ih =>
    cases b with
    | nil => simp
    | cons y b =>
      rw [List.cons_lt_cons_iff, ← ih, List.compare_cons_cons, Ordering.then_eq_lt, Std.compare_eq_lt,
        compare_eq_iff_eq]

theorem Bytes.le_of_prefix {a b : Bytes} (h : a <+: b) : a ≤ b := by
  obtain ⟨c, rfl⟩ := h
  rw [← not_lt]
  induction a with
  | nil => simp
  | cons x a ih =>
    rw [cons_append, cons_lt_cons_iff]
    rintro (hx | ⟨-, hlt⟩)
    · exact lt_irrefl x hx
    · exact ih hlt

/-- The byte strings that start with `a` are one range from `a` on. -/
theorem Bytes.prefix_of_between {a b c : Bytes} (hab : a ≤ b) (hbc : b ≤ c) (h : a <+: c) : a <+: b := by
  rw [← not_lt] at hab hbc
  obtain ⟨d, rfl⟩ := h
  induction a generalizing b with
  | nil => exact nil_prefix
  | cons x a ih =>
    cases b with
    | nil => exact absurd (nil_lt_cons x a) hab
    | cons y b =>
      rw [cons_lt_cons_iff, not_or] at hab
      rw [cons_append, cons_lt_cons_iff, not_or] at hbc
      obtain rfl : x = y := le_antisymm (not_lt.mp hab.1) (not_lt.mp hbc.1)
      rw [cons_prefix_cons]
      exact ⟨rfl, ih (fun hlt => hab.2 ⟨rfl, hlt⟩) fun hlt => hbc.2 ⟨rfl, hlt⟩⟩

def utf8 (s : String) : Bytes := s.toUTF8.data.toList

/-- `String::from_utf8`. -/
def fromUtf8 (bytes : Bytes) : Option String := String.fromUTF8? ⟨bytes.toArray⟩

theorem utf8_inj {s t : String} (h : utf8 s = utf8 t) : s = t :=
  String.toByteArray_inj.mp (ByteArray.ext (Array.toList_inj.mp h))

theorem fromUtf8_utf8 (s : String) : fromUtf8 (utf8 s) = some s := by
  exact dif_pos s.isValidUTF8

theorem utf8_of_fromUtf8 {bytes : Bytes} {s : String} (h : fromUtf8 bytes = some s) : utf8 s = bytes := by
  rw [fromUtf8, String.fromUTF8?] at h
  split at h
  · cases h
    rfl
  · cases h

end Defra
