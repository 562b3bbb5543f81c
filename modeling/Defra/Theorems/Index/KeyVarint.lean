import Defra.Index.Range
import Defra.Theorems.Index.Order

/-! The numbers in keys: their codes are in the order of the numbers, and none is the start of another. -/

namespace Defra.Index
open List KeyOrder Reader

/-- One byte, two bytes, or a marker for the width and the bytes of the number. -/
theorem encodeKeyUvarint_cases (v : UInt64) :
    (∃ first : UInt8, encodeKeyUvarint v = [first] ∧ v.toNat < 240 ∧ first.toNat = v.toNat) ∨
    (∃ first low : UInt8, encodeKeyUvarint v = [first, low] ∧ 240 ≤ v.toNat ∧ v.toNat ≤ 2287 ∧
      first.toNat = 240 + (v.toNat - 240) / 256 ∧ low.toNat = (v.toNat - 240) % 256) ∨
    ∃ first : UInt8, encodeKeyUvarint v = first :: Wire.toBe (widthOf v.toNat) v.toNat ∧ 2287 < v.toNat ∧
      first.toNat = 247 + widthOf v.toNat := by
  unfold encodeKeyUvarint
  split
  · rename_i hsmall
    refine .inl ⟨_, rfl, hsmall, ?_⟩
    rw [UInt8.toNat_ofNat']
    omega
  · rename_i hsmall
    split
    · rename_i hmiddle
      have hall : ∀ n : Fin 8, ((0xf0 : UInt8) + UInt8.ofNat n).toNat = 240 + n := by decide
      refine .inr (.inl ⟨_, _, rfl, not_lt.mp hsmall, hmiddle, hall ⟨(v.toNat - 240) / 256, by omega⟩, ?_⟩)
      rw [UInt8.toNat_ofNat']
      omega
    · rename_i hmiddle
      have hall : ∀ n : Fin 9, ((0xf7 : UInt8) + UInt8.ofNat n).toNat = 247 + n := by decide
      exact .inr (.inr ⟨_, rfl, not_le.mp hmiddle, hall ⟨_, Nat.lt_succ_of_le (widthOf_le v.toNat)⟩⟩)

theorem reads_keyUvarint (v : UInt64) : Reads readUvarint (encodeKeyUvarint v) v := by
  rcases encodeKeyUvarint_cases v with ⟨first, heq, hlt, hf⟩ | ⟨first, low, heq, hle, hle', hf, hl⟩ |
    ⟨first, heq, hlt, hf⟩
  · rw [heq]
    refine (Reads.byte first).bind_nil ?_
    rw [if_pos (UInt8.le_iff_toNat_le.mpr (by rw [hf]; exact Nat.le_of_lt_succ hlt)), hf, UInt64.ofNat_toNat]
    exact Reads.pure v
  · rw [heq]
    refine (Reads.byte first).bind ?_
    rw [if_neg (by rw [UInt8.le_iff_toNat_le]; simp; omega), if_pos (by rw [UInt8.le_iff_toNat_le]; simp; omega)]
    refine (Reads.byte low).bind_nil ?_
    rw [hf, hl, show 240 + (240 + (v.toNat - 240) / 256 - 240) * 256 + (v.toNat - 240) % 256 = v.toNat by omega,
      UInt64.ofNat_toNat]
    exact Reads.pure v
  · rw [heq]
    have hpos := widthOf_pos v.toNat
    refine (Reads.byte first).bind ?_
    rw [if_neg (by rw [UInt8.le_iff_toNat_le]; simp; omega),
      if_neg (by rw [UInt8.le_iff_toNat_le]; simp; omega), hf, Nat.add_sub_cancel_left]
    refine (Reads.be (lt_pow_widthOf v.toNat_lt)).bind_nil ?_
    rw [UInt64.ofNat_toNat]
    exact Reads.pure v

theorem local_readUvarint : Local readUvarint := by
  refine Local.byte.bind fun first => ?_
  split
  · exact .pure _
  · split
    · exact Local.byte.bind fun _ => .pure _
    · exact ((Local.take _).bind fun _ => .pure _).bind fun _ => .pure _

theorem before_keyUvarint {a b : UInt64} (h : a < b) : Before (encodeKeyUvarint a) (encodeKeyUvarint b) := by
  have hlt : a.toNat < b.toNat := h
  have hh : ∀ {x y : UInt8} (p q : Bytes), x.toNat < y.toNat → Before (x :: p) (y :: q) := fun p q hxy =>
    .head p q (UInt8.lt_iff_toNat_lt.mpr hxy)
  rcases encodeKeyUvarint_cases a with ⟨x, ha, hx⟩ | ⟨x, low, ha, hx⟩ | ⟨x, ha, hx⟩ <;>
    rcases encodeKeyUvarint_cases b with ⟨y, hb, hy⟩ | ⟨y, low', hb, hy⟩ | ⟨y, hb, hy⟩ <;> rw [ha, hb]
  -- the greater number has the greater first byte, or a code as long as the other's
  case inr.inl.inr.inl =>
    rcases Nat.lt_or_ge x.toNat y.toNat with hxy | hxy
    · exact hh _ _ hxy
    · obtain rfl : x = y := UInt8.toNat_inj.mp (by omega)
      exact .cons x (hh _ _ (by omega))
  case inr.inr.inr.inr =>
    rcases (widthOf_mono hlt.le).lt_or_eq with hwidth | hwidth
    · exact hh _ _ (by omega)
    · obtain rfl : x = y := UInt8.toNat_inj.mp (by omega)
      rw [hwidth]
      exact .cons x (before_toBe_of_lt hlt (lt_pow_widthOf b.toNat_lt))
  all_goals exact hh _ _ (by have := widthOf_pos b.toNat; omega)

theorem toNat_flipSign (v : Int64) : ((v.toUInt64 ^^^ 0x8000000000000000).toNat : Int) = v.toInt + 2 ^ 63 := by
  have hv := toInt_eq v
  have hlt := v.toUInt64.toNat_lt
  have hsign : (0x8000000000000000 : UInt64).toNat = 2 ^ 63 := rfl
  have hhigh := @Nat.xor_div_two_pow v.toUInt64.toNat (2 ^ 63) 63
  have hlow := @Nat.xor_mod_two_pow v.toUInt64.toNat (2 ^ 63) 63
  rw [Nat.mod_self, Nat.xor_zero] at hlow
  rw [UInt64.toNat_xor, hsign]
  split at hv
  · rename_i hsmall
    rw [Nat.div_eq_of_lt hsmall, Nat.zero_xor] at hhigh
    omega
  · rw [show v.toUInt64.toNat / 2 ^ 63 = 1 by omega, Nat.div_self (by decide), Nat.xor_self] at hhigh
    omega

/-- Codes read back whatever follows them, sort as what they encode whatever follows, and are refused when cut short. -/
structure OrderedCodec {α : Type} [LT α] (encode : α → Bytes) (decode : Bytes → Except String (Bytes × α)) : Prop where
  reads_back : ∀ a suffix, decode (encode a ++ suffix) = .ok (suffix, a)
  ordered : ∀ a b, a < b → ∀ suffix suffix', encode a ++ suffix < encode b ++ suffix'
  cut_short : ∀ a front, front <+: encode a → front ≠ encode a → ∃ error, decode front = .error error

theorem keyVarint_codec :
    OrderedCodec encodeKeyUvarint decodeKeyUvarint ∧ OrderedCodec encodeKeyVarint decodeKeyVarint := by
  have hcut : ∀ v front, front <+: encodeKeyUvarint v → front ≠ encodeKeyUvarint v →
      ∃ error, decodeKeyUvarint front = .error error := by
    intro v front hf hne
    rw [decodeKeyUvarint, (reads_keyUvarint v).cut_short local_readUvarint hf hne]
    exact ⟨_, rfl⟩
  refine ⟨⟨fun a suffix => ?_, fun a b h suffix suffix' => ?_, hcut⟩, ⟨fun a suffix => ?_, fun a b h suffix suffix' => ?_, ?_⟩⟩
  · rw [decodeKeyUvarint, reads_keyUvarint a suffix]
  · exact ((before_keyUvarint h).append suffix suffix').lt
  · rw [decodeKeyVarint, encodeKeyVarint, decodeKeyUvarint, reads_keyUvarint _ suffix]
    change Except.ok (suffix, ((a.toUInt64 ^^^ 0x8000000000000000) ^^^ 0x8000000000000000).toInt64) = .ok (suffix, a)
    rw [UInt64.xor_assoc, UInt64.xor_self, UInt64.xor_zero, Int64.toInt64_toUInt64]
  · refine ((before_keyUvarint ?_).append suffix suffix').lt
    have ha := toNat_flipSign a
    have hb := toNat_flipSign b
    have := Int64.lt_iff_toInt_lt.mp h
    rw [UInt64.lt_iff_toNat_lt]
    omega
  · intro v front hf hne
    obtain ⟨error, he⟩ := hcut _ front hf hne
    rw [decodeKeyVarint, he]
    exact ⟨error, rfl⟩

end Defra.Index
