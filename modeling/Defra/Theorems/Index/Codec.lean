import Defra.Theorems.Index.Order

/-! Decoding takes back what encoding wrote, and leaves what follows. -/

namespace Defra.Index
open List Reader Reads

variable (bytes : Bytes) (data : Bytes) (v : Int64)

/-- The complement of a number's bytes is the distance to the largest number of their length. -/
theorem ofBe_complement : Wire.ofBe (bytes.map (~~~·)) = 256 ^ bytes.length - 1 - Wire.ofBe bytes := by
  induction bytes with
  | nil => rfl
  | cons byte bytes ih =>
    have hs : UInt8.size = 256 := rfl
    have hlt := Wire.ofBe_lt bytes
    have hb := byte.toNat_lt
    rw [map_cons, Wire.ofBe_cons, Wire.ofBe_cons, length_map, UInt8.toNat_not, length_cons,
      hs, Nat.sub_mul]
    have := Nat.mul_le_mul_right (256 ^ bytes.length) (show byte.toNat ≤ 255 by omega)
    omega

/-! ### Integers -/

theorem reads_uvarint (v : UInt64) : Reads decodeUvarintAscending (encodeUvarintAscending v) v := by
  unfold encodeUvarintAscending decodeUvarintAscending
  have hzero : intZero.toNat = 136 := rfl
  have hsmall : intSmall.toNat = 109 := rfl
  split
  · rename_i h
    refine (Reads.byte _).bind_nil ?_
    rw [smallMarker h, if_pos (by omega)]
    have : UInt64.ofNat (136 + v.toNat) - UInt64.ofNat intZero.toNat = v := by
      rw [UInt64.ofNat_add, UInt64.ofNat_toNat, hzero, UInt64.add_comm, UInt64.add_sub_cancel]
    rw [this]
    exact pure v
  · have hpos := widthOf_pos v.toNat
    have hle := widthOf_le v.toNat
    refine (Reads.byte _).bind ?_
    rw [largeMarker hle, if_neg (by omega), hzero, hsmall,
      show 245 + widthOf v.toNat - 136 - 109 = widthOf v.toNat by omega]
    rw [if_neg (by omega)]
    refine (be (lt_pow_widthOf v.toNat_lt)).bind_nil ?_
    rw [UInt64.ofNat_toNat]
    exact pure v

/-- A negative integer is the complement of a natural number, as its bytes are. -/
theorem complement_ofNat {v : Int64} (h : v.toInt < 0) : ~~~(Int64.ofNat (v.toInt.natAbs - 1)) = v := by
  obtain ⟨-, hpos, hle⟩ := toNat_of_negative h
  rw [← Int64.toInt_inj, toInt_complement, Int64.toInt_ofNat_of_lt (by omega)]
  omega

theorem reads_varint : Reads decodeVarintAscending (encodeVarintAscending v) v := by
  intro rest
  have hzero : intZero.toNat = 136 := rfl
  by_cases h : v.toInt < 0
  · obtain ⟨-, hpos, hbound⟩ := toNat_of_negative h
    have hwidth := widthOf_pos v.toInt.natAbs
    have hle := widthOf_le v.toInt.natAbs
    have hm := negativeMarker hle
    have ht := take (Wire.toBe (widthOf v.toInt.natAbs) v.toUInt64.toNat)
    rw [Wire.length_toBe] at ht
    rw [encodeVarintAscending_negative h, cons_append, decodeVarintAscending]
    rw [if_pos (by rw [UInt8.lt_iff_toNat_lt]; omega), hm, hzero,
      show 136 - (136 - widthOf v.toInt.natAbs) = widthOf v.toInt.natAbs by omega]
    refine ht.bind_nil ?_ rest
    have hlt := lt_pow_widthOf (show v.toInt.natAbs < 2 ^ 64 by omega)
    rw [ofBe_complement, Wire.length_toBe, Wire.ofBe_toBe_mod, negative_mod h,
      show 256 ^ widthOf v.toInt.natAbs - 1 - (256 ^ widthOf v.toInt.natAbs - v.toInt.natAbs) = v.toInt.natAbs - 1 by omega,
      complement_ofNat h]
    exact pure v
  · have hnat := toNat_of_nonneg (not_lt.mp h)
    obtain ⟨marker, tail, heq, hm, -⟩ := encodeUvarintAscending_head v.toUInt64
    have hread := reads_uvarint v.toUInt64
    rw [encodeVarintAscending_nonneg (not_lt.mp h)]
    rw [heq] at hread ⊢
    rw [cons_append, decodeVarintAscending]
    rw [if_neg (by rw [UInt8.lt_iff_toNat_lt]; omega)]
    refine hread.bind_nil ?_ rest
    have hmax : Int64.maxValue.toInt.toNat = 2 ^ 63 - 1 := by decide
    have := v.toInt_lt
    rw [if_neg (by omega)]
    exact pure v

theorem reads_varint_descending : Reads decodeVarintDescending (encodeVarintDescending v) v := by
  refine (reads_varint (~~~v)).bind_nil ?_
  rw [Int64.not_not]
  exact pure v

/-! ### Bytes and text -/

section Bytes
variable (escape escapedTerm escaped00 unescaped : UInt8)

/-- A byte other than the escape is read as it is. -/
theorem decodeBytesInternal_cons_ne {b : UInt8} (h : b ≠ escape) (rest : Bytes) :
    decodeBytesInternal escape escapedTerm escaped00 unescaped (b :: rest) =
      (decodeBytesInternal escape escapedTerm escaped00 unescaped rest).map fun (out, rest) => (b :: out, rest) := by
  cases rest with
  | nil => rfl
  | cons v rest => rw [decodeBytesInternal, if_pos h]

theorem decodeBytesInternal_term (rest : Bytes) :
    decodeBytesInternal escape escapedTerm escaped00 unescaped (escape :: escapedTerm :: rest) = some ([], rest) := by
  rw [decodeBytesInternal, if_neg (not_not.mpr rfl), if_pos rfl]

theorem decodeBytesInternal_escaped (h : escaped00 ≠ escapedTerm) (rest : Bytes) :
    decodeBytesInternal escape escapedTerm escaped00 unescaped (escape :: escaped00 :: rest) =
      (decodeBytesInternal escape escapedTerm escaped00 unescaped rest).map
        fun (out, rest) => (unescaped :: out, rest) := by
  rw [decodeBytesInternal, if_neg (not_not.mpr rfl), if_neg h, if_neg (not_not.mpr rfl)]

end Bytes

theorem complement_complement : onesComplement (onesComplement bytes) = bytes := by
  rw [onesComplement, onesComplement, map_map]
  have : ((~~~·) ∘ (~~~·) : UInt8 → UInt8) = id := by
    funext b
    exact UInt8.not_not
  rw [this, map_id]

theorem reads_escapeBytes :
    Reads (decodeBytesInternal escape escapedTerm escaped00 0x00) (escapeBytes data) data := by
  intro rest
  induction data with
  | nil => exact decodeBytesInternal_term _ _ _ _ rest
  | cons b data ih =>
    rw [escapeBytes_cons]
    by_cases hb : b = escape
    · rw [if_pos hb, append_assoc]
      rw [cons_append, cons_append, nil_append, decodeBytesInternal_escaped _ _ _ _ (by decide), ih, hb]
      rfl
    · rw [if_neg hb, append_assoc, cons_append, nil_append, decodeBytesInternal_cons_ne _ _ _ _ hb, ih]
      rfl

/-- The bytes turned around are read by the reader turned around. -/
theorem decodeBytesInternal_complement (e t z u : UInt8) (input : Bytes) :
    decodeBytesInternal (~~~e) (~~~t) (~~~z) (~~~u) (onesComplement input) =
      (decodeBytesInternal e t z u input).map fun (out, rest) => (onesComplement out, onesComplement rest) := by
  fun_induction decodeBytesInternal e t z u input with
  | case1 => rfl
  | case2 => rfl
  | case3 b v rest hb ih =>
    rw [onesComplement, map_cons, decodeBytesInternal_cons_ne _ _ _ _ (by simpa using hb)]
    rw [onesComplement] at ih
    rw [ih, Option.map_map, Option.map_map]
    rfl
  | case4 b rest hb =>
    rw [not_not] at hb
    rw [hb]
    exact decodeBytesInternal_term _ _ _ _ _
  | case5 b v rest hb hv hz =>
    rw [onesComplement, map_cons, map_cons, decodeBytesInternal, if_neg (by simpa using hb),
      if_neg (by simpa using hv), if_pos (by simpa using hz)]
    rfl
  | case6 b v rest hb hv hz ih =>
    rw [not_not] at hb hz
    rw [onesComplement, map_cons, map_cons, hb, hz, decodeBytesInternal_escaped _ _ _ _ (by simpa [hz] using hv)]
    rw [onesComplement] at ih
    rw [ih, Option.map_map, Option.map_map]
    rfl

theorem reads_escapeBytes_descending :
    Reads (decodeBytesInternal (~~~escape) (~~~escapedTerm) (~~~escaped00) 0xff) (onesComplement (escapeBytes data))
      (onesComplement data) := by
  intro rest
  have hcomplement := decodeBytesInternal_complement escape escapedTerm escaped00 0x00
    (escapeBytes data ++ onesComplement rest)
  rw [reads_escapeBytes, onesComplement, map_append, ← onesComplement, ← onesComplement, complement_complement]
    at hcomplement
  rw [show (0xff : UInt8) = ~~~0x00 from rfl, hcomplement]
  simp [complement_complement]

theorem reads_bytes : Reads decodeBytesAscending (encodeBytesAscending data) data := by
  refine (byte bytesMarker).bind ?_
  exact reads_escapeBytes data

theorem reads_bytes_descending : Reads decodeBytesDescending (encodeBytesDescending data) data := by
  refine (byte bytesDescMarker).bind ?_
  refine (reads_escapeBytes_descending data).bind_nil ?_
  rw [complement_complement]
  exact pure data

/-! ### Booleans and times -/

theorem reads_bool (v : Bool) : Reads decodeBoolAscending (encodeBoolAscending v) v := by
  intro rest
  cases v <;> rfl

theorem reads_bool_descending (v : Bool) : Reads decodeBoolDescending (encodeBoolDescending v) v := by
  refine (reads_bool (!v)).bind_nil ?_
  rw [Bool.not_not]
  exact pure v

/-- A time is read when each of its two parts is. -/
theorem reads_time {component : Reader Int64} {encode : Int64 → Bytes} (h : ∀ v, Reads component (encode v) v)
    (seconds : Int64) {nanos : UInt32} (hn : nanos.toNat < 1000000000) :
    Reads (decodeTime component) (timeMarker :: (encode seconds ++ encode (.ofNat nanos.toNat))) (seconds, nanos) := by
  refine (byte timeMarker).bind ?_
  refine (h seconds).bind ((h (.ofNat nanos.toNat)).bind_nil ?_)
  have hsub : subSecond (.ofNat nanos.toNat) = some nanos := by
    have hint := toInt_ofNat_nanos nanos
    have hmax : nanosPerSecond.toNat = 1000000000 := rfl
    rw [subSecond, if_pos ⟨Int64.le_iff_toInt_le.mpr (by rw [hint]; exact Int.natCast_nonneg _), by omega⟩, hint,
      Int.toNat_natCast, UInt32.ofNat_toNat]
  exact (lift hsub).bind_nil (pure _)

/-! ### Floats -/

namespace FloatFormat
variable (fmt : FloatFormat)

/-- The bits that a number is read back as: both zeros are one. -/
def canonical (bits : Nat) : Nat := if fmt.isZero bits then 0 else bits

theorem reads_ascending {bits : Nat} (h : bits < 2 * fmt.signBit) (hnan : fmt.isNan bits = false) :
    Reads fmt.decodeAscending (fmt.encodeAscending bits) (fmt.canonical bits) := by
  have he := fmt.encoded h hnan
  have hwidth := fmt.pow_width
  obtain ⟨h1, h2, h3, h4⟩ := fmt.ordered
  generalize fmt.numeric bits = x at he
  generalize fmt.encodeAscending bits = bytes at he
  have hnonzero : 0 < bits % fmt.signBit → fmt.canonical bits = bits := by
    intro hp
    rw [canonical, isZero, if_neg]
    simpa using hp.ne'
  cases he with
  | zero hz =>
    refine (byte fmt.zero).bind_nil ?_
    rw [if_neg (by rintro (h | h) <;> [exact absurd h (h1.trans h2).ne'; exact absurd h (h3.trans h4).ne]), if_pos rfl,
      canonical, if_pos hz]
    exact pure 0
  | negative m hm hms hb =>
    rw [hnonzero (by rw [hb, Nat.add_mod_left, Nat.mod_eq_of_lt hms]; exact hm)]
    refine (byte fmt.neg).bind ?_
    rw [if_neg (by rintro (h | h) <;> [exact absurd h h1.ne'; exact absurd h (h2.trans (h3.trans h4)).ne]),
      if_neg h2.ne, if_pos rfl]
    refine (Reads.be (by omega)).bind_nil ?_
    rw [show 2 * fmt.signBit - 1 - (fmt.signBit - 1 - m) = bits by omega]
    exact pure bits
  | positive hp hlt =>
    rw [hnonzero (by rw [Nat.mod_eq_of_lt hlt]; exact hp)]
    refine (byte fmt.pos).bind ?_
    rw [if_neg (by rintro (h | h) <;> [exact absurd h (h1.trans (h2.trans h3)).ne'; exact absurd h h4.ne]),
      if_neg h3.ne', if_neg (h2.trans h3).ne', if_pos rfl]
    exact be (by omega)

theorem reads_descending {bits : Nat} (h : bits < 2 * fmt.signBit) (hnan : fmt.isNan bits = false) :
    Reads fmt.decodeDescending (fmt.encodeDescending bits) (fmt.canonical bits) := by
  have hread := fmt.reads_ascending (fmt.negate_lt h) ((fmt.isNan_negate bits).trans hnan)
  rw [encodeDescending, hnan]
  refine hread.bind_nil ?_
  by_cases hzero : fmt.isZero bits = true
  · have hn : fmt.canonical (fmt.negate bits) = 0 := if_pos ((fmt.isZero_negate bits).trans hzero)
    rw [hn, canonical, if_pos hzero]
    exact pure 0
  · have hn : fmt.canonical (fmt.negate bits) = fmt.negate bits :=
      if_neg (by rwa [fmt.isZero_negate bits])
    rw [hn, isZero_negate, isNan_negate, hnan, Bool.or_false, if_neg hzero, fmt.negate_negate h, canonical,
      if_neg hzero]
    exact pure bits

/-- The bits that any float is read back as: every NaN is one. -/
def readBack (bits : Nat) : Nat := if fmt.isNan bits then fmt.quietNan else fmt.canonical bits

theorem isNan_quietNan : fmt.isNan fmt.quietNan = true := by
  have hlt := fmt.mantissa_lt
  have hpos := fmt.mantissa_pos
  have hbelow : 2 ^ fmt.mantissa < fmt.signBit := Nat.pow_lt_pow_right (by decide) (by omega)
  have hhalf : 2 ^ (fmt.mantissa - 1) < 2 ^ fmt.mantissa := Nat.pow_lt_pow_right (by decide) (by omega)
  have hone : 0 < 2 ^ (fmt.mantissa - 1) := Nat.pow_pos (by decide)
  have hinf : fmt.infinity = fmt.signBit - 2 ^ fmt.mantissa := rfl
  rw [isNan, quietNan, decide_eq_true_eq, Nat.mod_eq_of_lt (by omega)]
  omega

theorem reads {bits : Nat} (h : bits < 2 * fmt.signBit) (down : Bool) :
    Reads (if down then fmt.decodeDescending else fmt.decodeAscending)
      (if down then fmt.encodeDescending bits else fmt.encodeAscending bits) (fmt.readBack bits) := by
  unfold readBack
  cases hn : fmt.isNan bits with
  | false =>
    cases down with
    | false => exact fmt.reads_ascending h hn
    | true => exact fmt.reads_descending h hn
  | true =>
    have hread : ∀ marker, marker = fmt.nan ∨ marker = fmt.nanDesc →
        Reads fmt.decodeAscending [marker] fmt.quietNan := by
      intro marker hm
      refine (byte marker).bind_nil ?_
      rw [if_pos hm]
      exact pure _
    cases down with
    | false =>
      simp only [Bool.false_eq_true, if_false, if_true, encodeAscending, hn]
      exact hread fmt.nan (.inl rfl)
    | true =>
      simp only [if_true, encodeDescending, hn]
      refine (hread fmt.nanDesc (.inr rfl)).bind_nil ?_
      rw [isNan_quietNan, Bool.or_true]
      exact pure _

end FloatFormat

end Defra.Index
