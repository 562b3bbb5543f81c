import Defra.Lib.KeyOrder
import Defra.Index.Encoding

/-! The encodings of values in index keys are in the order of the values, whatever follows them. -/

namespace Defra.Index
open KeyOrder

variable {n m : Nat}

/-! ### Bytes and booleans -/

/-- Numbers of one length are in the order of their bytes. -/
theorem before_toBe : ∀ {width : Nat}, n % 256 ^ width < m % 256 ^ width →
    Before (Wire.toBe width n) (Wire.toBe width m)
  | 0, h => by simp [Nat.mod_one] at h
  | width + 1, h => by
    have hbyte : ∀ n : Nat, (UInt8.ofNat (n / 256 ^ width)).toNat = n / 256 ^ width % 256 := by simp
    rw [pow_succ, Nat.mod_mul, Nat.mod_mul] at h
    rw [Wire.toBe]
    rcases lt_trichotomy (n / 256 ^ width % 256) (m / 256 ^ width % 256) with hlt | heq | hgt
    · refine .head _ _ ?_
      exact hlt
    · have : UInt8.ofNat (n / 256 ^ width) = UInt8.ofNat (m / 256 ^ width) := by
        rw [← UInt8.toNat_inj, hbyte, hbyte, heq]
      rw [this]
      rw [heq] at h
      exact .cons _ (before_toBe (Nat.lt_of_add_lt_add_right h))
    · have hmul := Nat.mul_le_mul_left (256 ^ width) (Nat.succ_le_of_lt hgt)
      rw [Nat.succ_eq_add_one, Nat.mul_add] at hmul
      omega

variable {width : Nat}

theorem before_toBe_of_lt (h : n < m) (hm : m < 256 ^ width) : Before (Wire.toBe width n) (Wire.toBe width m) := by
  apply before_toBe
  rwa [Nat.mod_eq_of_lt (h.trans hm), Nat.mod_eq_of_lt hm]

theorem encodeBoolAscending_order (a b : Bool) : Agrees (cmp a b) (encodeBoolAscending a) (encodeBoolAscending b) := by
  cases a <;> cases b
  · exact rfl
  · exact Before.head _ _ (by decide)
  · exact Before.head _ _ (by decide)
  · exact rfl

theorem encodeBoolDescending_order (a b : Bool) :
    Agrees (cmp a b).swap (encodeBoolDescending a) (encodeBoolDescending b) := by
  have : (cmp a b).swap = cmp (!a) (!b) := by cases a <;> cases b <;> rfl
  rw [this]
  exact encodeBoolAscending_order (!a) (!b)

/-! ### Natural numbers -/

theorem widthOf_pos (v : Nat) : 1 ≤ widthOf v := by
  unfold widthOf
  split_ifs <;> omega

theorem widthOf_le (v : Nat) : widthOf v ≤ 8 := by
  unfold widthOf
  split_ifs <;> omega

theorem widthOf_mono {v w : Nat} (h : v ≤ w) : widthOf v ≤ widthOf w := by
  unfold widthOf
  split_ifs <;> omega

theorem lt_pow_widthOf {v : Nat} (h : v < 2 ^ 64) : v < 256 ^ widthOf v := by
  unfold widthOf
  split_ifs <;> omega

theorem smallMarker {v : Nat} (h : v ≤ intSmall.toNat) : (intZero + UInt8.ofNat v).toNat = 136 + v := by
  have hall : ∀ v : Fin 110, (intZero + UInt8.ofNat v).toNat = 136 + v := by decide
  exact hall ⟨v, Nat.lt_succ_of_le h⟩

theorem largeMarker (h : width ≤ 8) : (intMax - intMaxWidth + UInt8.ofNat width).toNat = 245 + width := by
  have hall : ∀ width : Fin 9, (intMax - intMaxWidth + UInt8.ofNat width).toNat = 245 + width := by decide
  exact hall ⟨width, Nat.lt_succ_of_le h⟩

theorem negativeMarker (h : width ≤ 8) : (intMin + 8 - UInt8.ofNat width).toNat = 136 - width := by
  have hall : ∀ width : Fin 9, (intMin + 8 - UInt8.ofNat width).toNat = 136 - width := by decide
  exact hall ⟨width, Nat.lt_succ_of_le h⟩

/-- The marker orders by length, and the bytes within one length. -/
theorem before_uvarint {a b : UInt64} (h : a < b) : Before (encodeUvarintAscending a) (encodeUvarintAscending b) := by
  have h' : a.toNat < b.toNat := h
  have ha := largeMarker (widthOf_le a.toNat)
  have hb := largeMarker (widthOf_le b.toNat)
  unfold encodeUvarintAscending
  by_cases hsmall : b.toNat ≤ intSmall.toNat
  · rw [if_pos (h'.le.trans hsmall), if_pos hsmall]
    refine .head _ _ ?_
    rw [UInt8.lt_iff_toNat_lt, smallMarker (h'.le.trans hsmall), smallMarker hsmall]
    omega
  have hpos := widthOf_pos b.toNat
  split
  · rename_i hsmall
    refine .head _ _ ?_
    have hle : a.toNat ≤ 109 := hsmall
    rw [UInt8.lt_iff_toNat_lt, smallMarker hsmall]
    omega
  · rcases (widthOf_mono h'.le).lt_or_eq with hlt | heq
    · refine .head _ _ ?_
      rw [UInt8.lt_iff_toNat_lt]
      omega
    · simp only [heq]
      exact .cons _ (before_toBe_of_lt h' (lt_pow_widthOf b.toNat_lt))

/-! ### Integers -/

theorem toInt_eq (v : Int64) :
    v.toInt = if v.toUInt64.toNat < 2 ^ 63 then (v.toUInt64.toNat : Int) else v.toUInt64.toNat - 2 ^ 64 := by
  have hnat : v.toUInt64.toNat = v.toBitVec.toNat := rfl
  have hint : v.toInt = v.toBitVec.toInt := rfl
  rw [hint, BitVec.toInt_eq_toNat_cond]
  split <;> split <;> omega

variable {v : Int64}

theorem toNat_of_nonneg (h : 0 ≤ v.toInt) : (v.toUInt64.toNat : Int) = v.toInt := by
  have := toInt_eq v
  have := v.toUInt64.toNat_lt
  split at * <;> omega

theorem toNat_of_negative (h : v.toInt < 0) :
    v.toUInt64.toNat = 2 ^ 64 - v.toInt.natAbs ∧ 0 < v.toInt.natAbs ∧ v.toInt.natAbs ≤ 2 ^ 63 := by
  have := toInt_eq v
  split at * <;> omega

theorem toInt_complement (v : Int64) : (~~~v).toInt = -v.toInt - 1 := by
  have hle := v.le_toInt
  have hlt := v.toInt_lt
  rw [Int64.toInt_not, Int.bmod_eq_of_le] <;> omega

/-- The last bytes of the two's complement of a number `n` below 0. -/
theorem complement_mod (hn : 0 < n) (hlt : n < 256 ^ width) (hw : width ≤ 8) :
    (2 ^ 64 - n) % 256 ^ width = 256 ^ width - n := by
  obtain ⟨rest, hr⟩ := Nat.exists_eq_add_of_le hw
  have hpow : 2 ^ 64 = 256 ^ width * 256 ^ rest := by
    rw [← pow_add, ← hr]
    norm_num
  have hpos : 1 ≤ 256 ^ rest := Nat.one_le_pow _ _ (by decide)
  have hsum : 2 ^ 64 - n = 256 ^ width - n + 256 ^ width * (256 ^ rest - 1) := by
    rw [Nat.mul_sub]
    have := Nat.mul_le_mul_left (256 ^ width) hpos
    omega
  rw [hsum, Nat.add_mul_mod_self_left, Nat.mod_eq_of_lt (by omega)]

theorem negative_mod (h : v.toInt < 0) :
    v.toUInt64.toNat % 256 ^ widthOf v.toInt.natAbs = 256 ^ widthOf v.toInt.natAbs - v.toInt.natAbs := by
  obtain ⟨ht, hpos, hle⟩ := toNat_of_negative h
  rw [ht]
  exact complement_mod hpos (lt_pow_widthOf (by omega)) (widthOf_le _)

theorem encodeVarintAscending_negative (h : v.toInt < 0) : encodeVarintAscending v =
    (intMin + 8 - UInt8.ofNat (widthOf v.toInt.natAbs)) ::
      Wire.toBe (widthOf v.toInt.natAbs) v.toUInt64.toNat := if_pos (Int64.lt_iff_toInt_lt.mpr h)

theorem encodeVarintAscending_nonneg (h : 0 ≤ v.toInt) : encodeVarintAscending v = encodeUvarintAscending v.toUInt64 := by
  refine if_neg fun hneg => ?_
  have hlt : v.toInt < 0 := Int64.lt_iff_toInt_lt.mp hneg
  omega

/-- A number that is not negative starts with a marker from `intZero` on. -/
theorem encodeUvarintAscending_head (v : UInt64) :
    ∃ marker rest, encodeUvarintAscending v = marker :: rest ∧ 136 ≤ marker.toNat ∧ marker.toNat ≤ 253 := by
  have := widthOf_le v.toNat
  unfold encodeUvarintAscending
  split
  · rename_i h
    have hle : v.toNat ≤ 109 := h
    exact ⟨_, _, rfl, by rw [smallMarker h]; omega, by rw [smallMarker h]; omega⟩
  · exact ⟨_, _, rfl, by rw [largeMarker (widthOf_le _)]; omega, by rw [largeMarker (widthOf_le _)]; omega⟩

/-- The bytes of a smaller integer come first, whatever follows. -/
theorem before_varint {a b : Int64} (h : a.toInt < b.toInt) : Before (encodeVarintAscending a) (encodeVarintAscending b) := by
  have hm := negativeMarker (widthOf_le a.toInt.natAbs)
  have hpos := widthOf_pos a.toInt.natAbs
  by_cases hb : b.toInt < 0
  · have hnat : b.toInt.natAbs < a.toInt.natAbs := by omega
    have hm' := negativeMarker (widthOf_le b.toInt.natAbs)
    rw [encodeVarintAscending_negative (h.trans hb), encodeVarintAscending_negative hb]
    rcases (widthOf_mono hnat.le).lt_or_eq with hlt | heq
    · refine .head _ _ ?_
      have := widthOf_le a.toInt.natAbs
      rw [UInt8.lt_iff_toNat_lt]
      omega
    · have ha := lt_pow_widthOf ((toNat_of_negative (h.trans hb)).2.2.trans_lt (by decide))
      have hmod := negative_mod hb
      rw [heq] at hmod
      rw [heq]
      refine .cons _ (before_toBe ?_)
      rw [negative_mod (h.trans hb)]
      omega
  · rw [encodeVarintAscending_nonneg (not_lt.mp hb)]
    by_cases ha : a.toInt < 0
    · obtain ⟨marker, rest, heq, hle, -⟩ := encodeUvarintAscending_head b.toUInt64
      rw [encodeVarintAscending_negative ha, heq]
      refine .head _ _ ?_
      rw [UInt8.lt_iff_toNat_lt]
      omega
    · rw [encodeVarintAscending_nonneg (not_lt.mp ha)]
      apply before_uvarint
      have := toNat_of_nonneg (not_lt.mp ha)
      have := toNat_of_nonneg (not_lt.mp hb)
      rw [UInt64.lt_iff_toNat_lt]
      omega

theorem encodeVarintAscending_order (a b : Int64) :
    Agrees (cmp a.toInt b.toInt) (encodeVarintAscending a) (encodeVarintAscending b) :=
  .of_cmp before_varint (fun h h' => congrArg _ (Int64.toInt_inj.mp (by omega))) before_varint

theorem cmp_swap_of_anti {a b c d : Int} (h : c < d ↔ b < a) (h' : d < c ↔ a < b) : cmp c d = (cmp a b).swap := by
  rw [cmp_swap]
  unfold cmp cmpUsing
  simp only [h, h']

theorem encodeVarintDescending_order (a b : Int64) :
    Agrees (cmp a.toInt b.toInt).swap (encodeVarintDescending a) (encodeVarintDescending b) := by
  have := encodeVarintAscending_order (~~~a) (~~~b)
  rw [toInt_complement, toInt_complement] at this
  rwa [cmp_swap_of_anti (a := a.toInt) (b := b.toInt) (by omega) (by omega)] at this

/-! ### Bytes and text -/

theorem complement_lt {x y : UInt8} (h : x < y) : ~~~y < ~~~x := by
  rw [UInt8.lt_iff_toNat_lt] at *
  have hs : UInt8.size = 256 := rfl
  have := y.toNat_lt
  rw [UInt8.toNat_not, UInt8.toNat_not]
  omega

theorem escapeBytes_cons (x : UInt8) (data : Bytes) :
    escapeBytes (x :: data) = (if x = escape then [escape, escaped00] else [x]) ++ escapeBytes data := by
  rw [escapeBytes, escapeBytes, List.flatMap_cons, List.append_assoc]

/-- Escaping keeps the order, also of a text that another starts with. -/
theorem before_escapeBytes {a b : Bytes} (h : a < b) : Before (escapeBytes a) (escapeBytes b) := by
  have hpos : ∀ y : UInt8, y ≠ escape → escape < y := by
    intro y hy
    rw [Ne, ← UInt8.toNat_inj] at hy
    exact UInt8.lt_iff_toNat_lt.mpr (Nat.pos_of_ne_zero hy)
  induction h with
  | nil =>
    rename_i y b
    rw [escapeBytes_cons]
    by_cases hy : y = escape
    · rw [if_pos hy]
      exact .cons _ (.head _ _ (by decide))
    · rw [if_neg hy]
      exact .head _ _ (hpos y hy)
  | cons _ ih =>
    rw [escapeBytes_cons, escapeBytes_cons]
    exact ih.prepend _
  | rel hlt =>
    rename_i x a y b
    have hy : y ≠ escape := by
      rintro rfl
      exact absurd hlt (not_lt.mpr (UInt8.le_iff_toNat_le.mpr (Nat.zero_le _)))
    rw [escapeBytes_cons, escapeBytes_cons, if_neg hy]
    by_cases hx : x = escape
    · rw [if_pos hx]
      exact .head _ _ (hpos y hy)
    · rw [if_neg hx]
      exact .head _ _ hlt

variable (a b : Bytes) (s s' : Int64)

theorem escapeBytes_order : Agrees (cmp a b) (escapeBytes a) (escapeBytes b) :=
  .of_cmp before_escapeBytes (fun h h' => congrArg _ (le_antisymm (not_lt.mp h') (not_lt.mp h))) before_escapeBytes

theorem encodeBytesAscending_order :
    Agrees (cmp a b) (encodeBytesAscending a) (encodeBytesAscending b) := (escapeBytes_order a b).cons _

theorem encodeBytesDescending_order : Agrees (cmp a b).swap (encodeBytesDescending a) (encodeBytesDescending b) :=
  ((escapeBytes_order a b).map fun _ _ => complement_lt).cons _

/-! ### Times -/

theorem toInt_ofNat_nanos (nanos : UInt32) : (Int64.ofNat nanos.toNat).toInt = nanos.toNat := by
  have := nanos.toNat_lt
  exact Int64.toInt_ofNat_of_lt (by omega)

theorem encodeTimeAscending_order (n n' : UInt32) :
    Agrees ((cmp s.toInt s'.toInt).then (cmp (n.toNat : Int) n'.toNat)) (encodeTimeAscending s n)
      (encodeTimeAscending s' n') := by
  have hnanos := encodeVarintAscending_order (.ofNat n.toNat) (.ofNat n'.toNat)
  rw [toInt_ofNat_nanos, toInt_ofNat_nanos] at hnanos
  exact ((encodeVarintAscending_order s s').append hnanos).cons _

theorem encodeTimeDescending_order (n n' : UInt32) :
    Agrees ((cmp s.toInt s'.toInt).then (cmp (n.toNat : Int) n'.toNat)).swap (encodeTimeDescending s n)
      (encodeTimeDescending s' n') := by
  have hnanos := encodeVarintDescending_order (.ofNat n.toNat) (.ofNat n'.toNat)
  rw [toInt_ofNat_nanos, toInt_ofNat_nanos] at hnanos
  rw [Ordering.swap_then]
  exact ((encodeVarintDescending_order s s').append hnanos).cons _

/-! ### Floats -/

namespace FloatFormat
variable (fmt : FloatFormat) {bits : Nat}

theorem scaled_lt (m : Nat) : fmt.scaled m < 2 ^ fmt.mantissa * 2 ^ (m / 2 ^ fmt.mantissa) := by
  have hpos : 0 < 2 ^ fmt.mantissa := Nat.pow_pos (by decide)
  unfold scaled
  dsimp only
  split
  · rename_i h
    rw [h, pow_zero, Nat.mul_one]
    rwa [Nat.div_eq_zero_iff_lt hpos] at h
  · rename_i h
    obtain ⟨e, he⟩ := Nat.exists_eq_succ_of_ne_zero h
    rw [he, Nat.succ_eq_add_one, pow_succ, Nat.mul_comm (2 ^ e) 2, ← Nat.mul_assoc]
    exact Nat.mul_lt_mul_of_pos_right (by omega) (Nat.pow_pos (by decide))

theorem le_scaled {e : Nat} (h : e < m / 2 ^ fmt.mantissa) : 2 ^ fmt.mantissa * 2 ^ e ≤ fmt.scaled m := by
  unfold scaled
  rw [if_neg (by omega)]
  exact Nat.mul_le_mul (Nat.le_add_right _ _) (Nat.pow_le_pow_right (by decide) (by omega))

/-- The magnitudes of floats are in the order of their bits. -/
theorem scaled_strictMono (h : m < n) : fmt.scaled m < fmt.scaled n := by
  rcases (Nat.div_le_div_right h.le : m / 2 ^ fmt.mantissa ≤ n / 2 ^ fmt.mantissa).lt_or_eq with hlt | heq
  · exact (fmt.scaled_lt m).trans_le (fmt.le_scaled hlt)
  · unfold scaled
    dsimp only
    rw [heq]
    split
    · exact h
    · have hm := Nat.div_add_mod m (2 ^ fmt.mantissa)
      have hn := Nat.div_add_mod n (2 ^ fmt.mantissa)
      rw [heq] at hm
      exact Nat.mul_lt_mul_of_pos_right (by omega) (Nat.pow_pos (by decide))

theorem scaled_zero : fmt.scaled 0 = 0 := by
  unfold scaled
  simp

theorem scaled_inj (h : fmt.scaled m = fmt.scaled n) : m = n := by
  rcases lt_trichotomy m n with hlt | heq | hgt
  · exact absurd h (fmt.scaled_strictMono hlt).ne
  · exact heq
  · exact absurd h (fmt.scaled_strictMono hgt).ne'

theorem signBit_pos : 0 < fmt.signBit := Nat.pow_pos (by decide)

theorem pow_width : 256 ^ fmt.width = 2 * fmt.signBit := by
  have := fmt.mantissa_lt
  rw [signBit, show 256 = 2 ^ 8 by rfl, ← pow_mul, ← pow_succ', Nat.sub_add_cancel (by omega)]

/-- What a number is, and how it is encoded. -/
inductive Encoded (bits : Nat) : Int → Bytes → Prop where
  | zero : fmt.isZero bits = true → Encoded bits 0 [fmt.zero]
  | negative (m : Nat) : 0 < m → m < fmt.signBit → bits = fmt.signBit + m →
      Encoded bits (-(fmt.scaled m : Int)) (fmt.neg :: Wire.toBe fmt.width (fmt.signBit - 1 - m))
  | positive : 0 < bits → bits < fmt.signBit →
      Encoded bits (fmt.scaled bits) (fmt.pos :: Wire.toBe fmt.width bits)

theorem encoded (h : bits < 2 * fmt.signBit) (hnan : fmt.isNan bits = false) :
    fmt.Encoded bits (fmt.numeric bits) (fmt.encodeAscending bits) := by
  unfold numeric encodeAscending
  rw [hnan]
  by_cases hz : fmt.isZero bits = true
  · have hmod : bits % fmt.signBit = 0 := of_decide_eq_true hz
    rw [if_pos hz, hmod, scaled_zero]
    simpa using Encoded.zero hz
  rw [if_neg hz]
  have hmod : bits % fmt.signBit ≠ 0 := fun h => hz (decide_eq_true h)
  by_cases hneg : fmt.isNegative bits = true
  · have hle : fmt.signBit ≤ bits := of_decide_eq_true hneg
    have hsub : bits % fmt.signBit = bits - fmt.signBit := by
      rw [Nat.mod_eq_sub_mod hle, Nat.mod_eq_of_lt (by omega)]
    rw [if_pos hneg, if_pos hneg, hsub,
      show 2 * fmt.signBit - 1 - bits = fmt.signBit - 1 - (bits - fmt.signBit) by omega]
    exact .negative _ (by omega) (by omega) (by omega)
  · have hlt : bits < fmt.signBit := not_le.mp fun hle => hneg (decide_eq_true hle)
    rw [Nat.mod_eq_of_lt hlt] at hmod ⊢
    rw [if_neg hneg, if_neg hneg]
    exact .positive (by omega) hlt

variable {a b : Nat} {p q : Bytes} {x y : Int}

theorem Encoded.before (ha : fmt.Encoded a x p) (hb : fmt.Encoded b y q) (h : x < y) : Before p q := by
  obtain ⟨-, hneg, hpos, -⟩ := fmt.ordered
  have hwidth := fmt.pow_width
  have hlt : ∀ {m n : Nat}, fmt.scaled m < fmt.scaled n → m < n := by
    intro m n h
    by_contra hle
    rcases (not_lt.mp hle).lt_or_eq with hlt | heq
    · exact absurd h (not_lt.mpr (fmt.scaled_strictMono hlt).le)
    · exact h.ne (congrArg _ heq.symm)
  cases ha with
  | zero _ =>
    cases hb with
    | zero _ => omega
    | negative m _ _ _ => omega
    | positive _ _ => exact .head _ _ hpos
  | negative m hm hms _ =>
    cases hb with
    | zero _ => exact .head _ _ hneg
    | negative n hn hns _ =>
      have := hlt (show fmt.scaled n < fmt.scaled m by omega)
      exact .cons _ (before_toBe_of_lt (by omega) (by omega))
    | positive _ _ => exact .head _ _ (hneg.trans hpos)
  | positive ha has =>
    cases hb with
    | zero _ => omega
    | negative m _ _ _ => omega
    | positive hb hbs =>
      have := hlt (Int.ofNat_lt.mp h)
      exact .cons _ (before_toBe_of_lt this (by omega))

theorem Encoded.eq (ha : fmt.Encoded a x p) (hb : fmt.Encoded b y q) (h : x = y) : p = q := by
  have hpos : ∀ {m : Nat}, 0 < m → 0 < fmt.scaled m := by
    intro m hm
    have := fmt.scaled_strictMono hm
    rwa [scaled_zero] at this
  cases ha with
  | zero _ =>
    cases hb with
    | zero _ => rfl
    | negative m hm _ _ =>
      have := hpos hm
      omega
    | positive hb _ =>
      have := hpos hb
      omega
  | negative m hm _ _ =>
    have := hpos hm
    cases hb with
    | zero _ => omega
    | negative n hn _ _ => rw [fmt.scaled_inj (show fmt.scaled m = fmt.scaled n by omega)]
    | positive hb _ => omega
  | positive ha _ =>
    have := hpos ha
    cases hb with
    | zero _ => omega
    | negative n hn _ _ => omega
    | positive hb _ => rw [fmt.scaled_inj (show fmt.scaled a = fmt.scaled b by omega)]

theorem encodeAscending_order (ha : a < 2 * fmt.signBit) (hb : b < 2 * fmt.signBit) (hna : fmt.isNan a = false)
    (hnb : fmt.isNan b = false) :
    Agrees (cmp (fmt.numeric a) (fmt.numeric b)) (fmt.encodeAscending a) (fmt.encodeAscending b) :=
  .of_cmp ((fmt.encoded ha hna).before fmt (fmt.encoded hb hnb))
    (fun h h' => (fmt.encoded ha hna).eq fmt (fmt.encoded hb hnb) (by omega))
    ((fmt.encoded hb hnb).before fmt (fmt.encoded ha hna))

theorem negate_lt (h : bits < 2 * fmt.signBit) : fmt.negate bits < 2 * fmt.signBit := by
  unfold negate isNegative
  split <;> simp_all <;> omega

theorem negate_mod (bits : Nat) : fmt.negate bits % fmt.signBit = bits % fmt.signBit := by
  unfold negate isNegative
  split
  · rename_i hle
    rw [decide_eq_true_eq] at hle
    rw [Nat.mod_eq_sub_mod hle]
  · rw [Nat.add_mod_right]

theorem isNan_negate (bits : Nat) : fmt.isNan (fmt.negate bits) = fmt.isNan bits := by
  rw [isNan, isNan, negate_mod]

theorem isZero_negate (bits : Nat) : fmt.isZero (fmt.negate bits) = fmt.isZero bits := by
  rw [isZero, isZero, negate_mod]

/-- Descending floats are negated, and negating twice changes nothing. -/
theorem negate_negate (h : bits < 2 * fmt.signBit) : fmt.negate (fmt.negate bits) = bits := by
  unfold negate isNegative
  split <;> split
  all_goals
    simp_all
    try omega

theorem numeric_negate (h : bits < 2 * fmt.signBit) : fmt.numeric (fmt.negate bits) = -fmt.numeric bits := by
  have hneg : fmt.isNegative (fmt.negate bits) = !fmt.isNegative bits := by
    unfold negate isNegative
    split <;> simp_all
    omega
  rw [numeric, numeric, negate_mod, hneg]
  cases fmt.isNegative bits <;> simp

theorem encodeDescending_order (ha : a < 2 * fmt.signBit) (hb : b < 2 * fmt.signBit) (hna : fmt.isNan a = false)
    (hnb : fmt.isNan b = false) :
    Agrees (cmp (fmt.numeric a) (fmt.numeric b)).swap (fmt.encodeDescending a) (fmt.encodeDescending b) := by
  have horder := fmt.encodeAscending_order (fmt.negate_lt ha) (fmt.negate_lt hb)
    ((fmt.isNan_negate a).trans hna) ((fmt.isNan_negate b).trans hnb)
  rw [fmt.numeric_negate ha, fmt.numeric_negate hb,
    cmp_swap_of_anti (a := fmt.numeric a) (b := fmt.numeric b) (by omega) (by omega)] at horder
  rw [encodeDescending, encodeDescending, hna, hnb]
  exact horder

end FloatFormat

end Defra.Index
