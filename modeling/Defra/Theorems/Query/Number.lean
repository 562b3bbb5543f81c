import Defra.Query.Filter
import Defra.Theorems.Index.Order

/-! Numbers in queries: integers up to the precision of a float are compared exactly. -/

namespace Defra.Index.FloatFormat
variable {fmt : FloatFormat}

/-! ### Rounding -/

theorem roundShift_of_dvd {n shift : Nat} (h : 2 ^ shift ∣ n) : roundShift n shift = n / 2 ^ shift := by
  unfold roundShift
  rw [if_neg]
  omega

/-- The number has no more bits than the mantissa holds. -/
def Exact (fmt : FloatFormat) (n : Nat) : Prop := 2 ^ (n.log2 - fmt.mantissa) ∣ n

theorem nearest_of_exact {n : Nat} (h : fmt.Exact n) : fmt.nearest n 0 = n := by
  unfold nearest
  dsimp only
  rw [Nat.zero_max, Nat.sub_zero, roundShift_of_dvd h, Nat.div_mul_cancel h]

theorem leading (fmt : FloatFormat) {n : Nat} (h : 2 ^ fmt.mantissa ≤ n) :
    2 ^ fmt.mantissa ≤ n / 2 ^ (n.log2 - fmt.mantissa) ∧
      n / 2 ^ (n.log2 - fmt.mantissa) < 2 * 2 ^ fmt.mantissa := by
  have hpos : 0 < 2 ^ fmt.mantissa := Nat.pow_pos (by decide)
  have hn : n ≠ 0 := by omega
  have hle : fmt.mantissa ≤ n.log2 := (Nat.le_log2 hn).mpr h
  have hself := Nat.log2_self_le hn
  have hlt := Nat.lt_log2_self (n := n)
  constructor
  · rw [Nat.le_div_iff_mul_le (Nat.pow_pos (by decide)), ← pow_add, Nat.add_sub_cancel' hle]
    exact hself
  · rw [Nat.div_lt_iff_lt_mul (Nat.pow_pos (by decide)), Nat.mul_comm 2, ← pow_succ, ← pow_add]
    rwa [show fmt.mantissa + 1 + (n.log2 - fmt.mantissa) = n.log2 + 1 by omega]

theorem scaled_magnitudeBits {n : Nat} (h : fmt.Exact n)
    (hrange : (n.log2 - fmt.mantissa + 2) * 2 ^ fmt.mantissa ≤ fmt.infinity) :
    fmt.scaled (fmt.magnitudeBits n) = n := by
  have hpos : 0 < 2 ^ fmt.mantissa := Nat.pow_pos (by decide)
  unfold magnitudeBits
  dsimp only
  by_cases hlt : n < 2 ^ fmt.mantissa
  · rw [if_pos hlt, Nat.min_eq_right (by rw [Nat.add_mul] at hrange; omega), scaled, Nat.div_eq_of_lt hlt]
    rfl
  · obtain ⟨hle, hlead⟩ := leading fmt (not_lt.mp hlt)
    rw [if_neg hlt]
    generalize he : n.log2 - fmt.mantissa = e at *
    obtain ⟨m, hm⟩ : ∃ m, n / 2 ^ e = 2 ^ fmt.mantissa + m := ⟨_, (Nat.add_sub_cancel' hle).symm⟩
    have hmlt : m < 2 ^ fmt.mantissa := by omega
    have hbits : e * 2 ^ fmt.mantissa + n / 2 ^ e = (e + 1) * 2 ^ fmt.mantissa + m := by
      rw [hm, Nat.add_mul, Nat.one_mul, Nat.add_assoc]
    rw [hbits, Nat.min_eq_right (by rw [Nat.add_mul] at hrange ⊢; omega), scaled, Nat.mul_comm (e + 1),
      Nat.mul_add_div hpos, Nat.div_eq_of_lt hmlt, Nat.mul_add_mod, Nat.mod_eq_of_lt hmlt, Nat.add_zero, ← hm]
    unfold Exact at h
    rw [he] at h
    exact Nat.div_mul_cancel h

theorem infinity_lt : fmt.infinity < fmt.signBit :=
  Nat.sub_lt fmt.signBit_pos (Nat.pow_pos (by decide))

theorem magnitudeBits_lt (fmt : FloatFormat) (n : Nat) : fmt.magnitudeBits n < fmt.signBit :=
  lt_of_le_of_lt (Nat.min_le_left _ _) infinity_lt

theorem roundShift_mono {n m : Nat} (h : n ≤ m) (shift : Nat) : roundShift n shift ≤ roundShift m shift := by
  have hn := Nat.div_add_mod n (2 ^ shift)
  have hm := Nat.div_add_mod m (2 ^ shift)
  have hle : n / 2 ^ shift ≤ m / 2 ^ shift := Nat.div_le_div_right h
  unfold roundShift
  dsimp only
  rcases Nat.lt_or_eq_of_le hle with hlt | heq
  · split
    · split
      · omega
      · omega
    · split
      · omega
      · omega
  · -- The rests decide, and they are in order.
    rw [heq] at hn ⊢
    split
    · rw [if_pos (by omega)]
    · split
      · omega
      · exact le_rfl

theorem le_roundShift (n shift : Nat) : n / 2 ^ shift ≤ roundShift n shift ∧ roundShift n shift ≤ n / 2 ^ shift + 1 := by
  unfold roundShift
  dsimp only
  split
  · omega
  · omega

theorem nearest_zero (fmt : FloatFormat) (n : Nat) :
    fmt.nearest n 0 = roundShift n (n.log2 - fmt.mantissa) * 2 ^ (n.log2 - fmt.mantissa) := by
  unfold nearest
  dsimp only
  rw [Nat.zero_max, Nat.sub_zero]

theorem nearest_between (fmt : FloatFormat) {n : Nat} (hn : n ≠ 0) :
    2 ^ n.log2 ≤ fmt.nearest n 0 ∧ fmt.nearest n 0 ≤ 2 ^ (n.log2 + 1) := by
  have hself := Nat.log2_self_le hn
  have hlt := Nat.lt_log2_self (n := n)
  obtain ⟨hle, hup⟩ := le_roundShift n (n.log2 - fmt.mantissa)
  rw [nearest_zero]
  obtain ⟨rest, hr⟩ : ∃ rest, n.log2 = n.log2 - fmt.mantissa + rest := ⟨_, (Nat.add_sub_cancel' (Nat.sub_le ..)).symm⟩
  generalize n.log2 - fmt.mantissa = shift at *
  have hpos : 0 < 2 ^ shift := Nat.pow_pos (by decide)
  rw [hr, pow_add] at hself
  rw [hr, Nat.add_assoc, pow_add] at hlt
  rw [hr, Nat.add_assoc, pow_add, pow_add]
  constructor
  · rw [Nat.mul_comm]
    exact Nat.mul_le_mul_right _ (((Nat.le_div_iff_mul_le hpos).mpr (by rwa [Nat.mul_comm])).trans hle)
  · rw [Nat.mul_comm (2 ^ shift)]
    refine Nat.mul_le_mul_right _ (hup.trans ?_)
    exact Nat.div_lt_of_lt_mul hlt

/-- Rounding keeps the order. -/
theorem nearest_mono (fmt : FloatFormat) {n m : Nat} (h : n ≤ m) : fmt.nearest n 0 ≤ fmt.nearest m 0 := by
  rcases Nat.eq_zero_or_pos n with rfl | hpos
  · rw [nearest_of_exact (Nat.dvd_zero _)]
    exact Nat.zero_le _
  · have hn : n ≠ 0 := by omega
    have hm : m ≠ 0 := by omega
    have hlog : n.log2 ≤ m.log2 := (Nat.le_log2 hm).mpr ((Nat.log2_self_le hn).trans h)
    rcases Nat.lt_or_eq_of_le hlog with hlt | heq
    · -- The power of two between them is kept by rounding.
      calc fmt.nearest n 0 ≤ 2 ^ (n.log2 + 1) := (nearest_between fmt hn).2
        _ ≤ 2 ^ m.log2 := Nat.pow_le_pow_right (by decide) hlt
        _ ≤ fmt.nearest m 0 := (nearest_between fmt hm).1
    · rw [nearest_zero, heq]
      exact Nat.mul_le_mul_right _ (roundShift_mono h _)

theorem log2_mul_two_pow {n : Nat} (hn : n ≠ 0) (k : Nat) : (n * 2 ^ k).log2 = n.log2 + k := by
  rw [Nat.log2_eq_iff (Nat.mul_ne_zero hn (Nat.pow_pos (by decide)).ne')]
  constructor
  · rw [pow_add]
    exact Nat.mul_le_mul_right _ (Nat.log2_self_le hn)
  · rw [show n.log2 + k + 1 = n.log2 + 1 + k by omega, pow_add]
    exact Nat.mul_lt_mul_of_pos_right Nat.lt_log2_self (Nat.pow_pos (by decide))

theorem exact_nearest (fmt : FloatFormat) (n : Nat) : fmt.Exact (fmt.nearest n 0) := by
  by_cases hsmall : n < 2 ^ fmt.mantissa
  · have he : fmt.Exact n := by
      have hlog : n.log2 - fmt.mantissa = 0 := by
        rcases Nat.eq_zero_or_pos n with rfl | hpos
        · simp
        · have := (Nat.log2_lt (by omega : n ≠ 0)).mpr hsmall
          omega
      rw [Exact, hlog]
      exact one_dvd _
    rwa [nearest_of_exact he]
  · have hlead := leading fmt (not_lt.mp hsmall)
    obtain ⟨hle, hup⟩ := le_roundShift n (n.log2 - fmt.mantissa)
    rw [nearest_zero]
    generalize hr : roundShift n (n.log2 - fmt.mantissa) = r at *
    have hr0 : r ≠ 0 := by omega
    rw [Exact, log2_mul_two_pow hr0]
    rcases Nat.lt_or_ge r (2 ^ (fmt.mantissa + 1)) with hlt | hge
    · have hlog : r.log2 < fmt.mantissa + 1 := (Nat.log2_lt hr0).mpr hlt
      exact Dvd.dvd.mul_left (Nat.pow_dvd_pow 2 (by omega)) r
    · have heq : r = 2 ^ (fmt.mantissa + 1) := le_antisymm (by rw [pow_succ]; omega) hge
      rw [heq, ← pow_add, Nat.log2_two_pow]
      exact Nat.pow_dvd_pow 2 (by omega)

theorem numeric_ofUnits_nearest {n : Int}
    (hrange : ((fmt.nearest n.natAbs 0).log2 - fmt.mantissa + 2) * 2 ^ fmt.mantissa ≤ fmt.infinity) :
    fmt.numeric (fmt.ofUnits n 0) = if n < 0 then -(fmt.nearest n.natAbs 0 : Int) else fmt.nearest n.natAbs 0 := by
  have hlt := magnitudeBits_lt fmt (fmt.nearest n.natAbs 0)
  have hscaled := scaled_magnitudeBits (exact_nearest fmt n.natAbs) hrange
  unfold ofUnits numeric
  by_cases hneg : n < 0
  · rw [if_pos hneg, if_pos hneg, isNegative, if_pos (by simp), Nat.add_mod_left, Nat.mod_eq_of_lt hlt, hscaled]
  · rw [if_neg hneg, if_neg hneg, Nat.zero_add, isNegative, if_neg (by simpa using hlt), Nat.mod_eq_of_lt hlt, hscaled]

theorem numeric_ofUnits {n : Int} (h : fmt.Exact n.natAbs)
    (hrange : (n.natAbs.log2 - fmt.mantissa + 2) * 2 ^ fmt.mantissa ≤ fmt.infinity) :
    fmt.numeric (fmt.ofUnits n 0) = n := by
  rw [numeric_ofUnits_nearest (by rwa [nearest_of_exact h]), nearest_of_exact h]
  split
  · omega
  · omega

end Defra.Index.FloatFormat

namespace Defra.Query
open Index Json FloatFormat

/-! ### Integers as floats -/

/-- Up to here every integer is a float. -/
def maxExact : Nat := 2 ^ 53

theorem exact_int {n : Nat} (h : n ≤ maxExact) : float64.Exact (n * 2 ^ unit64) ∧ (n * 2 ^ unit64).log2 - 52 ≤ 1075 := by
  rcases Nat.eq_zero_or_pos n with rfl | hpos
  · exact ⟨by rw [Nat.zero_mul]; exact Nat.dvd_zero _, by rw [Nat.zero_mul]; decide⟩
  · have hne : n ≠ 0 := by omega
    have hlog : (n * 2 ^ unit64).log2 = n.log2 + unit64 := log2_mul_two_pow hne unit64
    have hle : n.log2 ≤ 53 := by
      rw [← Nat.lt_succ_iff, Nat.log2_lt hne]
      exact lt_of_le_of_lt h (by decide)
    have he : float64.Exact (n * 2 ^ unit64) ↔ 2 ^ (n.log2 + unit64 - 52) ∣ n * 2 ^ unit64 := by
      rw [← hlog]
      exact Iff.rfl
    rw [he, hlog]
    refine ⟨?_, by unfold unit64; omega⟩
    rcases Nat.lt_or_ge n.log2 53 with hlt | hge
    · exact Dvd.dvd.mul_left (Nat.pow_dvd_pow 2 (by unfold unit64; omega)) n
    · have heq : n = 2 ^ 53 :=
        le_antisymm h ((Nat.pow_le_pow_right (by decide) hge).trans (Nat.log2_self_le hne))
      rw [heq]
      rw [Nat.log2_two_pow]
      unfold unit64
      omega

theorem toNat_f64OfInt (i : Int) : (f64OfInt i).toNat = float64.ofUnits (i * 2 ^ unit64) 0 := by
  have hlt : float64.ofUnits (i * 2 ^ unit64) 0 < 2 ^ 64 := by
    have := magnitudeBits_lt float64 (float64.nearest (i * 2 ^ unit64).natAbs 0)
    unfold ofUnits
    rw [show (2 : Nat) ^ 64 = float64.signBit + float64.signBit by decide]
    split
    · omega
    · omega
  rw [f64OfInt, UInt64.toNat_ofNat_of_lt' hlt]

theorem natAbs_units (i : Int) : (i * 2 ^ unit64).natAbs = i.natAbs * 2 ^ unit64 := by
  have htwo : Int.natAbs 2 = 2 := rfl
  rw [Int.natAbs_mul, Int.natAbs_pow, htwo]

theorem numeric_f64OfInt {i : Int} (h : i.natAbs ≤ maxExact) : float64.numeric (f64OfInt i).toNat = i * 2 ^ unit64 := by
  obtain ⟨hexact, hrange⟩ := exact_int h
  rw [← natAbs_units] at hexact hrange
  rw [toNat_f64OfInt]
  refine numeric_ofUnits hexact ?_
  calc ((i * 2 ^ unit64).natAbs.log2 - 52 + 2) * 2 ^ 52 ≤ 1077 * 2 ^ 52 := Nat.mul_le_mul_right _ (by omega)
    _ ≤ float64.infinity := by decide

theorem numeric_f64OfInt_nearest {i : Int} (h : i.natAbs ≤ 2 ^ 63) : float64.numeric (f64OfInt i).toNat =
      if i < 0 then -(float64.nearest (i.natAbs * 2 ^ unit64) 0 : Int) else float64.nearest (i.natAbs * 2 ^ unit64) 0 := by
  have hpos : (0 : Int) < 2 ^ unit64 := Int.pow_pos (by decide)
  have hlog : (float64.nearest (i.natAbs * 2 ^ unit64) 0).log2 ≤ 66 + unit64 := by
    rcases Nat.eq_zero_or_pos i.natAbs with hzero | hne
    · rw [hzero, Nat.zero_mul]
      decide
    · have hunits := log2_mul_two_pow (by omega : i.natAbs ≠ 0) unit64
      have hle : i.natAbs.log2 < 64 := (Nat.log2_lt (by omega)).mpr (lt_of_le_of_lt h (by decide))
      have hbetween := nearest_between float64 (Nat.mul_ne_zero (by omega : i.natAbs ≠ 0) (Nat.pow_pos (by decide)).ne' :
        i.natAbs * 2 ^ unit64 ≠ 0)
      rw [hunits] at hbetween
      have hne : float64.nearest (i.natAbs * 2 ^ unit64) 0 ≠ 0 :=
        ((Nat.pow_pos (by decide)).trans_le hbetween.1).ne'
      refine Nat.le_of_lt ((Nat.log2_lt hne).mpr (lt_of_le_of_lt hbetween.2 (Nat.pow_lt_pow_right (by decide) ?_)))
      omega
  rw [toNat_f64OfInt, numeric_ofUnits_nearest, natAbs_units]
  · congr 1
    exact propext ⟨fun hneg => by_contra fun hge => absurd hneg (not_lt.mpr (Int.mul_nonneg (not_lt.mp hge) hpos.le)),
      fun hneg => Int.mul_neg_of_neg_of_pos hneg hpos⟩
  · rw [natAbs_units]
    calc _ ≤ 1090 * 2 ^ 52 := Nat.mul_le_mul_right _ (by have : unit64 = 1074 := rfl; show _ - 52 + 2 ≤ _; omega)
      _ ≤ float64.infinity := by decide

theorem numeric_f64OfInt_mono {i j : Int} (hi : i.natAbs ≤ 2 ^ 63) (hj : j.natAbs ≤ 2 ^ 63) (h : i ≤ j) :
    float64.numeric (f64OfInt i).toNat ≤ float64.numeric (f64OfInt j).toNat := by
  rw [numeric_f64OfInt_nearest hi, numeric_f64OfInt_nearest hj]
  have hmono : ∀ {m n : Nat}, m ≤ n → float64.nearest (m * 2 ^ unit64) 0 ≤ float64.nearest (n * 2 ^ unit64) 0 := fun h =>
    nearest_mono float64 (Nat.mul_le_mul_right _ h)
  split
  · split
    · have := hmono (by omega : j.natAbs ≤ i.natAbs)
      omega
    · omega
  · have := hmono (by omega : i.natAbs ≤ j.natAbs)
    omega

theorem compareF64_int {i j : Int} (hi : i.natAbs ≤ maxExact) (hj : j.natAbs ≤ maxExact) :
    compareF64 (f64OfInt i) (f64OfInt j) = cmp i j := by
  have hpos : (0 : Int) < 2 ^ unit64 := Int.pow_pos (by decide)
  rw [compareF64, numeric_f64OfInt hi, numeric_f64OfInt hj, cmp, cmp, cmpUsing, cmpUsing]
  simp only [Int.mul_lt_mul_right hpos]

theorem asI64_numberOfInt (i : Int64) : asI64 (numberOfInt i) = some i := by
  unfold numberOfInt
  split
  · rfl
  · rename_i h
    have hnonneg : 0 ≤ i.toInt := by simpa [Int64.lt_iff_toInt_lt] using h
    have hlt := i.toInt_lt
    have hnat := toNat_of_nonneg hnonneg
    rw [asI64, if_pos (by omega)]
    exact congrArg some (Int64.toInt64_toUInt64 i)

theorem asF64_of_asI64 {n : Number} {i : Int64} (h : asI64 n = some i) : asF64 n = f64OfInt i.toInt := by
  cases n with
  | posInt n =>
    by_cases hlt : n.toNat < 2 ^ 63
    · rw [show asI64 (.posInt n) = some n.toInt64 from if_pos hlt] at h
      cases h
      rw [asF64]
      congr 1
      have := toInt_eq n.toInt64
      simp at this
      omega
    · rw [show asI64 (.posInt n) = none from if_neg hlt] at h
      cases h
  | negInt n =>
    cases h
    rfl
  | float _ => cases h

theorem natAbs_toInt_le (v : Int64) : v.toInt.natAbs ≤ 2 ^ 63 := by
  have hlt := v.toInt_lt
  have hle := v.le_toInt
  omega

theorem compareF64_toInt (v c : Int64) : compareF64 (f64OfInt v.toInt) (f64OfInt c.toInt) = cmp v.toInt c.toInt ∨
    compareF64 (f64OfInt v.toInt) (f64OfInt c.toInt) = .eq ∧ v ≠ c := by
  rcases lt_trichotomy v.toInt c.toInt with hlt | heq | hgt
  · have hmono := numeric_f64OfInt_mono (natAbs_toInt_le v) (natAbs_toInt_le c) hlt.le
    rcases lt_or_eq_of_le hmono with hlt' | heq'
    · exact .inl (((cmp_eq_lt_iff _ _).mpr hlt').trans ((cmp_eq_lt_iff _ _).mpr hlt).symm)
    · refine .inr ⟨(cmp_eq_eq_iff _ _).mpr heq', ?_⟩
      rintro rfl
      exact lt_irrefl _ hlt
  · rw [heq]
    exact .inl (cmp_self_eq_eq _ |>.trans (cmp_self_eq_eq _).symm)
  · have hmono := numeric_f64OfInt_mono (natAbs_toInt_le c) (natAbs_toInt_le v) hgt.le
    rcases lt_or_eq_of_le hmono with hgt' | heq'
    · exact .inl (((cmp_eq_gt_iff _ _).mpr hgt').trans ((cmp_eq_gt_iff _ _).mpr hgt).symm)
    · refine .inr ⟨(cmp_eq_eq_iff _ _).mpr heq'.symm, ?_⟩
      rintro rfl
      exact lt_irrefl _ hgt

section
variable (lib : Library) (v c lo hi : Int64)

theorem compareValues_int : compareValues lib (.number (numberOfInt v)) (.number (numberOfInt c)) =
    .ok (some (compareF64 (f64OfInt v.toInt) (f64OfInt c.toInt))) := by
  rw [← asF64_of_asI64 (asI64_numberOfInt v), ← asF64_of_asI64 (asI64_numberOfInt c)]
  rfl

/-! ### Range operators -/

/-- The range operators compare the integers as they are. -/
def RangeExact : Prop :=
  evalOp lib (.number (numberOfInt v)) .gt (.number (numberOfInt c)) = .ok (decide (v.toInt > c.toInt)) ∧
    evalOp lib (.number (numberOfInt v)) .gte (.number (numberOfInt c)) = .ok (decide (v.toInt ≥ c.toInt)) ∧
    evalOp lib (.number (numberOfInt v)) .lt (.number (numberOfInt c)) = .ok (decide (v.toInt < c.toInt)) ∧
    evalOp lib (.number (numberOfInt v)) .lte (.number (numberOfInt c)) = .ok (decide (v.toInt ≤ c.toInt))

/-- Different integers are different floats. -/
def ToldApart : Prop := compareF64 (f64OfInt v.toInt) (f64OfInt c.toInt) = .eq → v = c

theorem rangeExact_iff_tests : RangeExact lib v c ↔
    (compareF64 (f64OfInt v.toInt) (f64OfInt c.toInt)).isGT = decide (v.toInt > c.toInt) ∧
      (compareF64 (f64OfInt v.toInt) (f64OfInt c.toInt)).isGE = decide (v.toInt ≥ c.toInt) ∧
      (compareF64 (f64OfInt v.toInt) (f64OfInt c.toInt)).isLT = decide (v.toInt < c.toInt) ∧
      (compareF64 (f64OfInt v.toInt) (f64OfInt c.toInt)).isLE = decide (v.toInt ≤ c.toInt) := by
  unfold RangeExact
  simp only [evalOp, compareValues_int, bind, Except.bind, pure, Except.pure, Except.ok.injEq, Option.any_some]

theorem rangeExact_iff_cmp : RangeExact lib v c ↔ compareF64 (f64OfInt v.toInt) (f64OfInt c.toInt) = cmp v.toInt c.toInt := by
  have htests : (cmp v.toInt c.toInt).isGT = decide (v.toInt > c.toInt) ∧ (cmp v.toInt c.toInt).isGE = decide (v.toInt ≥ c.toInt) ∧
      (cmp v.toInt c.toInt).isLT = decide (v.toInt < c.toInt) ∧ (cmp v.toInt c.toInt).isLE = decide (v.toInt ≤ c.toInt) := by
    rcases lt_trichotomy v.toInt c.toInt with hlt | heq | hgt
    · rw [(cmp_eq_lt_iff _ _).mpr hlt]
      simp [hlt, hlt.le]
    · rw [heq, cmp_self_eq_eq]
      simp
    · rw [(cmp_eq_gt_iff _ _).mpr hgt]
      simp [hgt, hgt.le]
  rw [rangeExact_iff_tests]
  constructor
  · rintro ⟨hgt, -, hlt, -⟩
    rw [← htests.1] at hgt
    rw [← htests.2.2.1] at hlt
    generalize compareF64 (f64OfInt v.toInt) (f64OfInt c.toInt) = asFloats at hgt hlt ⊢
    generalize cmp v.toInt c.toInt = asInts at hgt hlt ⊢
    revert hgt hlt
    cases asFloats <;> cases asInts <;> decide
  · intro h
    rw [h]
    exact htests

theorem rangeExact_iff : RangeExact lib v c ↔ ToldApart v c := by
  rw [rangeExact_iff_cmp]
  constructor
  · intro h heq
    rw [h, cmp_eq_eq_iff] at heq
    exact Int64.toInt_inj.mp heq
  · intro h
    rcases compareF64_toInt v c with hcmp | ⟨heq, hne⟩
    · exact hcmp
    · exact absurd (h heq) hne

theorem toldApart_of_le (hv : v.toInt.natAbs ≤ maxExact) (hc : c.toInt.natAbs ≤ maxExact) : ToldApart v c := by
  intro heq
  rw [compareF64_int hv hc, cmp_eq_eq_iff] at heq
  exact Int64.toInt_inj.mp heq

theorem encodeVarint_between {lo hi v : Int64} :
    (encodeVarintAscending lo ≤ encodeVarintAscending v ∧ encodeVarintAscending v ≤ encodeVarintAscending hi ↔
        lo.toInt ≤ v.toInt ∧ v.toInt ≤ hi.toInt) ∧
      (encodeVarintDescending hi ≤ encodeVarintDescending v ∧ encodeVarintDescending v ≤ encodeVarintDescending lo ↔
        lo.toInt ≤ v.toInt ∧ v.toInt ≤ hi.toInt) := by
  have hup : ∀ a b : Int64, encodeVarintAscending a ≤ encodeVarintAscending b ↔ a.toInt ≤ b.toInt := fun a b => by
    rw [← not_lt, ← not_lt, (encodeVarintAscending_order b a).lt_iff, cmp_eq_lt_iff]
  have hdown : ∀ a b : Int64, encodeVarintDescending a ≤ encodeVarintDescending b ↔ b.toInt ≤ a.toInt := fun a b => by
    rw [← not_lt, ← not_lt, (encodeVarintDescending_order b a).lt_iff, Ordering.swap_eq_lt, cmp_eq_gt_iff]
  exact ⟨and_congr (hup ..) (hup ..), by rw [hdown, hdown, and_comm]⟩

/-- The range operators are exact on an integer and a literal exactly when the floats nearest to them differ or they are
    equal, as up to 2 to the power of 53. Between two such bounds, a filter selects what the range of the index's keys does. -/
theorem int_range_iff (lib : Library) (v lo hi : Int64) : (RangeExact lib v lo ↔ ToldApart v lo) ∧
      (v.toInt.natAbs ≤ maxExact ∧ lo.toInt.natAbs ≤ maxExact → ToldApart v lo) ∧
      (ToldApart v lo ∧ ToldApart v hi →
        (evalOp lib (.number (numberOfInt v)) .gte (.number (numberOfInt lo)) = .ok true ∧
            evalOp lib (.number (numberOfInt v)) .lte (.number (numberOfInt hi)) = .ok true ↔
          lo.toInt ≤ v.toInt ∧ v.toInt ≤ hi.toInt)) ∧
      (encodeVarintAscending lo ≤ encodeVarintAscending v ∧ encodeVarintAscending v ≤ encodeVarintAscending hi ↔
        lo.toInt ≤ v.toInt ∧ v.toInt ≤ hi.toInt) ∧
      (encodeVarintDescending hi ≤ encodeVarintDescending v ∧ encodeVarintDescending v ≤ encodeVarintDescending lo ↔
        lo.toInt ≤ v.toInt ∧ v.toInt ≤ hi.toInt) := by
  refine ⟨rangeExact_iff lib v lo, fun h => toldApart_of_le v lo h.1 h.2, ?_, encodeVarint_between⟩
  rintro ⟨hlo, hhi⟩
  obtain ⟨-, hge, -, -⟩ := (rangeExact_iff lib v lo).mpr hlo
  obtain ⟨-, -, -, hle⟩ := (rangeExact_iff lib v hi).mpr hhi
  rw [hge, hle, Except.ok.injEq, Except.ok.injEq, decide_eq_true_iff, decide_eq_true_iff]

/-- The integer after 2 to the power of 53 is not above it as a float. -/
theorem maxExact_succ_not_gt : ∃ v c : Int64, v.toInt = 2 ^ 53 + 1 ∧ c.toInt = 2 ^ 53 ∧
    (∀ lib, evalOp lib (.number (numberOfInt v)) .gt (.number (numberOfInt c)) = .ok false ∧
      evalOp lib (.number (numberOfInt v)) .lte (.number (numberOfInt c)) = .ok true) ∧
    encodeVarintAscending c < encodeVarintAscending v := by
  refine ⟨9007199254740993, 9007199254740992, by decide, by decide, fun lib => ?_, by decide⟩
  have hsame : compareF64 (f64OfInt (Int64.toInt 9007199254740993)) (f64OfInt (Int64.toInt 9007199254740992)) = .eq := by
    decide +kernel
  simp only [evalOp, compareValues_int, bind, Except.bind, pure, Except.pure, hsame, Option.any_some]
  exact ⟨rfl, rfl⟩

end

end Defra.Query
