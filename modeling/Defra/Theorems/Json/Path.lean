import Mathlib.Data.List.Infix
import Defra.Json.Path

/-! A path's key starts with another's exactly when the path is that one or below it, and a key decodes to its
    path. -/

namespace Defra.Json
open List

theorem escape_cons (byte : UInt8) (bytes : Bytes) :
    escape (byte :: bytes) = (if byte = 0 then [0, 255] else [byte]) ++ escape bytes := flatMap_cons ..

theorem encodePath_cons (segment : String) (path : Path) :
    encodePath (segment :: path) = escape (utf8 segment) ++ 0 :: 1 :: encodePath path := by
  simp [encodePath]

theorem escape_prefix_iff (a b x y : Bytes) : escape a ++ 0 :: 1 :: x <+: escape b ++ 0 :: 1 :: y ↔ a = b ∧ x <+: y := by
  induction a generalizing b with
  | nil =>
    cases b with
    | nil => simp [escape]
    | cons c b =>
      by_cases hc : c = 0
      · simp [hc, escape]
      · simp [hc, escape, Ne.symm hc]
  | cons c a ih =>
    cases b with
    | nil =>
      by_cases hc : c = 0
      · simp [hc, escape]
      · simp [hc, escape]
    | cons d b =>
      rw [escape_cons, escape_cons]
      by_cases hc : c = 0 <;> by_cases hd : d = 0
      · simp [hc, hd, ih]
      · simp [hc, hd, Ne.symm hd]
      · simp [hc, hd]
      · simp [hc, hd, ih, and_assoc]

@[simp] theorem encodePath_prefix_iff (p q : Path) : encodePath p <+: encodePath q ↔ p <+: q := by
  induction p generalizing q with
  | nil => simp [encodePath]
  | cons s p ih =>
    cases q with
    | nil => simp [encodePath]
    | cons t q =>
      rw [encodePath_cons, encodePath_cons, escape_prefix_iff, ih, cons_prefix_cons]
      exact and_congr_left fun _ => ⟨utf8_inj, fun he => he ▸ rfl⟩

theorem encodePath_inj {p q : Path} (h : encodePath p = encodePath q) : p = q := by
  have hpq : p <+: q := (encodePath_prefix_iff p q).mp (h ▸ prefix_rfl)
  have hqp : q <+: p := (encodePath_prefix_iff q p).mp (h ▸ prefix_rfl)
  exact hpq.eq_of_length (le_antisymm hpq.length_le hqp.length_le)

end Defra.Json
