import Defra.Text.Op

/-! `diff` is a patch: the texts share a start and, in what is left of them, an end, and the two ops put the middle of
    the new text in the place of the old one's. -/

namespace Defra.Text
namespace TextOp
open List

theorem exists_shared (old new : List Char) :
    ∃ shared l r, old = shared ++ l ∧ new = shared ++ r ∧ common old new = shared.length := by
  induction old generalizing new with
  | nil => exact ⟨[], [], new, rfl, rfl, rfl⟩
  | cons a old ih =>
    cases new with
    | nil => exact ⟨[], a :: old, [], rfl, rfl, rfl⟩
    | cons b new =>
      by_cases hab : a = b
      · obtain ⟨shared, l, r, rfl, rfl, hlen⟩ := ih new
        exact ⟨a :: shared, l, r, rfl, by simp [hab], by simpa [common, hab] using hlen⟩
      · exact ⟨[], a :: old, b :: new, rfl, rfl, by simp [common, hab]⟩

theorem common_self (text : List Char) : common text text = text.length := by
  induction text with
  | nil => rfl
  | cons a text ih => simpa [common] using ih

/-- What `diff` finds: a shared start, a middle of each text, and a shared end. -/
theorem exists_middle (old new : List Char) :
    ∃ start stop removed inserted, old = start ++ removed ++ stop ∧ new = start ++ inserted ++ stop ∧
      diff old new = (if removed.length > 0 then [.delete (.ofNat start.length) (.ofNat removed.length)] else []) ++
        if inserted.isEmpty then [] else [.insert (.ofNat start.length) inserted] := by
  obtain ⟨start, l, r, ho, hn, hs⟩ := exists_shared old new
  obtain ⟨stop, removed, inserted, hl, hr, hstop⟩ := exists_shared l.reverse r.reverse
  have hl' : l = removed.reverse ++ stop.reverse := by rw [← reverse_append, ← hl, reverse_reverse]
  have hr' : r = inserted.reverse ++ stop.reverse := by rw [← reverse_append, ← hr, reverse_reverse]
  refine ⟨start, stop.reverse, removed.reverse, inserted.reverse, by simp [ho, hl'], by simp [hn, hr'], ?_⟩
  have holdRest : old.drop start.length = l := by rw [ho, drop_left]
  have hnewRest : new.drop start.length = r := by rw [hn, drop_left]
  simp only [diff, hs, holdRest, hnewRest, hstop]
  simp [hl', hr']

theorem length_le_bytes (text : List Char) : text.length ≤ (text.map Char.utf8Size).sum := by
  induction text with
  | nil => exact Nat.le_refl 0
  | cons c text ih =>
    have := c.utf8Size_pos
    simp only [length_cons, map_cons, sum_cons]
    omega

theorem apply_delete_middle {start removed stop : List Char} (h : (start ++ removed ++ stop).length < 2 ^ 64) :
    apply (start ++ removed ++ stop) (.delete (.ofNat start.length) (.ofNat removed.length)) = start ++ stop := by
  simp only [length_append] at h
  have hsize : UInt64.size = 2 ^ 64 := rfl
  have hs : (UInt64.ofNat start.length).toNat = start.length := UInt64.toNat_ofNat_of_lt (by omega)
  have hr : (UInt64.ofNat removed.length).toNat = removed.length := UInt64.toNat_ofNat_of_lt (by omega)
  have hstop : clamp (start.length + removed.length) (start ++ removed ++ stop).length = (start ++ removed).length := by
    simp only [clamp, length_append]
    omega
  have hat : clamp start.length (start ++ removed ++ stop).length = start.length := by
    simp only [clamp, length_append]
    omega
  rw [apply, saturatingAdd, hs, hr, Nat.min_eq_left (by omega), hat, hstop, drop_left, append_assoc, take_left]

theorem apply_insert_middle {start stop : List Char} (inserted : List Char) (h : (start ++ stop).length < 2 ^ 64) :
    apply (start ++ stop) (.insert (.ofNat start.length) inserted) = start ++ inserted ++ stop := by
  simp only [length_append] at h
  have hsize : UInt64.size = 2 ^ 64 := rfl
  have hs : (UInt64.ofNat start.length).toNat = start.length := UInt64.toNat_ofNat_of_lt (by omega)
  have hat : clamp start.length (start ++ stop).length = start.length := by
    simp only [clamp, length_append]
    omega
  rw [apply, hs, hat, take_left, drop_left]

theorem applyAll_diff_chars {old new : List Char} (h : old.length < 2 ^ 64) : applyAll old (diff old new) = new := by
  obtain ⟨start, stop, removed, inserted, rfl, rfl, hdiff⟩ := exists_middle old new
  have hshort : (start ++ stop).length < 2 ^ 64 := by
    simp only [length_append] at h ⊢
    omega
  have hd : applyAll (start ++ removed ++ stop)
      (if removed.length > 0 then [.delete (.ofNat start.length) (.ofNat removed.length)] else []) = start ++ stop := by
    split
    · exact apply_delete_middle h
    · have : removed = [] := length_eq_zero_iff.mp (by omega)
      simp [this, applyAll]
  rw [applyAll] at hd
  rw [hdiff, applyAll, foldl_append, hd]
  split
  · rename_i he
    simp [isEmpty_iff.mp he]
  · exact apply_insert_middle inserted hshort

/-- At most one delete and one insert turn the old text into the new one, and none when they are equal. -/
theorem diff_is_patch (old new : Str) : applyAll old.chars (diff old.chars new.chars) = new.chars ∧
      (∃ deletes inserts, diff old.chars new.chars = deletes ++ inserts ∧
        deletes.length ≤ 1 ∧ (∀ op ∈ deletes, ∃ pos len, op = .delete pos len) ∧
        inserts.length ≤ 1 ∧ ∀ op ∈ inserts, ∃ pos text, op = .insert pos text) ∧
      diff old.chars old.chars = [] := by
  have hl := (length_le_bytes old.chars).trans_lt old.bytes_lt
  refine ⟨applyAll_diff_chars (by omega), ?_, by simp [diff, common_self]⟩
  obtain ⟨start, stop, removed, inserted, -, -, hd⟩ := exists_middle old.chars new.chars
  refine ⟨_, _, hd, ?_, ?_, ?_, ?_⟩ <;> split <;> simp

end TextOp
end Defra.Text
