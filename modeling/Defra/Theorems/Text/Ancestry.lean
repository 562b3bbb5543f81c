import Defra.Text.Replay
import Defra.Theorems.Text.Apply

/-! Histories of blocks, the orders they can be replayed in, and the ancestry bitmaps `build` keeps: a bitmap
    holds exactly the blocks before its own. -/

namespace Defra.Text
open List TreePath Fugue

/-- `order` holds no ID twice, and every block in it follows those of its parents that are in it. -/
structure Ordered (order : List TextBlock) : Prop where
  nodup : (order.map (·.id)).Nodup
  follows : ∀ l b r, order = l ++ b :: r → ∀ p ∈ b.parents, p ∈ order.map (·.id) → p ∈ l.map (·.id)

/-- Each block's edits, and the blocks of `order` before it. -/
structure Fits (H : History Bytes Char) (order : List TextBlock) : Prop where
  edits : ∀ b ∈ order, H.edits b.id = b.ops.map TextOp.edit
  past : ∀ b ∈ order, ∀ a,
    a ∈ H.past b.id ↔ ∃ p ∈ b.parents, p ∈ order.map (·.id) ∧ (a = p ∨ a ∈ H.past p)

section
variable {H : History Bytes Char} {order : List TextBlock} {l bs : List TextBlock} {i : Nat}

/-- What is before a block stands before it, with all that is before that. -/
theorem Fits.past_spec (hfits : Fits H order) (hord : Ordered order) : ∀ {l r : List TextBlock} {b : TextBlock},
    order = l ++ b :: r → ∀ a ∈ H.past b.id, a ∈ l.map (·.id) ∧ H.past a ⊆ H.past b.id := by
  intro l
  induction hn : l.length using Nat.strong_induction_on generalizing l with
  | _ n ih =>
    intro r b hsp a ha
    have hb : b ∈ order := by simp [hsp]
    obtain ⟨p, hp, hpo, hap⟩ := (hfits.past b hb a).mp ha
    have hpl := hord.follows l b r hsp p hp hpo
    have hpast : H.past p ⊆ H.past b.id := fun c hc => (hfits.past b hb c).mpr ⟨p, hp, hpo, Or.inr hc⟩
    rcases hap with rfl | hap
    · exact ⟨hpl, hpast⟩
    · obtain ⟨before, hbef, rfl⟩ := mem_map.mp hpl
      obtain ⟨l₁, l₂, rfl⟩ := append_of_mem hbef
      have hlt : l₁.length < n := by simp only [← hn, length_append, length_cons]; omega
      obtain ⟨hmem, ht⟩ := ih l₁.length hlt (l := l₁) rfl (r := l₂ ++ b :: r) (by simp [hsp]) a hap
      exact ⟨by rw [map_append]; exact mem_append_left _ hmem, ht.trans hpast⟩

variable {b : TextBlock} {id : Bytes} {r : List TextBlock} (anc : List Ancestry) (bits theirs : List Bool)
  (step : Nat)

theorem Fits.past_subset (hfits : Fits H order) (hord : Ordered order) {l r : List TextBlock}
    (hsp : order = l ++ b :: r) : H.past b.id ⊆ {a | a ∈ l.map (·.id)} :=
  fun a ha => (hfits.past_spec hord hsp a ha).1

theorem Ordered.not_mem (hord : Ordered order) {l r : List TextBlock} (hsp : order = l ++ b :: r) :
    b.id ∉ l.map (·.id) := by
  have hn := hord.nodup
  rw [hsp, map_append, nodup_append] at hn
  exact fun hmem => hn.2.2 _ hmem _ mem_cons_self rfl

def idAt (order : List TextBlock) (i : Nat) : Bytes := (order.map (·.id)).getD i []

theorem idAt_middle (l r : List TextBlock) (b : TextBlock) : idAt (l ++ b :: r) l.length = b.id := by
  simp [idAt]

theorem idAt_append_left (h : i < l.length) (r : List TextBlock) : idAt (l ++ r) i = idAt l i := by
  rw [idAt, idAt, map_append, getD_eq_getElem?_getD, getElem?_append_left (by simpa using h),
    getD_eq_getElem?_getD]

theorem idAt_inj (hnd : (bs.map (·.id)).Nodup) {j : Nat} (hi : i < bs.length)
    (hj : j < bs.length) (he : idAt bs i = idAt bs j) : i = j :=
  Tree.getD_inj hnd (by simpa using hi) (by simpa using hj) he

theorem indexOf_eq_some (hnd : (bs.map (·.id)).Nodup) : indexOf bs id = some i ↔ i < bs.length ∧ idAt bs i = id := by
  rw [indexOf, findIdx?_eq_some_iff_getElem]
  have hget : ∀ {j} (hj : j < bs.length), idAt bs j = bs[j].id := fun hj => by
    simp [idAt, hj]
  constructor
  · rintro ⟨hi, hp, -⟩
    exact ⟨hi, by rw [hget hi]; simpa using hp⟩
  · rintro ⟨hi, he⟩
    rw [hget hi] at he
    refine ⟨hi, by simpa using he, fun j hj hjp => ?_⟩
    have hjl : j < bs.length := Nat.lt_trans hj hi
    have hsame : idAt bs j = idAt bs i := by
      rw [hget hjl, hget hi, he]
      simpa using hjp
    exact Nat.ne_of_lt hj (idAt_inj hnd hjl hi hsame)

theorem exists_idAt (h : id ∈ bs.map (·.id)) : ∃ i < bs.length, idAt bs i = id := by
  obtain ⟨i, hi, he⟩ := getElem_of_mem h
  rw [length_map] at hi
  exact ⟨i, hi, by simp [idAt, ← he, hi]⟩

theorem idAt_mem (h : i < bs.length) : idAt bs i ∈ bs.map (·.id) := by
  simp only [idAt, getD_eq_getElem?_getD, getElem?_map, getElem?_eq_getElem h, Option.map_some,
    Option.getD_some]
  exact mem_map_of_mem (getElem_mem h)

theorem mem_parentsIn (hnd : (bs.map (·.id)).Nodup) : i ∈ parentsIn bs b ↔ i < bs.length ∧ idAt bs i ∈ b.parents := by
  rw [parentsIn, mem_filterMap]
  constructor
  · rintro ⟨p, hp, he⟩
    obtain ⟨hi, rfl⟩ := (indexOf_eq_some hnd).mp he
    exact ⟨hi, hp⟩
  · rintro ⟨hi, hp⟩
    exact ⟨_, hp, (indexOf_eq_some hnd).mpr ⟨hi, rfl⟩⟩

/-- The ID at a position stands among the first `n` exactly when the position does. -/
theorem idAt_mem_take (hnd : ((l ++ r).map (·.id)).Nodup) (hi : i < (l ++ r).length) :
    idAt (l ++ r) i ∈ l.map (·.id) ↔ i < l.length := by
  constructor
  · intro hm
    obtain ⟨j, hj, he⟩ := exists_idAt hm
    rw [← idAt_append_left hj r] at he
    have := idAt_inj hnd hi (by rw [length_append]; omega) he.symm
    omega
  · intro hlt
    rw [idAt_append_left hlt]
    exact idAt_mem hlt

theorem length_orBits : (orBits bits theirs).length = bits.length := by
  induction bits generalizing theirs with
  | nil => rfl
  | cons bit bits ih => cases theirs <;> simp [orBits, ih]

theorem getD_orBits {p : Nat} (h : p < bits.length) :
    (orBits bits theirs).getD p false = (bits.getD p false || theirs.getD p false) := by
  induction bits generalizing theirs p with
  | nil => cases h
  | cons bit bits ih =>
    cases theirs with
    | nil => simp [orBits]
    | cons their theirs =>
      cases p with
      | zero => rfl
      | succ p => exact ih theirs (Nat.lt_of_succ_lt_succ h)

theorem Ancestry.getD_bits (anc : Ancestry) {len p : Nat} (h : p < len) :
    (anc.bits len).getD p false = anc.contains p := by
  cases anc with
  | prefixTo stop => simp [Ancestry.bits, Ancestry.contains, getD_eq_getElem?_getD, h]
  | set bits => rfl

def orParent (bits : List Bool) (parent : Nat) : List Bool :=
  (orBits bits ((anc.getD parent (.set [])).bits step)).set parent true

theorem length_orParents (parents : List Nat) (bits : List Bool) :
    (parents.foldl (orParent anc step) bits).length = bits.length := by
  induction parents generalizing bits with
  | nil => rfl
  | cons parent parents ih => rw [foldl_cons, ih, orParent, length_set, length_orBits]

theorem getD_orParents {step p : Nat} (hp : p < step) (parents : List Nat) {bits : List Bool} (hlen : bits.length = step)
    : (parents.foldl (orParent anc step) bits).getD p false =
      (bits.getD p false || parents.any fun parent => p = parent || (anc.getD parent (.set [])).contains p) := by
  induction parents generalizing bits with
  | nil => simp
  | cons parent parents ih =>
    have hor := getD_orBits bits ((anc.getD parent (.set [])).bits step) (hlen ▸ hp)
    rw [Ancestry.getD_bits _ hp] at hor
    rw [foldl_cons, ih (by rw [orParent, length_set, length_orBits, hlen]), any_cons, ← Bool.or_assoc, orParent]
    congr 1
    by_cases he : p = parent
    · subst he
      simp [getD_eq_getElem?_getD, length_orBits, hlen, hp]
    · simpa [getD_eq_getElem?_getD, Ne.symm he, he] using hor

/-- What an ancestry holds: the parents, and what theirs hold. -/
theorem contains_ancestryOf {parents : List Nat} {anc : List Ancestry} {step : Nat} (p : Nat) :
    (ancestryOf parents anc step).contains p = true ↔
      p < step ∧ ∃ parent ∈ parents, p = parent ∨ (anc.getD parent (.set [])).contains p = true := by
  have hb : ((parents.foldl (orParent anc step) (replicate step false)).getD p false = true) ↔
      p < step ∧ ∃ parent ∈ parents, p = parent ∨ (anc.getD parent (.set [])).contains p = true := by
    by_cases hp : p < step
    · rw [getD_orParents anc hp parents length_replicate]
      simp [hp]
    · simp [getD_eq_getElem?_getD, length_orParents, hp]
  rw [← hb, ancestryOf]
  split
  · -- The block follows the step before, which sees everything before it.
    rename_i hf
    rw [hb]
    unfold followsStep at hf
    split at hf
    · simp only [Bool.and_eq_true, beq_iff_eq] at hf
      simp only [getD_eq_getElem?_getD, mem_singleton, exists_eq_left, hf.2, Option.getD_some, Ancestry.contains,
        decide_eq_true_eq]
      omega
    · cases hf
  · change (Ancestry.contains (if (parents.foldl (orParent anc step) (replicate step false)).count true = step then _
      else .set (parents.foldl (orParent anc step) (replicate step false))) p = true) ↔ _
    have hlen := length_orParents anc step parents (replicate step false)
    generalize parents.foldl (orParent anc step) (replicate step false) = bits at hlen hb ⊢
    rw [length_replicate] at hlen
    split
    · rename_i hc
      have hall := count_eq_length.mp (hc.trans hlen.symm)
      by_cases hp : p < bits.length
      · simp [Ancestry.contains, ← hlen, hp, getD_eq_getElem?_getD, ← hall _ (getElem_mem hp)]
      · simp [Ancestry.contains, ← hlen, hp, getD_eq_getElem?_getD]
    · rfl

def Ancestry.Right (H : History Bytes Char) (order : List TextBlock) (anc : Ancestry) (step : Nat) : Prop :=
  ∀ p, anc.contains p = true ↔ p < step ∧ idAt order p ∈ H.past (idAt order step)

theorem Fits.lt_of_past (hfits : Fits H order) (hord : Ordered order) {p q : Nat} (hp : p < order.length) (hq : q < order.length)
    (h : idAt order p ∈ H.past (idAt order q)) : p < q := by
  have hsp : order = order.take q ++ order[q] :: order.drop (q + 1) := by
    rw [getElem_cons_drop, take_append_drop]
  have hid : idAt order q = order[q].id := by simp [idAt, hq]
  have hmem := hfits.past_subset hord hsp (hid ▸ h)
  have hnd := hord.nodup
  rw [← take_append_drop q order] at hnd hp
  have hlt := (idAt_mem_take hnd hp).mp (by rwa [take_append_drop])
  rwa [length_take, Nat.min_eq_left hq.le] at hlt

theorem ancestryOf_right (hfits : Fits H order) (hord : Ordered order) (hsp : order = l ++ b :: r)
    {anc : List Ancestry} (hlen : anc.length = l.length)
    (hright : ∀ (j : Nat) (a : Ancestry), anc[j]? = some a → a.Right H order j) :
    (ancestryOf (parentsIn order b) anc anc.length).Right H order anc.length := by
  intro p
  rw [show idAt order anc.length = b.id by rw [hsp, hlen, idAt_middle], contains_ancestryOf,
    hfits.past b (by simp [hsp])]
  refine and_congr_right fun hp => ?_
  have hpo : p < order.length := by rw [hsp, length_append]; omega
  -- A parent stands before the block, where its ancestry is known.
  have hpar : ∀ {q}, q < order.length → idAt order q ∈ b.parents → ∀ a, (anc.getD q (.set [])).contains a = true ↔
      a < q ∧ idAt order a ∈ H.past (idAt order q) := by
    intro q hq hqp
    have hmem := hord.follows l b r hsp _ hqp (idAt_mem hq)
    have hnd := hord.nodup
    rw [hsp] at hmem hnd hq
    have hlt : q < anc.length := hlen ▸ (idAt_mem_take hnd hq).mp hmem
    rw [getD_eq_getElem?_getD, getElem?_eq_getElem hlt]
    exact hright q _ (getElem?_eq_getElem hlt)
  constructor
  · rintro ⟨q, hq, he⟩
    obtain ⟨hqo, hqp⟩ := (mem_parentsIn hord.nodup).mp hq
    refine ⟨_, hqp, idAt_mem hqo, he.imp (by rintro rfl; rfl) fun he => ?_⟩
    exact ((hpar hqo hqp p).mp he).2
  · rintro ⟨id, hid, hido, he⟩
    obtain ⟨q, hqo, rfl⟩ := exists_idAt hido
    refine ⟨q, (mem_parentsIn hord.nodup).mpr ⟨hqo, hid⟩, he.imp (idAt_inj hord.nodup hpo hqo) fun he => ?_⟩
    exact (hpar hqo hid p).mpr ⟨hfits.lt_of_past hord hpo hqo he, he⟩

end
end Defra.Text
