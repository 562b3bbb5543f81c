import Mathlib.Data.List.Perm.Subperm
import Defra.Stored.Tagged

/-! The walk down a block's ancestors finds those at or above the priority it stops at. -/

namespace Defra.Stored
open KeyedList List

variable {merged : MergedBlocks} {par next : List Bytes} {lowest : UInt64} {seen ids : ByteSet} {waiting : Waiting}
  {done : List Merged}

/-- The merged blocks below `par`. -/
inductive Below (merged : MergedBlocks) (par : List Bytes) : Merged → Prop where
  | parent {m : Merged} : m ∈ merged → m.cid ∈ par → Below merged par m
  | step {m n : Merged} : Below merged par m → n ∈ merged → n.cid ∈ m.parents → Below merged par n

theorem Below.mem {m : Merged} (h : Below merged par m) : m ∈ merged := by cases h <;> assumption

def Falls (merged : MergedBlocks) : Prop := ∀ m ∈ merged, ∀ n ∈ merged, n.cid ∈ m.parents → n.priority < m.priority

def Merged.turn (m : Merged) : UInt64 ×ₗ Bytes := toLex (m.priority, m.cid)

theorem eq_of_turn {m n : Merged} (hm : m ∈ merged) (hn : n ∈ merged) (h : m.turn = n.turn) : m = n :=
  eq_of_key hm hn (congrArg (fun t => (ofLex t).2) h)

/-- The blocks visited, those that wait, and that whatever a visited block names was met or is `next`. -/
structure Walk (merged : MergedBlocks) (par : List Bytes) (lowest : UInt64) (next : List Bytes) (seen : ByteSet)
    (waiting : Waiting) (ids : ByteSet) (done : List Merged) : Prop where
  nodup : done.Nodup
  below : ∀ m ∈ done, Below merged par m ∧ lowest ≤ m.priority
  found : ∀ x, x ∈ ids ↔ ∃ m ∈ done, m.id = x
  met : ∀ m ∈ merged, m.cid ∈ seen ↔ m ∈ done ∨ m.turn ∈ waiting
  waits : ∀ t ∈ waiting, ∃ m, Below merged par m ∧ m ∉ done ∧ m.turn = t
  named : ∀ m ∈ merged, m.cid ∈ next → Below merged par m
  closed : ∀ m ∈ merged, (m.cid ∈ par ∨ ∃ d ∈ done, m.cid ∈ d.parents) → m.cid ∈ next ∨ m.cid ∈ seen

theorem walk_start : Walk merged par lowest par ∅ ∅ ∅ [] where
  nodup := nodup_nil
  below _ h := absurd h not_mem_nil
  found x := by simp
  met m _ := by simp
  waits t h := absurd h (not_mem_empty t)
  named m hm h := .parent hm h
  closed m _ h := by simpa using h

theorem Walk.visit {cid : Bytes} (h : Walk merged par lowest (cid :: next) seen waiting ids done) :
    Walk merged par lowest next (visit merged (seen, waiting) cid).1 (visit merged (seen, waiting) cid).2 ids
      done := by
  have hn : ∀ m ∈ merged, m.cid ∈ next → Below merged par m := fun m hm hc => h.named m hm (mem_cons_of_mem _ hc)
  unfold Stored.visit
  cases hf : merged.find? cid with
  | none =>
    refine ⟨h.nodup, h.below, h.found, h.met, h.waits, hn, fun m hm hc => ?_⟩
    rcases h.closed m hm hc with hc | hc
    · rcases mem_cons.mp hc with rfl | hc
      · exact absurd hf (Option.isSome_iff_ne_none.mp (Option.isSome_iff_exists.mpr ⟨m, find?_eq_some.mpr ⟨hm, rfl⟩⟩))
      · exact .inl hc
    · exact .inr hc
  | some b =>
    obtain ⟨hb, rfl⟩ := find?_eq_some.mp hf
    simp only
    split
    · rename_i hmet
      have hv : b.cid ∈ seen := isSome_find?_id.mp hmet
      refine ⟨h.nodup, h.below, h.found, h.met, h.waits, hn, fun m hm hc => ?_⟩
      rcases h.closed m hm hc with hc | hc
      · rcases mem_cons.mp hc with heq | hc
        · exact .inr (heq ▸ hv)
        · exact .inl hc
      · exact .inr hc
    · rename_i hnew
      have hnew : b.cid ∉ seen := fun hc => hnew (isSome_find?_id.mpr hc)
      have hdone : b ∉ done := fun hd => hnew ((h.met b hb).mpr (.inl hd))
      refine ⟨h.nodup, h.below, h.found, fun m hm => ?_, fun t ht => ?_, hn, fun m hm hc => ?_⟩
      · rw [mem_put_id,
          mem_put_id, h.met m hm]
        constructor
        · rintro (heq | hd | hw)
          · exact .inr (.inl (congrArg Merged.turn (eq_of_key hm hb heq)))
          · exact .inl hd
          · exact .inr (.inr hw)
        · rintro (hd | heq | hw)
          · exact .inr (.inl hd)
          · exact .inl (congrArg Merged.cid (eq_of_turn hm hb heq))
          · exact .inr (.inr hw)
      · rcases mem_put_id.mp ht with rfl | ht
        · exact ⟨b, h.named b hb mem_cons_self, hdone, rfl⟩
        · exact h.waits t ht
      · rcases h.closed m hm hc with hc | hc
        · rcases mem_cons.mp hc with heq | hc
          · exact .inr (mem_put_id.mpr (.inl heq))
          · exact .inl hc
        · exact .inr (mem_put_id.mpr (.inr hc))

theorem Walk.visitAll (h : Walk merged par lowest next seen waiting ids done) :
    Walk merged par lowest [] (next.foldl (Stored.visit merged) (seen, waiting)).1
      (next.foldl (Stored.visit merged) (seen, waiting)).2 ids done := by
  induction next generalizing seen waiting with
  | nil => exact h
  | cons cid next ih => exact ih h.visit

section
variable (h : Walk merged par lowest [] seen waiting ids done)
include h

/-- A block below `par` was visited unless one that waits is at it or above it. -/
theorem Walk.done_or_waits (hfalls : Falls merged) {m : Merged}
    (hm : Below merged par m) : m ∈ done ∨ ∃ t ∈ waiting, m.priority ≤ (ofLex t).1 := by
  have hmet : ∀ m ∈ merged, (m.cid ∈ par ∨ ∃ d ∈ done, m.cid ∈ d.parents) →
      m ∈ done ∨ ∃ t ∈ waiting, m.priority ≤ (ofLex t).1 := by
    intro m hm hc
    have hvisited := (h.closed m hm hc).resolve_left not_mem_nil
    exact ((h.met m hm).mp hvisited).imp_right fun hw => ⟨m.turn, hw, le_refl _⟩
  induction hm with
  | parent hm hc => exact hmet _ hm (.inl hc)
  | @step m n hm hn hc ih =>
    rcases ih with hd | ⟨t, ht, hle⟩
    · exact hmet n hn (.inr ⟨m, hd, hc⟩)
    · exact .inr ⟨t, ht, (hfalls m hm.mem n hn hc).le.trans hle⟩

/-- Once all that wait are below `lowest`, the blocks at or above it were visited. -/
theorem Walk.exit (hfalls : Falls merged) (hlow : ∀ t ∈ waiting, (ofLex t).1 < lowest) (x : Bytes) :
    x ∈ ids ↔ ∃ m, Below merged par m ∧ lowest ≤ m.priority ∧ m.id = x := by
  rw [h.found]
  constructor
  · rintro ⟨m, hm, rfl⟩
    exact ⟨m, (h.below m hm).1, (h.below m hm).2, rfl⟩
  · rintro ⟨m, hm, hle, rfl⟩
    rcases h.done_or_waits hfalls hm with hd | ⟨t, ht, hmt⟩
    · exact ⟨m, hd, rfl⟩
    · exact absurd (hle.trans hmt) (not_le.mpr (hlow t ht))

theorem Walk.turn {m : Merged} (hw : m.turn ∈ waiting)
    (hm : Below merged par m) (hnew : m ∉ done) (hle : lowest ≤ m.priority) :
    Walk merged par lowest m.parents seen (waiting.erase m.turn) (ids.put m.id) (m :: done) := by
  refine ⟨nodup_cons.mpr ⟨hnew, h.nodup⟩, fun n hn => ?_, fun x => ?_, fun n hn => ?_, fun t ht => ?_, fun n hn hc => ?_,
    fun n hn hc => ?_⟩
  · rcases mem_cons.mp hn with rfl | hn
    · exact ⟨hm, hle⟩
    · exact h.below n hn
  · rw [mem_put, h.found]
    by_cases hx : x = m.id
    · simp [hx]
    · simp [hx, Ne.symm hx]
  · rw [h.met n hn]
    by_cases heq : n = m
    · simp [heq, hw]
    · have hturn : n.turn ≠ m.turn := fun ht => heq (eq_of_turn hn hm.mem ht)
      simp [heq, hturn]
  · rw [mem_erase] at ht
    obtain ⟨n, hn, hdone, rfl⟩ := h.waits t ht.1
    refine ⟨n, hn, fun hmem => ?_, rfl⟩
    rcases mem_cons.mp hmem with rfl | hmem
    · exact ht.2 rfl
    · exact hdone hmem
  · exact .step hm hn hc
  · rcases hc with hc | ⟨d, hd, hc⟩
    · exact .inr ((h.closed n hn (.inl hc)).resolve_left not_mem_nil)
    · rcases mem_cons.mp hd with rfl | hd
      · exact .inl hc
      · exact .inr ((h.closed n hn (.inr ⟨d, hd, hc⟩)).resolve_left not_mem_nil)

end

/-- With as many turns left as blocks to visit, the walk ends with those at or above `lowest`. -/
theorem Walk.loop (hfalls : Falls merged) {turns : Nat} (hturns : turns + done.length = merged.toList.length + 1)
    (h : Walk merged par lowest next seen waiting ids done) (x : Bytes) :
    x ∈ pastIdsLoop merged lowest turns next seen waiting ids ↔
      ∃ m, Below merged par m ∧ lowest ≤ m.priority ∧ m.id = x := by
  induction turns generalizing next seen waiting ids done with
  | zero =>
    have hle := (h.nodup.subperm fun m hm => (h.below m hm).1.mem : done.Subperm merged.toList).length_le
    omega
  | succ turns ih =>
    have hall := h.visitAll
    rw [pastIdsLoop]
    generalize next.foldl (Stored.visit merged) (seen, waiting) = met at hall
    obtain ⟨seen, waiting⟩ := met
    simp only at hall ⊢
    cases hl : waiting.toList.getLast? with
    | none =>
      refine hall.exit hfalls (fun t ht => ?_) x
      rw [mem_def, getLast?_eq_none_iff.mp hl] at ht
      exact absurd ht not_mem_nil
    | some last =>
      obtain ⟨m, hm, hnew, rfl⟩ := hall.waits last (mem_of_getLast? hl)
      simp only
      have hf : merged.find? (ofLex m.turn).2 = some m := find?_eq_some.mpr ⟨hm.mem, rfl⟩
      by_cases hlow : (ofLex m.turn).1 < lowest
      · rw [if_pos hlow]
        refine hall.exit hfalls (fun t ht => ?_) x
        have hle := le_of_getLast? hl ht
        rw [Prod.Lex.le_iff] at hle
        exact (hle.elim le_of_lt fun h => h.1.le).trans_lt hlow
      · rw [if_neg hlow, hf]
        refine ih ?_ (hall.turn (mem_of_getLast? hl) hm hnew (not_lt.mp hlow))
        rw [length_cons]
        omega

theorem mem_pastIds (hfalls : Falls merged) {x : Bytes} :
    x ∈ pastIds merged par lowest ↔ ∃ m, Below merged par m ∧ lowest ≤ m.priority ∧ m.id = x :=
  walk_start.loop hfalls rfl x

theorem lowestOf_le {priorities : List UInt64} {p : UInt64} (h : p ∈ priorities) : lowestOf priorities ≤ p := by
  have hfold : ∀ (l : List UInt64) (start : UInt64), l.foldl min start ≤ start ∧ ∀ q ∈ l, l.foldl min start ≤ q := by
    intro l
    induction l with
    | nil => simp
    | cons q l ih =>
      intro start
      obtain ⟨hs, hall⟩ := ih (min start q)
      refine ⟨hs.trans (min_le_left _ _), fun r hr => ?_⟩
      rcases mem_cons.mp hr with rfl | hr
      · exact hs.trans (min_le_right _ _)
      · exact hall r hr
  exact (hfold priorities _).2 p h

end Defra.Stored
