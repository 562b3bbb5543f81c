import Defra.Stored.Document
import Defra.Theorems.Json.Frontier

/-! The native types whose parts fold exactly: landing two operands on a state, one after the other, is landing their
    merge. -/

namespace Defra.Stored
open StoredField Option KeyedList Json Wire

/-- The part before any operand. -/
def StoredField.start (new : StoredField) : StoredField :=
  { name := new.name, kind := new.kind, priority := 0, value := [] }

variable (cbor : Cbor) (crdt : FieldCrdt) (part : StoredField) (st new : StoredField)

def FieldCrdt.merged : Option StoredField :=
  (crdt.merge st new).map Prod.snd

def FieldCrdt.land : Option StoredField :=
  (crdt.merged st new).bind (crdt.settle.getD some)

/-- Applying the fold of two parts is applying the two. -/
structure FieldCrdt.Exact (cbor : Cbor) (crdt : FieldCrdt) (kind : ValueKind) : Prop where
  merged_keeps : ∀ st new m, crdt.merged st new = some m → m.name = st.name ∧ m.kind = st.kind
  land_keeps : ∀ st new m, crdt.land st new = some m → m.name = st.name ∧ m.kind = st.kind
  assoc : ∀ st a b ab, st.kind = kind → a.kind = kind → b.kind = kind → a.isValid cbor = true →
    b.isValid cbor = true → crdt.merged a b = some ab →
    (crdt.land st a).bind (crdt.land · b) = crdt.land st ab
  start : ∀ st b b', st.kind = kind → b.kind = kind → b.isValid cbor = true → crdt.merged b.start b = some b' →
    crdt.land st b' = crdt.land st b

/-- A register keeps the part of the highest rank. -/
def StoredField.rank (part : StoredField) : UInt64 ×ₗ Bytes := toLex (part.priority, part.value)

def StoredField.withRank (rank : UInt64 ×ₗ Bytes) : StoredField :=
  { part with priority := (ofLex rank).1, value := (ofLex rank).2 }

theorem rank_start_le (part : StoredField) (rank : UInt64 ×ₗ Bytes) : part.start.rank ≤ rank := by
  rw [Prod.Lex.le_iff]
  rcases (UInt64.zero_le : (0 : UInt64) ≤ (ofLex rank).1).lt_or_eq with h | h
  · exact .inl h
  · exact .inr ⟨h, Bytes.le_of_prefix List.nil_prefix⟩

theorem lwwField_merged (cbor : Cbor) (st new : StoredField) :
    (lwwField cbor).merged st new = some (st.withRank (max st.rank new.rank)) := by
  have hwins : ∀ won : Prop, [Decidable won] → (won ↔ new.rank ≤ st.rank) →
      st.withRank (max st.rank new.rank) =
        if won then st else { st with priority := new.priority, value := new.value } := by
    intro won _ hiff
    split
    · rw [max_eq_left (hiff.mp ‹_›)]
      rfl
    · rw [max_eq_right (le_of_not_ge fun h => ‹¬ won› (hiff.mpr h))]
      rfl
  rw [hwins (new.priority < st.priority ∨ new.priority = st.priority ∧ new.value ≤ st.value)
    (by rw [Prod.Lex.le_iff]; exact Iff.rfl)]
  simp only [FieldCrdt.merged, lwwField]
  by_cases hlt : new.priority < st.priority
  · simp [hlt]
  · by_cases htie : new.priority = st.priority ∧ new.value ≤ st.value <;> simp [hlt, htie]

theorem lwwField_exact (cbor : Cbor) : (lwwField cbor).Exact cbor .lww := by
  have hl : ∀ st new, (lwwField cbor).land st new =
      some (st.withRank (max st.rank new.rank)) := fun st new => by
    rw [FieldCrdt.land, lwwField_merged]
    rfl
  refine ⟨fun st new m h => ?_, fun st new m h => ?_, fun st a b ab _ _ _ _ _ h => ?_,
    fun st b b' _ _ _ h => ?_⟩
  · rw [lwwField_merged] at h
    cases h
    exact ⟨rfl, rfl⟩
  · rw [hl] at h
    cases h
    exact ⟨rfl, rfl⟩
  · rw [lwwField_merged] at h
    cases h
    rw [hl, hl, bind_some, hl]
    exact congrArg some (congrArg st.withRank (max_assoc st.rank a.rank b.rank))
  · rw [lwwField_merged, max_eq_right (rank_start_le b b.rank)] at h
    cases h
    rfl

theorem max_zero_left (priority : UInt64) : max 0 priority = priority := max_eq_right UInt64.zero_le

theorem textField_exact : (textField cbor).Exact cbor .text := by
  have hl : ∀ st new, (textField cbor).land st new =
      some { st with value := new.value, priority := max st.priority new.priority } := fun _ _ => rfl
  refine ⟨fun st new m h => ?_, fun st new m h => ?_, fun st a b ab _ _ _ _ _ h => ?_,
    fun st b b' _ _ _ h => ?_⟩
  · cases h
    exact ⟨rfl, rfl⟩
  · cases h
    exact ⟨rfl, rfl⟩
  · cases h
    simp only [hl, bind_some, max_assoc]
  · cases h
    simp only [hl, start, max_zero_left]

/-- A counter adds. -/
def StoredField.plus : StoredField :=
  { st with value := toBe 8 ((ofBe st.value + ofBe new.value) % 2 ^ 64), priority := max st.priority new.priority }

theorem length_plus (a b : StoredField) : (a.plus b).value.length = 8 := length_toBe 8 _

theorem plus_assoc (st a b : StoredField) : (st.plus a).plus b = st.plus (a.plus b) := by
  simp only [plus, ofBe_toBe_mod, max_assoc, mk.injEq, true_and]
  congr 1
  omega

theorem start_plus {part : StoredField} (h : part.value.length = 8) : part.start.plus part = part := by
  have hlt := ofBe_lt part.value
  have hsame := toBe_ofBe part.value
  have hzero : ofBe part.start.value = 0 := rfl
  rw [h] at hlt hsame
  change _ < 2 ^ 64 at hlt
  have hv : toBe 8 ((ofBe part.start.value + ofBe part.value) % 2 ^ 64) = part.value := by
    rw [hzero, Nat.zero_add, Nat.mod_eq_of_lt hlt, hsame]
  rw [plus, hv]
  simp only [start, max_zero_left]

theorem counterField_merged {st new : StoredField} (hk : st.kind = .int64) (h : new.value.length = 8) :
    counterField.merged st new =
      if st.value = [] ∨ st.value.length = 8 then some (st.plus new) else none := by
  simp only [FieldCrdt.merged, counterField, hk, map_map, sum]
  cases hv : st.value with
  | nil =>
    have hzero : ofBe (List.replicate 8 0) = ofBe [] := by decide
    simp [h, plus, hv, hk, ← hzero]
  | cons byte rest =>
    simp only [List.isEmpty_cons, h, and_true, reduceCtorEq, false_or, plus, hv]
    split <;> simp_all

theorem counterField_exact : counterField.Exact cbor .int64 := by
  have hvalid : ∀ {part : StoredField}, part.kind = .int64 → part.isValid cbor = true → part.value.length = 8 := by
    intro part hk h
    simpa [isValid, hk, nativePart, counterField] using h
  have hkeeps : ∀ st new m, counterField.merged st new = some m →
      m.name = st.name ∧ m.kind = st.kind := by
    intro st new m h
    simp only [FieldCrdt.merged, counterField, map_map, map_eq_some_iff] at h
    obtain ⟨v, -, rfl⟩ := h
    exact ⟨rfl, rfl⟩
  have hl : counterField.land = counterField.merged := by
    funext st new
    exact bind_fun_some _
  refine ⟨hkeeps, hl ▸ hkeeps, fun st a b ab hs ha hb hva hvb h => ?_, fun st b b' hs hb hvb h => ?_⟩
  · have hla := hvalid ha hva
    have hlb := hvalid hb hvb
    rw [counterField_merged ha hlb, if_pos (.inr hla)] at h
    cases h
    have hsecond : counterField.merged (st.plus a) b = some ((st.plus a).plus b) := by
      have hk : (st.plus a).kind = .int64 := hs
      rw [counterField_merged hk hlb, if_pos (.inr (length_plus st a))]
    rw [hl, counterField_merged hs hla, counterField_merged hs (length_plus a b)]
    split
    · rw [bind_some, hsecond, plus_assoc]
    · rfl
  · have hlb := hvalid hb hvb
    have hfirst : counterField.merged b.start b = some (b.start.plus b) := by
      have hk : b.start.kind = .int64 := hb
      rw [counterField_merged hk hlb]
      exact if_pos (.inl rfl)
    rw [hfirst, start_plus hlb] at h
    cases h
    rfl

/-- A Json part that reads as the frontier `f`. -/
def StoredField.withFrontier (f : Frontier) (priority : UInt64) : StoredField :=
  { part with value := cbor.encode f, priority }

section
variable (cbor : Cbor) {f : Frontier} (st new : StoredField)

theorem jsonField_merged : (jsonField cbor).merged st new =
    (cbor.frontier st.value).bind fun f => (cbor.frontier new.value).map fun g =>
      st.withFrontier cbor (f.compose g) (max st.priority new.priority) := by
  simp only [FieldCrdt.merged, jsonField]
  cases cbor.frontier st.value <;> cases cbor.frontier new.value <;> rfl

def Cbor.Reads (f : Frontier) : Prop := ∀ e ∈ f.entries, cbor.ReadsEdit e.edit

variable {cbor}

theorem reads_of_frontier {bytes : Bytes} (h : cbor.frontier bytes = some f) : cbor.Reads f := by
  rw [Cbor.frontier] at h
  split at h
  · cases h
    exact fun e he => absurd he (not_mem_empty e)
  · exact cbor.reads_of_decode bytes f h

theorem reads_compose {f g : Frontier} (hf : cbor.Reads f) (hg : cbor.Reads g) : cbor.Reads (f.compose g) := by
  intro e he
  rcases Frontier.mem_compose_entries.mp he with he | ⟨he, -⟩
  · exact hg e he
  · exact hf e he

theorem frontier_encode (hf : cbor.Reads f) : cbor.frontier (cbor.encode f) = some f := by
  rw [Cbor.frontier, if_neg (by simpa using cbor.encode_ne_nil f), cbor.decode_encode f hf]

theorem jsonField_land : (jsonField cbor).land st new =
    (cbor.frontier st.value).bind fun f => (cbor.frontier new.value).map fun g =>
      st.withFrontier cbor (f.compose g).settle (max st.priority new.priority) := by
  rw [FieldCrdt.land, jsonField_merged]
  cases hf : cbor.frontier st.value with
  | none => rfl
  | some f =>
    cases hg : cbor.frontier new.value with
    | none => rfl
    | some g =>
      have hdec := cbor.decode_encode (f.compose g) (reads_compose (reads_of_frontier hf) (reads_of_frontier hg))
      simp only [bind_some, map_some, jsonField, getD_some, withFrontier]
      rw [if_neg (by simpa using cbor.encode_ne_nil _), hdec]
      rfl

theorem jsonField_exact : (jsonField cbor).Exact cbor .json := by
  have hkeeps : ∀ (change : Frontier → Frontier) {st new m : StoredField},
      ((cbor.frontier st.value).bind fun f => (cbor.frontier new.value).map fun g =>
        st.withFrontier cbor (change (f.compose g)) (max st.priority new.priority)) = some m →
      m.name = st.name ∧ m.kind = st.kind := by
    intro change st new m h
    obtain ⟨f, -, h⟩ := bind_eq_some_iff.mp h
    obtain ⟨g, -, rfl⟩ := map_eq_some_iff.mp h
    exact ⟨rfl, rfl⟩
  refine ⟨fun st new m h => ?_, fun st new m h => ?_, fun st a b ab _ _ _ _ _ h => ?_,
    fun st b b' _ _ _ h => ?_⟩
  · rw [jsonField_merged] at h
    exact hkeeps id h
  · rw [jsonField_land] at h
    exact hkeeps Frontier.settle h
  · rw [jsonField_merged] at h
    obtain ⟨fa, hfa, h⟩ := bind_eq_some_iff.mp h
    obtain ⟨fb, hfb, rfl⟩ := map_eq_some_iff.mp h
    rw [jsonField_land, jsonField_land]
    cases hf : cbor.frontier st.value with
    | none => rfl
    | some f =>
      have hab := frontier_encode (reads_compose (reads_of_frontier hfa) (reads_of_frontier hfb))
      have hfirst : cbor.Reads (f.compose fa).settle := reads_compose (reads_of_frontier hf) (reads_of_frontier hfa)
      simp only [bind_some, hfa, map_some, jsonField_land, withFrontier, hab, hfb,
        frontier_encode hfirst, Frontier.settle_compose_settle, Frontier.compose_assoc, max_assoc]
  · rw [jsonField_merged] at h
    obtain ⟨fs, hfs, h⟩ := bind_eq_some_iff.mp h
    obtain ⟨fb, hfb, rfl⟩ := map_eq_some_iff.mp h
    cases hfs
    rw [jsonField_land, jsonField_land, Frontier.empty_compose, hfb]
    simp only [withFrontier, frontier_encode (reads_of_frontier hfb), start, max_zero_left]

end
end Defra.Stored
