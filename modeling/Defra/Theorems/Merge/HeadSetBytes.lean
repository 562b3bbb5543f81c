import Defra.Theorems.Merge.HeadSet

/-! The bytes of head-set operands and values. -/

namespace Defra.Merge.HeadSet
open Option List Reader Reads

theorem low_bits (m : Nat) (h : m < 128) : (UInt8.ofNat m &&& 0x7f).toNat = m ∧ UInt8.ofNat m &&& 0x80 = 0 ∧
    (UInt8.ofNat (m + 128) &&& 0x7f).toNat = m ∧ UInt8.ofNat (m + 128) &&& 0x80 ≠ 0 := by
  have hall : ∀ m : Fin 128, (UInt8.ofNat m &&& 0x7f).toNat = m ∧ UInt8.ofNat m &&& 0x80 = 0 ∧
      (UInt8.ofNat (m + 128) &&& 0x7f).toNat = m ∧ UInt8.ofNat (m + 128) &&& 0x80 ≠ 0 := by decide
  exact hall ⟨m, h⟩

theorem or_shiftLeft {v index : Nat} (h : v < 2 ^ (7 * index)) (low : Nat) :
    v ||| (low <<< (7 * index)) = v + low * 2 ^ (7 * index) := by
  rw [Nat.or_comm, ← Nat.shiftLeft_add_eq_or_of_lt h, Nat.shiftLeft_eq, Nat.add_comm]

/-- The invariant is that the bytes before `index` gave the number's bits below `7 * index`. -/
theorem reads_uvarintFrom {left : Nat} : ∀ {index v n : Nat}, index + left = 10 → v < 2 ^ (7 * index) →
    n < 2 ^ (64 - 7 * index) → 0 < left →
    Reads (takeUvarintFrom index v left) (putUvarint n) (v + n * 2 ^ (7 * index)) := by
  induction left with
  | zero => exact fun _ _ _ h => absurd h (lt_irrefl 0)
  | succ left ih =>
    intro index v n hi hv hn _
    have htop : index = 9 → n ≤ 1 := by
      rintro rfl
      exact Nat.le_of_lt_succ hn
    rw [putUvarint]
    split
    · rename_i hlt
      obtain ⟨hlow, hbit, -⟩ := low_bits n hlt
      refine (byte (UInt8.ofNat n)).bind_nil ?_
      rw [hlow, if_neg (by omega), if_pos hbit, or_shiftLeft hv]
      exact pure _
    · obtain ⟨-, -, hlow, hbit⟩ := low_bits (n % 128) (Nat.mod_lt n (by decide))
      have hpow : 2 ^ (7 * (index + 1)) = 128 * 2 ^ (7 * index) := by
        ring
      have hnext : Reads (takeUvarintFrom (index + 1) (v + n % 128 * 2 ^ (7 * index)) left)
          (putUvarint (n / 128)) (v + n * 2 ^ (7 * index)) := by
        have hsum : v + n * 2 ^ (7 * index) =
            v + n % 128 * 2 ^ (7 * index) + n / 128 * 2 ^ (7 * (index + 1)) := by
          conv_lhs => rw [← Nat.mod_add_div n 128]
          ring
        rw [hsum]
        refine ih (by omega) ?_ ?_ (by omega)
        · have hmod : n % 128 ≤ 127 := Nat.le_of_lt_succ (Nat.mod_lt n (by decide))
          have := Nat.mul_le_mul_right (2 ^ (7 * index)) hmod
          omega
        · have : 2 ^ (64 - 7 * index) = 128 * 2 ^ (64 - 7 * (index + 1)) := by
            rw [show 64 - 7 * index = 64 - 7 * (index + 1) + 7 by omega]
            ring
          omega
      refine (byte (UInt8.ofNat (n % 128 + 128))).bind ?_
      rw [hlow, if_neg (by omega), if_neg hbit, or_shiftLeft hv]
      exact hnext

theorem reads_uvarint {n : Nat} (h : n < 2 ^ 64) : Reads takeUvarint (putUvarint n) n := by
  have hread : Reads (takeUvarintFrom 0 0 10) (putUvarint n) (0 + n * 2 ^ (7 * 0)) :=
    reads_uvarintFrom rfl (by decide) h (by decide)
  rwa [Nat.zero_add, Nat.mul_zero, pow_zero, Nat.mul_one] at hread

theorem reads_name {name : Bytes} (h : name.length < 2 ^ 64) : Reads takeName (putName name) name :=
  (reads_uvarint h).bind (take name)

theorem reads_image (image : Image) : Reads takeImage (putImage image) image := by
  cases image with
  | keep => exact (byte 0).bind_nil (pure _)
  | toState state =>
    cases state with
    | absent => exact (byte 1).bind_nil (pure _)
    | ahead => exact (byte 2).bind_nil (pure _)
    | live priority =>
      refine (byte 3).bind ((reads_uvarint priority.toNat_lt).bind_nil ?_)
      rw [UInt64.ofNat_toNat]
      exact pure _

theorem reads_func {f : Func} (h : f.canonical = f) : Reads takeFunc (putFunc f) f := by
  rw [putFunc, append_assoc]
  refine (reads_image f.absent).bind ((reads_image f.ahead).bind ((reads_image f.live).bind_nil ?_))
  exact h.symm ▸ pure _

variable {α : Type} {entry : Reader α} {write : α → Bytes} {es : List (Bytes × α)}

theorem reads_listFrom (hentry : ∀ e ∈ es, e.1.length < 2 ^ 64 ∧ Reads entry (write e.2) e.2) (hsort : Sorted es)
    {last : Option Bytes} (hl : ∀ name ∈ last, ∀ e ∈ es, name < e.1) :
    Reads (listFrom entry es.length last) (es.flatMap fun e => putName e.1 ++ write e.2) es := by
  induction es generalizing last with
  | nil => exact pure []
  | cons e es ih =>
    obtain ⟨hfirst, hsort⟩ := pairwise_cons.mp hsort
    obtain ⟨hn, hread⟩ := hentry e mem_cons_self
    have hrest : Reads (listFrom entry es.length (some e.1)) (es.flatMap fun e => putName e.1 ++ write e.2)
        es :=
      ih (fun e' he => hentry e' (mem_cons_of_mem e he)) hsort
        fun name hn e' he => some.inj hn ▸ hfirst e' he
    have hrises : ¬ last.any (fun name => decide (e.1 ≤ name)) = true := by
      rw [Option.any_eq_true]
      rintro ⟨name, hn, hle⟩
      exact not_lt.mpr (of_decide_eq_true hle) (hl name hn e mem_cons_self)
    rw [flatMap_cons, append_assoc]
    refine (reads_name hn).bind ?_
    rw [if_neg hrises]
    exact hread.bind (hrest.bind_nil (pure _))

theorem list_eq_some (he : ∀ e ∈ es, e.1.length < 2 ^ 64 ∧ Reads entry (write e.2) e.2) (hsort : Sorted es)
    (hcnt : es.length < 2 ^ 64) :
    list entry (putUvarint es.length ++ es.flatMap fun e => putName e.1 ++ write e.2) = some es :=
  all ((reads_uvarint hcnt).bind
    (reads_listFrom he hsort fun name hn => absurd hn (not_mem_none name)))

/-- What a list reader reads is in order, and each entry is one that the entry reader reads. -/
theorem listFrom_eq_some {P : α → Prop} (hentry : ∀ input a rest, entry input = some (a, rest) → P a) :
    ∀ {count : Nat} {last : Option Bytes} {input rest : Bytes} {es : List (Bytes × α)},
      listFrom entry count last input = some (es, rest) →
        Sorted es ∧ (∀ name ∈ last, ∀ e ∈ es, name < e.1) ∧ ∀ e ∈ es, P e.2 := by
  intro count
  induction count with
  | zero =>
    intro last input rest es h
    obtain ⟨rfl, -⟩ := pure_eq_some.mp h
    exact ⟨Pairwise.nil, fun _ _ _ he => absurd he not_mem_nil, fun _ he => absurd he not_mem_nil⟩
  | succ count ih =>
    intro last input rest es h
    obtain ⟨name, afterName, -, h⟩ := bind_eq_some.mp h
    split at h
    · cases h
    · rename_i hrises
      obtain ⟨first, afterFirst, hf, h⟩ := bind_eq_some.mp h
      obtain ⟨more, afterMore, hm, h⟩ := bind_eq_some.mp h
      obtain ⟨rfl, -⟩ := pure_eq_some.mp h
      obtain ⟨hsort, hafter, hall⟩ := ih hm
      have hlater : ∀ e ∈ more, name < e.1 := hafter name rfl
      refine ⟨pairwise_cons.mpr ⟨hlater, hsort⟩, fun before hb => ?_,
        forall_mem_cons.mpr ⟨hentry _ _ _ hf, hall⟩⟩
      have hlt : before < name := by
        refine not_le.mp fun hle => hrises ?_
        exact any_eq_true _ _ |>.mpr ⟨before, hb, decide_eq_true hle⟩
      exact forall_mem_cons.mpr ⟨hlt, fun e he => hlt.trans (hlater e he)⟩

theorem list_spec {P : α → Prop} (he : ∀ input a rest, entry input = some (a, rest) → P a)
    {body : Bytes} (h : list entry body = some es) :
    Sorted es ∧ ∀ e ∈ es, P e.2 := by
  obtain ⟨count, rest, -, h⟩ := bind_eq_some.mp (all_eq_some.mp h)
  obtain ⟨hsort, -, hall⟩ := listFrom_eq_some he h
  exact ⟨hsort, hall⟩

theorem operandEntries_spec {body : Bytes} {es : List (Bytes × Func)} (h : operandEntries body = some es) :
    Sorted es ∧ ∀ e ∈ es, e.2.canonical = e.2 := by
  refine list_spec (P := fun f => f.canonical = f) (fun input f rest hf => ?_) h
  obtain ⟨absent, _, -, hf⟩ := bind_eq_some.mp hf
  obtain ⟨ahead, _, -, hf⟩ := bind_eq_some.mp hf
  obtain ⟨live, _, -, hf⟩ := bind_eq_some.mp hf
  rw [← (pure_eq_some.mp hf).1, Func.canonical_canonical]

theorem stateEntries_spec {body : Bytes} {es : List (Bytes × State)} (h : stateEntries body = some es) :
    Sorted es ∧ ∀ e ∈ es, e.2 ≠ .absent := by
  refine list_spec (P := fun state => state ≠ .absent) (fun input state rest hs => ?_) h
  obtain ⟨tag, _, -, hs⟩ := bind_eq_some.mp hs
  split at hs
  · rw [← (pure_eq_some.mp hs).1]
    decide
  · obtain ⟨priority, _, -, hs⟩ := bind_eq_some.mp hs
    rw [← (pure_eq_some.mp hs).1]
    exact State.noConfusion
  · cases hs

@[simp] theorem body_encode (kind : UInt8) (v : Bytes) : body kind (encode kind v) = some v := by
  simp [body, decode, encode, header, magic, dropPrefix?]

theorem length_le_flatMap {items : List α} (h : ∀ a ∈ items, 0 < (write a).length) :
    items.length ≤ (items.flatMap write).length ∧ ∀ a ∈ items, (write a).length ≤ (items.flatMap write).length := by
  induction items with
  | nil => exact ⟨le_refl 0, fun _ ha => absurd ha not_mem_nil⟩
  | cons a items ih =>
    obtain ⟨hcnt, hall⟩ := ih fun b hb => h b (mem_cons_of_mem a hb)
    have := h a mem_cons_self
    rw [flatMap_cons, length_append, length_cons]
    refine ⟨by omega, forall_mem_cons.mpr ⟨by omega, fun b hb => ?_⟩⟩
    have := hall b hb
    omega

theorem operandEntries_encode {es : List (Bytes × Func)} (hsort : Sorted es)
    (hc : ∀ e ∈ es, e.2.canonical = e.2) (hfits : (encodeOperand es).length < 2 ^ 63) :
    (body headSet (encodeOperand es)).bind operandEntries = some es := by
  -- Each entry has a byte at least, and its name's bytes.
  have hname : ∀ e : Bytes × Func, e.1.length < (putName e.1 ++ putFunc e.2).length := by
    intro e
    have hfunc : 0 < (putFunc e.2).length := by
      rw [putFunc, length_append]
      have : 0 < (putImage e.2.live).length := by
        cases e.2.live with
        | keep => exact Nat.one_pos
        | toState state => cases state <;> simp [putImage]
      omega
    rw [length_append, putName, length_append]
    omega
  obtain ⟨hcnt, hall⟩ := length_le_flatMap fun e (_ : e ∈ es) => Nat.zero_lt_of_lt (hname e)
  rw [encodeOperand, encode, length_append, length_append] at hfits
  change _ + (_ + (es.flatMap fun e => putName e.1 ++ putFunc e.2).length) < _ at hfits
  refine list_eq_some (fun e he => ⟨?_, reads_func (hc e he)⟩) hsort (by omega)
  have hentry := hall e he
  have := hname e
  omega

theorem stored_applyOperand {names after : Names} {op : Bytes} (h : Stored names)
    (ha : applyOperand names op = some after) : Stored after := by
  obtain ⟨body, -, ha⟩ := bind_eq_some_iff.mp ha
  obtain ⟨es, -, ha⟩ := bind_eq_some_iff.mp ha
  cases ha
  exact stored_foldl h es

theorem fold_spec {a b c : Bytes} (h : fold a b = some c) (hfits : c.length < 2 ^ 63) : ∃ l r,
    (body headSet a).bind operandEntries = some l ∧ (body headSet b).bind operandEntries = some r ∧
      (body headSet c).bind operandEntries = some (foldEntries l r) ∧ Sorted l ∧ Sorted r := by
  obtain ⟨bodyA, hb, h⟩ := bind_eq_some_iff.mp h
  obtain ⟨l, hl, h⟩ := bind_eq_some_iff.mp h
  obtain ⟨bodyB, hbodyB, h⟩ := bind_eq_some_iff.mp h
  obtain ⟨r, hr, h⟩ := bind_eq_some_iff.mp h
  cases h
  obtain ⟨hsortedL, hcanonicalL⟩ := operandEntries_spec hl
  obtain ⟨hsortedR, hcanonicalR⟩ := operandEntries_spec hr
  have hc := forall_mem_walk (P := fun f => f.canonical = f) (fun f g _ _ => Func.canonical_andThen f g)
    hcanonicalL hcanonicalR
  refine ⟨l, r, by rw [hb]; exact hl, by rw [hbodyB]; exact hr, ?_, hsortedL, hsortedR⟩
  exact operandEntries_encode (sorted_foldEntries hsortedL hsortedR)
    (fun e he => hc e (mem_of_mem_filter he)) hfits

theorem applyOperand_fold {a b c : Bytes} (h : fold a b = some c) (hfits : c.length < 2 ^ 63) {names : Names}
    (hstored : Stored names) : (applyOperand names a).bind (applyOperand · b) = applyOperand names c := by
  obtain ⟨l, r, hl, hr, hc, hsortedL, hsortedR⟩ := fold_spec h hfits
  have happly : ∀ {op es}, (body headSet op).bind operandEntries = some es → ∀ names,
      applyOperand names op = some (es.foldl applyEntry names) := by
    intro op es he names
    obtain ⟨body, hb, he⟩ := bind_eq_some_iff.mp he
    change (Option.bind _ fun body => Option.bind _ _) = _
    rw [hb, Option.bind_some, he]
    rfl
  rw [happly hl, bind_some, happly hr, happly hc, foldl_foldEntries hsortedL hsortedR hstored]

end Defra.Merge.HeadSet
