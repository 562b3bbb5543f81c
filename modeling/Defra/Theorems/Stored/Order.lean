import Defra.Theorems.Stored.Cbor
import Defra.Theorems.Stored.Codec
import Defra.Theorems.Stored.Fold

/-! Operands of registers and integer counters apply in any order: a register ends as the highest state of all, a counter as the sum
    of all, and an operand of registers does nothing the second time. -/

namespace Defra.Stored
open Option List

/-! ### Names -/

/-- No two parts have one name. -/
def NamesDiffer (σ : UInt32 → Option (String × ValueKind)) : Prop :=
  ∀ i j x y, σ i = some x → σ j = some y → x.1 = y.1 → i = j

theorem admits_swap {σ α β : UInt32 → Option (String × ValueKind)} (hnames : NamesDiffer α) (hα : Admits σ α)
    (hβ : Admits (both σ α) β) : Admits σ β ∧ Admits (both σ β) α := by
  have hleft : ∀ {τ : UInt32 → Option (String × ValueKind)} {id y}, σ id = some y → both σ τ id = some y := fun h => by
    rw [both, h]
    rfl
  have hright : ∀ {τ : UInt32 → Option (String × ValueKind)} {id}, σ id = none → both σ τ id = τ id := fun h => by
    rw [both, h]
    rfl
  constructor
  · intro id x hx
    refine ⟨fun y hy => (hβ id x hx).1 y (hleft hy), fun hn j y hy => ?_⟩
    cases hαid : α id with
    | none => exact (hβ id x hx).2 ((hright hn).trans hαid) j y (hleft hy)
    | some z =>
      obtain rfl := (hβ id x hx).1 z ((hright hn).trans hαid)
      exact (hα id z hαid).2 hn j y hy
  · intro id x hx
    constructor
    · intro y hy
      rcases or_eq_some_iff.mp hy with hy | ⟨hn, hy⟩
      · exact (hα id x hx).1 y hy
      · exact ((hβ id y hy).1 x ((hright hn).trans hx)).symm
    · intro hn j y hy
      obtain ⟨hσ, hβid⟩ := or_eq_none_iff.mp hn
      rcases or_eq_some_iff.mp hy with hy | ⟨hσj, hy⟩
      · exact (hα id x hx).2 hσ j y hy
      · have hx' : both σ α id = some x := (hright hσ).trans hx
        cases hαj : α j with
        | none => exact ((hβ j y hy).2 ((hright hσj).trans hαj) id x hx').symm
        | some w =>
          obtain rfl := (hβ j y hy).1 w ((hright hσj).trans hαj)
          intro hname
          obtain rfl := hnames j id w x hαj hx hname
          cases hβid.symm.trans hy

theorem admits_both {σ α β γ : UInt32 → Option (String × ValueKind)} (hα : Admits (both σ α) γ) (hβ : Admits (both σ β) γ) :
    Admits (both (both σ α) β) γ := by
  have hn : ∀ {id}, both σ α id = none → both σ β id = β id := fun h => by
    rw [both, (or_eq_none_iff.mp h).1]
    rfl
  intro id x hx
  constructor
  · intro y hy
    rcases or_eq_some_iff.mp hy with hy | ⟨hid, hy⟩
    · exact (hα id x hx).1 y hy
    · exact (hβ id x hx).1 y ((hn hid).trans hy)
  · intro hid j y hy
    obtain ⟨hid, hβid⟩ := or_eq_none_iff.mp hid
    rcases or_eq_some_iff.mp hy with hy | ⟨hj, hy⟩
    · exact (hα id x hx).2 hid j y hy
    · exact (hβ id x hx).2 ((hn hid).trans hβid) j y ((hn hj).trans hy)

theorem admits_again {σ α : UInt32 → Option (String × ValueKind)} (h : Admits σ α) : Admits (both σ α) α := by
  intro id x hx
  refine ⟨fun y hy => ?_, fun hid => absurd (or_eq_none_iff.mp hid).2 (by simp [hx])⟩
  rcases or_eq_some_iff.mp hy with hy | ⟨-, hy⟩
  · exact (h id x hx).1 y hy
  · exact some.inj (hy.symm.trans hx)

namespace StoredDocument

/-- Operands that can be written, of registers and integer counters only. -/
structure Plain (cs : Crdts) (op : StoredDocument) : Prop where
  encodes : ∃ bytes, op.encode cs.cbor = some bytes
  kinds : ∀ p ∈ op.fields, p.2.kind = .lww ∨ p.2.kind = .int64

variable {cs : Crdts} {p : StoredField} {held : Option StoredField} {d r : StoredDocument} {ops : List StoredDocument}

theorem exact_of_plainKind {kind : ValueKind} (h : kind = .lww ∨ kind = .int64) :
    (cs.part kind).Exact cs.cbor kind := by
  rcases h with rfl | rfl
  · exact lwwField_exact cs.cbor
  · exact counterField_exact cs.cbor

variable {o : StoredDocument} {op : StoredDocument} (titlePriority : UInt64) (title : UInt8)

theorem Plain.foldable (h : op.Plain cs) : op.Foldable cs := by
  obtain ⟨bytes, hb⟩ := h.encodes
  obtain ⟨hnames, hv⟩ := decode_spec (decode_encode hb)
  exact ⟨hnames, fun p hp => exact_of_plainKind (h.kinds p hp), hv⟩

theorem Foldable.namesDiffer (h : op.Foldable cs) : NamesDiffer op.shape := by
  intro i j x y hx hy hname
  obtain ⟨a, ha, rfl⟩ := map_eq_some_iff.mp hx
  obtain ⟨b, hb, rfl⟩ := map_eq_some_iff.mp hy
  exact congrArg Prod.fst (inj_on_of_nodup_map h.names (part_eq_some.mp ha) (part_eq_some.mp hb) hname)

/-! ### Two operands -/

theorem landedOn_lww (hk : p.kind = .lww) (held : Option StoredField) :
    landedOn cs p held = some ((held.getD p.start).withRank (max (held.getD p.start).rank p.rank)) := by
  rw [landedOn, hk, FieldCrdt.land, show (cs.part .lww).merged _ p = _ from lwwField_merged cs.cbor _ p]
  rfl

theorem length_of_valid (hk : p.kind = .int64) (hv : p.isValid cs.cbor = true) : p.value.length = 8 := by
  simpa [StoredField.isValid, hk, nativePart, counterField] using hv

theorem landedOn_int64 (hk : p.kind = .int64) (hv : p.isValid cs.cbor = true)
    (hh : ∀ st ∈ held, st.kind = .int64) :
    landedOn cs p held =
      if (held.getD p.start).value = [] ∨ (held.getD p.start).value.length = 8 then some ((held.getD p.start).plus p) else none := by
  have hs : (held.getD p.start).kind = .int64 := by
    cases held with
    | none => exact hk
    | some st => exact hh st rfl
  rw [← counterField_merged hs (length_of_valid hk hv), landedOn, hk]
  exact bind_fun_some _

theorem plus_right_comm (st a b : StoredField) : (st.plus a).plus b = (st.plus b).plus a := by
  simp only [StoredField.plus, Wire.ofBe_toBe_mod, max_right_comm _ b.priority, StoredField.mk.injEq, true_and]
  congr 1
  omega

theorem landedOn_comm {a b : StoredField} (hn : a.name = b.name) (hk : a.kind = b.kind)
    (hplain : a.kind = .lww ∨ a.kind = .int64) (ha : a.isValid cs.cbor = true) (hb : b.isValid cs.cbor = true)
    (hh : ∀ st ∈ held, st.kind = a.kind) :
    ((landedOn cs a held).bind fun st => landedOn cs b (some st)) =
      (landedOn cs b held).bind fun st => landedOn cs a (some st) := by
  have hstart : a.start = b.start := by rw [StoredField.start, StoredField.start, hn, hk]
  rcases hplain with hl | hint
  · have hl' := hk.symm.trans hl
    simp only [landedOn_lww hl, landedOn_lww hl', bind_some, getD_some, hstart]
    exact congrArg some (congrArg (held.getD b.start).withRank (max_right_comm (held.getD b.start).rank a.rank b.rank))
  · have hint' := hk.symm.trans hint
    rw [hint] at hh
    have hnext : ∀ st p : StoredField, st.kind = .int64 → ∀ s ∈ some (st.plus p), s.kind = .int64 := by
      rintro st p hs s ⟨⟩
      exact hs
    have hs : (held.getD b.start).kind = .int64 := by
      cases held with
      | none => exact hint'
      | some st => exact hh st rfl
    rw [landedOn_int64 hint ha hh, landedOn_int64 hint' hb hh, hstart]
    split
    · rw [bind_some, bind_some, landedOn_int64 hint' hb (hnext _ a hs),
        landedOn_int64 hint ha (hnext _ b hs), getD_some, getD_some, if_pos (.inr (length_plus ..)),
        if_pos (.inr (length_plus ..)), plus_right_comm]
    · rfl

/-- Two operands apply in either order. -/
theorem apply_swap {a b m : StoredDocument} (ha : a.Plain cs) (hb : b.Plain cs) (hm : d.apply cs a = some m)
    (hr : m.apply cs b = some r) : ∃ m', d.apply cs b = some m' ∧ m'.apply cs a = some r := by
  obtain ⟨hadm, hparts, hother⟩ := (apply_eq_some ha.foldable).mp hm
  obtain ⟨hadm', hparts', hother'⟩ := (apply_eq_some hb.foldable).mp hr
  rw [shape_apply ha.foldable hm] at hadm'
  obtain ⟨hswap, hswap'⟩ := admits_swap ha.foldable.namesDiffer hadm hadm'
  have hshape : ∀ {d : StoredDocument} {id field}, d.part id = some field → d.shape id = some (field.name, field.kind) :=
    fun h => by rw [shape, h]; rfl
  -- Where both have a part, it is of one name and kind, and both landed on what the document has.
  have hboth : ∀ id fa fb, a.part id = some fa → b.part id = some fb →
      ((landedOn cs fb (d.part id)).bind fun st => landedOn cs fa (some st)) = r.part id := by
    intro id fa fb hfa hfb
    have hpa := part_eq_some.mp hfa
    have hpb := part_eq_some.mp hfb
    obtain ⟨hn, hk⟩ : fa.name = fb.name ∧ fa.kind = fb.kind := by
      have hsame := (hswap' id _ (hshape hfa)).1
      cases hd : d.shape id with
      | none => exact (Prod.mk.inj (hsame _ (by rw [both, hd]; exact hshape hfb))).imp Eq.symm Eq.symm
      | some y =>
        have hya := hsame y (by rw [both, hd]; rfl)
        exact Prod.mk.inj (hya.symm.trans ((hswap id _ (hshape hfb)).1 y hd))
    have hheld : ∀ st ∈ d.part id, st.kind = fa.kind := fun st hs =>
      (Prod.mk.inj ((hadm id _ (hshape hfa)).1 _ (hshape hs))).2
    rw [← landedOn_comm hn hk (ha.kinds _ hpa) (ha.foldable.valid _ hpa) (hb.foldable.valid _ hpb) hheld]
    obtain ⟨hsome, hland⟩ := hparts _ hpa
    obtain ⟨st, hs⟩ := isSome_iff_exists.mp hsome
    rw [show landedOn cs fa (d.part id) = some st from hland.trans hs, ← (hparts' _ hpb).2]
    exact congrArg (landedOn cs fb) hs.symm
  have hsomeR : ∀ p ∈ a.fields, (r.part p.1).isSome := by
    intro p hp
    cases hb' : b.part p.1 with
    | none => rw [hother' p.1 hb']; exact (hparts p hp).1
    | some fb => exact (hparts' _ (part_eq_some.mp hb')).1
  have hland : ∀ p ∈ b.fields, (landedOn cs p.2 (d.part p.1)).isSome := by
    intro p hp
    cases ha' : a.part p.1 with
    | none =>
      rw [← hother p.1 ha', (hparts' p hp).2]
      exact (hparts' p hp).1
    | some fa =>
      have hr := hboth p.1 fa p.2 ha' (part_eq_some.mpr hp)
      have hsome := (hparts' p hp).1
      rw [← hr] at hsome
      exact isSome_of_isSome_bind hsome
  obtain ⟨m', hm'⟩ := exists_apply hb.foldable hswap hland
  obtain ⟨-, hparts'', hother''⟩ := (apply_eq_some hb.foldable).mp hm'
  refine ⟨m', hm', (apply_eq_some ha.foldable).mpr ⟨?_, fun p hp => ⟨hsomeR p hp, ?_⟩, fun id hid => ?_⟩⟩
  · rw [shape_apply hb.foldable hm']
    exact hswap'
  · cases hb' : b.part p.1 with
    | none => rw [hother'' p.1 hb', (hparts p hp).2, hother' p.1 hb']
    | some fb =>
      have hpb := part_eq_some.mp hb'
      obtain ⟨st, hs⟩ := isSome_iff_exists.mp (hparts'' _ hpb).1
      rw [← hboth p.1 p.2 fb (part_eq_some.mpr hp) hb', show landedOn cs fb (d.part p.1) = some st from
        (hparts'' _ hpb).2.trans hs]
      exact congrArg (landedOn cs p.2) hs
  · cases hb' : b.part id with
    | none => rw [hother' id hb', hother id hid, hother'' id hb']
    | some fb =>
      have hpb := part_eq_some.mp hb'
      rw [← (hparts' _ hpb).2, ← (hparts'' _ hpb).2]
      exact congrArg (landedOn cs fb) (hother id hid)

/-- The operands applied one after the other. -/
def applyAll (cs : Crdts) (document : StoredDocument) (operands : List StoredDocument) : Option StoredDocument :=
  operands.foldlM (apply cs) document

theorem applyAll_perm {ops' : List StoredDocument} (ho : ∀ o ∈ ops, o.Plain cs)
    (hperm : ops.Perm ops') : applyAll cs d ops = applyAll cs d ops' := by
  have hf : ∀ (ops : List StoredDocument) (d : Option StoredDocument),
      d.bind (applyAll cs · ops) = ops.foldl (fun d o => d.bind (apply cs · o)) d := by
    intro ops
    induction ops with
    | nil => exact fun d => bind_fun_some d
    | cons o ops ih =>
      intro d
      rw [foldl_cons, ← ih, bind_assoc]
      rfl
  have hswap : ∀ a ∈ ops, ∀ b ∈ ops, ∀ d : Option StoredDocument,
      (d.bind (apply cs · a)).bind (apply cs · b) = (d.bind (apply cs · b)).bind (apply cs · a) := by
    intro a ha b hb d
    have hle : ∀ {a b r}, a ∈ ops → b ∈ ops → (d.bind (apply cs · a)).bind (apply cs · b) = some r →
        (d.bind (apply cs · b)).bind (apply cs · a) = some r := by
      intro a b r ha hb h
      obtain ⟨m, hm, hr⟩ := bind_eq_some_iff.mp h
      obtain ⟨d, rfl, hm⟩ := bind_eq_some_iff.mp hm
      obtain ⟨m', hm', hr'⟩ := apply_swap (ho a ha) (ho b hb) hm hr
      rw [bind_some, hm', bind_some, hr']
    exact ext fun r => ⟨hle ha hb, hle hb ha⟩
  have h : ops.foldl (fun d o => d.bind (apply cs · o)) (some d) = ops'.foldl (fun d o => d.bind (apply cs · o)) (some d) :=
    hperm.foldl_eq' hswap (some d)
  rw [← hf, ← hf] at h
  exact h

/-! ### Operands that apply -/

/-- The operand's parts are of the names and kinds that the document has, or new to it, and each counter of the document that
    one of them adds to has eight bytes, or none. -/
structure Takes (document op : StoredDocument) : Prop where
  admits : Admits document.shape op.shape
  counters : ∀ p ∈ op.fields, p.2.kind = .int64 → ∀ st ∈ document.part p.1, st.value = [] ∨ st.value.length = 8

theorem isSome_apply_iff (ho : o.Plain cs) : (d.apply cs o).isSome ↔ d.Takes o := by
  have hheld : Admits d.shape o.shape → ∀ p ∈ o.fields, p.2.kind = .int64 → ∀ st ∈ d.part p.1, st.kind = .int64 :=
    fun h p hp hk st hs => by
      have := (admits_iff.mp h p hp).1 _ (by rw [shape, mem_def.mp hs]; rfl)
      exact (Prod.mk.inj this).2.trans hk
  constructor
  · intro h
    obtain ⟨r, hr⟩ := isSome_iff_exists.mp h
    obtain ⟨hadm, hparts, -⟩ := (apply_eq_some ho.foldable).mp hr
    refine ⟨hadm, fun p hp hk st hs => ?_⟩
    obtain ⟨hsome, hland⟩ := hparts p hp
    rw [← hland, landedOn_int64 hk (ho.foldable.valid p hp) (hheld hadm p hp hk), mem_def.mp hs, getD_some] at hsome
    by_contra hvalue
    rw [if_neg hvalue] at hsome
    cases hsome
  · rintro ⟨hadm, hcounters⟩
    obtain ⟨r, hr⟩ := exists_apply ho.foldable hadm fun p hp => by
      rcases ho.kinds p hp with hk | hk
      · rw [landedOn_lww hk]
        rfl
      · rw [landedOn_int64 hk (ho.foldable.valid p hp) (hheld hadm p hp hk), if_pos]
        · rfl
        · cases hpart : d.part p.1 with
          | none => exact .inl rfl
          | some st => exact hcounters p hp hk st hpart
    exact isSome_iff_exists.mpr ⟨r, hr⟩

/-- The document takes each operand, and each of two takes the other after it. -/
structure TakesAll (document : StoredDocument) (operands : List StoredDocument) : Prop where
  takes : ∀ o ∈ operands, document.Takes o
  pairs : ∀ o ∈ operands, ∀ o' ∈ operands, Admits (both document.shape o.shape) o'.shape

theorem TakesAll.of_apply {o m : StoredDocument} (ho : o.Plain cs) (hm : d.apply cs o = some m) (h : d.TakesAll (o :: ops)) :
    m.TakesAll ops := by
  have hshape := shape_apply ho.foldable hm
  obtain ⟨hadm, hparts, hother⟩ := (apply_eq_some ho.foldable).mp hm
  constructor
  · intro o' ho'
    have hpair := h.pairs o mem_cons_self o' (mem_cons_of_mem _ ho')
    refine ⟨hshape ▸ hpair, fun p hp hk st hs => ?_⟩
    cases hid : o.part p.1 with
    | none =>
      rw [hother p.1 hid] at hs
      exact (h.takes o' (mem_cons_of_mem _ ho')).counters p hp hk st hs
    | some field =>
      -- The operand that came first added to the counter.
      have hf := part_eq_some.mp hid
      have hx : o.shape p.1 = some (field.name, field.kind) := by rw [shape, hid]; rfl
      have hy : both d.shape o.shape p.1 = some (st.name, st.kind) := by rw [← hshape, shape, mem_def.mp hs]; rfl
      have hp' : o'.shape p.1 = some (p.2.name, p.2.kind) := by rw [shape, part_eq_some.mpr hp]; rfl
      have hk' : field.kind = .int64 :=
        (Prod.mk.inj ((admits_again hadm _ _ hx).1 _ hy)).2.symm.trans ((Prod.mk.inj ((hpair _ _ hp').1 _ hy)).2.trans hk)
      have hland := (hparts _ hf).2.trans (mem_def.mp hs)
      have hh : ∀ st ∈ d.part p.1, st.kind = .int64 := fun held hh =>
        (Prod.mk.inj ((hadm _ _ hx).1 _ (by rw [shape, mem_def.mp hh]; rfl))).2.trans hk'
      rw [landedOn_int64 hk' (ho.foldable.valid _ hf) hh] at hland
      obtain ⟨-, hland⟩ := ite_none_right_eq_some.mp hland
      cases hland
      exact .inr (length_plus ..)
  · intro a ha b hb
    rw [hshape]
    exact admits_both (h.pairs o mem_cons_self b (mem_cons_of_mem _ hb))
      (h.pairs a (mem_cons_of_mem _ ha) b (mem_cons_of_mem _ hb))

/-- Any operand can come first, and any other second. -/
theorem isSome_applyAll_iff (hops : ∀ o ∈ ops, o.Plain cs) : (applyAll cs d ops).isSome ↔ d.TakesAll ops := by
  constructor
  · intro h
    have hfirst : ∀ {d : StoredDocument} {o ops}, (applyAll cs d (o :: ops)).isSome →
        ∃ m, d.apply cs o = some m ∧ (applyAll cs m ops).isSome := fun h => by
      obtain ⟨r, hr⟩ := isSome_iff_exists.mp h
      obtain ⟨m, hm, hr⟩ := bind_eq_some_iff.mp hr
      exact ⟨m, hm, isSome_iff_exists.mpr ⟨r, hr⟩⟩
    have ht : ∀ o ∈ ops, d.Takes o := by
      intro o ho
      obtain ⟨before, after, hsp⟩ := append_of_mem ho
      rw [applyAll_perm hops (hsp ▸ perm_middle)] at h
      obtain ⟨m, hm, -⟩ := hfirst h
      exact (isSome_apply_iff (hops o ho)).mp (isSome_iff_exists.mpr ⟨m, hm⟩)
    refine ⟨ht, fun o ho o' ho' => ?_⟩
    obtain ⟨before, after, hsp⟩ := append_of_mem ho
    have hmem : o' = o ∨ o' ∈ before ++ after := by
      rw [hsp] at ho'
      simpa [or_left_comm] using ho'
    rcases hmem with rfl | hmem
    · exact admits_again (ht _ ho).admits
    · obtain ⟨before', after', hsp'⟩ := append_of_mem hmem
      have hperm : ops.Perm (o :: o' :: (before' ++ after')) := by
        rw [hsp]
        exact perm_middle.trans (.cons o (hsp' ▸ perm_middle))
      rw [applyAll_perm hops hperm] at h
      obtain ⟨m, hm, h⟩ := hfirst h
      obtain ⟨m', hm', -⟩ := hfirst h
      rw [← shape_apply (hops o ho).foldable hm]
      exact ((isSome_apply_iff (hops o' ho')).mp (isSome_iff_exists.mpr ⟨m', hm'⟩)).admits
  · intro h
    induction ops generalizing d with
    | nil => rfl
    | cons o ops ih =>
      obtain ⟨ho, hops⟩ := forall_mem_cons.mp hops
      obtain ⟨m, hm⟩ := isSome_iff_exists.mp ((isSome_apply_iff ho).mpr (h.takes o mem_cons_self))
      show ((d.apply cs o).bind (applyAll cs · ops)).isSome
      rw [hm]
      exact ih hops (h.of_apply ho hm)

/-! ### What all operands leave -/

/-- The parts that the operands have for a field. -/
def new (operands : List StoredDocument) (id : UInt32) : List StoredField := operands.filterMap (·.part id)

/-- `field` is what `states` merge to: a register is the highest of them, a counter their sum. -/
structure MergeOf (states : List StoredField) (field : StoredField) : Prop where
  shape : ∀ st ∈ states, st.name = field.name ∧ st.kind = field.kind
  register : field.kind = .lww → (∃ st ∈ states, field.rank = st.rank) ∧ ∀ st ∈ states, st.rank ≤ field.rank
  counter : field.kind = .int64 →
    field.value = Wire.toBe 8 ((states.map fun st => Wire.ofBe st.value).sum % 2 ^ 64) ∧
      (∃ st ∈ states, field.priority = st.priority) ∧ ∀ st ∈ states, st.priority ≤ field.priority

theorem mergeOf_register (hk : p.kind = .lww) (hh : ∀ st ∈ held, st.name = p.name ∧ st.kind = p.kind) :
    MergeOf (held.toList ++ [p]) ((held.getD p.start).withRank (max (held.getD p.start).rank p.rank)) := by
  cases held with
  | none =>
    rw [toList_none, getD_none, max_eq_right (rank_start_le p p.rank)]
    refine ⟨forall_mem_singleton.mpr ⟨rfl, rfl⟩, fun _ => ?_, fun h => absurd (hk.symm.trans h) (by decide)⟩
    exact ⟨⟨p, mem_singleton_self p, rfl⟩, forall_mem_singleton.mpr le_rfl⟩
  | some st =>
    obtain ⟨hn, hs⟩ := hh st rfl
    refine ⟨?_, fun _ => ⟨?_, ?_⟩, fun h => absurd ((hs.trans hk).symm.trans h) (by decide)⟩
    · exact forall_mem_cons.mpr ⟨⟨rfl, rfl⟩, forall_mem_singleton.mpr ⟨hn.symm, hs.symm⟩⟩
    · rcases max_choice st.rank p.rank with h | h
      · exact ⟨st, mem_cons_self, h⟩
      · exact ⟨p, mem_cons_of_mem _ (mem_singleton_self p), h⟩
    · exact forall_mem_cons.mpr ⟨le_max_left .., forall_mem_singleton.mpr (le_max_right ..)⟩

theorem mergeOf_counter (hk : p.kind = .int64) (hh : ∀ st ∈ held, st.name = p.name ∧ st.kind = p.kind) :
    MergeOf (held.toList ++ [p]) ((held.getD p.start).plus p) := by
  cases held with
  | none =>
    rw [toList_none, nil_append]
    refine ⟨forall_mem_singleton.mpr ⟨rfl, rfl⟩, fun h => absurd (hk.symm.trans h) (by decide), fun _ => ⟨?_, ?_⟩⟩
    · show Wire.toBe 8 ((0 + Wire.ofBe p.value) % 2 ^ 64) = _
      rw [Nat.zero_add, map_singleton, sum_singleton]
    · exact ⟨⟨p, mem_singleton_self p, rfl⟩, forall_mem_singleton.mpr le_rfl⟩
  | some st =>
    obtain ⟨hn, hs⟩ := hh st rfl
    rw [toList_some]
    refine ⟨?_, fun h => absurd ((hs.trans hk).symm.trans h) (by decide), fun _ => ⟨?_, ?_, ?_⟩⟩
    · exact forall_mem_cons.mpr ⟨⟨rfl, rfl⟩, forall_mem_singleton.mpr ⟨hn.symm, hs.symm⟩⟩
    · rfl
    · rcases max_choice st.priority p.priority with h | h
      · exact ⟨st, mem_cons_self, h⟩
      · exact ⟨p, mem_cons_of_mem _ (mem_singleton_self p), h⟩
    · exact forall_mem_cons.mpr ⟨le_max_left .., forall_mem_singleton.mpr (le_max_right ..)⟩

theorem mergeOf_landedOn (hplain : p.kind = .lww ∨ p.kind = .int64) (hv : p.isValid cs.cbor = true)
    (hh : ∀ st ∈ held, st.name = p.name ∧ st.kind = p.kind) {field : StoredField}
    (h : landedOn cs p held = some field) : MergeOf (held.toList ++ [p]) field := by
  rcases hplain with hl | hint
  · rw [landedOn_lww hl] at h
    cases h
    exact mergeOf_register hl hh
  · rw [landedOn_int64 hint hv fun st hs => (hh st hs).2.trans hint] at h
    obtain ⟨-, h⟩ := ite_none_right_eq_some.mp h
    cases h
    exact mergeOf_counter hint hh

theorem MergeOf.append {first rest : List StoredField} {field result : StoredField} (hfirst : MergeOf first field)
    (hr : MergeOf (field :: rest) result) : MergeOf (first ++ rest) result := by
  obtain ⟨⟨hname, hkind⟩, hshape⟩ := forall_mem_cons.mp hr.shape
  refine ⟨?_, fun hlww => ?_, fun hint => ?_⟩
  · refine forall_mem_append.mpr ⟨fun st hstate => ?_, hshape⟩
    obtain ⟨hn, hk⟩ := hfirst.shape st hstate
    exact ⟨hn.trans hname, hk.trans hkind⟩
  · obtain ⟨⟨st, hstate, hrank⟩, hle⟩ := hr.register hlww
    obtain ⟨⟨state', hs', hrank'⟩, hle'⟩ := hfirst.register (hkind.trans hlww)
    obtain ⟨hf, hle⟩ := forall_mem_cons.mp hle
    constructor
    · rcases mem_cons.mp hstate with rfl | hstate
      · exact ⟨state', mem_append_left _ hs', hrank.trans hrank'⟩
      · exact ⟨st, mem_append_right _ hstate, hrank⟩
    · exact forall_mem_append.mpr ⟨fun s hs => (hle' s hs).trans hf, hle⟩
  · obtain ⟨hvalue, ⟨st, hstate, hprio⟩, hle⟩ := hr.counter hint
    obtain ⟨hvalue', ⟨state', hs', hprio'⟩, hle'⟩ := hfirst.counter (hkind.trans hint)
    obtain ⟨hf, hle⟩ := forall_mem_cons.mp hle
    refine ⟨?_, ?_, forall_mem_append.mpr ⟨fun s hs => (hle' s hs).trans hf, hle⟩⟩
    · rw [hvalue, map_cons, sum_cons, hvalue', Wire.ofBe_toBe_mod, map_append, sum_append]
      congr 1
      omega
    · rcases mem_cons.mp hstate with rfl | hstate
      · exact ⟨state', mem_append_left _ hs', hprio.trans hprio'⟩
      · exact ⟨st, mem_append_right _ hstate, hprio⟩

/-- After all operands, each part is the merge of the parts they have for it. -/
theorem applyAll_parts (hops : ∀ o ∈ ops, o.Plain cs) (h : applyAll cs d ops = some r) (id : UInt32) :
    (new ops id = [] ∧ r.part id = d.part id) ∨
      ∃ field, r.part id = some field ∧ MergeOf ((d.part id).toList ++ new ops id) field := by
  induction ops generalizing d with
  | nil =>
    cases h
    exact .inl ⟨rfl, rfl⟩
  | cons o ops ih =>
    obtain ⟨ho, hops⟩ := forall_mem_cons.mp hops
    obtain ⟨m, hm, h⟩ := bind_eq_some_iff.mp (show (d.apply cs o).bind (applyAll cs · ops) = some r from h)
    obtain ⟨hadm, hparts, hother⟩ := (apply_eq_some ho.foldable).mp hm
    cases hid : o.part id with
    | none =>
      have hi : new (o :: ops) id = new ops id := filterMap_cons_none hid
      rw [hi, ← hother id hid]
      exact ih hops h
    | some p =>
      have hi : new (o :: ops) id = p :: new ops id := filterMap_cons_some hid
      have hp := part_eq_some.mp hid
      have hheld : ∀ st ∈ d.part id, st.name = p.name ∧ st.kind = p.kind := fun st hs =>
        Prod.mk.inj ((admits_iff.mp hadm _ hp).1 _ (by rw [StoredDocument.shape, mem_def.mp hs]; rfl))
      obtain ⟨hsome, hland⟩ := hparts _ hp
      obtain ⟨field, hf⟩ := isSome_iff_exists.mp hsome
      have hmerge := mergeOf_landedOn (ho.kinds _ hp) (ho.foldable.valid _ hp) hheld (hland.trans hf)
      rw [hi, append_cons]
      rcases ih hops h with ⟨hn, hpart⟩ | ⟨result, hr, hrest⟩
      · rw [hn, append_nil]
        exact .inr ⟨field, hpart.trans hf, hmerge⟩
      · rw [show m.part id = some field from hf] at hrest
        exact .inr ⟨result, hr, hmerge.append hrest⟩

theorem apply_again (hops : ∀ o ∈ ops, o.Plain cs) (h : applyAll cs d ops = some r) (ho : o ∈ ops)
    (hl : ∀ p ∈ o.fields, p.2.kind = .lww) :
    r.apply cs o = some r := by
  -- Each part of the operand is among the states that the part of its ID merged.
  have hmerge : ∀ p ∈ o.fields, ∃ field, r.part p.1 = some field ∧ p.2.name = field.name ∧ p.2.kind = field.kind ∧
      p.2.rank ≤ field.rank := by
    intro p hp
    have hmem : p.2 ∈ new ops p.1 := mem_filterMap.mpr ⟨o, ho, part_eq_some.mpr hp⟩
    rcases applyAll_parts hops h p.1 with ⟨hnone, -⟩ | ⟨field, hf, hmerge⟩
    · rw [hnone] at hmem
      cases hmem
    · obtain ⟨hn, hk⟩ := hmerge.shape p.2 (mem_append_right _ hmem)
      exact ⟨field, hf, hn, hk, (hmerge.register (hk.symm.trans (hl p hp))).2 _ (mem_append_right _ hmem)⟩
  refine (apply_eq_some (hops o ho).foldable).mpr ⟨admits_iff.mpr fun p hp => ?_, fun p hp => ?_, fun _ _ => rfl⟩
  · obtain ⟨field, hf, hn, hk, -⟩ := hmerge p hp
    have hs : r.shape p.1 = some (p.2.name, p.2.kind) := by rw [shape, hf, hn, hk]; rfl
    exact ⟨fun y hy => some.inj (hy.symm.trans hs), fun hnone => by cases hs.symm.trans hnone⟩
  · obtain ⟨field, hf, -, -, hr⟩ := hmerge p hp
    rw [hf, landedOn_lww (hl p hp), getD_some, max_eq_left hr]
    exact ⟨rfl, rfl⟩

/-- Operands of registers and integer counters give one document in any order, or fail in any order, which they do where two of
    them or one and the document clash: a part is the merge of its states, and an operand of registers does nothing the second
    time. -/
theorem applyAll_any_order {ops : List StoredDocument} (hops : ∀ o ∈ ops, o.Plain cs) (d : StoredDocument) :
    (∀ ops', ops.Perm ops' → applyAll cs d ops = applyAll cs d ops') ∧
      ((applyAll cs d ops).isSome ↔ d.TakesAll ops) ∧
      ∀ r, applyAll cs d ops = some r →
        (∀ id, (new ops id = [] ∧ r.part id = d.part id) ∨
          ∃ field, r.part id = some field ∧ MergeOf ((d.part id).toList ++ new ops id) field) ∧
        ∀ o ∈ ops, (∀ p ∈ o.fields, p.2.kind = .lww) → r.apply cs o = some r :=
  ⟨fun _ hperm => applyAll_perm hops hperm, isSome_applyAll_iff hops, fun _ h =>
    ⟨applyAll_parts hops h, fun _ => apply_again hops h⟩⟩

/-! ### Posts -/

def post (votes : UInt8) : StoredDocument where
  fields := KeyedList.ofList [(1, ⟨"title", .lww, titlePriority, [title]⟩), (2, ⟨"votes", .int64, 1, [0, 0, 0, 0, 0, 0, 0, votes]⟩)]

def retitled : StoredDocument where
  fields := KeyedList.ofList [(1, ⟨"title", .lww, titlePriority, [title]⟩)]

/-- A register and a counter: the highest title stays, the votes add up, and the lower title does nothing the second time. -/
theorem post_any_order : (post 2 7 10).TakesAll [retitled 1 5, post 4 3 2, retitled 3 9] ∧
      applyAll nativeCrdts (post 2 7 10) [retitled 1 5, post 4 3 2, retitled 3 9] = some (post 4 3 12) ∧
      applyAll nativeCrdts (post 2 7 10) [retitled 3 9, retitled 1 5, post 4 3 2] = some (post 4 3 12) ∧
      (post 4 3 12).apply nativeCrdts (retitled 3 9) = some (post 4 3 12) := by
  have hplain : ∀ o ∈ [retitled 1 5, post 4 3 2, retitled 3 9], o.Plain nativeCrdts := by
    simp only [forall_mem_cons]
    exact ⟨⟨⟨_, rfl⟩, forall_mem_singleton.mpr (.inl rfl)⟩,
      ⟨⟨_, rfl⟩, forall_mem_cons.mpr ⟨.inl rfl, forall_mem_singleton.mpr (.inr rfl)⟩⟩,
      ⟨⟨_, rfl⟩, forall_mem_singleton.mpr (.inl rfl)⟩, nofun⟩
  obtain ⟨hperm, hs, hparts⟩ := applyAll_any_order hplain (post 2 7 10)
  have ha : applyAll nativeCrdts (post 2 7 10) [retitled 1 5, post 4 3 2, retitled 3 9] = some (post 4 3 12) := rfl
  exact ⟨hs.mp (by rw [ha]; rfl), ha, (hperm _ (@perm_append_comm _ [_, _] [_])).symm.trans ha,
    (hparts _ ha).2 _ (by simp) (forall_mem_singleton.mpr rfl)⟩

end StoredDocument

end Defra.Stored
