import Defra.Theorems.Stored.Part

/-! Applying a fold of two document operands is applying the two, part by part. -/

namespace Defra.Stored
open KeyedList List

variable {d r : StoredDocument}

namespace StoredDocument

variable {changes : List (UInt32 × (Option StoredField → Option StoredField))} (document : StoredDocument) (id : UInt32)

/-! ### Parts -/

/-- The part of a document for a field. -/
def part : Option StoredField := (document.fields.find? id).map Prod.snd

theorem part_eq_some {id : UInt32} {field : StoredField} : d.part id = some field ↔ (id, field) ∈ d.fields := by
  rw [part, Option.map_eq_some_iff]
  constructor
  · rintro ⟨⟨found, _⟩, hf, rfl⟩
    obtain ⟨hmem, rfl⟩ := find?_eq_some.mp hf
    exact hmem
  · exact fun h => ⟨(id, field), find?_eq_some.mpr ⟨h, rfl⟩, rfl⟩

theorem ext_part {e : StoredDocument} (h : ∀ id, d.part id = e.part id) : d = e := by
  refine congrArg StoredDocument.mk (ext_mem fun ⟨id, field⟩ => ?_)
  rw [← part_eq_some, ← part_eq_some, h]

def put (field : StoredField) : StoredDocument :=
  { fields := document.fields.put (id, field) }

theorem part_put (d : StoredDocument) (id : UInt32) (field : StoredField) (other : UInt32) :
    (d.put id field).part other = if other = id then some field else d.part other := by
  rw [part, put, find?_put]
  split <;> rfl

def update (change : UInt32 × (Option StoredField → Option StoredField)) : Option StoredDocument :=
  (change.2 (document.part change.1)).map (document.put change.1)

theorem part_foldlM_update (hnd : (changes.map Prod.fst).Nodup) : changes.foldlM update d = some r ↔
      (∀ c ∈ changes, (r.part c.1).isSome ∧ c.2 (d.part c.1) = r.part c.1) ∧
        ∀ id, id ∉ changes.map Prod.fst → r.part id = d.part id := by
  induction changes generalizing d with
  | nil =>
    simp only [foldlM_nil, not_mem_nil, false_imp_iff, implies_true, true_and, map_nil,
      not_false_eq_true, true_imp_iff]
    exact ⟨fun h id => Option.some.inj h ▸ rfl, fun h => congrArg some (ext_part h).symm⟩
  | cons c changes ih =>
    obtain ⟨hnew, hnd⟩ := nodup_cons.mp hnd
    rw [foldlM_cons, Option.bind_eq_bind, Option.bind_eq_some_iff]
    simp only [ih hnd, update, Option.map_eq_some_iff]
    have hother : ∀ {m : StoredField} {other : UInt32}, other ≠ c.1 → (d.put c.1 m).part other = d.part other :=
      fun hne => by rw [part_put, if_neg hne]
    have hne : ∀ c' ∈ changes, c'.1 ≠ c.1 := fun c' hc he => hnew (he ▸ mem_map_of_mem hc)
    constructor
    · rintro ⟨_, ⟨m, hm, rfl⟩, hall, hrest⟩
      have hp : r.part c.1 = some m := by rw [hrest c.1 hnew, part_put, if_pos rfl]
      refine ⟨forall_mem_cons.mpr ⟨⟨by rw [hp]; rfl, hm.trans hp.symm⟩, fun c' hc => ?_⟩, fun id hid => ?_⟩
      · rw [← hother (hne c' hc) (m := m)]
        exact hall c' hc
      · rw [map_cons, mem_cons, not_or] at hid
        rw [hrest id hid.2, hother hid.1]
    · rintro ⟨hall, hrest⟩
      obtain ⟨⟨hs, hc⟩, hall⟩ := forall_mem_cons.mp hall
      obtain ⟨m, hm⟩ := Option.isSome_iff_exists.mp hs
      refine ⟨d.put c.1 m, ⟨m, hc.trans hm, rfl⟩, fun c' hc' => ?_, fun id hid => ?_⟩
      · rw [hother (hne c' hc')]
        exact hall c' hc'
      · by_cases he : id = c.1
        · rw [he, part_put, if_pos rfl, hm]
        · rw [hother he]
          exact hrest id (by simp [he, hid])

theorem exists_foldlM_update (hnd : (changes.map Prod.fst).Nodup) (h : ∀ c ∈ changes, (c.2 (d.part c.1)).isSome) :
    ∃ r, changes.foldlM update d = some r := by
  induction changes generalizing d with
  | nil => exact ⟨d, rfl⟩
  | cons c changes ih =>
    obtain ⟨hnew, hnd⟩ := nodup_cons.mp hnd
    obtain ⟨hc, hall⟩ := forall_mem_cons.mp h
    obtain ⟨m, hm⟩ := Option.isSome_iff_exists.mp hc
    have hnext : ∀ c' ∈ changes, (c'.2 ((d.put c.1 m).part c'.1)).isSome := by
      intro c' hc'
      have hne : c'.1 ≠ c.1 := fun he => hnew (he ▸ mem_map_of_mem hc')
      rw [part_put, if_neg hne]
      exact hall c' hc'
    obtain ⟨r, hr⟩ := ih hnd hnext
    refine ⟨r, ?_⟩
    rw [foldlM_cons, update, hm]
    exact hr

/-- The name and the kind of a part. -/
def shape : Option (String × ValueKind) :=
  (document.part id).map fun field => (field.name, field.kind)

end StoredDocument

variable (σ τ : UInt32 → Option (String × ValueKind))

/-! ### Names and kinds -/

/-- An ID of both has one name and kind, and a new ID has a new name. -/
def Admits : Prop :=
  ∀ id x, τ id = some x → (∀ y, σ id = some y → y = x) ∧ (σ id = none → ∀ j y, σ j = some y → y.1 ≠ x.1)

def both (id : UInt32) : Option (String × ValueKind) := (σ id).or (τ id)

theorem admits_assoc {σ α β : UInt32 → Option (String × ValueKind)} (h : Admits α β) :
    Admits σ α ∧ Admits (both σ α) β ↔ Admits σ (both α β) := by
  constructor
  · rintro ⟨hα, hβ⟩ id x hx
    rcases Option.or_eq_some_iff.mp hx with hx | ⟨hn, hx⟩
    · exact hα id x hx
    · obtain ⟨hsame, hnew⟩ := hβ id x hx
      refine ⟨fun y hy => hsame y (by rw [both, hy]; rfl), fun hσ j y hy => ?_⟩
      exact hnew (by rw [both, hσ, hn]; rfl) j y (by rw [both, hy]; rfl)
  · intro hb
    have hα : Admits σ α := fun id x hx => hb id x (by rw [both, hx]; rfl)
    refine ⟨hα, fun id x hx => ?_⟩
    cases hαid : α id with
    | some z =>
      obtain rfl := (h id x hx).1 z hαid
      refine ⟨fun y hy => ?_, fun hn => ?_⟩
      · rcases Option.or_eq_some_iff.mp hy with hy | ⟨-, hy⟩
        · exact (hα id z hαid).1 y hy
        · exact Option.some.inj (hy.symm.trans hαid)
      · rw [both, hαid] at hn
        cases hσ : σ id <;> rw [hσ] at hn <;> cases hn
    | none =>
      have hx' : both α β id = some x := by rw [both, hαid, hx]; rfl
      obtain ⟨hsame, hnew⟩ := hb id x hx'
      refine ⟨fun y hy => ?_, fun hn j y hy => ?_⟩
      · rw [both, hαid, Option.or_none] at hy
        exact hsame y hy
      · rw [both, hαid, Option.or_none] at hn
        rcases Option.or_eq_some_iff.mp hy with hy | ⟨-, hy⟩
        · exact hnew hn j y hy
        · exact (h id x hx).2 hαid j y hy

namespace StoredDocument
section
variable (cs : Crdts) (new : StoredField) (held : Option StoredField)

/-! ### Folding and applying one part -/

/-- The part folded into what a document holds of it. -/
def mergedInto : Option StoredField :=
  (cs.part new.kind).merged (held.getD new.start) new

/-- The part applied to what a document holds of it. -/
def landedOn : Option StoredField :=
  (cs.part new.kind).land (held.getD new.start) new

variable {cs} {op a b c : StoredDocument} {p : UInt32 × StoredField} {m : StoredField}

/-- The part fits the names and kinds of the document. -/
def AdmitsPart (document : StoredDocument) (p : UInt32 × StoredField) : Prop :=
  (∀ y, document.shape p.1 = some y → y = (p.2.name, p.2.kind)) ∧
    (document.shape p.1 = none → ∀ j y, document.shape j = some y → y.1 ≠ p.2.name)

theorem admits_iff : Admits d.shape op.shape ↔ ∀ p ∈ op.fields, d.AdmitsPart p := by
  constructor
  · intro h p hp
    exact h p.1 (p.2.name, p.2.kind) (by rw [shape, part_eq_some.mpr hp]; rfl)
  · intro h id x hx
    obtain ⟨field, hf, rfl⟩ := Option.map_eq_some_iff.mp hx
    exact h (id, field) (part_eq_some.mp hf)

theorem foldPart_eq : foldPart cs d p = some r ↔ d.AdmitsPart p ∧ update d (p.1, mergedInto cs p.2) = some r := by
  obtain ⟨id, new⟩ := p
  have hnames : (d.fields.toList.any fun field => field.2.name == new.name) = true ↔
      ∃ j y, d.shape j = some y ∧ y.1 = new.name := by
    simp only [any_eq_true, beq_iff_eq]
    constructor
    · rintro ⟨⟨j, field⟩, hmem, hn⟩
      exact ⟨j, _, by rw [shape, part_eq_some.mpr hmem]; rfl, hn⟩
    · rintro ⟨j, y, hy, hn⟩
      obtain ⟨field, hf, rfl⟩ := Option.map_eq_some_iff.mp hy
      exact ⟨(j, field), part_eq_some.mp hf, hn⟩
  have hfold : foldPart cs d (id, new) =
      if (d.fields.find? id).isNone && d.fields.toList.any (fun field => field.2.name == new.name) then none
      else if (((d.fields.find? id).map Prod.snd).getD new.start).kind ≠ new.kind ∨
          (((d.fields.find? id).map Prod.snd).getD new.start).name ≠ new.name then none
      else ((cs.part new.kind).merged (((d.fields.find? id).map Prod.snd).getD new.start) new).map (d.put id) := by
    rw [FieldCrdt.merged, Option.map_map]
    rfl
  have hu : update d (id, mergedInto cs new) =
      ((cs.part new.kind).merged ((d.part id).getD new.start) new).map (d.put id) := rfl
  rw [hu, hfold]
  cases hheld : d.fields.find? id with
  | none =>
    have hp : d.part id = none := by rw [part, hheld]; rfl
    have hs : d.shape id = none := by rw [shape, hp]; rfl
    simp only [StoredField.start, Option.isNone_none, Bool.true_and, Option.map_none, Option.getD_none, ne_eq,
      not_true_eq_false, or_self, if_false]
    rw [Option.ite_none_left_eq_some, hnames, hp, AdmitsPart, hs]
    simp only [reduceCtorEq, false_imp_iff, implies_true, true_and, not_exists, not_and, true_imp_iff, ne_eq]
    rfl
  | some found =>
    obtain ⟨_, current⟩ := found
    obtain ⟨hmem, rfl⟩ := find?_eq_some.mp hheld
    have hp : d.part _ = some current := part_eq_some.mpr hmem
    simp only [Option.isNone_some, Bool.false_and, Bool.false_eq_true, if_false, Option.map_some, Option.getD_some]
    rw [Option.ite_none_left_eq_some, AdmitsPart, shape, hp]
    simp only [Option.map_some, Option.some.injEq, forall_eq', Prod.mk.injEq, reduceCtorEq, false_imp_iff, and_true,
      not_or, not_not, Option.getD_some, ne_eq]
    rw [and_comm (a := current.kind = new.kind)]

/-! ### Folding and applying all parts -/

/-- An operand whose parts fold exactly: they are native, valid and of different names. -/
structure Foldable (cs : Crdts) (op : StoredDocument) : Prop where
  names : (op.fields.toList.map fun p => p.2.name).Nodup
  exact : ∀ p ∈ op.fields, (cs.part p.2.kind).Exact cs.cbor p.2.kind
  valid : ∀ p ∈ op.fields, p.2.isValid cs.cbor = true

theorem nodup_ids (d : StoredDocument) : (d.fields.toList.map Prod.fst).Nodup :=
  pairwise_map.mpr (d.fields.sorted.imp ne_of_lt)

theorem shape_put (hn : m.name = p.2.name) (hk : m.kind = p.2.kind) (j : UInt32) :
    (d.put p.1 m).shape j = if j = p.1 then some (p.2.name, p.2.kind) else d.shape j := by
  rw [shape, part_put]
  split
  · rw [Option.map_some, hn, hk]
  · rfl

theorem admitsPart_put {q : UInt32 × StoredField} (hn : m.name = p.2.name)
    (hk : m.kind = p.2.kind) (hp : d.AdmitsPart p) (hid : q.1 ≠ p.1) (hnames : q.2.name ≠ p.2.name) :
    (d.put p.1 m).AdmitsPart q ↔ d.AdmitsPart q := by
  have hq : (d.put p.1 m).shape q.1 = d.shape q.1 := by rw [shape_put hn hk, if_neg hid]
  rw [AdmitsPart, hq]
  refine and_congr_right fun _ => imp_congr_right fun _ => forall_congr' fun j => forall_congr' fun y => ?_
  by_cases hj : j = p.1
  · rw [shape_put hn hk, if_pos hj, hj]
    refine ⟨fun _ hy => ?_, fun _ hy => ?_⟩
    · rw [hp.1 y hy]
      exact Ne.symm hnames
    · rw [← Option.some.inj hy]
      exact Ne.symm hnames
  · rw [shape_put hn hk, if_neg hj]

theorem keeps_of_admits (he : (cs.part p.2.kind).Exact cs.cbor p.2.kind) (hp : d.AdmitsPart p)
    (hm : mergedInto cs p.2 (d.part p.1) = some m ∨ landedOn cs p.2 (d.part p.1) = some m) :
    m.name = p.2.name ∧ m.kind = p.2.kind := by
  have hkeep : m.name = ((d.part p.1).getD p.2.start).name ∧ m.kind = ((d.part p.1).getD p.2.start).kind :=
    hm.elim (he.merged_keeps _ _ m) (he.land_keeps _ _ m)
  cases hpart : d.part p.1 with
  | none =>
    rw [hpart] at hkeep
    exact hkeep
  | some current =>
    rw [hpart] at hkeep
    have := hp.1 (current.name, current.kind) (by rw [shape, hpart]; rfl)
    obtain ⟨hn, hk⟩ := Prod.mk.inj this
    exact ⟨hkeep.1.trans hn, hkeep.2.trans hk⟩

theorem foldlM_foldPart {l : List (UInt32 × StoredField)} (hids : (l.map Prod.fst).Nodup)
    (hnames : (l.map fun p => p.2.name).Nodup) (hexact : ∀ p ∈ l, (cs.part p.2.kind).Exact cs.cbor p.2.kind)
    : l.foldlM (foldPart cs) d = some r ↔
      (∀ p ∈ l, d.AdmitsPart p) ∧ (l.map fun p => (p.1, mergedInto cs p.2)).foldlM update d = some r := by
  induction l generalizing d with
  | nil => simp
  | cons p l ih =>
    obtain ⟨hid, hids⟩ := nodup_cons.mp hids
    obtain ⟨hname, hnames⟩ := nodup_cons.mp hnames
    obtain ⟨hpexact, hexact⟩ := forall_mem_cons.mp hexact
    rw [foldlM_cons, map_cons, foldlM_cons, Option.bind_eq_bind, Option.bind_eq_some_iff,
      Option.bind_eq_some_iff, forall_mem_cons]
    simp only [ih hids hnames hexact, foldPart_eq]
    -- The parts that follow go in after this one as they do before it.
    have hrest : ∀ {next : StoredDocument}, d.AdmitsPart p → update d (p.1, mergedInto cs p.2) = some next →
        ((∀ q ∈ l, next.AdmitsPart q) ↔ ∀ q ∈ l, d.AdmitsPart q) := by
      intro next hp hn
      obtain ⟨m, hm, rfl⟩ := Option.map_eq_some_iff.mp hn
      obtain ⟨hmname, hmkind⟩ := keeps_of_admits hpexact hp (.inl hm)
      refine forall₂_congr fun q hq => admitsPart_put hmname hmkind hp ?_ ?_
      · exact fun he => hid (he ▸ mem_map_of_mem hq)
      · exact fun he => hname (mem_map.mpr ⟨q, hq, he⟩)
    constructor
    · rintro ⟨next, ⟨hp, hn⟩, hall, hrun⟩
      exact ⟨⟨hp, (hrest hp hn).mp hall⟩, next, hn, hrun⟩
    · rintro ⟨⟨hp, hall⟩, next, hn, hrun⟩
      exact ⟨next, ⟨hp, hn⟩, (hrest hp hn).mpr hall, hrun⟩

def settled (cs : Crdts) (held : Option StoredField) : Option StoredField :=
  held.bind fun field => (cs.part field.kind).settle.getD some field

theorem settlePart_eq (d : StoredDocument) (id : UInt32) : settlePart cs d id = update d (id, settled cs) := by
  cases hf : d.fields.find? id with
  | none => simp [settlePart, update, settled, part, hf]
  | some found =>
    obtain ⟨_, field⟩ := found
    obtain ⟨hmem, rfl⟩ := find?_eq_some.mp hf
    have hp : d.part _ = some field := part_eq_some.mpr hmem
    simp only [settlePart, update, settled, hf, hp, Option.bind_eq_bind, Option.bind_some]
    cases hs : (cs.part field.kind).settle with
    | some settle => rfl
    | none =>
      -- A part that does not settle is put back as it was.
      refine congrArg some (ext_part fun other => ?_)
      rw [part_put]
      split
      · rename_i he
        rw [he, hp]
      · rfl

theorem foldlM_settlePart (ids : List UInt32) (d : StoredDocument) :
    ids.foldlM (settlePart cs) d = (ids.map fun id => (id, settled cs)).foldlM update d := by
  induction ids generalizing d with
  | nil => rfl
  | cons id ids ih =>
    rw [foldlM_cons, map_cons, foldlM_cons, settlePart_eq]
    simp only [ih]

theorem settled_mergedInto (hexact : (cs.part p.2.kind).Exact cs.cbor p.2.kind) (hp : d.AdmitsPart p) :
    settled cs (mergedInto cs p.2 (d.part p.1)) = landedOn cs p.2 (d.part p.1) := by
  cases hm : mergedInto cs p.2 (d.part p.1) with
  | none =>
    rw [landedOn, FieldCrdt.land, show (cs.part p.2.kind).merged _ _ = none from hm]
    rfl
  | some m =>
    rw [landedOn, FieldCrdt.land, show (cs.part p.2.kind).merged _ _ = some m from hm, settled, Option.bind_some,
      (keeps_of_admits hexact hp (.inl hm)).2]
    rfl

theorem not_mem_ids (change : StoredField → Option StoredField → Option StoredField)
    (id : UInt32) : id ∉ (op.fields.toList.map fun p => (p.1, change p.2)).map Prod.fst ↔ op.part id = none := by
  rw [map_map, Option.eq_none_iff_forall_ne_some]
  simp only [mem_map, Function.comp_apply, Prod.exists, exists_and_right, exists_eq_right, not_exists, ne_eq,
    part_eq_some]
  rfl

theorem nodup_changes (op : StoredDocument) (change : StoredField → Option StoredField → Option StoredField) :
    ((op.fields.toList.map fun p => (p.1, change p.2)).map Prod.fst).Nodup := by
  rw [map_map]
  exact nodup_ids op

section
variable (ho : op.Foldable cs)
include ho

/-- A fold goes part by part. -/
theorem fold_eq_some : d.fold cs op = some r ↔ Admits d.shape op.shape ∧
      (∀ p ∈ op.fields, (r.part p.1).isSome ∧ mergedInto cs p.2 (d.part p.1) = r.part p.1) ∧
        ∀ id, op.part id = none → r.part id = d.part id := by
  rw [fold, foldlM_foldPart (nodup_ids op) ho.names ho.exact,
    part_foldlM_update (nodup_changes op (mergedInto cs)), admits_iff]
  simp only [forall_mem_map, not_mem_ids]
  rfl

/-- Applying an operand goes part by part. -/
theorem apply_eq_some : d.apply cs op = some r ↔ Admits d.shape op.shape ∧
      (∀ p ∈ op.fields, (r.part p.1).isSome ∧ landedOn cs p.2 (d.part p.1) = r.part p.1) ∧
        ∀ id, op.part id = none → r.part id = d.part id := by
  have hsettle : ∀ {mid : StoredDocument}, (op.fields.toList.map Prod.fst).foldlM (settlePart cs) mid = some r ↔
      (∀ p ∈ op.fields, (r.part p.1).isSome ∧ settled cs (mid.part p.1) = r.part p.1) ∧
        ∀ id, op.part id = none → r.part id = mid.part id := by
    intro mid
    have hmap : ((op.fields.toList.map Prod.fst).map fun id => (id, settled cs)) =
        op.fields.toList.map fun p => (p.1, (fun _ => settled cs) p.2) := by
      rw [map_map]
      rfl
    rw [foldlM_settlePart, hmap, part_foldlM_update (nodup_changes op fun _ => settled cs)]
    simp only [forall_mem_map, not_mem_ids fun _ => settled cs]
    rfl
  rw [apply, Option.bind_eq_bind, Option.bind_eq_some_iff]
  simp only [fold_eq_some ho, hsettle]
  constructor
  · rintro ⟨mid, ⟨hadm, hm, hother⟩, hr, hrother⟩
    refine ⟨hadm, fun p hp => ⟨(hr p hp).1, ?_⟩, fun id hid => (hrother id hid).trans (hother id hid)⟩
    rw [← settled_mergedInto (ho.exact p hp) (admits_iff.mp hadm p hp), (hm p hp).2, (hr p hp).2]
  · rintro ⟨hadm, hr, hrother⟩
    -- Each part merges, since it lands.
    have hmerge : ∀ c ∈ op.fields.toList.map fun p => (p.1, mergedInto cs p.2), (c.2 (d.part c.1)).isSome := by
      intro c hc
      obtain ⟨p, hp, rfl⟩ := mem_map.mp hc
      obtain ⟨hs, hland⟩ := hr p hp
      rw [← hland, landedOn] at hs
      exact Option.isSome_of_isSome_bind hs
    obtain ⟨mid, hm⟩ := exists_foldlM_update (nodup_changes op (mergedInto cs)) hmerge
    obtain ⟨hparts, hother⟩ := (part_foldlM_update (nodup_changes op (mergedInto cs))).mp hm
    simp only [forall_mem_map, not_mem_ids] at hparts hother
    refine ⟨mid, ⟨hadm, hparts, hother⟩, fun p hp => ⟨(hr p hp).1, ?_⟩, fun id hid => ?_⟩
    · rw [← (hparts p hp).2, settled_mergedInto (ho.exact p hp) (admits_iff.mp hadm p hp), (hr p hp).2]
    · rw [hrother id hid, hother id hid]

theorem shape_of_parts (hadm : Admits d.shape op.shape) (hparts : ∀ p ∈ op.fields, ∃ m, r.part p.1 = some m ∧
      (mergedInto cs p.2 (d.part p.1) = some m ∨ landedOn cs p.2 (d.part p.1) = some m))
    (hother : ∀ id, op.part id = none → r.part id = d.part id) : r.shape = both d.shape op.shape := by
  funext id
  cases hid : op.part id with
  | none =>
    have hnone : op.shape id = none := by rw [shape, hid]; rfl
    rw [both, hnone, Option.or_none, shape, hother id hid, shape]
  | some field =>
    have hp : (id, field) ∈ op.fields := part_eq_some.mp hid
    have hp' := admits_iff.mp hadm _ hp
    obtain ⟨m, hm, hmerge⟩ := hparts _ hp
    obtain ⟨hn, hk⟩ := keeps_of_admits (ho.exact _ hp) hp' hmerge
    have hr : r.shape id = some (field.name, field.kind) := by
      rw [shape, hm, Option.map_some, hn, hk]
    have hs : op.shape id = some (field.name, field.kind) := by rw [shape, hid]; rfl
    rw [both, hr, hs]
    cases hd : d.shape id with
    | none => rfl
    | some y => rw [hp'.1 y hd]; rfl

theorem shape_apply (h : d.apply cs op = some r) : r.shape = both d.shape op.shape := by
  obtain ⟨hadm, hparts, hother⟩ := (apply_eq_some ho).mp h
  refine shape_of_parts ho hadm (fun p hp => ?_) hother
  obtain ⟨hs, hland⟩ := hparts p hp
  obtain ⟨m, hm⟩ := Option.isSome_iff_exists.mp hs
  exact ⟨m, hm, .inr (hland.trans hm)⟩

omit ho in
/-- Landing the operands' parts, one after the other. -/
theorem landedOn_fold (ha : a.Foldable cs) (hb : b.Foldable cs)
    (hc : a.fold cs b = some c) {id : UInt32} {field fieldC : StoredField} (hbid : b.part id = some field)
    (hcid : c.part id = some fieldC) {held : Option StoredField} (hk : ∀ s ∈ held, s.kind = field.kind) :
    landedOn cs fieldC held = match a.part id with
      | none => landedOn cs field held
      | some fieldA => (landedOn cs fieldA held).bind fun t => landedOn cs field (some t) := by
  obtain ⟨hadm, hparts, -⟩ := (fold_eq_some hb).mp hc
  have hp : (id, field) ∈ b.fields := part_eq_some.mp hbid
  have hp' := admits_iff.mp hadm _ hp
  have he := hb.exact _ hp
  have hmerge := (hparts _ hp).2
  rw [hcid] at hmerge
  obtain ⟨hn, hkindC⟩ := keeps_of_admits he hp' (.inl hmerge)
  have hs : fieldC.start = field.start := by rw [StoredField.start, StoredField.start, hn, hkindC]
  have hh : (held.getD field.start).kind = field.kind := by
    cases held with
    | none => rfl
    | some s => exact hk s rfl
  rw [landedOn, hkindC, hs]
  cases haid : a.part id with
  | none =>
    rw [haid] at hmerge
    exact he.start _ _ _ hh rfl (hb.valid _ hp) hmerge
  | some fieldA =>
    rw [haid] at hmerge
    obtain ⟨hnameA, hkindA⟩ := Prod.mk.inj (hp'.1 (fieldA.name, fieldA.kind) (by rw [shape, haid]; rfl))
    have hstartA : fieldA.start = field.start := by rw [StoredField.start, StoredField.start, hnameA, hkindA]
    rw [← he.assoc _ fieldA field fieldC hh hkindA rfl (ha.valid _ (part_eq_some.mp haid)) (hb.valid _ hp) hmerge]
    simp only [landedOn, hkindA, hstartA, Option.getD_some]

theorem exists_apply (hadm : Admits d.shape op.shape)
    (hland : ∀ p ∈ op.fields, (landedOn cs p.2 (d.part p.1)).isSome) : ∃ r, d.apply cs op = some r := by
  have hall : ∀ c ∈ op.fields.toList.map fun p => (p.1, landedOn cs p.2), (c.2 (d.part c.1)).isSome :=
    forall_mem_map.mpr hland
  obtain ⟨r, hr⟩ := exists_foldlM_update (nodup_changes op (landedOn cs)) hall
  obtain ⟨hparts, hother⟩ := (part_foldlM_update (nodup_changes op (landedOn cs))).mp hr
  simp only [forall_mem_map, not_mem_ids] at hparts hother
  exact ⟨r, (apply_eq_some ho).mpr ⟨hadm, hparts, hother⟩⟩

end

theorem shape_fold (hb : b.Foldable cs) (hc : a.fold cs b = some c) : c.shape = both a.shape b.shape := by
  obtain ⟨hadm, hparts, hother⟩ := (fold_eq_some hb).mp hc
  refine shape_of_parts hb hadm (fun p hp => ?_) hother
  obtain ⟨hs, hmerge⟩ := hparts p hp
  obtain ⟨m, hm⟩ := Option.isSome_iff_exists.mp hs
  exact ⟨m, hm, .inl (hmerge.trans hm)⟩

/-- The same value, or no value where the two do not apply. -/
theorem apply_fold (ha : a.Foldable cs) (hb : b.Foldable cs) (hcf : c.Foldable cs)
    (hc : a.fold cs b = some c) (d : StoredDocument) :
    (d.apply cs a).bind (fun next => next.apply cs b) = d.apply cs c := by
  obtain ⟨hadm, hparts, hother⟩ := (fold_eq_some hb).mp hc
  have hshape := shape_fold hb hc
  -- The part of the fold at an ID of `b`, landed on `d`.
  have hland : Admits d.shape c.shape → ∀ {id field}, b.part id = some field → ∃ fieldC, c.part id = some fieldC ∧
      landedOn cs fieldC (d.part id) = match a.part id with
        | none => landedOn cs field (d.part id)
        | some fieldA => (landedOn cs fieldA (d.part id)).bind fun t => landedOn cs field (some t) := by
    intro hadmitsC id field hid
    have hp := part_eq_some.mp hid
    obtain ⟨fieldC, hcid⟩ := Option.isSome_iff_exists.mp (hparts _ hp).1
    refine ⟨fieldC, hcid, landedOn_fold ha hb hc hid hcid fun s hs => ?_⟩
    have hkindC := (keeps_of_admits (hb.exact _ hp) (admits_iff.mp hadm _ hp)
      (.inl ((hparts _ hp).2.trans hcid))).2
    have hsame := (hadmitsC id (fieldC.name, fieldC.kind) (by rw [shape, hcid]; rfl)).1 (s.name, s.kind)
      (by rw [shape, Option.mem_def.mp hs]; rfl)
    exact (Prod.mk.inj hsame).2.trans hkindC
  refine Option.ext fun r => ?_
  rw [Option.bind_eq_some_iff]
  constructor
  · rintro ⟨t, ht, hr⟩
    obtain ⟨hadmitsA, hta, htother⟩ := (apply_eq_some ha).mp ht
    obtain ⟨hadmitsB, hrb, hrother⟩ := (apply_eq_some hb).mp hr
    have hadmitsC : Admits d.shape c.shape :=
      hshape ▸ (admits_assoc hadm).mp ⟨hadmitsA, shape_apply ha ht ▸ hadmitsB⟩
    refine (apply_eq_some hcf).mpr ⟨hadmitsC, fun p hp => ?_, fun id hid => ?_⟩
    · have hcid := part_eq_some.mpr hp
      cases hbid : b.part p.1 with
      | none =>
        rw [hother _ hbid] at hcid
        rw [hrother _ hbid]
        exact hta p (part_eq_some.mp hcid)
      | some field =>
        obtain ⟨fieldC, hcid', hlands⟩ := hland hadmitsC hbid
        obtain rfl : fieldC = p.2 := Option.some.inj (hcid'.symm.trans hcid)
        obtain ⟨hsome, hrland⟩ := hrb _ (part_eq_some.mp hbid)
        refine ⟨hsome, hlands.trans ?_⟩
        cases haid : a.part p.1 with
        | none => rw [← hrland, htother _ haid]
        | some fieldA =>
          obtain ⟨htsome, htland⟩ := hta _ (part_eq_some.mp haid)
          obtain ⟨t', ht'⟩ := Option.isSome_iff_exists.mp htsome
          simp only [htland, ht', Option.bind_some]
          rw [← ht', hrland]
    · have hbid : b.part id = none := by
        rw [Option.eq_none_iff_forall_ne_some]
        intro field hf
        have := (hparts _ (part_eq_some.mp hf)).1
        simp [hid] at this
      rw [hrother id hbid, htother id ((hother id hbid).symm.trans hid)]
  · intro hr
    obtain ⟨hadmitsC, hrc, hrother⟩ := (apply_eq_some hcf).mp hr
    obtain ⟨hadmitsA, hadmitsB⟩ := (admits_assoc hadm).mpr (hshape ▸ hadmitsC)
    have hlandA : ∀ p ∈ a.fields, (landedOn cs p.2 (d.part p.1)).isSome := by
      intro p hp
      have haid := part_eq_some.mpr hp
      cases hbid : b.part p.1 with
      | none =>
        obtain ⟨hsome, hlands⟩ := hrc p (part_eq_some.mp ((hother _ hbid).trans haid))
        rwa [hlands]
      | some field =>
        obtain ⟨fieldC, hcid, hlands⟩ := hland hadmitsC hbid
        obtain ⟨hsome, hrland⟩ := hrc _ (part_eq_some.mp hcid)
        rw [haid] at hlands
        rw [← hrland, hlands] at hsome
        exact Option.isSome_of_isSome_bind hsome
    obtain ⟨t, ht⟩ := exists_apply ha hadmitsA hlandA
    obtain ⟨-, hta, htother⟩ := (apply_eq_some ha).mp ht
    refine ⟨t, ht, (apply_eq_some hb).mpr ⟨shape_apply ha ht ▸ hadmitsB, fun p hp => ?_, fun id hbid => ?_⟩⟩
    · obtain ⟨fieldC, hcid, hlands⟩ := hland hadmitsC (part_eq_some.mpr hp)
      obtain ⟨hsome, hrland⟩ := hrc _ (part_eq_some.mp hcid)
      refine ⟨hsome, Eq.trans ?_ (hlands.symm.trans hrland)⟩
      cases haid : a.part p.1 with
      | none => rw [htother _ haid]
      | some fieldA =>
        obtain ⟨htsome, htland⟩ := hta _ (part_eq_some.mp haid)
        obtain ⟨t', ht'⟩ := Option.isSome_iff_exists.mp htsome
        simp only [htland, ht', Option.bind_some]
    · cases haid : a.part id with
      | none => rw [hrother id ((hother id hbid).trans haid), htother id haid]
      | some fieldA =>
        rw [← (hta _ (part_eq_some.mp haid)).2, ← (hrc _ (part_eq_some.mp ((hother id hbid).trans haid))).2]

end
end StoredDocument
end Defra.Stored
