import Defra.Merge.Operator
import Defra.Theorems.Merge.HeadSetBytes
import Defra.Theorems.Stored.Cbor
import Defra.Theorems.Stored.Codec
import Defra.Theorems.Stored.Fold

/-! Folding operands before their base is known changes nothing: not the value they leave, and not the parts they
    touch. -/

namespace Defra.Merge
open HeadSet List Stored StoredDocument KeyedList

/-! ### Operands -/

@[simp] theorem decode_encode (kind : UInt8) (v : Bytes) : decode (encode kind v) = some (kind, v) := by
  simp [decode, encode, header, magic, dropPrefix?]

variable {kind : UInt8} {bytes v : Bytes}

theorem body_eq_some : body kind bytes = some v ↔ decode bytes = some (kind, v) := by
  rw [body, Option.bind_eq_some_iff]
  constructor
  · rintro ⟨⟨found, value'⟩, hd, h⟩
    rw [Option.ite_none_right_eq_some] at h
    obtain ⟨hf, h⟩ := h
    cases h
    rw [hd, hf]
  · exact fun h => ⟨(kind, v), h, if_pos rfl⟩

variable {left right folded : Bytes} {other : UInt8} {parts : StoredDocument} (titlePriority : UInt64)
  (title votes : UInt8)

theorem body_unique {found : Bytes} (h : body kind bytes = some v) (h' : body other bytes = some found) :
    other = kind ∧ found = v := by
  rw [body_eq_some] at h h'
  exact Prod.mk.inj (Option.some.inj (h'.symm.trans h))

theorem body_ne (h : body kind bytes = some v) (hne : other ≠ kind) : body other bytes = none :=
  Option.eq_none_iff_forall_ne_some.mpr fun _ hfound => hne (body_unique h hfound).1

def ValueKind.isNative : ValueKind → Bool
  | .custom _ => false
  | _ => true

/-! ### Folds -/

/-- The operands that writers build, and their folds. A byte string has fewer than `2 ^ 63` bytes. -/
inductive IsOperand (cs : Crdts) : Bytes → Prop where
  | counterI64 (delta : Int64) : IsOperand cs (counterI64 delta)
  | counterF32 (delta : Float32) : IsOperand cs (counterF32 delta)
  | counterF64 (delta : Float) : IsOperand cs (counterF64 delta)
  | statsDelta (documents fieldLength : BitVec 128) : IsOperand cs (statsDelta documents fieldLength)
  | documentParts {parts : StoredDocument} {bytes : Bytes}
      (native : ∀ p ∈ parts.fields, ValueKind.isNative p.2.kind = true)
      (encoded : documentParts cs.cbor parts = some bytes) : IsOperand cs bytes
  | links (layer : UInt32) (neighbor : UInt64) : IsOperand cs (Vector.links layer neighbor)
  | counts (live : Int64) (waste : UInt64) : IsOperand cs (Vector.counts live waste)
  | headSet {write : Write} (built : write.Built) (fits : write.operand.length < 2 ^ 63) :
      IsOperand cs write.operand
  | fold {left right folded : Bytes} : IsOperand cs left → IsOperand cs right →
      partialMerge cs left right = some folded → folded.length < 2 ^ 63 → IsOperand cs folded

/-- One step of folding: a neighboring pair replaced by its fold. -/
inductive FoldsPair (cs : Crdts) : List Bytes → List Bytes → Prop where
  | pair {left right folded : Bytes} (before after : List Bytes) (h : partialMerge cs left right = some folded)
      (fits : folded.length < 2 ^ 63) : FoldsPair cs (before ++ left :: right :: after) (before ++ folded :: after)

/-- An integer has its eight bytes, a head set's entries all act, and a document's parts are native. -/
structure FoldsExactly (cs : Crdts) (bytes : Bytes) : Prop where
  int64 : ∀ v, body int64 bytes = some v → v.length = 8
  headSet : ∀ v, body headSet bytes = some v →
    ∃ es, operandEntries v = some es ∧ ∀ e ∈ es, e.2.Acts
  document : ∀ v, body document bytes = some v → ∀ parts, StoredDocument.decode cs.cbor v = some parts →
    ∀ p ∈ parts.fields, ValueKind.isNative p.2.kind = true

/-- What a fold of two operands of a kind is. -/
inductive Fold (cs : Crdts) (kind : UInt8) (left right folded : Bytes) : Prop where
  | headSet (of : kind = headSet) (h : fold left right = some folded)
  | links (of : kind = vectorLinks) (h : Vector.fold left right = some folded)
  | document (of : kind = document) {a b c : StoredDocument} {bytesA bytesB v : Bytes} (left : body document left = some bytesA)
      (right : body document right = some bytesB) (decodeA : StoredDocument.decode cs.cbor bytesA = some a)
      (decodeB : StoredDocument.decode cs.cbor bytesB = some b) (exact : foldExactly cs a b = true)
      (fold : a.fold cs b = some c) (folded : body document folded = some v)
      (decodeC : StoredDocument.decode cs.cbor v = some c)
  | int64 (of : kind = int64) {a b sum : Bytes} (left : body int64 left = some a) (right : body int64 right = some b)
      (add : addLegacy .int64 a b = some sum) (folded : folded = encode int64 sum)

theorem documentParts_eq_some {cbor : Cbor} (h : documentParts cbor parts = some bytes) :
    ∃ v, body document bytes = some v ∧ StoredDocument.decode cbor v = some parts := by
  obtain ⟨v, hencode, rfl⟩ := encodeAfter_eq h
  exact ⟨v, body_encode document v, StoredDocument.decode_encode hencode⟩

variable {cs : Crdts}

theorem fold_of_partialMerge (h : partialMerge cs left right = some folded) :
    ∃ kind, Fold cs kind left right folded := by
  unfold partialMerge at h
  split at h
  · exact ⟨_, .headSet rfl h⟩
  · split at h
    · exact ⟨_, .links rfl h⟩
    · split at h
      · rename_i bytesA bytesB hl hr
        obtain ⟨a, ha, h⟩ := Option.bind_eq_some_iff.mp h
        obtain ⟨b, hb, h⟩ := Option.bind_eq_some_iff.mp h
        rw [Option.ite_none_right_eq_some] at h
        obtain ⟨he, h⟩ := h
        obtain ⟨c, hc, h⟩ := Option.bind_eq_some_iff.mp h
        obtain ⟨v, hv, hdec⟩ := documentParts_eq_some h
        exact ⟨_, .document rfl hl hr ha hb he hc hv hdec⟩
      · obtain ⟨a, ha, h⟩ := Option.bind_eq_some_iff.mp h
        obtain ⟨b, hb, h⟩ := Option.bind_eq_some_iff.mp h
        obtain ⟨sum, hs, h⟩ := Option.bind_eq_some_iff.mp h
        exact ⟨_, .int64 rfl ha hb hs (Option.some.inj h).symm⟩

theorem length_addLegacy {delta sum : Bytes} (h : addLegacy .int64 v delta = some sum) : sum.length = 8 := by
  simp only [addLegacy, counterField, Option.map_map, Option.map_eq_some_iff, Stored.sum] at h
  obtain ⟨bytes, hb, rfl⟩ := h
  rw [Option.ite_none_right_eq_some] at hb
  rw [← Option.some.inj hb.2]
  exact Wire.length_toBe 8 _

theorem exact_of_foldsExactly {field : StoredField} (hnative : ValueKind.isNative field.kind = true)
    (h : (cs.part field.kind).foldsExactly field = true) :
    (cs.part field.kind).Exact cs.cbor field.kind := by
  cases hk : field.kind with
  | lww => exact lwwField_exact cs.cbor
  | text => exact textField_exact cs.cbor
  | json => exact jsonField_exact
  | int64 => exact counterField_exact cs.cbor
  | float32 => simp [hk, Crdts.part, nativePart, counterField] at h
  | float64 => simp [hk, Crdts.part, nativePart, counterField] at h
  | custom name => simp [hk, ValueKind.isNative] at hnative

/-- Documents that fold exactly have parts that do, and so has their fold. -/
theorem foldable_of_fold {a b c : StoredDocument} {bytesA bytesB : Bytes}
    (hexact : foldExactly cs a b = true) (ha : StoredDocument.decode cs.cbor bytesA = some a)
    (hb : StoredDocument.decode cs.cbor bytesB = some b) (hc : StoredDocument.decode cs.cbor v = some c)
    (hnativeA : ∀ p ∈ a.fields, ValueKind.isNative p.2.kind = true)
    (hnativeB : ∀ p ∈ b.fields, ValueKind.isNative p.2.kind = true) (hfold : a.fold cs b = some c) :
    a.Foldable cs ∧ b.Foldable cs ∧ c.Foldable cs ∧ ∀ p ∈ c.fields, ValueKind.isNative p.2.kind = true := by
  have hall : ∀ p ∈ a.fields.toList ++ b.fields.toList, (cs.part p.2.kind).foldsExactly p.2 = true :=
    (all_eq_true.mp hexact)
  obtain ⟨hnamesA, hvalidA⟩ := decode_spec ha
  obtain ⟨hnamesB, hvalidB⟩ := decode_spec hb
  obtain ⟨hnamesC, hvalidC⟩ := decode_spec hc
  have hfa : a.Foldable cs := ⟨hnamesA, fun p hp => exact_of_foldsExactly (hnativeA p hp)
    (hall p (mem_append_left _ hp)), hvalidA⟩
  have hfb : b.Foldable cs := ⟨hnamesB, fun p hp => exact_of_foldsExactly (hnativeB p hp)
    (hall p (mem_append_right _ hp)), hvalidB⟩
  -- Each part of the fold is of the kind of a part of one of the two.
  have hkinds : ∀ p ∈ c.fields, ∃ q, (q ∈ a.fields ∨ q ∈ b.fields) ∧ q.2.kind = p.2.kind := by
    intro p hp
    have hs : c.shape p.1 = some (p.2.name, p.2.kind) := by
      rw [shape, part_eq_some.mpr hp]
      rfl
    rw [shape_fold hfb hfold] at hs
    rcases Option.or_eq_some_iff.mp hs with h | ⟨-, h⟩
    · obtain ⟨field, hf, he⟩ := Option.map_eq_some_iff.mp h
      exact ⟨(p.1, field), .inl (part_eq_some.mp hf), (Prod.mk.inj he).2⟩
    · obtain ⟨field, hf, he⟩ := Option.map_eq_some_iff.mp h
      exact ⟨(p.1, field), .inr (part_eq_some.mp hf), (Prod.mk.inj he).2⟩
  refine ⟨hfa, hfb, ⟨hnamesC, fun p hp => ?_, hvalidC⟩, fun p hp => ?_⟩
  · obtain ⟨q, hq, hk⟩ := hkinds p hp
    rw [← hk]
    exact hq.elim (hfa.exact q) (hfb.exact q)
  · obtain ⟨q, hq, hk⟩ := hkinds p hp
    rw [← hk]
    exact hq.elim (hnativeA q) (hnativeB q)

/-! ### What folds exactly -/

theorem foldsExactly_of_body (h : body kind bytes = some v) (hint : kind = int64 → v.length = 8)
    (hhead : kind = headSet → ∃ es, operandEntries v = some es ∧ ∀ e ∈ es, e.2.Acts)
    (hd : kind = document → ∀ parts, StoredDocument.decode cs.cbor v = some parts →
      ∀ p ∈ parts.fields, ValueKind.isNative p.2.kind = true) : FoldsExactly cs bytes := by
  refine ⟨fun found hf => ?_, fun found hf => ?_, fun found hf => ?_⟩ <;> obtain ⟨hk, rfl⟩ := body_unique h hf
  · exact hint hk.symm
  · exact hhead hk.symm
  · exact hd hk.symm

theorem foldsExactly_of_ne (h : body kind bytes = some v) (hint : kind ≠ int64) (hhead : kind ≠ headSet)
    (hdoc : kind ≠ document) : FoldsExactly cs bytes :=
  foldsExactly_of_body h (absurd · hint) (absurd · hhead) (absurd · hdoc)

theorem foldsExactly_int64 (h : v.length = 8) : FoldsExactly cs (encode int64 v) :=
  foldsExactly_of_body (body_encode int64 v) (fun _ => h) (absurd · (by decide)) (absurd · (by decide))

variable {es : List (Bytes × Func)}

theorem foldsExactly_headSet (h : (body headSet bytes).bind operandEntries = some es)
    (hacts : ∀ e ∈ es, e.2.Acts) : FoldsExactly cs bytes := by
  obtain ⟨v, hb, he⟩ := Option.bind_eq_some_iff.mp h
  exact foldsExactly_of_body hb (absurd · (by decide)) (fun _ => ⟨es, he, hacts⟩) (absurd · (by decide))

theorem foldsExactly_document (hb : body document bytes = some v)
    (hd : StoredDocument.decode cs.cbor v = some parts)
    (hnative : ∀ p ∈ parts.fields, ValueKind.isNative p.2.kind = true) : FoldsExactly cs bytes :=
  foldsExactly_of_body hb (absurd · (by decide)) (absurd · (by decide)) fun _ _ hp =>
    Option.some.inj (hd.symm.trans hp) ▸ hnative

theorem headSet_bodies (h : fold left right = some folded) :
    ∃ a c, body headSet left = some a ∧ body headSet folded = some c := by
  obtain ⟨a, ha, h⟩ := Option.bind_eq_some_iff.mp h
  obtain ⟨_, -, h⟩ := Option.bind_eq_some_iff.mp h
  obtain ⟨_, -, h⟩ := Option.bind_eq_some_iff.mp h
  obtain ⟨_, -, h⟩ := Option.bind_eq_some_iff.mp h
  cases h
  exact ⟨a, _, ha, body_encode _ _⟩

theorem links_bodies (h : Vector.fold left right = some folded) :
    ∃ a c, body vectorLinks left = some a ∧ body vectorLinks folded = some c := by
  obtain ⟨a, ha, h⟩ := Option.bind_eq_some_iff.mp h
  obtain ⟨_, -, h⟩ := Option.bind_eq_some_iff.mp h
  obtain ⟨_, -, h⟩ := Option.bind_eq_some_iff.mp h
  obtain ⟨_, -, h⟩ := Option.bind_eq_some_iff.mp h
  cases h
  exact ⟨a, _, ha, body_encode _ _⟩

theorem acts_foldEntries {l r : List (Bytes × Func)} (hl : ∀ e ∈ l, e.2.Acts) (hr : ∀ e ∈ r, e.2.Acts) :
    ∀ e ∈ foldEntries l r, e.2.Acts := fun e he =>
  forall_mem_walk (fun _ g hf _ => hf.andThen g) hl hr e (mem_of_mem_filter he)

theorem acts_of_foldsExactly
    (hexact : FoldsExactly cs bytes) (h : (body headSet bytes).bind operandEntries = some es) :
    ∀ e ∈ es, e.2.Acts := by
  obtain ⟨v, hb, he⟩ := Option.bind_eq_some_iff.mp h
  obtain ⟨found, hf, hacts⟩ := hexact.headSet v hb
  rw [he] at hf
  exact Option.some.inj hf ▸ hacts

/-- A fold folds exactly again. -/
theorem FoldsExactly.fold (hl : FoldsExactly cs left) (hr : FoldsExactly cs right)
    (h : Fold cs other left right folded) (hfits : folded.length < 2 ^ 63) :
    FoldsExactly cs folded := by
  cases h with
  | headSet _ h =>
    obtain ⟨l, r, hlentries, hrentries, hes, -, -⟩ := fold_spec h hfits
    exact foldsExactly_headSet hes
      (acts_foldEntries (acts_of_foldsExactly hl hlentries) (acts_of_foldsExactly hr hrentries))
  | links _ h =>
    obtain ⟨_, _, -, hf⟩ := links_bodies h
    exact foldsExactly_of_ne hf (by decide) (by decide) (by decide)
  | document _ hleft hright ha hb he hc hvalue hdec =>
    exact foldsExactly_document hvalue hdec (foldable_of_fold he ha hb hdec
      (hl.document _ hleft _ ha) (hr.document _ hright _ hb) hc).2.2.2
  | int64 _ _ _ hsum hf => exact hf ▸ foldsExactly_int64 (length_addLegacy hsum)

theorem IsOperand.foldsExactly (h : IsOperand cs bytes) : FoldsExactly cs bytes := by
  induction h with
  | counterI64 delta => exact foldsExactly_int64 (Wire.length_toBe 8 _)
  | counterF32 | counterF64 | statsDelta | links | counts =>
    exact foldsExactly_of_ne (body_encode _ _) (by decide) (by decide) (by decide)
  | documentParts native encoded =>
    obtain ⟨v, hbody, hdec⟩ := documentParts_eq_some encoded
    exact foldsExactly_document hbody hdec native
  | @headSet write built fits =>
    have hf : ∀ e ∈ write.entries.toList.filter fun e => e.2 ≠ .identity, e.2.Acts ∧ e.2.canonical = e.2 :=
      fun e he => built.acts e (mem_of_mem_filter he)
    exact foldsExactly_headSet (operandEntries_encode (write.entries.sorted.filter _)
      (fun e he => (hf e he).2) fits) fun e he => (hf e he).1
  | fold _ _ h fits ihl ihr =>
    obtain ⟨_, h⟩ := fold_of_partialMerge h
    exact ihl.fold ihr h fits

/-! ### A fold does what its operands do -/

/-- A pair of steps that one step does may be done by it, wherever it stands in a run. -/
theorem foldlM_pair {σ ο : Type} {act : σ → ο → Option σ} (Inv : σ → Prop) {a b c : ο}
    (hkeep : ∀ s o t, Inv s → act s o = some t → Inv t)
    (hlaw : ∀ s, Inv s → (act s a).bind (fun t => act t b) = act s c) (after : List ο) :
    ∀ (before : List ο) {s : σ}, Inv s →
      (before ++ a :: b :: after).foldlM act s = (before ++ c :: after).foldlM act s
  | [], s, hs => by
    have := hlaw s hs
    rw [nil_append, nil_append, foldlM_cons, foldlM_cons, Option.bind_eq_bind,
      ← this, Option.bind_assoc]
    simp only [foldlM_cons, Option.bind_eq_bind]
  | o :: before, s, hs => by
    rw [cons_append, cons_append, foldlM_cons, foldlM_cons]
    cases hn : act s o with
    | none => rfl
    | some next => exact foldlM_pair Inv hkeep hlaw after before (hkeep s o next hs hn)

theorem foldlM_pair_of_law {σ ο : Type} {act : σ → ο → Option σ} {a b c : ο}
    (hlaw : ∀ s, (act s a).bind (fun t => act t b) = act s c) (before after : List ο) (s : σ) :
    (before ++ a :: b :: after).foldlM act s = (before ++ c :: after).foldlM act s :=
  foldlM_pair (fun _ => True) (fun _ _ _ _ _ => trivial) (fun s _ => hlaw s) after before trivial

section
variable {cs : Crdts} {left right folded : Bytes} {hash : Bytes → UInt64} {σ : Type} {act : σ → Bytes → Option σ}

theorem Fold.bodies (h : Fold cs other left right folded) :
    ∃ a c, body other left = some a ∧ body other folded = some c := by
  cases h with
  | headSet of h => exact of ▸ headSet_bodies h
  | links of h => exact of ▸ links_bodies h
  | document of hl _ _ _ _ _ hf _ => exact of ▸ ⟨_, _, hl, hf⟩
  | int64 of hl _ _ hf => exact of ▸ ⟨_, _, hl, hf ▸ body_encode _ _⟩

/-- A step that takes only operands of `kind` does a fold as it does the operands, when it does so for folds of its kind. -/
theorem Fold.law (h : Fold cs other left right folded) (hreject : ∀ s o, body kind o = none → act s o = none) (s : σ)
    (hsame : Fold cs kind left right folded → (act s left).bind (fun t => act t right) = act s folded) :
    (act s left).bind (fun t => act t right) = act s folded := by
  by_cases hk : kind = other
  · exact hsame (hk ▸ h)
  · obtain ⟨a, c, hl, hf⟩ := h.bodies
    rw [hreject s left (body_ne hl hk), hreject s folded (body_ne hf hk)]
    rfl

theorem additionsIn_append {a : Bytes} : ∀ {l : List (Nat × UInt64)} {b : Bytes}, Vector.additionsIn a = some l →
    Vector.additionsIn (a ++ b) = (Vector.additionsIn b).map (l ++ ·) := by
  fun_induction Vector.additionsIn a with
  | case1 =>
    intro l b h
    cases h
    simp
  | case2 b0 b1 b2 b3 c0 c1 c2 c3 c4 c5 c6 c7 rest ih =>
    intro l b h
    obtain ⟨l', hl', rfl⟩ := Option.map_eq_some_iff.mp h
    simp only [cons_append, Vector.additionsIn, ih hl', Option.map_map]
    rfl
  | case3 =>
    intro l b h
    cases h

theorem additions_fold (h : Vector.fold left right = some folded) : ∃ l r,
    (body vectorLinks left).bind Vector.additions = some l ∧ (body vectorLinks right).bind Vector.additions = some r ∧
      (body vectorLinks folded).bind Vector.additions = some (l ++ r) := by
  obtain ⟨a, ha, h⟩ := Option.bind_eq_some_iff.mp h
  obtain ⟨b, hb, h⟩ := Option.bind_eq_some_iff.mp h
  obtain ⟨l, hl, h⟩ := Option.bind_eq_some_iff.mp h
  obtain ⟨r, hr, h⟩ := Option.bind_eq_some_iff.mp h
  cases h
  refine ⟨l, r, by rw [ha]; exact hl, by rw [hb]; exact hr, ?_⟩
  rw [body_encode, Option.bind_some]
  unfold Vector.additions at hl hr ⊢
  rw [Option.ite_none_left_eq_some] at hl hr
  rw [if_neg (by simp at hl; simp [hl.1]), additionsIn_append hl.2, hr.2]
  rfl

theorem applyLinks_fold (h : Fold cs other left right folded) (node : Vector.Node) :
    (Vector.applyLinks node left).bind (fun next => Vector.applyLinks next right) = Vector.applyLinks node folded := by
  refine h.law (fun node o ho => by rw [Vector.applyLinks, ho]; rfl) node fun h => ?_
  rcases h with ⟨hk, -⟩ | ⟨-, h⟩ | ⟨hk⟩ | ⟨hk⟩
  case headSet | document | int64 => exact absurd hk (by decide)
  obtain ⟨l, r, hl, hr, hlr⟩ := additions_fold h
  have happly : ∀ {o : Bytes} {additions : List (Nat × UInt64)},
      (body vectorLinks o).bind Vector.additions = some additions →
      ∀ node, Vector.applyLinks node o = additions.foldlM Vector.addLink node := by
    intro o additions ho node
    obtain ⟨v, hv, ho⟩ := Option.bind_eq_some_iff.mp ho
    rw [Vector.applyLinks, hv, Option.bind_eq_bind, Option.bind_some, ho]
    rfl
  rw [happly hl, happly hlr, foldlM_append]
  simp only [happly hr]
  rfl

theorem applyCounts_fold (h : Fold cs other left right folded) (info : Vector.Meta) :
    (Vector.applyCounts info left).bind (fun next => Vector.applyCounts next right) = Vector.applyCounts info folded := by
  refine h.law (fun info o ho => by rw [Vector.applyCounts, ho]; rfl) info fun h => ?_
  rcases h with ⟨hk, -⟩ | ⟨hk, -⟩ | ⟨hk⟩ | ⟨hk⟩ <;> exact absurd hk (by decide)

theorem applyOperand_fold (h : Fold cs other left right folded) (hfits : folded.length < 2 ^ 63) {names : HeadSet.Names}
    (hstored : Stored names) :
    (applyOperand names left).bind (fun next => applyOperand next right) = applyOperand names folded := by
  refine h.law (fun names o ho => by rw [applyOperand, ho]; rfl) names fun h => ?_
  rcases h with ⟨-, h⟩ | ⟨hk, -⟩ | ⟨hk⟩ | ⟨hk⟩
  case links | document | int64 => exact absurd hk (by decide)
  exact HeadSet.applyOperand_fold h hfits hstored

theorem applyDocument_fold (h : Fold cs other left right folded) (hl : FoldsExactly cs left)
    (hr : FoldsExactly cs right) (v : StoredDocument) :
    (applyDocument cs v left).bind (fun next => applyDocument cs next right) =
      applyDocument cs v folded := by
  refine h.law (fun v o ho => by rw [applyDocument, ho]; rfl) v fun h => ?_
  rcases h with ⟨hk, -⟩ | ⟨hk, -⟩ | ⟨-, hleft, hright, ha, hb, he, hfold, hf, hc⟩ | ⟨hk⟩
  case headSet | links | int64 => exact absurd hk (by decide)
  obtain ⟨hfa, hfb, hfc, -⟩ := foldable_of_fold he ha hb hc (hl.document _ hleft _ ha) (hr.document _ hright _ hb) hfold
  have happly : ∀ {o bytes : Bytes} {parts : StoredDocument}, body document o = some bytes →
      StoredDocument.decode cs.cbor bytes = some parts → ∀ v, applyDocument cs v o = v.apply cs parts := by
    intro o bytes parts ho hp v
    rw [applyDocument, ho, Option.bind_eq_bind, Option.bind_some, hp]
    rfl
  rw [happly hleft ha, happly hf hc]
  simp only [happly hright hb]
  exact apply_fold hfa hfb hfc hfold v

theorem addLegacy_int64 {delta : Bytes} (h : delta.length = 8) : addLegacy .int64 v delta =
    if v = [] ∨ v.length = 8 then some (Wire.toBe 8 ((Wire.ofBe v + Wire.ofBe delta) % 2 ^ 64)) else none := by
  have hm : addLegacy .int64 v delta = (counterField.merged { name := "", kind := .int64, priority := 0, value := v }
      { name := "", kind := .int64, priority := 0, value := delta }).map StoredField.value := by
    rw [FieldCrdt.merged, Option.map_map]
    rfl
  rw [hm, counterField_merged rfl h]
  split <;> rfl

theorem addSum_fold (h : Fold cs other left right folded) (hl : FoldsExactly cs left) (hr : FoldsExactly cs right)
    (hkind : kind ≠ headSet ∧ kind ≠ vectorLinks ∧ kind ≠ document) (v : Bytes) :
    (addSum kind v left).bind (fun next => addSum kind next right) = addSum kind v folded := by
  refine h.law (fun v o ho => by rw [addSum, ho]; rfl) v fun h => ?_
  rcases h with ⟨hk, -⟩ | ⟨hk, -⟩ | ⟨hk⟩ | ⟨rfl, hleft, hright, hs, rfl⟩
  · exact absurd hk hkind.1
  · exact absurd hk hkind.2.1
  · exact absurd hk hkind.2.2
  have hadd : ∀ {o delta : Bytes}, body int64 o = some delta → ∀ v, addSum int64 v o = addLegacy .int64 v delta := by
    intro o delta ho v
    rw [addSum, ho]
    rfl
  have hla := hl.int64 _ hleft
  have hlb := hr.int64 _ hright
  have hls := length_addLegacy hs
  rw [addLegacy_int64 hlb, if_pos (.inr hla)] at hs
  rw [hadd hleft, hadd (body_encode int64 _), addLegacy_int64 hla, addLegacy_int64 hls]
  simp only [hadd hright]
  split
  · rw [Option.bind_some, addLegacy_int64 hlb, if_pos (.inr (Wire.length_toBe 8 _)), ← Option.some.inj hs,
      Wire.ofBe_toBe_mod, Wire.ofBe_toBe_mod]
    congr 2
    omega
  · rfl

/-- The full merge of operands of `kind`. -/
def fullOf (cs : Crdts) (kind : UInt8) (base : Option Bytes) (operands : List Bytes) : Option Bytes :=
  if kind = vectorLinks ∨ kind = vectorCounts then Vector.full kind base operands
  else if kind = headSet then full base operands
  else if kind = document then fullDocument cs base operands
  else operands.foldlM (addSum kind) (base.getD (zeroSum kind))

theorem fullMerge_cons (base : Option Bytes) (first : Bytes) (rest : List Bytes) :
    fullMerge cs base (first :: rest) = (decode first).bind fun p => fullOf cs p.1 base (first :: rest) := rfl

theorem full_fold (h : Fold cs other left right folded) (hl : FoldsExactly cs left) (hr : FoldsExactly cs right)
    (hfits : folded.length < 2 ^ 63) (kind : UInt8) (base : Option Bytes) (before after : List Bytes) :
    fullOf cs kind base (before ++ left :: right :: after) = fullOf cs kind base (before ++ folded :: after) := by
  unfold fullOf
  split
  · unfold Vector.full
    simp only [foldlM_pair_of_law (applyLinks_fold h), foldlM_pair_of_law (applyCounts_fold h)]
  · split
    · have hn : ∀ {names : Names}, Stored names →
          (before ++ left :: right :: after).foldlM applyOperand names =
            (before ++ folded :: after).foldlM applyOperand names := fun hs =>
        foldlM_pair Stored (fun _ _ _ hs ht => stored_applyOperand hs ht) (fun s hs => applyOperand_fold h hfits hs)
          after before hs
      cases base with
      | none =>
        change (Option.bind (foldlM _ _ _) _) = Option.bind (foldlM _ _ _) _
        rw [hn stored_empty]
      | some bytes =>
        refine Option.bind_congr fun names hstart => ?_
        obtain ⟨v, -, hv⟩ := Option.bind_eq_some_iff.mp hstart
        obtain ⟨es, hes, rfl⟩ := Option.map_eq_some_iff.mp hv
        obtain ⟨hsort, hstored⟩ := stateEntries_spec hes
        have hstart : Stored (ofList es) := fun e he =>
          hstored e ((mem_ofList_of_inj fun x hx y hy hxy =>
            inj_on_of_nodup_map (pairwise_map.mpr (hsort.imp ne_of_lt)) hx hy hxy).mp he)
        dsimp only
        rw [hn hstart]
    · split
      · unfold fullDocument
        simp only [foldlM_pair_of_law (applyDocument_fold h hl hr)]
      · rename_i hvector hhead hdocument
        exact foldlM_pair_of_law (addSum_fold h hl hr ⟨hhead, fun hk => hvector (.inl hk), hdocument⟩) before after _

/-- A fold merges as its two operands do, wherever they stand. -/
theorem fullMerge_fold (h : Fold cs other left right folded) (hl : FoldsExactly cs left) (hr : FoldsExactly cs right)
    (hfits : folded.length < 2 ^ 63) (base : Option Bytes) (before after : List Bytes) :
    fullMerge cs base (before ++ folded :: after) = fullMerge cs base (before ++ left :: right :: after) := by
  cases before with
  | nil =>
    obtain ⟨a, c, ha, hc⟩ := h.bodies
    rw [nil_append, nil_append, fullMerge_cons, fullMerge_cons, body_eq_some.mp ha, body_eq_some.mp hc]
    exact (full_fold h hl hr hfits other base [] after).symm
  | cons first before =>
    rw [cons_append, cons_append, fullMerge_cons]
    refine congrArg _ (funext fun p => ?_)
    exact (full_fold h hl hr hfits p.1 base (first :: before) after).symm

/-! ### What a fold touches -/

theorem touches_of_decode (h : body kind bytes = some v) (parts : List UInt32) : touches cs hash bytes parts =
      if kind = vectorLinks ∨ kind = vectorCounts then Vector.touches kind v parts
      else if kind = headSet then HeadSet.touches hash v parts
      else if kind = document then
        (StoredDocument.decode cs.cbor v).all fun d => d.fields.toList.any fun field => parts.contains field.1
      else true := by
  rw [touches, body_eq_some.mp h]

theorem headSet_touches (h : (body headSet bytes).bind operandEntries = some es) (parts : List UInt32) :
    touches cs hash bytes parts = (parts.isEmpty || parts.any (fun id => id &&& namePart = 0) ||
      (es.map Prod.fst).any fun name => parts.contains (part hash name)) := by
  obtain ⟨v, hv, he⟩ := Option.bind_eq_some_iff.mp h
  rw [touches_of_decode hv, HeadSet.touches, he, any_map]
  rfl

theorem document_touches {d : StoredDocument}
    (hb : body document bytes = some v) (hd : StoredDocument.decode cs.cbor v = some d)
    (parts : List UInt32) : touches cs hash bytes parts = d.fields.toList.any fun field => parts.contains field.1 := by
  rw [touches_of_decode hb, hd]
  rfl

theorem touches_fold (h : Fold cs other left right folded) (hl : FoldsExactly cs left)
    (hr : FoldsExactly cs right) (hfits : folded.length < 2 ^ 63) (parts : List UInt32) :
    touches cs hash folded parts = (touches cs hash left parts || touches cs hash right parts) := by
  cases h with
  | headSet _ h =>
    obtain ⟨l, r, hlentries, hrentries, hes, -, -⟩ := fold_spec h hfits
    have hnames : ∀ name, name ∈ (foldEntries l r).map Prod.fst ↔ name ∈ l.map Prod.fst ∨ name ∈ r.map Prod.fst :=
      fun name => mem_foldEntries (acts_of_foldsExactly hl hlentries) (acts_of_foldsExactly hr hrentries)
    rw [headSet_touches hlentries, headSet_touches hrentries, headSet_touches hes, Bool.eq_iff_iff]
    simp only [Bool.or_eq_true, any_eq_true, hnames, or_and_right, exists_or]
    exact or_or_distrib_left
  | links _ h =>
    obtain ⟨l, r, hladd, hradd, hadd⟩ := additions_fold h
    have ht : ∀ {bytes : Bytes} {additions : List (Nat × UInt64)},
        (body vectorLinks bytes).bind Vector.additions = some additions →
        touches cs hash bytes parts = parts.contains 1 := by
      intro bytes additions h
      obtain ⟨v, hv, h⟩ := Option.bind_eq_some_iff.mp h
      rw [touches_of_decode hv, Vector.touches, h]
      rfl
    rw [ht hladd, ht hradd, ht hadd, Bool.or_self]
  | @document _ a b c _ _ _ hleft hright ha hb he hc hf hdec =>
    have hfb := (foldable_of_fold he ha hb hdec (hl.document _ hleft _ ha) (hr.document _ hright _ hb) hc).2.1
    have hany : ∀ d : StoredDocument, (d.fields.toList.any fun field => parts.contains field.1) = true ↔
        ∃ id ∈ parts, (d.shape id).isSome := by
      intro d
      simp only [any_eq_true, contains_iff_mem, shape, Option.isSome_map, Option.isSome_iff_exists,
        part_eq_some]
      constructor
      · rintro ⟨⟨id, field⟩, hmem, hid⟩
        exact ⟨id, hid, field, hmem⟩
      · rintro ⟨id, hid, field, hmem⟩
        exact ⟨(id, field), hmem, hid⟩
    rw [document_touches hleft ha, document_touches hright hb, document_touches hf hdec, Bool.eq_iff_iff,
      Bool.or_eq_true, hany, hany, hany, shape_fold hfb hc]
    simp only [both, Option.isSome_or, Bool.or_eq_true, and_or_left, exists_or]
  | int64 _ hleft hright _ hf =>
    have ht : ∀ {bytes v : Bytes}, body Merge.int64 bytes = some v →
        touches cs hash bytes parts = true := by
      intro bytes v h
      rw [touches_of_decode h]
      rfl
    rw [ht hleft, ht (hf ▸ body_encode Merge.int64 _)]
    rfl

end

/-- In any order and grouping, folding leaves the merged value, or its failure, as it is, and a fold touches exactly the
    parts that one of its operands touches. -/
theorem folding_transparent (cs : Crdts) (hash : Bytes → UInt64) (base : Option Bytes) (operands folded : List Bytes)
    (hoperands : ∀ o ∈ operands, IsOperand cs o) (hfolds : Relation.ReflTransGen (FoldsPair cs) operands folded) :
    fullMerge cs base folded = fullMerge cs base operands ∧
      (∀ o ∈ folded, IsOperand cs o) ∧
      ∀ a ∈ folded, ∀ b ∈ folded, ∀ c, partialMerge cs a b = some c → c.length < 2 ^ 63 →
        ∀ parts, touches cs hash c parts = (touches cs hash a parts || touches cs hash b parts) := by
  have hrun : fullMerge cs base folded = fullMerge cs base operands ∧ ∀ o ∈ folded, IsOperand cs o := by
    induction hfolds with
    | refl => exact ⟨rfl, hoperands⟩
    | tail _ hstep ih =>
      obtain ⟨heq, hall⟩ := ih
      cases hstep with
      | @pair left right c before after h fits =>
        have hl := hall left (by simp)
        have hr := hall right (by simp)
        refine ⟨?_, fun o ho => ?_⟩
        · obtain ⟨_, hfold⟩ := fold_of_partialMerge h
          rw [fullMerge_fold hfold hl.foldsExactly hr.foldsExactly fits, heq]
        · rcases mem_append.mp ho with ho | ho
          · exact hall o (mem_append_left _ ho)
          · rcases mem_cons.mp ho with rfl | ho
            · exact .fold hl hr h fits
            · exact hall o (by simp [ho])
  refine ⟨hrun.1, hrun.2, fun a ha b hb c h hf parts => ?_⟩
  obtain ⟨_, h⟩ := fold_of_partialMerge h
  exact touches_fold h (hrun.2 a ha).foldsExactly (hrun.2 b hb).foldsExactly hf parts

def postParts : StoredDocument where
  fields := ofList [(1, ⟨"title", .lww, titlePriority, [title]⟩), (2, ⟨"votes", .int64, 1, [0, 0, 0, 0, 0, 0, 0, votes]⟩)]

noncomputable def postOperand : Bytes :=
  (documentParts limitedCbor (postParts titlePriority title votes)).getD []

/-- Three increments of a counter, and three operands of a document with a register and a counter, the last two folded into
    one. -/
theorem increments_and_posts_folded : fullMerge nativeCrdts none [counterI64 1, counterI64 5] =
        fullMerge nativeCrdts none [counterI64 1, counterI64 2, counterI64 3] ∧
      fullMerge nativeCrdts none [postOperand 1 5 2, postOperand 3 9 7] =
        fullMerge nativeCrdts none [postOperand 1 5 2, postOperand 3 9 3, postOperand 2 8 4] := by
  constructor
  · refine (folding_transparent nativeCrdts (fun _ => 0) none [counterI64 1, counterI64 2, counterI64 3] [counterI64 1, counterI64 5]
      ?_ (.single (.pair [counterI64 1] [] (by decide) (by decide)))).1
    simp only [forall_mem_cons]
    exact ⟨.counterI64 1, .counterI64 2, .counterI64 3, nofun⟩
  · have hoperand : ∀ titlePriority title votes, documentParts limitedCbor (postParts titlePriority title votes) =
        some (postOperand titlePriority title votes) → IsOperand nativeCrdts (postOperand titlePriority title votes) :=
      fun titlePriority title votes h => by
        refine .documentParts ?_ h
        exact List.forall_mem_cons.mpr ⟨rfl, List.forall_mem_singleton.mpr rfl⟩
    refine (folding_transparent nativeCrdts (fun _ => 0) none [postOperand 1 5 2, postOperand 3 9 3, postOperand 2 8 4]
      [postOperand 1 5 2, postOperand 3 9 7] ?_ (.single (.pair [postOperand 1 5 2] [] rfl (by decide)))).1
    simp only [forall_mem_cons]
    exact ⟨hoperand 1 5 2 rfl, hoperand 3 9 3 rfl, hoperand 2 8 4 rfl, nofun⟩

end Defra.Merge
