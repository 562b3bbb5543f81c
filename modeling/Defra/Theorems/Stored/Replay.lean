import Defra.Theorems.Stored.Past
import Defra.Theorems.Stored.Cbor
import Defra.Theorems.Stored.Part

/-! The Json field's replay returns what landing its blocks' operands one by one does. -/

namespace Defra.Stored
open KeyedList List Json Frontier

section
variable {f : Frontier} {ops : List JsonOp} {inPast : Bytes → Bool}

/-! ### What the ops of a block touch -/

theorem mem_touchedBy {t : Touched} : t ∈ touchedBy f ops ↔ ∃ op, ops[t.opIndex]? = some op ∧
    (t.below = true ∧ t.entry ∈ f.under (encodePath op.path) ∨
      t.below = false ∧ ∃ depth < op.path.length, t.entry ∈ f.atKey (encodePath (op.path.take depth))) := by
  obtain ⟨below, opIndex, entry⟩ := t
  simp only [touchedBy, mem_flatMap, mem_append, mem_map, mem_range, Touched.mk.injEq, Prod.exists,
    mem_zipIdx_iff_getElem?]
  constructor
  · rintro ⟨op, i, hop, ⟨_, he, rfl, rfl, rfl⟩ | ⟨depth, hd, _, he, rfl, rfl, rfl⟩⟩
    · exact ⟨op, hop, .inl ⟨rfl, he⟩⟩
    · exact ⟨op, hop, .inr ⟨rfl, depth, hd, he⟩⟩
  · rintro ⟨op, hop, ⟨rfl, he⟩ | ⟨rfl, depth, hd, he⟩⟩
    · exact ⟨op, opIndex, hop, .inl ⟨entry, he, rfl, rfl, rfl⟩⟩
    · exact ⟨op, opIndex, hop, .inr ⟨depth, hd, entry, he, rfl, rfl, rfl⟩⟩

/-- The entries that the ops touch and that the block knows of. -/
def touchedPast (f : Frontier) (ops : List JsonOp) (inPast : Bytes → Bool) : List Touched :=
  (touchedBy f ops).filter fun t => inPast t.entry.block

theorem seenBy_touchedPast {i : Nat} {op : JsonOp} (hop : ops[i]? = some op) :
    seenBy (touchedPast f ops inPast) i = f.seenAbove inPast op.path := by
  refine ext_mem fun w => ?_
  rw [seenBy, Frontier.seenAbove, mem_ofList_of_inj fun _ _ _ _ h => h,
    mem_ofList_of_inj fun _ _ _ _ h => h]
  simp only [touchedPast, mem_map, mem_filter, mem_flatMap, mem_range, mem_touchedBy, Bool.and_eq_true,
    Bool.not_eq_true', decide_eq_true_eq]
  constructor
  · rintro ⟨t, ⟨⟨⟨op', hop', hreach⟩, hpast⟩, hbelow, rfl⟩, rfl⟩
    rw [hop] at hop'
    cases hop'
    rcases hreach with ⟨habove, -⟩ | ⟨-, depth, hd, he⟩
    · rw [hbelow] at habove
      cases habove
    · exact ⟨depth, hd, ⟨t.entry, he, rfl⟩, hpast⟩
  · rintro ⟨depth, hd, ⟨entry, he, rfl⟩, hpast⟩
    exact ⟨⟨false, i, entry⟩, ⟨⟨⟨op, hop, .inr ⟨rfl, depth, hd, he⟩⟩, hpast⟩, rfl, rfl⟩, rfl⟩

theorem mem_removedBy_touchedPast {block : Bytes} {priority : Nat} {key : Bytes ×ₗ Bytes} :
    key ∈ removedBy (touchedPast f ops inPast) ↔
      key ∈ (f.delta ops block priority inPast).removes.toList.map removeKey := by
  simp only [removedBy, touchedPast, mem_map, mem_filter, mem_touchedBy]
  constructor
  · rintro ⟨t, ⟨⟨⟨op, hop, hreach⟩, hpast⟩, hbelow⟩, rfl⟩
    rcases hreach with ⟨-, he⟩ | ⟨habove, -⟩
    · refine ⟨(t.entry.path, t.entry.block), ?_, rfl⟩
      rw [← mem_def, Frontier.mem_delta_removes]
      rw [Frontier.under_eq_filter, mem_filter, isPrefixOf_iff_prefix] at he
      exact ⟨hpast, ⟨t.entry, he.1, rfl, rfl⟩, op, mem_of_getElem? hop, he.2⟩
    · rw [hbelow] at habove
      cases habove
  · rintro ⟨⟨path, block⟩, hr, rfl⟩
    rw [← mem_def, Frontier.mem_delta_removes] at hr
    obtain ⟨hpast, ⟨entry, he, rfl, rfl⟩, op, hop, hpre⟩ := hr
    obtain ⟨i, hi⟩ := getElem?_of_mem hop
    refine ⟨⟨true, i, entry⟩, ⟨⟨⟨op, hi, .inl ⟨rfl, ?_⟩⟩, hpast⟩, rfl⟩, rfl⟩
    rw [Frontier.under_eq_filter, mem_filter, isPrefixOf_iff_prefix]
    exact ⟨he, hpre⟩

theorem replayEntries_touchedPast (id : Bytes) (priority : UInt64) :
    replayEntries f.entries ops id priority (touchedPast f ops inPast) =
      (f.compose (f.delta ops id priority.toNat inPast)).settle.entries := by
  have hadded : (ops.zipIdx.map fun indexed =>
      ({ path := indexed.1.path, block := id, priority := priority.toNat, edit := indexed.1.edit
         seen := (seenBy (touchedPast f ops inPast) indexed.2).toList } : Entry)) =
      ops.map fun op => { path := op.path, block := id, priority := priority.toNat, edit := op.edit
                          seen := (f.seenAbove inPast op.path).toList } := by
    refine ext_getElem? fun i => ?_
    rw [getElem?_map, getElem?_map, getElem?_zipIdx]
    cases hop : ops[i]? with
    | none => rfl
    | some op => simp only [Option.map_some, Nat.zero_add, seenBy_touchedPast hop]
  have herase : f.entries.eraseAll (removedBy (touchedPast f ops inPast)) =
      f.entries.eraseAll ((f.delta ops id priority.toNat inPast).removes.toList.map removeKey) := by
    refine ext_mem fun entry => ?_
    rw [mem_eraseAll, mem_eraseAll, mem_removedBy_touchedPast]
  change (f.entries.eraseAll _).putAll _ = (f.entries.eraseAll _).putAll (ofList _ : KeyedList entryKey).toList
  rw [putAll_ofList]
  exact congrArg₂ putAll herase hadded

end

section
variable {json : JsonType}

/-! ### Values that are read back -/

/-- Every value that the block sets is read back from the stored field. -/
def JsonType.Reads (json : JsonType) (block : TaggedBlock) : Prop :=
  ∀ ops, json.decodeOps block.data = some ops → ∀ path edit, editAt ops path = some edit → json.cbor.ReadsEdit edit

def JsonType.idOf (json : JsonType) (block : TaggedBlock) : Bytes := json.blockId block.priority block.parents block.data

variable {f : Frontier} {g : Frontier} {order : List TaggedBlock} {s t : FoldState}

theorem reads_delta {ops : List JsonOp} {id : Bytes} {priority : Nat} {inPast : Bytes → Bool} :
    json.cbor.Reads (f.delta ops id priority inPast) ↔
      ∀ path edit, editAt ops path = some edit → json.cbor.ReadsEdit edit := by
  constructor
  · intro h path edit hedit
    exact h ⟨path, id, priority, edit, (f.seenAbove inPast path).toList⟩ (Frontier.mem_delta_entries.mpr ⟨hedit, rfl, rfl, rfl⟩)
  · intro h e he
    exact h e.path e.edit (Frontier.mem_delta_entries.mp he).1

theorem frontier_stored (hf : json.cbor.Reads f) (priority : UInt64) :
    json.cbor.frontier (json.stored priority f).value = some f := frontier_encode hf

theorem land_none (priority : UInt64) (hg : json.cbor.Reads g) :
    json.tagged.land none (json.stored priority g) = some (json.stored priority g.settle) := by
  have hdec := json.cbor.decode_encode g hg
  simp only [TaggedCrdt.land, JsonType.tagged, jsonField, Option.getD_some, Option.bind_eq_bind, Option.bind_some,
    JsonType.stored, hdec, Option.map_some]
  rw [if_neg (by simpa using json.cbor.encode_ne_nil g)]

theorem land_some (priority priority' : UInt64) {f g : Frontier} (hf : json.cbor.Reads f) (hg : json.cbor.Reads g) :
    json.tagged.land (some (json.stored priority f)) (json.stored priority' g) =
      some (json.stored (max priority priority') (f.compose g).settle) := by
  change (jsonField json.cbor).land (json.stored priority f) (json.stored priority' g) = _
  rw [jsonField_land, frontier_stored hf, frontier_stored hg]
  rfl

theorem reads_of_land {state : Option StoredField} {priority : UInt64} {landed : StoredField}
    (h : json.tagged.land state (json.stored priority g) = some landed) : json.cbor.Reads g := by
  have hdec : json.cbor.frontier (json.cbor.encode g) ≠ none := by
    cases state with
    | none =>
      intro hn
      rw [Cbor.frontier, if_neg (by simpa using json.cbor.encode_ne_nil g)] at hn
      simp only [TaggedCrdt.land, JsonType.tagged, jsonField, Option.getD_some, Option.bind_eq_bind, Option.bind_some,
        JsonType.stored, hn, Option.map_none] at h
      rw [if_neg (by simpa using json.cbor.encode_ne_nil g)] at h
      cases h
    | some state =>
      intro hn
      change (jsonField json.cbor).land state (json.stored priority g) = _ at h
      rw [jsonField_land] at h
      obtain ⟨f, -, h⟩ := Option.bind_eq_some_iff.mp h
      obtain ⟨_, hg, -⟩ := Option.map_eq_some_iff.mp h
      exact absurd (hg.symm.trans hn) (Option.some_ne_none _)
  intro e he
  by_contra hnot
  refine hdec ?_
  rw [Cbor.frontier, if_neg (by simpa using json.cbor.encode_ne_nil g), json.cbor.decode_encode_none g e he hnot]

theorem reads_of_foldBlock {block : TaggedBlock} (h : foldBlock json.tagged s block = some t) :
    json.decodeOps block.data ≠ none ∧ json.Reads block := by
  obtain ⟨past, -, h⟩ := Option.bind_eq_some_iff.mp h
  obtain ⟨operand, ho, h⟩ := Option.bind_eq_some_iff.mp h
  obtain ⟨state, hland, -⟩ := Option.bind_eq_some_iff.mp h
  obtain ⟨ops, hops, ho⟩ := Option.bind_eq_some_iff.mp ho
  obtain ⟨f, -, ho⟩ := Option.bind_eq_some_iff.mp ho
  cases ho
  refine ⟨fun hn => absurd (hops.symm.trans hn) (Option.some_ne_none _), fun ops' ho' => ?_⟩
  cases hops.symm.trans ho'
  exact reads_delta.mp (reads_of_land hland)

theorem reads_of_foldlM (h : order.foldlM (foldBlock json.tagged) s = some t) :
    ∀ block ∈ order, json.decodeOps block.data ≠ none ∧ json.Reads block := by
  induction order generalizing s with
  | nil => exact fun block hb => absurd hb not_mem_nil
  | cons first order ih =>
    obtain ⟨next, hf, h⟩ := Option.bind_eq_some_iff.mp h
    intro block hb
    rcases mem_cons.mp hb with rfl | hb
    · exact reads_of_foldBlock hf
    · exact ih h block hb

theorem replayBlock_eq_none {s : ReplayState} {block : TaggedBlock} :
    replayBlock json s block = none ↔ json.decodeOps block.data = none := by
  unfold replayBlock
  cases json.decodeOps block.data <;> simp

theorem foldlM_replayBlock_eq_none {s : ReplayState} :
    order.foldlM (replayBlock json) s = none ↔ ∃ block ∈ order, json.decodeOps block.data = none := by
  induction order generalizing s with
  | nil => simp
  | cons first order ih =>
    rw [foldlM_cons, exists_mem_cons_iff, ← replayBlock_eq_none (s := s)]
    cases replayBlock json s first with
    | none => simp
    | some next => simp [ih]

end

/-! ### The replay and the fold -/

/-- The highest priority of the blocks. -/
def highest (bs : List TaggedBlock) : UInt64 := bs.foldl (fun highest block => max highest block.priority) 0

def JsonType.merge (json : JsonType) (block : TaggedBlock) : Merged :=
  { cid := block.cid, id := json.idOf block, priority := block.priority, parents := block.parents }

/-- A history: no CID and no operation ID twice, every parent there and of a lower priority. -/
structure IsHistory (json : JsonType) (hist : List TaggedBlock) : Prop where
  cids : (hist.map TaggedBlock.cid).Nodup
  ids : (hist.map json.idOf).Nodup
  parents : ∀ block ∈ hist, ∀ parent ∈ block.parents, ∃ other ∈ hist, other.cid = parent ∧ other.priority < block.priority

/-- The same blocks merged, and the state is the one whose frontier is the entries. -/
structure Agree (json : JsonType) (done : List TaggedBlock) (s : ReplayState) (t : FoldState) : Prop where
  replayed : t.toReplayed = s.toReplayed
  merged : ∀ m, m ∈ s.merged ↔ ∃ block ∈ done, json.merge block = m
  state : t.state = if done = [] then none else some (json.stored (highest done) { entries := s.entries })
  made : ∀ e ∈ s.entries, ∃ block ∈ done, json.idOf block = e.block ∧ block.priority.toNat = e.priority
  reads : ∀ e ∈ s.entries, json.cbor.ReadsEdit e.edit

section
variable {json : JsonType} {hist done : List TaggedBlock} {block : TaggedBlock} {s : ReplayState} {t : FoldState}

theorem agree_start : Agree json [] {} {} where
  replayed := rfl
  merged m := by simp
  state := rfl
  made e he := absurd he (not_mem_empty e)
  reads e he := absurd he (not_mem_empty e)

namespace IsHistory
variable (hhistory : IsHistory json hist)
include hhistory

theorem eq_of_cid {a b : TaggedBlock} (ha : a ∈ hist) (hb : b ∈ hist) (h : a.cid = b.cid) : a = b :=
  inj_on_of_nodup_map hhistory.cids ha hb h

theorem eq_of_id {a b : TaggedBlock} (ha : a ∈ hist) (hb : b ∈ hist) (h : json.idOf a = json.idOf b) : a = b :=
  inj_on_of_nodup_map hhistory.ids ha hb h

theorem falls (h : Agree json done s t) (hd : ∀ b ∈ done, b ∈ hist) : Falls s.merged := by
  intro m hm n hn hpar
  obtain ⟨b, hb, rfl⟩ := (h.merged m).mp hm
  obtain ⟨c, hc, rfl⟩ := (h.merged n).mp hn
  obtain ⟨other, ho, hcid, hlt⟩ := hhistory.parents b (hd b hb) c.cid hpar
  rwa [hhistory.eq_of_cid ho (hd c hc) hcid] at hlt

/-- Where the walk stops does not matter, as long as it is not above. -/
theorem isSome_pastIds (h : Agree json done s t) (hd : ∀ b ∈ done, b ∈ hist) {e : Entry} (he : e ∈ s.entries)
    {parents : List Bytes} {lowest : UInt64} (hl : lowest ≤ .ofNat e.priority) :
    ((pastIds s.merged parents lowest).find? e.block).isSome = true ↔ ∃ m, Below s.merged parents m ∧ m.id = e.block := by
  have hmem : ((pastIds s.merged parents lowest).find? e.block).isSome = true ↔ e.block ∈ pastIds s.merged parents lowest := by
    rw [Option.isSome_iff_exists]
    constructor
    · rintro ⟨x, hx⟩
      obtain ⟨hx, rfl⟩ := find?_eq_some.mp hx
      exact hx
    · exact fun hx => ⟨_, find?_eq_some.mpr ⟨hx, rfl⟩⟩
  rw [hmem, mem_pastIds (hhistory.falls h hd)]
  constructor
  · rintro ⟨m, hm, -, hid⟩
    exact ⟨m, hm, hid⟩
  · rintro ⟨m, hm, hid⟩
    obtain ⟨b, hb, rfl⟩ := (h.merged m).mp hm.mem
    obtain ⟨c, hc, hcid, hp⟩ := h.made e he
    obtain rfl := hhistory.eq_of_id (hd b hb) (hd c hc) (hid.trans hcid.symm)
    refine ⟨_, hm, ?_, hid⟩
    rwa [← hp, UInt64.ofNat_toNat] at hl

end IsHistory

theorem entry_of_touched {f : Frontier} {ops : List JsonOp} {touched : Touched} (h : touched ∈ touchedBy f ops) :
    touched.entry ∈ f.entries := by
  obtain ⟨op, -, ⟨-, he⟩ | ⟨-, depth, -, he⟩⟩ := mem_touchedBy.mp h
  · rw [under_eq_filter] at he
    exact mem_of_mem_filter he
  · rw [atKey_eq_filter] at he
    exact mem_of_mem_filter he

/-- The past that a replay computes for a block. -/
def replayPast (s : ReplayState) (block : TaggedBlock) (ops : List JsonOp) : ByteSet :=
  if s.allPast block then ∅
  else pastIds s.merged block.parents
    (lowestOf ((touchedBy { entries := s.entries } ops).map fun t => .ofNat t.entry.priority))

theorem Agree.past_eq (h : Agree json done s t) (hhistory : IsHistory json hist) (hd : ∀ b ∈ done, b ∈ hist)
    (ops : List JsonOp) : ∃ past, t.past json.tagged block = some past ∧
      ∀ touched ∈ touchedBy { entries := s.entries } ops,
        (s.allPast block || ((replayPast s block ops).find? touched.entry.block).isSome) =
          (s.allPast block || (past.find? touched.entry.block).isSome) := by
  have hr : t.allPast block = s.allPast block := congrArg (Replayed.allPast · block) h.replayed
  have hm : t.merged = s.merged := congrArg Replayed.merged h.replayed
  unfold FoldState.past
  rw [h.state]
  by_cases hempty : done = []
  · rw [if_pos hempty]
    refine ⟨∅, rfl, fun touched ht => ?_⟩
    obtain ⟨b, hb, -⟩ := h.made _ (entry_of_touched ht)
    rw [hempty] at hb
    exact absurd hb not_mem_nil
  · rw [if_neg hempty]
    simp only
    rw [hr]
    by_cases hall : s.allPast block = true
    · rw [if_pos hall]
      exact ⟨∅, rfl, fun touched _ => by rw [hall, Bool.true_or, Bool.true_or]⟩
    · rw [if_neg hall]
      have htags : json.tagged.tags (json.stored (highest done) { entries := s.entries }) =
          some (s.entries.toList.map fun e => { priority := .ofNat e.priority, id := e.block }) := by
        simp only [JsonType.tagged, frontier_stored (show json.cbor.Reads { entries := s.entries } from h.reads),
          Option.map_some]
      rw [htags, hm]
      refine ⟨_, rfl, fun touched ht => ?_⟩
      have he := entry_of_touched ht
      congr 1
      rw [Bool.eq_iff_iff, replayPast, if_neg hall]
      refine (hhistory.isSome_pastIds h hd he ?_).trans (hhistory.isSome_pastIds h hd he ?_).symm
      · exact lowestOf_le (mem_map.mpr ⟨touched, ht, rfl⟩)
      · exact lowestOf_le (mem_map.mpr ⟨_, mem_map_of_mem he, rfl⟩)

/-- One block: the replay and the fold go on to agree. -/
theorem Agree.step (h : Agree json done s t) (hhistory : IsHistory json hist) (hd : ∀ b ∈ done, b ∈ hist)
    (hblock : block ∈ hist) (hnew : block ∉ done) (hops : json.decodeOps block.data ≠ none) (hr : json.Reads block) :
    ∃ s' t', replayBlock json s block = some s' ∧ foldBlock json.tagged t block = some t' ∧
      Agree json (done ++ [block]) s' t' := by
  obtain ⟨ops, hops⟩ := Option.ne_none_iff_exists'.mp hops
  obtain ⟨past, hpast, hagree⟩ := h.past_eq hhistory hd ops
  have hdelta : ∀ inPast, json.cbor.Reads (delta { entries := s.entries } ops (json.idOf block) block.priority.toNat inPast) :=
    fun _ => reads_delta.mpr (hr ops hops)
  have hf : json.cbor.Reads { entries := s.entries } := h.reads
  have ha : t.allPast block = s.allPast block := congrArg (Replayed.allPast · block) h.replayed
  have hpush : t.push (json.idOf block) block = s.push (json.idOf block) block :=
    congrArg (Replayed.push · (json.idOf block) block) h.replayed
  set inPast : Bytes → Bool := fun tag => s.allPast block || (past.find? tag).isSome with hi
  set operand := delta { entries := s.entries } ops (json.idOf block) block.priority.toNat inPast
  have ho : json.cbor.Reads operand := hdelta inPast
  set after := (compose { entries := s.entries } operand).settle with hafter
  -- The replay's entries are those of the composed frontier.
  have hreplay : replayBlock json s block =
      some { toReplayed := s.push (json.idOf block) block, entries := after.entries } := by
    have htouched : (touchedBy { entries := s.entries } ops).filter
        (fun t => s.allPast block || ((replayPast s block ops).find? t.entry.block).isSome) =
        touchedPast { entries := s.entries } ops inPast := filter_congr hagree
    rw [← replayEntries_touchedPast, ← htouched, replayBlock, hops]
    rfl
  have hs : json.frontier t.state = some { entries := s.entries } := by
    rw [h.state]
    split
    · rename_i hempty
      have hes : s.entries = ∅ := ext_mem fun e => by
        refine ⟨fun he => ?_, fun he => absurd he (not_mem_empty e)⟩
        obtain ⟨b, hb, -⟩ := h.made e he
        rw [hempty] at hb
        exact absurd hb not_mem_nil
      rw [hes]
      rfl
    · exact frontier_stored hf _
  have hl : json.tagged.land t.state (json.stored block.priority operand) =
      some (json.stored (highest (done ++ [block])) after) := by
    rw [highest, foldl_append, h.state]
    split
    · rename_i hempty
      rw [h.state, if_pos hempty] at hs
      have hes : ({ entries := s.entries } : Frontier) = {} := (Option.some.inj hs).symm
      have hsettled : after = operand.settle := by rw [hafter, hes, empty_compose]
      rw [land_none _ ho, hsettled, hempty]
      exact congrArg (fun p => some (json.stored p operand.settle)) (max_zero_left block.priority).symm
    · exact land_some _ _ hf ho
  have hfold : foldBlock json.tagged t block =
      some { toReplayed := s.push (json.idOf block) block, state := some (json.stored (highest (done ++ [block])) after) } := by
    have heffect : json.tagged.effect t.state block.data (json.idOf block) block.priority inPast =
        some (json.stored block.priority operand) := by
      simp only [JsonType.tagged, hops, hs, Option.bind_eq_bind, Option.bind_some, Option.pure_def]
      rfl
    rw [foldBlock, hpast, ha]
    change Option.bind (json.tagged.effect t.state block.data (json.idOf block) block.priority inPast) _ = _
    rw [heffect]
    change Option.bind (json.tagged.land t.state (json.stored block.priority operand)) _ = _
    rw [hl, ← hpush]
    rfl
  refine ⟨_, _, hreplay, hfold, rfl, fun m => ?_, ?_, fun e he => ?_, fun e he => ?_⟩
  · change m ∈ s.merged.put (json.merge block) ↔ _
    rw [mem_put, h.merged]
    constructor
    · rintro (rfl | ⟨⟨b, hb, rfl⟩, -⟩)
      · exact ⟨block, by simp, rfl⟩
      · exact ⟨b, mem_append_left _ hb, rfl⟩
    · rintro ⟨b, hb, rfl⟩
      rcases mem_append.mp hb with hb | hb
      · refine .inr ⟨⟨b, hb, rfl⟩, fun hcid => hnew ?_⟩
        rwa [← hhistory.eq_of_cid (hd b hb) hblock hcid]
      · exact .inl (congrArg json.merge (mem_singleton.mp hb))
  · rw [if_neg (append_ne_nil_of_right_ne_nil _ (cons_ne_nil _ _))]
    rfl
  · rcases mem_compose_entries.mp he with he | ⟨he, -⟩
    · obtain ⟨-, hid, hp, -⟩ := mem_delta_entries.mp he
      exact ⟨block, by simp, hid.symm, hp.symm⟩
    · obtain ⟨b, hb, hm⟩ := h.made e he
      exact ⟨b, mem_append_left _ hb, hm⟩
  · exact reads_compose hf ho e he

theorem Agree.run (hhistory : IsHistory json hist) {rest : List TaggedBlock} (h : Agree json done s t)
    (hperm : (done ++ rest).Perm hist) (hall : ∀ b ∈ hist, json.decodeOps b.data ≠ none ∧ json.Reads b) :
    ∃ s' t', rest.foldlM (replayBlock json) s = some s' ∧ rest.foldlM (foldBlock json.tagged) t = some t' ∧
      Agree json (done ++ rest) s' t' := by
  induction rest generalizing done s t with
  | nil => exact ⟨s, t, rfl, rfl, by rwa [append_nil]⟩
  | cons block rest ih =>
    have hblock : block ∈ hist := hperm.mem_iff.mp (by simp)
    have hnodup : (done ++ block :: rest).Nodup := hperm.nodup_iff.mpr (Nodup.of_map _ hhistory.cids)
    have hnew : block ∉ done := fun hmem => disjoint_of_nodup_append hnodup hmem mem_cons_self
    obtain ⟨s', t', hs, ht, h'⟩ := h.step hhistory (fun b hb => hperm.mem_iff.mp (mem_append_left _ hb)) hblock hnew
      (hall block hblock).1 (hall block hblock).2
    obtain ⟨s'', t'', hs', ht', h''⟩ := ih h' (by rwa [append_assoc])
    refine ⟨s'', t'', ?_, ?_, by rwa [append_assoc] at h''⟩
    · rw [foldlM_cons, hs]
      exact hs'
    · rw [foldlM_cons, ht]
      exact ht'

theorem highest_perm {a b : List TaggedBlock} (h : a.Perm b) : highest a = highest b :=
  h.foldl_eq' (fun x _ y _ z => by rw [max_right_comm]) 0

/-- The replay is the fold when some block's ops do not decode, which fails both, or when every block's edits can be read
    back from a frontier; otherwise only the fold fails. -/
theorem replay_eq_foldHistory_iff (json : JsonType) {hist : List TaggedBlock} (hhistory : IsHistory json hist)
    (hne : hist ≠ []) : replay json hist = foldHistory json.tagged hist ↔
      (∃ block ∈ hist, json.decodeOps block.data = none) ∨ ∀ block ∈ hist, json.Reads block := by
  have hsort : (sortBlocks hist).Perm hist := mergeSort_perm _ _
  have hreplay : replay json hist = ((sortBlocks hist).foldlM (replayBlock json) {}).map fun s =>
      some (json.stored (highest hist) { entries := s.entries }) := by
    obtain ⟨first, rest, rfl⟩ := exists_cons_of_ne_nil hne
    rw [replay, highest, foldl_cons, max_zero_left]
    cases (sortBlocks (first :: rest)).foldlM (replayBlock json) {} <;> rfl
  have hfold : foldHistory json.tagged hist =
      ((sortBlocks hist).foldlM (foldBlock json.tagged) {}).map (·.state) := by
    rw [foldHistory]
    cases (sortBlocks hist).foldlM (foldBlock json.tagged) {} <;> rfl
  rw [hreplay, hfold]
  by_cases hdecodes : ∃ block ∈ hist, json.decodeOps block.data = none
  · -- Neither run gets past that block.
    refine iff_of_true ?_ (.inl hdecodes)
    obtain ⟨block, hblock, hn⟩ := hdecodes
    have hb' := hsort.mem_iff.mpr hblock
    rw [foldlM_replayBlock_eq_none.mpr ⟨block, hb', hn⟩]
    cases hr : (sortBlocks hist).foldlM (foldBlock json.tagged) {} with
    | none => rfl
    | some t => exact absurd hn (reads_of_foldlM hr block hb').1
  · rw [or_iff_right hdecodes]
    push Not at hdecodes
    constructor
    · intro heq block hblock
      cases hr : (sortBlocks hist).foldlM (foldBlock json.tagged) {} with
      | none =>
        rw [hr, Option.map_none, Option.map_eq_none_iff, foldlM_replayBlock_eq_none] at heq
        obtain ⟨b, hb, hn⟩ := heq
        exact absurd hn (hdecodes b (hsort.mem_iff.mp hb))
      | some t => exact (reads_of_foldlM hr block (hsort.mem_iff.mpr hblock)).2
    · intro hreads
      obtain ⟨s, t, hs, ht, h⟩ := agree_start.run hhistory (by simpa using hsort)
        fun b hb => ⟨hdecodes b hb, hreads b hb⟩
      have hsorted : sortBlocks hist ≠ [] := fun hnil => hne (perm_nil.mp (hnil ▸ hsort.symm))
      rw [hs, ht, Option.map_some, Option.map_some, h.state, nil_append, if_neg hsorted, highest_perm hsort]

end

/-! ### Values nested too deep

A block's ops are read from three levels of nesting down, a list, an op and its edit, and a frontier's from four: it is a map
that holds the list. The reader stops at 256 levels, so a value of 253 nested arrays is read from a block and not from a
frontier. -/

/-- Arrays within arrays. -/
def nested : Nat → Value
  | 0 => .array []
  | n + 1 => .array [nested n]

theorem depth_nested (n : Nat) : depth (nested n) = n + 1 := by
  induction n with
  | zero => rfl
  | succ n ih => rw [nested, depth, depthItems, depthItems, ih, max_eq_left (Nat.zero_le _)]

/-- A value of nested arrays, the innermost empty, read down to a number of levels. -/
def readArrays : Nat → Bytes → Option Value
  | _ + 1, [0x80] => some (.array [])
  | levels + 1, 0x81 :: rest => (readArrays levels rest).map fun item => .array [item]
  | _, _ => none

theorem readArrays_nested {n levels : Nat} (h : n < levels) : readArrays levels (replicate n 0x81 ++ [0x80]) = some (nested n) := by
  induction n generalizing levels with
  | zero =>
    obtain ⟨levels, rfl⟩ := Nat.exists_eq_succ_of_ne_zero h.ne_bot
    rfl
  | succ n ih =>
    obtain ⟨levels, rfl⟩ := Nat.exists_eq_succ_of_ne_zero h.ne_bot
    rw [replicate_succ, cons_append, readArrays, ih (Nat.lt_of_succ_lt_succ h)]
    rfl

/-- The list of one op that sets `path`, up to the value. -/
def setHeader (path : Path) : Bytes :=
  [0x81, 0xa2, 0x64, 0x70, 0x61, 0x74, 0x68, UInt8.ofNat (0x80 + path.length)] ++
    path.flatMap (fun name => UInt8.ofNat (0x60 + (utf8 name).length) :: utf8 name) ++
    [0x64, 0x65, 0x64, 0x69, 0x74, 0xa1, 0x63, 0x73, 0x65, 0x74]

def setData (path : Path) (n : Nat) : Bytes := setHeader path ++ (replicate n 0x81 ++ [0x80])

def readSet (data : Bytes) (path : Path) : Option (List JsonOp) := do
  let v ← readArrays 253 (← data.dropPrefix? (setHeader path))
  return [{ path, edit := .set v }]

/-- It reads the ops that set the whole value, or its member `a`, to nested arrays. -/
noncomputable def notes : JsonType where
  name := "notes"
  blockId priority _ data := UInt8.ofNat priority.toNat :: data
  decodeOps data := (readSet data []).or (readSet data ["a"])
  cbor := limitedCbor

theorem decodeOps_setData {path : Path} (hp : path = [] ∨ path = ["a"]) {n : Nat} (h : n ≤ 252) :
    notes.decodeOps (setData path n) = some [{ path, edit := .set (nested n) }] := by
  have hread : ∀ path, readSet (setData path n) path = some [{ path, edit := .set (nested n) }] := by
    intro path
    have hdrop : (setData path n).dropPrefix? (setHeader path) = some (replicate n 0x81 ++ [0x80]) :=
      dropPrefix?_eq_some_iff.mpr ⟨_, rfl, beq_self_eq_true _⟩
    rw [readSet, hdrop, Option.bind_eq_bind, Option.bind_some, readArrays_nested (Nat.lt_succ_of_le h)]
    rfl
  show (readSet _ []).or (readSet _ ["a"]) = _
  rcases hp with rfl | rfl
  · rw [hread]
    rfl
  · have hn : readSet (setData ["a"] n) [] = none := rfl
    rw [hn, hread]
    rfl

def deepBlock : TaggedBlock := { cid := [1], parents := [], priority := 1, data := setData [] 252 }

/-- The replay of that one block returns a state, the fold fails. -/
theorem deep_value_differs :
    (replay notes [deepBlock]).isSome = true ∧ foldHistory notes.tagged [deepBlock] = none := by
  have hdec : notes.decodeOps deepBlock.data = some [{ path := [], edit := .set (nested 252) }] :=
    decodeOps_setData (.inl rfl) le_rfl
  have hsort : sortBlocks [deepBlock] = [deepBlock] := mergeSort_singleton _
  constructor
  · have hrun : [deepBlock].foldlM (replayBlock notes) {} ≠ none := by
      rw [ne_eq, foldlM_replayBlock_eq_none]
      simp [hdec]
    obtain ⟨s, hs⟩ := Option.ne_none_iff_exists'.mp hrun
    rw [replay, hsort, hs]
    rfl
  · rw [foldHistory, hsort]
    cases hrun : [deepBlock].foldlM (foldBlock notes.tagged) {} with
    | none => rfl
    | some t =>
      have hreads : depth (nested 252) ≤ 252 := ((reads_of_foldlM hrun) deepBlock mem_cons_self).2 _ hdec [] _ rfl
      rw [depth_nested] at hreads
      omega

/-- Two blocks on one, the first with the deepest value that a frontier can hold, and one on both. -/
def twoWriters : List TaggedBlock :=
  [{ cid := [4], parents := [[2], [3]], priority := 3, data := setData ["a"] 1 },
    { cid := [2], parents := [[1]], priority := 2, data := setData ["a"] 251 },
    { cid := [3], parents := [[1]], priority := 2, data := setData [] 7 },
    { cid := [1], parents := [], priority := 1, data := setData [] 0 }]

theorem twoWriters_replay :
    replay notes twoWriters = foldHistory notes.tagged twoWriters ∧ (replay notes twoWriters).isSome = true := by
  have hd : ∀ block ∈ twoWriters, ∃ path n, n ≤ 251 ∧
      notes.decodeOps block.data = some [{ path, edit := .set (nested n) }] := by
    simp only [twoWriters, forall_mem_cons]
    exact ⟨⟨["a"], 1, by decide, decodeOps_setData (.inr rfl) (by decide)⟩,
      ⟨["a"], 251, by decide, decodeOps_setData (.inr rfl) (by decide)⟩,
      ⟨[], 7, by decide, decodeOps_setData (.inl rfl) (by decide)⟩,
      ⟨[], 0, by decide, decodeOps_setData (.inl rfl) (by decide)⟩, nofun⟩
  constructor
  · refine (replay_eq_foldHistory_iff notes ⟨by decide, by decide, by decide⟩ (by decide)).mpr (.inr ?_)
    intro block hb ops ho path edit he
    obtain ⟨path', n, hn, hdec⟩ := hd block hb
    cases hdec.symm.trans ho
    obtain ⟨op, hop, rfl⟩ := Option.map_eq_some_iff.mp he
    obtain rfl := mem_singleton.mp (mem_reverse.mp (mem_of_find?_eq_some hop))
    show depth (nested n) ≤ 252
    rw [depth_nested]
    exact Nat.succ_le_succ hn
  · have hrun : (sortBlocks twoWriters).foldlM (replayBlock notes) {} ≠ none := by
      rw [ne_eq, foldlM_replayBlock_eq_none]
      rintro ⟨block, hb, hnone⟩
      obtain ⟨path, n, -, hdec⟩ := hd block ((mergeSort_perm _ _).mem_iff.mp hb)
      cases hdec.symm.trans hnone
    obtain ⟨s, hs⟩ := Option.ne_none_iff_exists'.mp hrun
    rw [twoWriters] at hs ⊢
    rw [replay, hs]
    rfl

end Defra.Stored
