import Defra.Json.History
import Defra.Theorems.Json.Path

/-! What a frontier holds after a block merges: the block's own edits, and the edits it had not seen or does not
    reach. -/

namespace Defra.Json
open KeyedList List

theorem entryKey_eq_iff {a b : Entry} : entryKey a = entryKey b ↔ a.path = b.path ∧ a.block = b.block := by
  simp only [entryKey, toLex_inj, Prod.mk.injEq]
  exact and_congr_left fun _ => ⟨encodePath_inj, fun h => h ▸ rfl⟩

theorem removeKey_eq_iff {r : Path × Bytes} {e : Entry} : removeKey r = entryKey e ↔ r = (e.path, e.block) := by
  obtain ⟨path, block⟩ := r
  simp only [removeKey, entryKey, toLex_inj, Prod.mk.injEq]
  exact and_congr_left fun _ => ⟨encodePath_inj, fun h => h ▸ rfl⟩

theorem removeKey_inj {r r' : Path × Bytes} (h : removeKey r = removeKey r') : r = r' := by
  simp only [removeKey, toLex_inj, Prod.mk.injEq] at h
  exact Prod.ext (encodePath_inj h.1) h.2

namespace Frontier
variable (f : Frontier)

theorem lo_le_iff (key : Bytes) (entry : Entry) : toLex (key, ([] : Bytes)) ≤ entryKey entry ↔ key ≤ encodePath entry.path := by
  rw [Prod.Lex.le_iff]
  constructor
  · rintro (h | ⟨h, -⟩)
    · exact h.le
    · exact h.le
  · intro h
    exact h.lt_or_eq.imp_right fun he => ⟨he, Bytes.le_of_prefix nil_prefix⟩

theorem under_eq_filter (path : Path) :
    f.under (encodePath path) = f.entries.toList.filter fun entry => path.isPrefixOf entry.path := by
  have hp : (fun entry : Entry => (encodePath path).isPrefixOf (encodePath entry.path)) =
      fun entry => path.isPrefixOf entry.path := by
    funext entry
    rw [Bool.eq_iff_iff, isPrefixOf_iff_prefix, isPrefixOf_iff_prefix, encodePath_prefix_iff]
  rw [under, rangeWhile_eq_filter, hp]
  · intro entry _ hpre
    rw [lo_le_iff]
    exact Bytes.le_of_prefix ( isPrefixOf_iff_prefix.mp hpre)
  · intro x _ y _ hlo hxy hpre
    rw [lo_le_iff] at hlo
    rw [ isPrefixOf_iff_prefix] at hpre ⊢
    refine Bytes.prefix_of_between hlo ?_ hpre
    rcases Prod.Lex.lt_iff.mp hxy with hlt | ⟨he, -⟩
    · exact hlt.le
    · exact he.le

theorem atKey_eq_filter (path : Path) :
    f.atKey (encodePath path) = f.entries.toList.filter fun entry => entry.path = path := by
  have hp : (fun entry : Entry => decide (encodePath entry.path = encodePath path)) =
      fun entry : Entry => decide (entry.path = path) := by
    funext entry
    exact decide_eq_decide.mpr ⟨encodePath_inj, fun h => h ▸ rfl⟩
  rw [atKey, rangeWhile_eq_filter, hp]
  · intro entry _ he
    rw [lo_le_iff, of_decide_eq_true he]
  · intro x _ y _ hlo hxy he
    rw [lo_le_iff] at hlo
    have he := of_decide_eq_true he
    refine decide_eq_true (le_antisymm ?_ hlo)
    rcases Prod.Lex.lt_iff.mp hxy with hlt | ⟨heq, -⟩
    · exact (hlt.le.trans_eq he : _)
    · exact heq.le.trans_eq he

theorem mem_seenAbove {inPast : Bytes → Bool} {path : Path} {w : Bytes} : w ∈ f.seenAbove inPast path ↔
    inPast w = true ∧ ∃ entry ∈ f.entries, entry.block = w ∧ entry.path <+: path ∧ entry.path ≠ path := by
  rw [seenAbove, mem_ofList_of_inj fun _ _ _ _ h => h]
  simp only [mem_flatMap, mem_range, mem_filter, mem_map, atKey_eq_filter, decide_eq_true_eq]
  constructor
  · rintro ⟨depth, hd, ⟨entry, ⟨hentry, hp⟩, rfl⟩, hpast⟩
    refine ⟨hpast, entry, hentry, rfl, hp ▸ take_prefix depth path, fun he => ?_⟩
    rw [he] at hp
    have := congrArg length hp
    rw [length_take] at this
    omega
  · rintro ⟨hpast, entry, hentry, rfl, hp, hne⟩
    have hlt : entry.path.length < path.length :=
      lt_of_le_of_ne hp.length_le fun he => hne (hp.eq_of_length he)
    exact ⟨entry.path.length, hlt, ⟨entry, ⟨hentry, prefix_iff_eq_take.mp hp⟩, rfl⟩, hpast⟩

variable {f} {ops : List JsonOp} {block : Bytes} {priority : Nat} {inPast : Bytes → Bool}

theorem mem_delta_removes {path : Path} {b : Bytes} : (path, b) ∈ (f.delta ops block priority inPast).removes ↔
    inPast b = true ∧ (∃ entry ∈ f.entries, entry.path = path ∧ entry.block = b) ∧ ∃ op ∈ ops, op.path <+: path := by
  rw [delta, mem_ofList_of_inj fun _ _ _ _ h => removeKey_inj h]
  simp only [mem_flatMap, mem_map, mem_filter, under_eq_filter, Prod.mk.injEq, isPrefixOf_iff_prefix]
  constructor
  · rintro ⟨op, hop, entry, ⟨⟨he, hpre⟩, hpast⟩, rfl, rfl⟩
    exact ⟨hpast, ⟨entry, he, rfl, rfl⟩, op, hop, hpre⟩
  · rintro ⟨hpast, ⟨entry, he, rfl, rfl⟩, op, hop, hpre⟩
    exact ⟨op, hop, entry, ⟨⟨he, hpre⟩, hpast⟩, rfl, rfl⟩

/-- The last edit of the ops at a path. -/
def editAt (ops : List JsonOp) (path : Path) : Option JsonEdit := (ops.reverse.find? fun op => op.path = path).map (·.edit)

theorem mem_delta_entries {entry : Entry} : entry ∈ (f.delta ops block priority inPast).entries ↔
    editAt ops entry.path = some entry.edit ∧ entry.block = block ∧ entry.priority = priority ∧
      entry.seen = (f.seenAbove inPast entry.path).toList := by
  -- Within one block, an entry's key is its path.
  have hk : entry.block = block → ∀ op : JsonOp,
      (entryKey ⟨op.path, block, priority, op.edit, (f.seenAbove inPast op.path).toList⟩ = entryKey entry ↔
        op.path = entry.path) := fun hb op => by
    rw [entryKey_eq_iff]
    exact and_iff_left hb.symm
  rw [delta, mem_ofList, ← map_reverse, find?_map, Option.map_eq_some_iff, editAt,
    Option.map_eq_some_iff]
  constructor
  · rintro ⟨op, hf, rfl⟩
    simp only [Function.comp_def, hk rfl] at hf
    exact ⟨⟨op, hf, rfl⟩, rfl, rfl, rfl⟩
  · rintro ⟨⟨op, hf, he⟩, hb, hp, hs⟩
    refine ⟨op, ?_, ?_⟩
    · simpa only [Function.comp_def, hk hb] using hf
    · have hpath : op.path = entry.path := by simpa using find?_some hf
      cases entry
      simp_all

theorem mem_compose_entries {later : Frontier} {entry : Entry} : entry ∈ (f.compose later).entries ↔
    entry ∈ later.entries ∨ entry ∈ f.entries ∧ (entry.path, entry.block) ∉ later.removes ∧
      ∀ other ∈ later.entries, ¬ (other.path = entry.path ∧ other.block = entry.block) := by
  rw [compose, mem_putAll_of_inj fun _ hx _ hy h => eq_of_key hx hy h, mem_eraseAll,
    and_assoc]
  refine or_congr_right (and_congr_right fun _ => and_congr (not_congr ?_) ?_)
  · rw [mem_map]
    constructor
    · rintro ⟨r, hr, he⟩
      exact removeKey_eq_iff.mp he ▸ hr
    · exact fun h => ⟨_, h, rfl⟩
  · exact forall₂_congr fun other _ => not_congr entryKey_eq_iff

theorem mem_compose_removes {later : Frontier} {remove : Path × Bytes} :
    remove ∈ (f.compose later).removes ↔ remove ∈ f.removes ∨ remove ∈ later.removes := by
  have hrun : ∀ (l : List (Path × Bytes)) (s : KeyedList removeKey), remove ∈ l.foldl .add s ↔ remove ∈ s ∨ remove ∈ l := by
    intro l
    induction l with
    | nil => simp
    | cons r l ih =>
      intro s
      rw [foldl_cons, ih, mem_add fun z _ h => removeKey_inj h, mem_cons]
      tauto
  exact hrun later.removes.toList f.removes

/-- Composing is associative: an operand may take a later one in before its base is known. -/
theorem compose_assoc (g h : Frontier) : (f.compose g).compose h = f.compose (g.compose h) := by
  have hremoves : ((f.compose g).compose h).removes = (f.compose (g.compose h)).removes := by
    refine ext_mem fun r => ?_
    rw [mem_compose_removes, mem_compose_removes, mem_compose_removes, mem_compose_removes, or_assoc]
  have hes : ((f.compose g).compose h).entries = (f.compose (g.compose h)).entries := by
    refine ext_mem fun e => ?_
    simp only [mem_compose_entries, mem_compose_removes]
    constructor
    · rintro (he | ⟨he | ⟨he, hg, hgo⟩, hh, hho⟩)
      · exact .inl (.inl he)
      · exact .inl (.inr ⟨he, hh, hho⟩)
      · refine .inr ⟨he, fun hr => hr.elim hg hh, fun o ho => ?_⟩
        exact ho.elim (hho o) fun ho => hgo o ho.1
    · rintro ((he | ⟨he, hh, hho⟩) | ⟨he, hr, ho⟩)
      · exact .inl he
      · exact .inr ⟨.inl he, hh, hho⟩
      · have hho : ∀ o ∈ h.entries, ¬ (o.path = e.path ∧ o.block = e.block) := fun o hmem => ho o (.inl hmem)
        refine .inr ⟨.inr ⟨he, fun hg => hr (.inl hg), fun o hmem hkey => ?_⟩, fun hh => hr (.inr hh), hho⟩
        -- An entry of `g` in this one's place is still there after `h`, which removes and writes nothing there.
        refine ho o (.inr ⟨hmem, ?_, ?_⟩) hkey
        · rw [hkey.1, hkey.2]
          exact fun hh => hr (.inr hh)
        · rw [hkey.1, hkey.2]
          exact hho
  exact congrArg₂ Frontier.mk hremoves hes

theorem empty_compose : ({} : Frontier).compose f = f := by
  have hr : (({} : Frontier).compose f).removes = f.removes := by
    refine ext_mem fun r => ?_
    rw [mem_compose_removes]
    exact or_iff_right (not_mem_empty r)
  have he : (({} : Frontier).compose f).entries = f.entries := by
    refine ext_mem fun e => ?_
    rw [mem_compose_entries]
    exact or_iff_left fun h => not_mem_empty e h.1
  exact congrArg₂ Frontier.mk hr he

theorem settle_compose_settle (g : Frontier) : (f.settle.compose g).settle = (f.compose g).settle := rfl

/-- An op is at the path or above it. -/
def Reaches (ops : List JsonOp) (path : Path) : Prop := ∃ op ∈ ops, op.path <+: path

theorem reaches_of_editAt {path : Path} {edit : JsonEdit} (h : editAt ops path = some edit) : Reaches ops path := by
  obtain ⟨op, hf, -⟩ := Option.map_eq_some_iff.mp h
  have hp : op.path = path := by simpa using find?_some hf
  exact ⟨op, mem_reverse.mp (mem_of_find?_eq_some hf), hp ▸ prefix_rfl⟩

theorem exists_editAt {op : JsonOp} (h : op ∈ ops) : ∃ edit, editAt ops op.path = some edit := by
  cases hf : ops.reverse.find? (fun o => o.path = op.path) with
  | none => simpa using find?_eq_none.mp hf op (mem_reverse.mpr h)
  | some o => exact ⟨o.edit, by rw [editAt, hf]; rfl⟩

end Frontier

open Frontier

/-- What a merge leaves: the block's own entries, and those it had not seen or does not reach. -/
theorem mem_mergeBlock {inPast : Bytes → Bytes → Bool} {f : Frontier} {block : JsonBlock} {entry : Entry}
    (hfresh : ∀ e ∈ f.entries, e.block ≠ block.id) : entry ∈ (mergeBlock inPast f block).entries ↔
      (editAt block.ops entry.path = some entry.edit ∧ entry.block = block.id ∧ entry.priority = block.priority ∧
        entry.seen = (f.seenAbove (inPast block.id) entry.path).toList) ∨
      entry ∈ f.entries ∧ ¬ (inPast block.id entry.block = true ∧ Reaches block.ops entry.path) := by
  rw [mergeBlock, settle, mem_compose_entries, mem_delta_entries, mem_delta_removes]
  refine or_congr_right (and_congr_right fun he => ?_)
  constructor
  · rintro ⟨hkept, -⟩ ⟨hpast, op, hop, hpre⟩
    exact hkept ⟨hpast, ⟨entry, he, rfl, rfl⟩, op, hop, hpre⟩
  · intro hkept
    refine ⟨fun ⟨hpast, _, hreach⟩ => hkept ⟨hpast, hreach⟩, fun other ho ⟨_, hb⟩ => ?_⟩
    exact hfresh entry he (hb ▸ (mem_delta_entries.mp ho).2.1)

end Defra.Json
