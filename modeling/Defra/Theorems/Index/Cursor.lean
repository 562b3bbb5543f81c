import Defra.Theorems.Index.Range

/-! A cursor's scan of an index returns exactly what comes after the cursor. -/

namespace Defra.Index
open List KeyOrder Reader

def readEntry (desc : IndexDescription) : Reader (List NormalValue × UInt64) := do
  let values ← decodeFields desc.keyFields
  if desc.unique && !hasNilField values then return (values, 0)
  else
    let _ ← byte
    return (values, ← readUvarint)

variable {desc : IndexDescription}

theorem EntryOk.reads {e : IndexEntry} (h : EntryOk desc e) :
    ∃ a, Reads (readEntry desc) (codes desc.fields e.values ++ keySuffix desc e) a := by
  obtain ⟨-, hread⟩ := encodeFields_codes h.length h.values
  rw [keySuffix]
  cases hcond : desc.unique && !hasNilField e.values with
  | true =>
    refine ⟨(e.values.map NormalValue.asBlob, 0), hread.bind ?_⟩
    rw [h.hasNilField_scanned, hcond]
    exact Reads.pure _
  | false =>
    refine ⟨(e.values.map NormalValue.asBlob, e.docShortId), hread.bind ?_⟩
    rw [h.hasNilField_scanned, hcond, encodeDocShortId_of_ne h.docShortId]
    exact (Reads.byte separator).bind ((reads_keyUvarint e.docShortId).map _)

theorem EntryOk.apart {x y : IndexEntry} (hx : EntryOk desc x) (hy : EntryOk desc y)
    (c : UInt32) : Apart (entryKey c desc x) (entryKey c desc y) := by
  obtain ⟨a, ha⟩ := hx.reads
  obtain ⟨b, hb⟩ := hy.reads
  refine .of_prefix_free (fun hpre => ?_) fun hpre => ?_
  · exact congrArg (indexPrefix c desc.id ++ ·) (Reads.prefix_free ha hb ((prefix_append_right_inj _).mp hpre))
  · exact congrArg (indexPrefix c desc.id ++ ·) (Reads.prefix_free hb ha ((prefix_append_right_inj _).mp hpre))

theorem EntryOk.cursorSeekKey_eq {e : IndexEntry} (h : EntryOk desc e)
    (c : UInt32) : cursorSeekKey c desc e.values e.docShortId =
      some (entryKey c desc e) := by
  rw [cursorSeekKey, encodePrefixValues_eq h.length.le h.values, Option.bind_eq_bind, entryKey, keySuffix]
  dsimp only
  have hcond : (!desc.unique || e.values.any NormalValue.isNil) = !(desc.unique && !hasNilField e.values) := by
    rw [Bool.not_and, Bool.not_not]
    rfl
  rw [hcond]
  cases desc.unique && !hasNilField e.values with
  | true => simp
  | false => simp

namespace Holds
variable {store : KvStore} {c : UInt32} {desc : IndexDescription} {es : List IndexEntry}

theorem pairwise (h : Holds store c desc es) :
    es.Pairwise fun x y => entryKey c desc x < entryKey c desc y := by
  have hs := store.sorted.filter fun kv => (indexPrefix c desc.id).isPrefixOf kv.key
  rw [h.filter_eq, pairwise_map] at hs
  exact hs

theorem newPrefix_nil (h : Holds store c desc es) (isUnique reverse : Bool) :
    ∃ iter, RangeIterator.newPrefix store c desc isUnique [] reverse = some iter ∧
      iter.inner.range = inDirection reverse (es.map (pairOf c desc)) ∧
      iter.inner.reverse = reverse ∧ iter.reverse = reverse ∧
      (iter.exhausted = false ∧ iter.desc = desc ∧ iter.isUnique = isUnique ∧
        iter.indexPrefixLen = (indexPrefix c desc.id).length) ∧
      iter.lowerBoundKey = none ∧ iter.upperBoundKey = none := by
  refine ⟨_, rfl, ?_, rfl, rfl, ⟨rfl, rfl, rfl, rfl⟩, rfl, rfl⟩
  have ha : ∀ e ∈ es, IterOptions.admits
      { keyPrefix := indexPrefix c desc.id ++ [], reverse } (entryKey c desc e) = true := by
    intro e _
    have hpre : (indexPrefix c desc.id ++ []).isPrefixOf (entryKey c desc e) = true := by
      rw [append_nil]
      exact isPrefixOf_iff_prefix.mpr (prefix_append _ _)
    rw [IterOptions.admits, hpre]
    rfl
  have hfilter := @Holds.filter_admits _ _ _ _ h { keyPrefix := indexPrefix c desc.id ++ [], reverse }
    (prefix_append _ _)
  rw [filter_eq_self.mpr ha] at hfilter
  rw [← hfilter]
  rfl

end Holds

theorem seek_rest {iter : StoreIterator} {key : Bytes} {passed left : List KvPair} {kv : KvPair}
    (hr : iter.range = passed ++ kv :: left)
    (hp : ∀ kv ∈ passed, (if iter.reverse then decide (key < kv.key) else decide (kv.key < key)) = true)
    (hkv : (if iter.reverse then decide (key < kv.key) else decide (kv.key < key)) = false) :
    (iter.seek key).rest = kv :: left := by
  rw [StoreIterator.seek, hr]
  rw [dropWhile_append_of_pos hp, dropWhile_cons, hkv]
  rfl

theorem not_aboveLower_self (key : Bytes) : RangeIterator.aboveLower key false key = false := by
  simp [RangeIterator.aboveLower]

theorem not_belowUpper_self (key : Bytes) : RangeIterator.belowUpper key false key = false := by
  simp [RangeIterator.belowUpper]

namespace RangeIterator
variable {iter : RangeIterator}

theorem applyCursorSeek_forward (hupper : iter.upperBoundKey = none) (hr : iter.reverse = false) (key : Bytes)
    (kv : KvPair) : (iter.applyCursorSeek key false false).returns kv = aboveLower key false kv.key ∧
      (iter.applyCursorSeek key false false).passed kv.key = false := by
  simp [applyCursorSeek, returns, isKeyWithinBounds, passed, hupper, hr]

theorem applyCursorSeek_reverse (hlower : iter.lowerBoundKey = none) (hr : iter.reverse = true) (key : Bytes)
    (kv : KvPair) : (iter.applyCursorSeek key false true).returns kv = belowUpper key false kv.key ∧
      (iter.applyCursorSeek key false true).passed kv.key = false := by
  simp [applyCursorSeek, returns, isKeyWithinBounds, passed, hlower, hr]

end RangeIterator

theorem collectAll_past_boundary {c : UInt32} {boundary : IndexEntry}
    {selected : List IndexEntry} (hok : ∀ e ∈ boundary :: selected, EntryOk desc e) {iter : RangeIterator}
    (he : iter.exhausted = false) (hd : iter.desc = desc) (hu : iter.isUnique = desc.unique)
    (hlen : iter.indexPrefixLen = (indexPrefix c desc.id).length)
    (hr : iter.inner.rest = (boundary :: selected).map (pairOf c desc))
    (hp : ∀ kv : KvPair, iter.passed kv.key = false)
    (hb : iter.returns (pairOf c desc boundary) = false)
    (hs : ∀ e ∈ selected, iter.returns (pairOf c desc e) = true) :
    iter.collectAll = some (selected.map IndexEntry.scanned) := by
  rw [collectAll_entries hok he hd hu hlen hr fun e _ _ => hp (pairOf c desc e),
    filter_cons, hb, if_neg Bool.false_ne_true, filter_eq_self.mpr hs]

/-- A cursor's scan returns exactly the entries after the boundary in the direction of the scan. -/
theorem applyCursorSeek_collect (store : KvStore) (c : UInt32) (desc : IndexDescription)
    (es : List IndexEntry) (hh : Holds store c desc es) (before after : List IndexEntry)
    (boundary : IndexEntry) (hentries : es = before ++ boundary :: after) (reversed : Bool) :
    ∃ iter key, RangeIterator.newPrefix store c desc desc.unique [] reversed = some iter ∧
      cursorSeekKey c desc boundary.values boundary.docShortId = some key ∧
      (iter.applyCursorSeek key false reversed).collectAll =
        some ((if reversed then before.reverse else after).map IndexEntry.scanned) := by
  have hok : ∀ e ∈ before ++ boundary :: after, EntryOk desc e := hentries ▸ hh.ok
  have hb := hok boundary (by simp)
  have hp := hh.pairwise
  rw [hentries, pairwise_append] at hp
  obtain ⟨-, ha, hbef⟩ := hp
  obtain ⟨iter, hnew, hrange, hi, hr, ⟨hexh, hd, hu, hlen⟩, hlower, hupper⟩ :=
    hh.newPrefix_nil desc.unique reversed
  set key := entryKey c desc boundary with hk
  have hlt : ∀ e ∈ after, key < entryKey c desc e := (pairwise_cons.mp ha).1
  have hgt : ∀ e ∈ before, entryKey c desc e < key := fun e he =>
    hbef e he boundary mem_cons_self
  have happart : ∀ e ∈ after, Before key (entryKey c desc e) := fun e he =>
    ((hb.apart (hok e (by simp [he])) c).lt_iff).mp (hlt e he)
  refine ⟨iter, key, hnew, hb.cursorSeekKey_eq c, ?_⟩
  rw [hentries] at hrange
  cases reversed with
  | false =>
    have hrest : (iter.inner.seek key).rest = (boundary :: after).map (pairOf c desc) := by
      rw [inDirection, if_neg Bool.false_ne_true, map_append] at hrange
      refine seek_rest hrange ?_ ?_
      · rw [hi]
        intro kv hkv
        obtain ⟨e, he, rfl⟩ := mem_map.mp hkv
        exact decide_eq_true (hgt e he)
      · rw [hi]
        exact decide_eq_false (lt_irrefl key)
    refine collectAll_past_boundary (fun e he => hok e (mem_append_right _ he)) hexh hd hu
      hlen hrest (fun kv => (iter.applyCursorSeek_forward hupper hr key kv).2) ?_ fun e he => ?_
    · rw [(iter.applyCursorSeek_forward hupper hr key _).1]
      exact not_aboveLower_self key
    · rw [(iter.applyCursorSeek_forward hupper hr key _).1]
      exact aboveLower_of_le (not_lt.mpr (hlt e he).le) fun _ => (happart e he).incomparable.1
  | true =>
    have hrest : (iter.inner.seek (key ++ [0xff])).rest = (boundary :: before.reverse).map (pairOf c desc) := by
      rw [inDirection, if_pos rfl, ← map_reverse, reverse_append, reverse_cons, append_assoc,
        map_append] at hrange
      refine seek_rest hrange ?_ ?_
      · rw [hi]
        intro kv hkv
        obtain ⟨e, he, rfl⟩ := mem_map.mp hkv
        have := ((happart e (mem_reverse.mp he)).append [0xff] []).lt
        rw [append_nil] at this
        exact decide_eq_true this
      · rw [hi]
        exact decide_eq_false (not_lt.mpr (Bytes.le_of_prefix (prefix_append _ _)))
    refine collectAll_past_boundary (fun e he => hok e ?_) hexh hd hu
      hlen hrest (fun kv => (iter.applyCursorSeek_reverse hlower hr key kv).2) ?_ fun e he => ?_
    · rcases mem_cons.mp he with rfl | he
      · simp
      · exact mem_append_left _ (mem_reverse.mp he)
    · rw [(iter.applyCursorSeek_reverse hlower hr key _).1]
      exact not_belowUpper_self key
    · rw [(iter.applyCursorSeek_reverse hlower hr key _).1]
      exact belowUpper_of_lt (hgt e (mem_reverse.mp he))

/-- A cursor at the entry with the wider short ID leaves the last entry in one direction and the first two in the other. -/
theorem pairEntries_after_cursor :
    (∃ iter key, RangeIterator.newPrefix pairStore 1 pairIndex false [] false = some iter ∧
      cursorSeekKey 1 pairIndex [.scalar (.int 5), .scalar (.int 7)] 300 = some key ∧
      (iter.applyCursorSeek key false false).collectAll = some [⟨4, [.scalar (.int 8), .null]⟩]) ∧
    ∃ iter key, RangeIterator.newPrefix pairStore 1 pairIndex false [] true = some iter ∧
      cursorSeekKey 1 pairIndex [.scalar (.int 5), .scalar (.int 7)] 300 = some key ∧
      (iter.applyCursorSeek key false true).collectAll =
        some [⟨2, [.scalar (.int 5), .scalar (.int 7)]⟩, ⟨1, [.scalar (.int 3), .null]⟩] :=
  have hseek := applyCursorSeek_collect pairStore 1 pairIndex pairEntries (holds_storeOf pairEntries_ok _) (pairEntries.take 2)
    (pairEntries.drop 3) ⟨300, [.scalar (.int 5), .scalar (.int 7)]⟩ rfl
  ⟨hseek false, hseek true⟩

end Defra.Index
