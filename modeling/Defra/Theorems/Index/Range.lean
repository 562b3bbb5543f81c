import Defra.Theorems.Index.Entry

/-! A range scan of an index returns the entries it should, but for those at an inclusive upper bound that the null of a
    descending field follows: their keys go on with the byte that ends the scan. -/

namespace Defra.Index
open List KeyOrder Reader

/-! ### Prefixes and their successors -/

theorem prefixSuccessor_cons (x : UInt8) (p : Bytes) : prefixSuccessor (x :: p) =
    match prefixSuccessor p with
    | some s => some (x :: s)
    | none => if x = 0xff then none else some [x + 1] := by
  unfold prefixSuccessor
  rw [reverse_cons, dropWhile_append]
  cases hdrop : p.reverse.dropWhile (· = 0xff) with
  | nil =>
    by_cases hx : x = 0xff
    · simp [hx]
    · simp [hx]
  | cons last rest => simp

theorem lt_or_prefix_of_none {p : Bytes} (h : prefixSuccessor p = none) (key : Bytes) : key < p ∨ p <+: key := by
  induction p generalizing key with
  | nil => exact .inr nil_prefix
  | cons x p ih =>
    rw [prefixSuccessor_cons] at h
    cases hp : prefixSuccessor p with
    | some s => simp [hp] at h
    | none =>
      have hx : x = 0xff := by simpa [hp] using h
      cases key with
      | nil => exact .inl (nil_lt_cons x p)
      | cons y key =>
        have hle : y ≤ x := by
          rw [hx]
          exact Nat.le_of_lt_succ y.toNat_lt
        rcases hle.lt_or_eq with hlt | rfl
        · exact .inl (Lex.rel hlt)
        · rcases ih hp key with hlt | hpre
          · exact .inl (Lex.cons hlt)
          · exact .inr (cons_prefix_cons.mpr ⟨rfl, hpre⟩)

/-- The keys below the successor of a prefix are those below it and those that start with it. -/
theorem lt_prefixSuccessor_iff {p s : Bytes} (h : prefixSuccessor p = some s) (key : Bytes) :
    key < s ↔ key < p ∨ p <+: key := by
  induction p generalizing s key with
  | nil => cases h
  | cons x p ih =>
    rw [prefixSuccessor_cons] at h
    cases key with
    | nil =>
      have hs : s ≠ [] := by
        cases hp : prefixSuccessor p with
        | some t =>
          rw [hp] at h
          cases h
          exact cons_ne_nil _ _
        | none =>
          rw [hp] at h
          dsimp only at h
          split at h
          · cases h
          · cases h
            exact cons_ne_nil _ _
      obtain ⟨z, t, rfl⟩ := exists_cons_of_ne_nil hs
      exact ⟨fun _ => .inl (nil_lt_cons x p), fun _ => nil_lt_cons z t⟩
    | cons y key =>
      rw [cons_prefix_cons, cons_lt_cons_iff]
      cases hp : prefixSuccessor p with
      | some t =>
        rw [hp] at h
        cases h
        rw [cons_lt_cons_iff, ih hp key]
        constructor
        · rintro (hlt | ⟨rfl, hlt | hpre⟩)
          · exact .inl (.inl hlt)
          · exact .inl (.inr ⟨rfl, hlt⟩)
          · exact .inr ⟨rfl, hpre⟩
        · rintro ((hlt | ⟨rfl, hlt⟩) | ⟨rfl, hpre⟩)
          · exact .inl hlt
          · exact .inr ⟨rfl, .inl hlt⟩
          · exact .inr ⟨rfl, .inr hpre⟩
      | none =>
        rw [hp] at h
        dsimp only at h
        split at h
        · cases h
        · rename_i hx
          cases h
          have hsucc : (x + 1).toNat = x.toNat + 1 := by
            rw [← UInt8.toNat_inj] at hx
            have := x.toNat_lt
            exact Nat.mod_eq_of_lt (by simp at hx ⊢; omega)
          have hn : ¬key < [] := not_lt_nil key
          rw [cons_lt_cons_iff, UInt8.lt_iff_toNat_lt, hsucc]
          simp only [hn, and_false, or_false]
          constructor
          · intro hlt
            rcases (UInt8.le_iff_toNat_le.mpr (Nat.le_of_lt_succ hlt) : y ≤ x).lt_or_eq with hlt | rfl
            · exact .inl (.inl hlt)
            · rcases lt_or_prefix_of_none hp key with hlt | hpre
              · exact .inl (.inr ⟨rfl, hlt⟩)
              · exact .inr ⟨rfl, hpre⟩
          · rintro ((hlt | ⟨rfl, -⟩) | ⟨rfl, -⟩)
            · exact Nat.lt_succ_of_lt (UInt8.lt_iff_toNat_lt.mp hlt)
            · exact Nat.lt_succ_self _
            · exact Nat.lt_succ_self _

theorem before_of_take_lt {a b : Bytes} (h : a.take (min b.length a.length) < b.take (min b.length a.length)) : Before a b := by
  have hbef := Before.of_lt h (by simp only [length_take]; omega)
  have := hbef.append (a.drop (min b.length a.length)) (b.drop (min b.length a.length))
  rwa [take_append_drop, take_append_drop] at this

variable {es : List IndexEntry} {inclusive : Bool} {pre : List NormalValue} {x : UInt8} {α : Type}
  (bound : Bound) (store : KvStore) (rev : Bool) (kp : Bytes) (l : List α) (down : Bool)
  (val : NormalValue) (key : Bytes)

theorem aboveLower_of_le {lo key : Bytes} (hle : ¬key < lo) (hpre : inclusive = false → ¬lo <+: key)
    : RangeIterator.aboveLower lo inclusive key = true := by
  unfold RangeIterator.aboveLower
  rw [Bool.and_eq_true]
  refine ⟨by simpa using fun hlt => hle (before_of_take_lt hlt).lt, ?_⟩
  cases inclusive with
  | true => rfl
  | false =>
    simp only [Bool.false_or, Bool.not_eq_true', Bool.and_eq_false_iff, decide_eq_false_iff_not]
    exact .inr fun htake => hpre rfl (htake ▸ take_prefix _ _)

theorem belowUpper_of_lt {up key : Bytes} (hlt : key < if inclusive then up ++ [0xff] else up)
    : RangeIterator.belowUpper up inclusive key = true := by
  unfold RangeIterator.belowUpper
  rw [Bool.and_eq_true]
  constructor
  · rw [Bool.not_eq_true', decide_eq_false_iff_not]
    intro htake
    rw [Nat.min_comm] at htake
    have hbef := before_of_take_lt htake
    have : (if inclusive then up ++ [0xff] else up) < key := by
      split
      · have := (hbef.append [0xff] []).lt
        rwa [append_nil] at this
      · exact hbef.lt
    exact lt_irrefl key (hlt.trans this)
  · cases inclusive with
    | true => rfl
    | false =>
      simp only [Bool.false_or, Bool.not_eq_true', Bool.and_eq_false_iff, decide_eq_false_iff_not]
      exact .inr fun hle => lt_irrefl key (lt_of_lt_of_le hlt (hle.trans (Bytes.le_of_prefix ( take_prefix _ _))))

/-! ### What a scan should return -/

/-- The bound, as a lower one, lets the value through. -/
def Bound.isBelow : Bool :=
  match bound with
  | .inclusive b => decide (code b down ≤ code val down)
  | .exclusive b => decide (code b down < code val down)
  | .unbounded => true

def Bound.isAbove : Bool :=
  match bound with
  | .inclusive b => decide (code val down ≤ code b down)
  | .exclusive b => decide (code val down < code b down)
  | .unbounded => true

def Bound.isAt : Bool :=
  match bound with
  | .inclusive b => decide (code val down = code b down)
  | _ => false

def Bound.Indexable : Bound → Prop
  | .inclusive b | .exclusive b => b.Indexable
  | .unbounded => True

/-- The entry has the scan's prefix values, and its next value is within the bounds. -/
def selects (lo up : Bound) : List IndexedFieldDescription → List NormalValue → List NormalValue → Bool
  | field :: fields, p :: pre, val :: vals =>
    decide (code p field.descending = code val field.descending) && selects lo up fields pre vals
  | field :: _, [], val :: _ => lo.isBelow field.descending val && up.isAbove field.descending val
  | _, _, _ => false

/-- The value at an inclusive upper bound is followed by the null of a descending field. -/
def hides (up : Bound) : List IndexedFieldDescription → List NormalValue → List NormalValue → Bool
  | _ :: fields, _ :: pre, _ :: vals => hides up fields pre vals
  | field :: after :: _, [], val :: next :: _ => up.isAt field.descending val && after.descending && next.isNil
  | _, _, _ => false

/-! ### Which keys it returns -/

def Bound.LowerKey : Prop :=
  match bound with
  | .inclusive b => ¬key < kp ++ code b down
  | .exclusive b => ¬(key < kp ++ code b down ∨ kp ++ code b down <+: key)
  | .unbounded => True

def Bound.UpperKey : Prop :=
  match bound with
  | .inclusive b => key < kp ++ code b down ++ [0xff]
  | .exclusive b => key < kp ++ code b down
  | .unbounded => True

theorem append_lt_append_left (p r s : Bytes) : p ++ r < p ++ s ↔ r < s := by
  rw [(Apart.same rfl).append_lt_iff]
  exact ⟨fun h => h.elim (fun h => absurd h (lt_irrefl p)) And.right, fun h => .inr ⟨rfl, h⟩⟩

theorem Bound.lowerKey_append (p kp : Bytes) (down : Bool) (key : Bytes) :
    bound.LowerKey (p ++ kp) down (p ++ key) ↔ bound.LowerKey kp down key := by
  cases bound with
  | inclusive b => simp only [LowerKey, append_assoc, append_lt_append_left]
  | exclusive b => simp only [LowerKey, append_assoc, append_lt_append_left, prefix_append_right_inj]
  | unbounded => exact Iff.rfl

theorem Bound.upperKey_append (p kp : Bytes) (down : Bool) (key : Bytes) :
    bound.UpperKey (p ++ kp) down (p ++ key) ↔ bound.UpperKey kp down key := by
  cases bound with
  | inclusive b => simp only [UpperKey, append_assoc, append_lt_append_left]
  | exclusive b => simp only [UpperKey, append_assoc, append_lt_append_left]
  | unbounded => exact Iff.rfl

variable {lo : Bound}

theorem lowerKey_iff (hl : lo.Indexable) {val : NormalValue} (hv : val.Indexable) (down : Bool)
    (rest : Bytes) : lo.LowerKey [] down (code val down ++ rest) ↔ lo.isBelow down val = true := by
  have hnil : ¬rest < [] := not_lt_nil rest
  cases lo with
  | inclusive b =>
    have happart := hv.apart hl down
    have hlt := happart.append_lt_iff (r := rest) (s := [])
    rw [append_nil] at hlt
    rw [Bound.LowerKey, nil_append, hlt, Bound.isBelow, decide_eq_true_eq]
    simp [hnil]
  | exclusive b =>
    have happart := hv.apart hl down
    have hlt := happart.append_lt_iff (r := rest) (s := [])
    have hpre := happart.symm.append_prefix_iff (r := []) (s := rest)
    rw [append_nil] at hlt hpre
    rw [Bound.LowerKey, nil_append, hlt, hpre, Bound.isBelow, decide_eq_true_eq]
    simp only [hnil, and_false, or_false, nil_prefix, and_true, not_or]
    exact ⟨fun ⟨h, hne⟩ => lt_of_le_of_ne (not_lt.mp h) hne, fun h => ⟨not_lt.mpr h.le, h.ne⟩⟩
  | unbounded => simp [Bound.LowerKey, Bound.isBelow]

variable {up : Bound}

theorem upperKey_iff (hu : up.Indexable) {val : NormalValue} (hv : val.Indexable) (down : Bool)
    (rest : Bytes) : up.UpperKey [] down (code val down ++ rest) ↔
      up.isAbove down val = true ∧ ¬(up.isAt down val = true ∧ ∃ tail, rest = 0xff :: tail) := by
  have hn : ¬rest < [] := not_lt_nil rest
  cases up with
  | inclusive b =>
    have happart := hv.apart hu down
    have hr : rest < [0xff] ↔ ¬∃ tail, rest = 0xff :: tail := by
      cases rest with
      | nil => simp
      | cons x rest =>
        have hle : x ≤ 0xff := UInt8.le_iff_toNat_le.mpr (Nat.le_of_lt_succ x.toNat_lt)
        rw [cons_lt_cons_iff]
        simp only [not_lt_nil, and_false, or_false, cons.injEq, exists_and_left, exists_eq', and_true]
        exact ⟨ne_of_lt, lt_of_le_of_ne hle⟩
    rw [Bound.UpperKey, nil_append, happart.append_lt_iff, hr, Bound.isAbove, Bound.isAt,
      decide_eq_true_eq, le_iff_lt_or_eq]
    by_cases heq : code val down = code b down
    · simp [heq]
    · simp [heq]
  | exclusive b =>
    have happart := hv.apart hu down
    have hlt := happart.append_lt_iff (r := rest) (s := [])
    rw [append_nil] at hlt
    rw [Bound.UpperKey, nil_append, hlt, Bound.isAbove]
    simp [hn, Bound.isAt]
  | unbounded => simp [Bound.UpperKey, Bound.isAbove, Bound.isAt]

/-- A key goes on with the highest byte only for the null of a descending field. -/
theorem codes_head_iff {fields : List IndexedFieldDescription} {vals : List NormalValue} (hl : vals.length = fields.length)
    (hvals : ∀ val ∈ vals, val.Indexable) {suffix : Bytes} (hs : ∀ tail, suffix ≠ 0xff :: tail) :
    (∃ tail, codes fields vals ++ suffix = 0xff :: tail) ↔
      ∃ field fields' val vals', fields = field :: fields' ∧ vals = val :: vals' ∧ field.descending = true ∧
        val.isNil = true := by
  match fields, vals, hl with
  | [], [], _ => simpa [codes] using hs
  | field :: fields, val :: vals, _ =>
    have hval := hvals val mem_cons_self
    have hhead := hval.head_iff field.descending
    obtain ⟨first, rest, hcode⟩ := exists_cons_of_ne_nil (hval.code_ne_nil field.descending)
    rw [hcode] at hhead
    rw [codes, hcode]
    simp only [cons_append, cons.injEq, exists_and_left, exists_eq', and_true] at hhead ⊢
    rw [hhead]
    exact ⟨fun h => ⟨field, fields, ⟨rfl, rfl⟩, val, vals, ⟨rfl, rfl⟩, h⟩,
      fun ⟨_, _, ⟨hf, _⟩, _, _, ⟨hv, _⟩, h⟩ => by rw [hf, hv]; exact h⟩

theorem scan_key_iff (hlower : lo.Indexable) (hu : up.Indexable) {suffix : Bytes}
    (hs : ∀ tail, suffix ≠ 0xff :: tail) :
    ∀ {fields : List IndexedFieldDescription} {pre vals : List NormalValue},
      pre.length < fields.length → vals.length = fields.length → (∀ p ∈ pre, p.Indexable) →
      (∀ val ∈ vals, val.Indexable) →
      let down := (fields[pre.length]?).any (·.descending)
      (codes fields pre <+: codes fields vals ++ suffix ∧
        lo.LowerKey (codes fields pre) down (codes fields vals ++ suffix) ∧
        up.UpperKey (codes fields pre) down (codes fields vals ++ suffix)) ↔
      selects lo up fields pre vals = true ∧ hides up fields pre vals = false
  | field :: fields, [], val :: vals, _, hl, _, hvals => by
    have hval := hvals val mem_cons_self
    have hhead := codes_head_iff (Nat.succ.inj hl) (fun v hv => hvals v (mem_cons_of_mem _ hv)) hs
    dsimp only [length_nil, getElem?_cons_zero, Option.any_some]
    rw [show codes (field :: fields) [] = [] from rfl, codes, append_assoc, lowerKey_iff hlower hval,
      upperKey_iff hu hval, hhead, selects, Bool.and_eq_true]
    have hh : hides up (field :: fields) [] (val :: vals) = true ↔ up.isAt field.descending val = true ∧
        ∃ after fields' next vals', fields = after :: fields' ∧ vals = next :: vals' ∧ after.descending = true ∧
          next.isNil = true := by
      match fields, vals, Nat.succ.inj hl with
      | [], [], _ => simp [hides]
      | after :: fields, next :: vals, _ => simp [hides, Bool.and_eq_true, and_assoc]
    rw [← hh, Bool.not_eq_true, and_assoc]
    exact and_iff_right nil_prefix
  | field :: fields, p :: pre, val :: vals, hlt, hl, hpre, hvals => by
    have happart := (hpre p mem_cons_self).apart (hvals val mem_cons_self) field.descending
    have ih := scan_key_iff hlower hu hs (Nat.lt_of_succ_lt_succ hlt) (Nat.succ.inj hl)
      (fun q hq => hpre q (mem_cons_of_mem _ hq)) fun v hv => hvals v (mem_cons_of_mem _ hv)
    dsimp only [length_cons, getElem?_cons_succ] at ih ⊢
    rw [codes, codes, append_assoc, happart.append_prefix_iff, selects, hides, Bool.and_eq_true, decide_eq_true_eq]
    by_cases heq : code p field.descending = code val field.descending
    · rw [heq, Bound.lowerKey_append, Bound.upperKey_append]
      simpa only [true_and] using ih
    · exact ⟨fun h => absurd h.1.1 heq, fun h => absurd h.1.1 heq⟩
  | [], _, _, hlt, _, _, _ => absurd hlt (Nat.not_lt_zero _)
  | _ :: _, _, [], _, hl, _, _ => nomatch hl

theorem encodePrefixValues_eq : ∀ {fields : List IndexedFieldDescription} {pre : List NormalValue},
    pre.length ≤ fields.length → (∀ p ∈ pre, p.Indexable) →
      encodePrefixValues fields pre = some (codes fields pre)
  | [], [], _, _ => rfl
  | _ :: _, [], _, _ => rfl
  | field :: fields, p :: pre, hle, hpre => by
    have hrest := encodePrefixValues_eq (Nat.le_of_succ_le_succ hle) fun q hq => hpre q (mem_cons_of_mem _ hq)
    rw [encodePrefixValues, head?_cons, Option.any_some, ((hpre p mem_cons_self).encode field.descending).1,
      tail_cons, hrest]
    rfl
  | [], _ :: _, hle, _ => absurd hle (Nat.not_succ_le_zero _)

theorem prefixSuccessor_ne_none (hx : x ≠ 0xff) (p : Bytes) : ∃ s, prefixSuccessor (x :: p) = some s := by
  rw [prefixSuccessor_cons]
  cases prefixSuccessor p with
  | some s => exact ⟨_, rfl⟩
  | none => exact ⟨_, if_neg hx⟩

theorem lower_spec (h : lo.Indexable) (hx : x ≠ 0xff) (p : Bytes) (down : Bool) :
    ∃ lowerBoundKey inclusive start, lo.key (x :: p) down = some (lowerBoundKey, inclusive) ∧
      lowerStart lowerBoundKey inclusive = some start ∧
      ∀ key, (start.all (fun start => decide (start ≤ key)) = true ↔ lo.LowerKey (x :: p) down key) ∧
        (lo.LowerKey (x :: p) down key →
          lowerBoundKey.all (RangeIterator.aboveLower · inclusive key) = true) := by
  cases lo with
  | inclusive b =>
    rw [Bound.key, (NormalValue.Indexable.encode h down).1]
    refine ⟨_, _, _, rfl, rfl, fun key => ⟨?_, ?_⟩⟩
    · rw [Option.all_some, decide_eq_true_eq, ← not_lt]
      exact Iff.rfl
    · exact fun hle => aboveLower_of_le hle fun h => nomatch h
  | exclusive b =>
    rw [Bound.key, (NormalValue.Indexable.encode h down).1]
    obtain ⟨s, hs⟩ := prefixSuccessor_ne_none hx (p ++ code b down)
    have hstart : lowerStart (some (x :: p ++ code b down)) false = some (some s) := by
      rw [lowerStart, cons_append, hs]
      rfl
    refine ⟨_, _, _, rfl, hstart, fun key => ⟨?_, ?_⟩⟩
    · rw [Option.all_some, decide_eq_true_eq, ← not_lt, lt_prefixSuccessor_iff hs]
      exact Iff.rfl
    · exact fun hle => aboveLower_of_le (fun hlt => hle (.inl hlt)) fun _ hpre => hle (.inr hpre)
  | unbounded => exact ⟨none, true, none, rfl, rfl, fun key => ⟨by simp [Bound.LowerKey], fun _ => rfl⟩⟩

theorem upper_spec (h : up.Indexable) (kp : Bytes) (down : Bool) :
    ∃ upperBoundKey inclusive, up.key kp down = some (upperBoundKey, inclusive) ∧
      ∀ key, ((upperStop upperBoundKey inclusive).all (fun stop => decide (key < stop)) = true ↔
          up.UpperKey kp down key) ∧
        (up.UpperKey kp down key →
          upperBoundKey.all (RangeIterator.belowUpper · inclusive key) = true) := by
  cases up with
  | inclusive b =>
    rw [Bound.key, (NormalValue.Indexable.encode h down).1]
    refine ⟨_, _, rfl, fun key => ⟨?_, ?_⟩⟩
    · exact decide_eq_true_iff
    · exact fun hlt => belowUpper_of_lt (by simpa [Bound.UpperKey] using hlt)
  | exclusive b =>
    rw [Bound.key, (NormalValue.Indexable.encode h down).1]
    refine ⟨_, _, rfl, fun key => ⟨?_, ?_⟩⟩
    · exact decide_eq_true_iff
    · exact fun hlt => belowUpper_of_lt (by simpa [Bound.UpperKey] using hlt)
  | unbounded => exact ⟨none, true, rfl, fun key => ⟨by simp [Bound.UpperKey, upperStop], fun _ => rfl⟩⟩

/-! ### The entries of a store -/

/-- The list in the direction of the scan. -/
def inDirection : List α := if rev then l.reverse else l

/-- The index's part of the store is the entries, in the order of their keys. -/
structure Holds (store : KvStore) (c : UInt32) (desc : IndexDescription) (es : List IndexEntry) :
    Prop where
  ok : ∀ e ∈ es, EntryOk desc e
  pairs : (store.toList.filter fun kv => (indexPrefix c desc.id).isPrefixOf kv.key).map some =
    es.map (entryPair c desc)

/-- The pair that stores an entry. -/
def pairOf (c : UInt32) (desc : IndexDescription) (e : IndexEntry) : KvPair :=
  { key := entryKey c desc e
    value := if desc.unique && !hasNilField e.values then encodeDocShortId e.docShortId else [] }

namespace Holds
variable {store : KvStore} {c : UInt32} {desc : IndexDescription} {es : List IndexEntry}

theorem filter_eq (h : Holds store c desc es) :
    (store.toList.filter fun kv => (indexPrefix c desc.id).isPrefixOf kv.key) =
      es.map (pairOf c desc) := by
  have hp := h.pairs
  rw [map_congr_left fun e he => (h.ok e he).entryPair_eq c] at hp
  exact map_injective_iff.mpr (Option.some_injective _) (hp.trans (map_map ..).symm)

theorem filter_admits (h : Holds store c desc es) {opts : IterOptions}
    (hpre : indexPrefix c desc.id <+: opts.keyPrefix) :
    (store.toList.filter fun kv => opts.admits kv.key) =
      (es.filter fun e => opts.admits (entryKey c desc e)).map
        (pairOf c desc) := by
  have hsub : ∀ kv : KvPair, opts.admits kv.key =
      (opts.admits kv.key && (indexPrefix c desc.id).isPrefixOf kv.key) := by
    intro kv
    cases ha : opts.admits kv.key with
    | false => rfl
    | true =>
      rw [IterOptions.admits, Bool.and_eq_true, Bool.and_eq_true, isPrefixOf_iff_prefix] at ha
      exact ( isPrefixOf_iff_prefix.mpr (hpre.trans ha.1.1)).symm
  rw [filter_congr fun kv _ => hsub kv, ← filter_filter, h.filter_eq, filter_map]
  rfl

end Holds

theorem map_inDirection {α γ : Type} (f : α → γ) (rev : Bool) (l : List α) :
    (inDirection rev l).map f = inDirection rev (l.map f) := by
  cases rev with
  | false => rfl
  | true => exact map_reverse

theorem mem_inDirection {rev : Bool} {l : List α} {a : α} : a ∈ inDirection rev l ↔ a ∈ l := by
  cases rev with
  | false => exact Iff.rfl
  | true => exact mem_reverse

theorem length_inDirection : (inDirection rev l).length = l.length := by
  cases rev with
  | false => rfl
  | true => exact length_reverse

variable {c : UInt32} {desc : IndexDescription}

theorem collectAll_entries {selected : List IndexEntry}
    (hok : ∀ e ∈ selected, EntryOk desc e) {iter : RangeIterator} (hexh : iter.exhausted = false)
    (hd : iter.desc = desc) (hu : iter.isUnique = desc.unique)
    (hlen : iter.indexPrefixLen = (indexPrefix c desc.id).length)
    (hr : iter.inner.rest = selected.map (pairOf c desc))
    (hp : ∀ e ∈ selected, iter.returns (pairOf c desc e) = false →
      iter.passed (entryKey c desc e) = false) :
    iter.collectAll = some ((selected.filter fun e => iter.returns (pairOf c desc e)).map
      IndexEntry.scanned) := by
  have hext : ∀ e ∈ selected,
      iter.extractEntry (pairOf c desc e) = some e.scanned := fun e he =>
    (hok e he).extractEntry_eq hd hu hlen ((hok e he).entryPair_eq c)
  have hcol := @RangeIterator.collect_eq iter hexh (fun kv => (iter.extractEntry kv).getD ⟨0, []⟩) _ _
    (Nat.lt_succ_self iter.inner.rest.length)
    (by
      rw [hr]
      intro kv hkv hreturns
      obtain ⟨e, he, rfl⟩ := mem_map.mp hkv
      exact hp e he hreturns)
    (by
      rw [hr]
      intro kv hkv _
      obtain ⟨e, he, rfl⟩ := mem_map.mp hkv
      rw [hext e he]
      rfl)
  rw [show iter.withRest iter.inner.rest = iter from rfl] at hcol
  rw [RangeIterator.collectAll, hcol, hr, filter_map, map_map]
  congr 1
  refine map_congr_left fun e he => ?_
  rw [Function.comp_apply, hext e (mem_filter.mp he).1]
  rfl

theorem keySuffix_head {e : IndexEntry} (tail : Bytes) : keySuffix desc e ≠ 0xff :: tail := by
  unfold keySuffix
  split
  · exact (cons_ne_nil _ _).symm
  · intro h
    exact absurd (cons.inj h).1 (by decide)

/-- The parts of a range scan: the store's iterator, and the bounds that it checks again. -/
theorem newRange_spec (c : UInt32) (isUnique : Bool) (hlength : pre.length ≤ desc.fields.length)
    (hpre : ∀ p ∈ pre, p.Indexable) (hlower : lo.Indexable) (hupper : up.Indexable) (rev : Bool) :
    let kp := indexPrefix c desc.id ++ codes desc.fields pre
    let down := (desc.fields[pre.length]?).any (·.descending)
    ∃ iter opts, RangeIterator.newRange store c desc isUnique pre lo up rev = some iter ∧
      iter.inner = store.iterator opts ∧ opts.keyPrefix = kp ∧ opts.reverse = rev ∧
      (iter.exhausted = false ∧ iter.desc = desc ∧ iter.isUnique = isUnique ∧
        iter.indexPrefixLen = (indexPrefix c desc.id).length) ∧
      (∀ key, opts.admits key = true ↔
        kp <+: key ∧ lo.LowerKey kp down key ∧ up.UpperKey kp down key) ∧
      ∀ key, opts.admits key = true → iter.isKeyWithinBounds key = true := by
  have hsep : separator ≠ 0xff := by decide
  intro kp down
  have hcons : ∃ p, kp = separator :: p := ⟨_, rfl⟩
  obtain ⟨p, hp⟩ := hcons
  obtain ⟨lowerBoundKey, lowerInclusive, start, hlk, hs, hlspec⟩ := lower_spec hlower hsep p down
  rw [← hp] at hlk hlspec
  obtain ⟨upperBoundKey, upperInclusive, huk, huspec⟩ := upper_spec hupper kp down
  have ha : ∀ key, IterOptions.admits { keyPrefix := kp, start, stop := upperStop upperBoundKey upperInclusive, reverse := rev } key =
      true ↔ kp <+: key ∧ lo.LowerKey kp down key ∧ up.UpperKey kp down key := by
    intro key
    rw [IterOptions.admits, Bool.and_eq_true, Bool.and_eq_true, isPrefixOf_iff_prefix, (hlspec key).1, (huspec key).1,
      and_assoc]
  refine ⟨{ inner := store.iterator { keyPrefix := kp, start, stop := upperStop upperBoundKey upperInclusive, reverse := rev }
            indexPrefixLen := (indexPrefix c desc.id).length
            desc, isUnique, lowerBoundKey, upperBoundKey, lowerInclusive, upperInclusive, exhausted := false, reverse := rev },
    { keyPrefix := kp, start, stop := upperStop upperBoundKey upperInclusive, reverse := rev }, ?_, ?_⟩
  · unfold RangeIterator.newRange
    rw [encodePrefixValues_eq hlength hpre, Option.bind_eq_bind, Option.bind_some]
    dsimp only
    rw [show Bound.key _ _ lo = _ from hlk, Option.bind_eq_bind]
    rw [show Bound.key _ _ up = _ from huk, Option.bind_some]
    rw [hs]
    rfl
  · refine ⟨rfl, rfl, rfl, ⟨rfl, rfl, rfl, rfl⟩, ha, fun key hk => ?_⟩
    obtain ⟨-, hl, hu⟩ := (ha key).mp hk
    rw [RangeIterator.isKeyWithinBounds, Bool.and_eq_true]
    exact ⟨(hlspec key).2 hl, (huspec key).2 hu⟩

/-- All that the scan selects, but for entries at its upper bound that a descending null follows. -/
theorem newRange_collect {store : KvStore} (hholds : Holds store c desc es)
    (hl : pre.length < desc.fields.length) (hpre : ∀ p ∈ pre, p.Indexable)
    (hlower : lo.Indexable) (hu : up.Indexable) (rev : Bool) :
    ∃ iter, RangeIterator.newRange store c desc desc.unique pre lo up rev = some iter ∧
      iter.collectAll = some ((inDirection rev (es.filter fun e =>
        selects lo up desc.fields pre e.values &&
          !hides up desc.fields pre e.values)).map IndexEntry.scanned) := by
  obtain ⟨iter, opts, hnew, hi, hkey, hreverse, ⟨hexh, hd, hunique, hlen⟩, ha, hwithin⟩ :=
    newRange_spec store c desc.unique hl.le hpre hlower hu rev
  have he : ∀ e ∈ es, opts.admits (entryKey c desc e) =
      (selects lo up desc.fields pre e.values &&
        !hides up desc.fields pre e.values) := by
    intro e he
    have hok := hholds.ok e he
    have hiff := scan_key_iff hlower hu (@keySuffix_head desc e) hl hok.length hpre hok.values
    rw [Bool.eq_iff_iff, ha, entryKey, prefix_append_right_inj, Bound.lowerKey_append, Bound.upperKey_append,
      Bool.and_eq_true, Bool.not_eq_true']
    exact hiff
  have hf : (es.filter fun e => opts.admits (entryKey c desc e)) =
      es.filter fun e => selects lo up desc.fields pre e.values &&
        !hides up desc.fields pre e.values := filter_congr he
  have hrest : iter.inner.rest = (inDirection rev (es.filter fun e =>
      selects lo up desc.fields pre e.values &&
        !hides up desc.fields pre e.values)).map (pairOf c desc) := by
    rw [map_inDirection, hi, ← hf, ← hholds.filter_admits (hkey ▸ prefix_append _ _)]
    show (if opts.reverse then _ else _) = _
    rw [hreverse]
    rfl
  have hr : ∀ e ∈ inDirection rev (es.filter fun e =>
      selects lo up desc.fields pre e.values &&
        !hides up desc.fields pre e.values), iter.returns (pairOf c desc e) = true := by
    intro e hmem
    rw [mem_inDirection, mem_filter] at hmem
    have := hwithin _ ((he e hmem.1).trans hmem.2)
    rw [RangeIterator.returns]
    simp [pairOf, this]
  refine ⟨iter, hnew, ?_⟩
  rw [collectAll_entries (fun e hmem => hholds.ok e (mem_filter.mp (mem_inDirection.mp hmem)).1) hexh hd
    hunique hlen hrest fun e hmem hfalse => absurd ((hr e hmem).symm.trans hfalse) (by decide),
    filter_eq_self.mpr hr]

/-- A range scan returns exactly the entries it should when none is at an inclusive upper bound and followed by the null of a
    descending field. -/
theorem newRange_exact_iff (c : UInt32) (desc : IndexDescription) (es : List IndexEntry)
    (hholds : Holds store c desc es) (pre : List NormalValue)
    (hlength : pre.length < desc.fields.length) (hpre : ∀ p ∈ pre, p.Indexable) (lo up : Bound)
    (hlower : lo.Indexable) (hupper : up.Indexable) (rev : Bool) :
    (∃ iter, RangeIterator.newRange store c desc desc.unique pre lo up rev = some iter ∧
      iter.collectAll = some ((inDirection rev (es.filter fun e =>
        selects lo up desc.fields pre e.values)).map IndexEntry.scanned)) ↔
    ∀ e ∈ es, selects lo up desc.fields pre e.values = true →
      hides up desc.fields pre e.values = false := by
  obtain ⟨iter, hnew, hcol⟩ := newRange_collect hholds hlength hpre hlower hupper rev
  have hf : (es.filter fun e => selects lo up desc.fields pre e.values &&
      !hides up desc.fields pre e.values) =
      (es.filter fun e => selects lo up desc.fields pre e.values).filter fun e =>
        !hides up desc.fields pre e.values := by
    rw [filter_filter]
    exact filter_congr fun _ _ => Bool.and_comm _ _
  rw [hf] at hcol
  constructor
  · rintro ⟨iter', hnew', hexact⟩ e he hs
    cases hnew.symm.trans hnew'
    have hlists := congrArg length (Option.some.inj (hcol.symm.trans hexact))
    rw [length_map, length_map, length_inDirection, length_inDirection, length_filter_eq_length_iff] at hlists
    simpa using hlists e (mem_filter.mpr ⟨he, hs⟩)
  · intro hnone
    refine ⟨iter, hnew, ?_⟩
    rw [hcol, filter_eq_self.mpr]
    intro e he
    obtain ⟨hmem, hs⟩ := mem_filter.mp he
    rw [hnone e hmem hs]
    rfl

/-! ### Pairs -/

def storeOf (c : UInt32) (desc : IndexDescription) (es : List IndexEntry)
    (h : es.Pairwise fun a b => entryKey c desc a < entryKey c desc b) : KvStore :=
  ⟨es.map (pairOf c desc), pairwise_map.mpr h⟩

theorem holds_storeOf (hok : ∀ e ∈ es, EntryOk desc e)
    (h : es.Pairwise fun a b => entryKey c desc a < entryKey c desc b) :
    Holds (storeOf c desc es h) c desc es where
  ok := hok
  pairs := by
    rw [storeOf, filter_eq_self.mpr, map_map]
    · exact map_congr_left fun e he => ((hok e he).entryPair_eq c).symm
    · intro kv hkv
      obtain ⟨e, -, rfl⟩ := mem_map.mp hkv
      exact isPrefixOf_iff_prefix.mpr (prefix_append _ _)

/-- An index of two fields, the second descending. -/
def pairIndex : IndexDescription := ⟨"pair", 1, [⟨"a", false⟩, ⟨"b", true⟩], false⟩

theorem indexable_int (v : Int64) : (NormalValue.scalar (.int v)).Indexable :=
  ⟨.inr ⟨_, rfl⟩, fun value h => by cases h; trivial⟩

theorem indexable_null : NormalValue.null.Indexable := ⟨.inl rfl, nofun⟩

theorem pairIndex_ok {doc : UInt64} {a b : NormalValue} (hid : doc ≠ 0) (ha : a.Indexable) (hb : b.Indexable) :
    EntryOk pairIndex ⟨doc, [a, b]⟩ where
  length := rfl
  docShortId := hid
  values val hv := by
    simp only [mem_cons, not_mem_nil, or_false] at hv
    rcases hv with rfl | rfl
    · exact ha
    · exact hb

/-- Two entries of the same values, the second with a wider short ID, between two with a null in the descending field. -/
def pairEntries : List IndexEntry :=
  [⟨1, [.scalar (.int 3), .null]⟩, ⟨2, [.scalar (.int 5), .scalar (.int 7)]⟩, ⟨300, [.scalar (.int 5), .scalar (.int 7)]⟩,
    ⟨4, [.scalar (.int 8), .null]⟩]

theorem pairEntries_ok : ∀ e ∈ pairEntries, EntryOk pairIndex e := by
  simp only [pairEntries, forall_mem_cons]
  exact ⟨pairIndex_ok (by decide) (indexable_int 3) indexable_null, pairIndex_ok (by decide) (indexable_int 5) (indexable_int 7),
    pairIndex_ok (by decide) (indexable_int 5) (indexable_int 7), pairIndex_ok (by decide) (indexable_int 8) indexable_null, nofun⟩

def pairStore : KvStore := storeOf 1 pairIndex pairEntries (by decide)

/-- Above 3 and up to 5, both entries of 5 and 7 are returned and the other two are not. -/
theorem five_seven_scanned : ∃ iter,
    RangeIterator.newRange pairStore 1 pairIndex false [] (.exclusive (.scalar (.int 3))) (.inclusive (.scalar (.int 5))) false =
      some iter ∧
    iter.collectAll = some [⟨2, [.scalar (.int 5), .scalar (.int 7)]⟩, ⟨300, [.scalar (.int 5), .scalar (.int 7)]⟩] := by
  have he := (newRange_exact_iff pairStore 1 pairIndex pairEntries (holds_storeOf pairEntries_ok _) [] (by decide) nofun
    (.exclusive (.scalar (.int 3))) (.inclusive (.scalar (.int 5))) (indexable_int 3) (indexable_int 5) false).mpr (by decide)
  obtain ⟨iter, hnew, hcol⟩ := he
  exact ⟨iter, hnew, hcol⟩

/-- Up to 5, the entry of 5 and null is missed. -/
theorem five_null_missed : ∃ iter,
    RangeIterator.newRange (storeOf 1 pairIndex [⟨1, [.scalar (.int 5), .null]⟩] (by decide)) 1 pairIndex false [] .unbounded
      (.inclusive (.scalar (.int 5))) false = some iter ∧ iter.collectAll = some [] ∧
    selects .unbounded (.inclusive (.scalar (.int 5))) pairIndex.fields [] [.scalar (.int 5), .null] = true := by
  have hok : EntryOk pairIndex ⟨1, [.scalar (.int 5), .null]⟩ := pairIndex_ok (by decide) (indexable_int 5) indexable_null
  obtain ⟨iter, hnew, hcol⟩ := newRange_collect (holds_storeOf (forall_mem_singleton.mpr hok) _)
    (show ([] : List NormalValue).length < pairIndex.fields.length by decide) nofun (show Bound.unbounded.Indexable from trivial)
    (show (Bound.inclusive (.scalar (.int 5))).Indexable from indexable_int 5) false
  exact ⟨iter, hnew, hcol, by decide⟩

end Defra.Index
