import Defra.Theorems.Index.Key

/-! Which JSON leaves are read back from their encoding. Path parts, the path's end and integers share one space of first
    bytes, so some names are taken for something else, and the descending form of a value is not the one its decoder looks for. -/

namespace Defra.Index
open List Reader

variable {rest tail : Bytes} {path : JsonPath}

/-! ### Reading a path -/

section Path
variable {term pathEnd : UInt8} {part : Reader JsonPathPart} {code : JsonPathPart → Bytes} {good : JsonPathPart → Prop}
  {first : UInt8} {after : Bytes}

/-- The path ends here. -/
def Ends (term pathEnd : UInt8) (input : Bytes) : Prop := [term, pathEnd] <+: input

theorem ends_cons {second : UInt8} : Ends term pathEnd (first :: second :: after) ↔ first = term ∧ second = pathEnd := by
  simp [Ends, cons_prefix_cons, eq_comm]

theorem decodePathParts_end (count : Nat) (after : Bytes) :
    decodePathParts term pathEnd part (count + 1) (term :: pathEnd :: after) = some ([], after) :=
  if_pos ⟨rfl, rfl⟩

theorem decodePathParts_eq_cons {count : Nat} {input : Bytes} {head : JsonPathPart} (htwo : 2 ≤ input.length) :
    decodePathParts term pathEnd part (count + 1) input = some (head :: path, rest) ↔
      ¬Ends term pathEnd input ∧ ∃ middle, part input = some (head, middle) ∧
        decodePathParts term pathEnd part count middle = some (path, rest) := by
  match input, htwo with
  | first :: second :: after, _ =>
    rw [decodePathParts, ends_cons]
    dsimp only
    split
    · rename_i hends
      simp [hends]
    · rename_i hends
      rw [bind_eq_some]
      simp only [hends, not_false_eq_true, true_and]
      constructor
      · rintro ⟨a, middle, hp, hr⟩
        obtain ⟨tail, last, ht, hl⟩ := bind_eq_some.mp hr
        rw [pure_eq_some] at hl
        obtain ⟨hcons, rfl⟩ := hl
        cases hcons
        exact ⟨middle, hp, ht⟩
      · rintro ⟨middle, hp, ht⟩
        exact ⟨head, middle, hp, bind_eq_some.mpr ⟨path, rest, ht, rfl⟩⟩

theorem decodePathParts_iff
    (hg : ∀ p rest, rest ≠ [] → good p → ¬Ends term pathEnd (code p ++ rest) ∧ part (code p ++ rest) = some (p, rest))
    (hbad : ∀ p rest, rest ≠ [] → ¬good p → ¬Ends term pathEnd (code p ++ rest) → ∀ r, part (code p ++ rest) ≠ some (p, r))
    {count : Nat} (hc : path.length < count) :
    decodePathParts term pathEnd part count (path.flatMap code ++ term :: pathEnd :: tail) = some (path, rest) ↔
      (∀ p ∈ path, good p) ∧ rest = tail := by
  induction path generalizing count with
  | nil =>
    obtain ⟨count, rfl⟩ := Nat.exists_eq_succ_of_ne_zero (Nat.ne_of_gt hc)
    rw [flatMap_nil, nil_append, decodePathParts_end]
    simp [eq_comm]
  | cons p path ih =>
    obtain ⟨count, rfl⟩ := Nat.exists_eq_succ_of_ne_zero (Nat.ne_of_gt (Nat.zero_lt_of_lt hc))
    have hl : path.length < count := Nat.lt_of_succ_lt_succ hc
    have hne : path.flatMap code ++ term :: pathEnd :: tail ≠ [] := by simp
    have htwo : 2 ≤ (code p ++ (path.flatMap code ++ term :: pathEnd :: tail)).length := by
      simp only [length_append, length_cons]
      omega
    rw [flatMap_cons, append_assoc, decodePathParts_eq_cons htwo, forall_mem_cons]
    by_cases hp : good p
    · obtain ⟨hends, hread⟩ := hg p _ hne hp
      rw [hread]
      simp only [hends, not_false_eq_true, true_and, hp, Option.some.injEq, Prod.mk.injEq, ← ih hl]
      exact ⟨fun ⟨_, hm, h⟩ => hm ▸ h, fun h => ⟨_, rfl, h⟩⟩
    · constructor
      · rintro ⟨hends, middle, hread, -⟩
        exact absurd hread (hbad p _ hne hp hends middle)
      · exact fun h => absurd h.1.1 hp

theorem length_le_flatMap (hc : ∀ p, code p ≠ []) (path : JsonPath) : path.length ≤ (path.flatMap code).length := by
  induction path with
  | nil => exact Nat.zero_le _
  | cons p path ih =>
    have := length_pos_of_ne_nil (hc p)
    rw [flatMap_cons, length_append, length_cons]
    omega

variable {isIndex : UInt8 → Bool} {index : Reader UInt64} {property : Reader String}

theorem decodePathPart_eq_index
    (h : decodePathPart isIndex index property (first :: after) = some (.index, rest)) : isIndex first = true := by
  rw [decodePathPart] at h
  split at h
  · assumption
  · obtain ⟨name, middle, -, hpure⟩ := bind_eq_some.mp h
    cases (pure_eq_some.mp hpure).1

theorem decodePathPart_eq_property {name : String}
    (h : decodePathPart isIndex index property (first :: after) = some (.property name, rest)) :
    isIndex first = false := by
  rw [decodePathPart] at h
  split at h
  · obtain ⟨v, middle, -, hpure⟩ := bind_eq_some.mp h
    cases (pure_eq_some.mp hpure).1
  · rwa [Bool.not_eq_true] at *

theorem decodePathPart_property {bytes : Bytes} {name : String} (h : isIndex first = false)
    (hb : bytes ++ rest = first :: after) (hread : Reads property bytes name) :
    decodePathPart isIndex index property (bytes ++ rest) = some (.property name, rest) := by
  have := hread.map JsonPathPart.property rest
  rw [hb] at this ⊢
  rw [decodePathPart, h]
  exact this

end Path

variable {marker : UInt8} {value : JsonScalarValue} (name : String)

/-! ### Names -/

/-- The name is not taken for an index or the end of the path. -/
def readableName : Bool :=
  match utf8 name with
  | [] => true
  | first :: rest =>
    !(decide (intMin ≤ first) && decide (first ≤ intMax)) && !(first == escapedTerm && rest.head? == some jsonPathEnd)

theorem escapeBytes_starts (data rest : Bytes) : ∃ first second after, escapeBytes data ++ rest = first :: second :: after ∧
    ((intMin ≤ first ∧ first ≤ intMax) ↔ ∃ b tail, data = b :: tail ∧ intMin ≤ b ∧ b ≤ intMax) ∧
    ((first = escapedTerm ∧ second = jsonPathEnd) ↔ ∃ tail, data = escapedTerm :: tail ∧ tail.head? = some jsonPathEnd) := by
  have hmin : ¬intMin ≤ escape := by decide
  have hterm : escape ≠ escapedTerm := by decide
  cases data with
  | nil => exact ⟨escape, escapedTerm, rest, rfl, by simp [hmin], by simp [hterm]⟩
  | cons b data =>
    rw [escapeBytes_cons]
    by_cases hb : b = escape
    · rw [if_pos hb]
      exact ⟨escape, escaped00, _, rfl, by simp [hb], by simp [hb, hterm]⟩
    · rw [if_neg hb]
      cases data with
      | nil =>
        refine ⟨b, escape, escapedTerm :: rest, rfl, by simp, ?_⟩
        have : escape ≠ jsonPathEnd := by decide
        simp [this]
      | cons c data =>
        rw [escapeBytes_cons]
        by_cases hc : c = escape
        · rw [if_pos hc]
          have : escape ≠ jsonPathEnd := by decide
          simp [hc, this]
        · rw [if_neg hc]
          exact ⟨b, c, _, rfl, by simp, by simp⟩

theorem readableName_iff : readableName name = true ↔ (¬∃ b tail, utf8 name = b :: tail ∧ intMin ≤ b ∧ b ≤ intMax) ∧
      ¬∃ tail, utf8 name = escapedTerm :: tail ∧ tail.head? = some jsonPathEnd := by
  unfold readableName
  split
  · rename_i h
    simp [h]
  · rename_i first rest h
    rw [h, Bool.and_eq_true, Bool.not_eq_true', Bool.not_eq_true', Bool.and_eq_false_iff, Bool.and_eq_false_iff]
    simp only [decide_eq_false_iff_not, beq_eq_false_iff_ne, cons.injEq, exists_and_left, exists_eq_left', ← not_and_or,
      and_assoc, ne_eq]

theorem reads_pathString : Reads decodePathStringAscending (escapeBytes (utf8 name)) name :=
  (reads_escapeBytes (utf8 name)).bind_nil (Reads.lift (fromUtf8_utf8 name))

theorem reads_pathString_descending :
    Reads decodePathStringDescending (onesComplement (escapeBytes (utf8 name))) name := by
  refine (reads_escapeBytes_descending (utf8 name)).bind_nil (Reads.lift ?_)
  rw [complement_complement, fromUtf8_utf8]

/-! ### Paths -/

def AscendingReadable : JsonPathPart → Prop
  | .property name => readableName name = true
  | .index => True

def DescendingReadable : JsonPathPart → Prop
  | .property name => readableName name = true
  | .index => False

/-- The bytes of a part of a path. -/
def partCode (name : String → Bytes) (index : Bytes) : JsonPathPart → Bytes
  | .property s => name s
  | .index => index

theorem decodePath_iff {term pathEnd : UInt8} {isIndex : UInt8 → Bool} {index : Reader UInt64} {property : Reader String}
    {nameCode : String → Bytes} {indexReadable : Prop}
    (hn : ∀ name rest, ∃ first second after, nameCode name ++ rest = first :: second :: after ∧
      (isIndex first = true ↔ ∃ b tail, utf8 name = b :: tail ∧ intMin ≤ b ∧ b ≤ intMax) ∧
      ((first = term ∧ second = pathEnd) ↔ ∃ tail, utf8 name = escapedTerm :: tail ∧ tail.head? = some jsonPathEnd))
    (hread : ∀ name, Reads property (nameCode name) name) (hm : isIndex marker = true ↔ indexReadable)
    (hi : indexReadable → ∃ v, Reads index [marker] v) (ht : marker ≠ term) :
    decodePathParts term pathEnd (decodePathPart isIndex index property)
        ((path.flatMap (partCode nameCode [marker]) ++ term :: pathEnd :: tail).length + 1)
        (path.flatMap (partCode nameCode [marker]) ++ term :: pathEnd :: tail) = some (path, rest) ↔
      (∀ p ∈ path, match p with
        | .property name => readableName name = true
        | .index => indexReadable) ∧ rest = tail := by
  refine decodePathParts_iff ?_ ?_ ?_
  · rintro (name | _) rest hr hp
    · obtain ⟨first, second, after, hstarts, hf, hends⟩ := hn name rest
      obtain ⟨hnotIndex, hnotEnd⟩ := (readableName_iff name).mp hp
      rw [← hf, Bool.not_eq_true] at hnotIndex
      rw [← hends] at hnotEnd
      refine ⟨?_, decodePathPart_property hnotIndex hstarts (hread name)⟩
      rwa [partCode, hstarts, ends_cons]
    · obtain ⟨b, rest, rfl⟩ := exists_cons_of_ne_nil hr
      obtain ⟨v, hv⟩ := hi hp
      refine ⟨fun h => ht (ends_cons.mp h).1, ?_⟩
      have := hv.map (fun _ => JsonPathPart.index) (b :: rest)
      rw [partCode, cons_append] at *
      rw [decodePathPart, if_pos (hm.mpr hp)]
      exact this
  · rintro (name | _) rest hr hp hnot r hpart
    · obtain ⟨first, second, after, hstarts, hf, hends⟩ := hn name rest
      rw [partCode, hstarts] at hnot hpart
      rw [ends_cons, hends] at hnot
      have hnotIndex := decodePathPart_eq_property hpart
      rw [← Bool.not_eq_true, hf] at hnotIndex
      exact hp ((readableName_iff name).mpr ⟨hnotIndex, hnot⟩)
    · exact hp (hm.mp (decodePathPart_eq_index hpart))
  · have hcode : ∀ p, partCode nameCode [marker] p ≠ [] := by
      rintro (name | _)
      · obtain ⟨first, second, after, hstarts, -, -⟩ := hn name []
        rw [append_nil] at hstarts
        rw [partCode, hstarts]
        exact cons_ne_nil _ _
      · exact cons_ne_nil _ _
    have := length_le_flatMap hcode path
    rw [length_append]
    omega

theorem decodePathAscending_iff :
    decodePathAscending (encodePathAscending path ++ escapedTerm :: jsonPathEnd :: tail) = some (path, rest) ↔
      (∀ p ∈ path, AscendingReadable p) ∧ rest = tail := by
  refine decodePath_iff (fun name rest => ?_) reads_pathString (by decide) (fun _ => ⟨0, fun _ => rfl⟩) (by decide)
  obtain ⟨first, second, after, hstarts, hindex, hends⟩ := escapeBytes_starts (utf8 name) rest
  exact ⟨first, second, after, hstarts, by rwa [decide_eq_true_eq], hends⟩

theorem decodePathDescending_iff :
    decodePathDescending (encodePathDescending path ++ (~~~escapedTerm) :: (~~~jsonPathEnd) :: tail) = some (path, rest) ↔
      (∀ p ∈ path, DescendingReadable p) ∧ rest = tail := by
  refine decodePath_iff (fun name rest => ?_) reads_pathString_descending (by decide) (fun h => h.elim) (by decide)
  -- The bytes of a name and what follows them are those of the ascending form turned around.
  obtain ⟨first, second, after, hstarts, hindex, hends⟩ := escapeBytes_starts (utf8 name) (onesComplement rest)
  refine ⟨~~~first, ~~~second, onesComplement after, ?_, ?_, ?_⟩
  · have := congrArg onesComplement hstarts
    rwa [onesComplement, map_append, ← onesComplement, ← onesComplement, complement_complement] at this
  · rwa [decide_eq_true_eq, UInt8.not_not]
  · rwa [UInt8.not_inj, UInt8.not_inj]

/-! ### Scalars -/

/-- A value that a document holds. -/
def JsonScalarValue.Plain : JsonScalarValue → Prop
  | .null | .bool _ | .string _ => True
  | .number bits => float64.isNan bits.toNat = false
  | .pathMin | .pathMax => False

def JsonScalarValue.AscendingReadable : JsonScalarValue → Prop
  | .number bits => bits ≠ 0x8000000000000000
  | _ => True

/-- The decoder turns the markers of booleans and numbers around, which the encoder does not. -/
def JsonScalarValue.DescendingReadable : JsonScalarValue → Prop
  | .null | .string _ => True
  | _ => False

theorem canonical_eq_iff (bits : UInt64) : UInt64.ofNat (float64.canonical bits.toNat) = bits ↔ bits ≠ 0x8000000000000000 := by
  have hsign : float64.signBit = 9223372036854775808 := rfl
  have hlt := bits.toNat_lt
  rw [← UInt64.toNat_inj, Ne, ← UInt64.toNat_inj, FloatFormat.canonical, FloatFormat.isZero, hsign]
  split
  · rename_i hzero
    rw [decide_eq_true_eq] at hzero
    simp
    omega
  · rename_i hzero
    rw [decide_eq_true_eq] at hzero
    simp
    omega

theorem decodeScalarAscending_iff (h : value.Plain) (suffix : Bytes) :
    decodeScalarAscending (encodeScalarAscending value ++ suffix) = some (value, suffix) ↔ value.AscendingReadable := by
  cases value with
  | null => exact ⟨fun _ => trivial, fun _ => rfl⟩
  | bool b => exact ⟨fun _ => trivial, fun _ => by cases b <;> rfl⟩
  | number bits =>
    have hpeek : peekType (float64.encodeAscending bits.toNat ++ suffix) = .float64 :=
      peekType_scalar (show (Scalar.float64 bits).Indexable from trivial)
        (show encodeScalar (.float64 bits) false = some (float64.encodeAscending bits.toNat) from rfl) suffix
    have hread := (float64.reads_ascending (lt_signBit64 bits) h).map (fun bits => JsonScalarValue.number (.ofNat bits)) suffix
    rw [encodeScalarAscending, decodeScalarAscending, hpeek]
    refine Iff.trans ?_ (canonical_eq_iff bits)
    rw [hread, Option.some.injEq, Prod.mk.injEq, JsonScalarValue.number.injEq, and_iff_left rfl]
  | string s =>
    refine ⟨fun _ => trivial, fun _ => ?_⟩
    exact (reads_bytes (utf8 s)).bind_nil ((Reads.lift (fromUtf8_utf8 s)).map JsonScalarValue.string) suffix
  | pathMin => exact h.elim
  | pathMax => exact h.elim

theorem decodeScalarDescending_unknown (h : marker ∈ [2, 3, 4, 9, 10]) (rest : Bytes) :
    decodeScalarDescending (marker :: rest) = none := by
  simp only [mem_cons, not_mem_nil, or_false] at h
  rcases h with rfl | rfl | rfl | rfl | rfl <;> rfl

theorem decodeScalarDescending_iff (h : value.Plain) (suffix : Bytes) :
    decodeScalarDescending (encodeScalarDescending value ++ suffix) = some (value, suffix) ↔
      value.DescendingReadable := by
  cases value with
  | null => exact ⟨fun _ => trivial, fun _ => rfl⟩
  | bool b =>
    have hn : decodeScalarDescending (encodeScalarDescending (.bool b) ++ suffix) = none := by
      cases b <;> exact decodeScalarDescending_unknown (by decide) suffix
    rw [hn]
    exact ⟨fun heq => (by cases heq), False.elim⟩
  | number bits =>
    have hn : decodeScalarDescending (encodeScalarDescending (.number bits) ++ suffix) = none := by
      have he := float64.encoded (float64.negate_lt (lt_signBit64 bits)) ((float64.isNan_negate bits.toNat).trans h)
      rw [encodeScalarDescending, FloatFormat.encodeDescending, show float64.isNan bits.toNat = false from h]
      generalize float64.numeric (float64.negate bits.toNat) = x at he
      generalize float64.encodeAscending (float64.negate bits.toNat) = bytes at he
      cases he with
      | zero => exact decodeScalarDescending_unknown (by decide) _
      | negative => exact decodeScalarDescending_unknown (by decide) _
      | positive => exact decodeScalarDescending_unknown (by decide) _
    rw [hn]
    exact ⟨fun heq => (by cases heq), False.elim⟩
  | string s =>
    refine ⟨fun _ => trivial, fun _ => ?_⟩
    exact (reads_bytes_descending (utf8 s)).bind_nil ((Reads.lift (fromUtf8_utf8 s)).map JsonScalarValue.string) suffix
  | pathMin => exact h.elim
  | pathMax => exact h.elim

variable {leaf : JsonLeafValue}

/-! ### Leaves -/

theorem readsLeaf_iff {pathReader : Reader JsonPath} {valueReader : Reader JsonScalarValue}
    {input value suffix : Bytes} {pathReadable valueReadable : Prop}
    (hpath : ∀ rest, pathReader input = some (leaf.path, rest) ↔ pathReadable ∧ rest = value)
    (hvalue : valueReader value = some (leaf.value, suffix) ↔ valueReadable) :
    (do
      let path ← pathReader
      return { path, value := ← valueReader } : Reader JsonLeafValue) input = some (leaf, suffix) ↔
      pathReadable ∧ valueReadable := by
  rw [bind_eq_some]
  constructor
  · rintro ⟨path, middle, hread, hr⟩
    obtain ⟨v, last, hv, hpure⟩ := bind_eq_some.mp hr
    obtain ⟨rfl, rfl⟩ := pure_eq_some.mp hpure
    obtain ⟨hreadable, rfl⟩ := (hpath middle).mp hread
    exact ⟨hreadable, hvalue.mp hv⟩
  · rintro ⟨hp, hv⟩
    exact ⟨_, _, (hpath value).mpr ⟨hp, rfl⟩, bind_eq_some.mpr ⟨_, _, hvalue.mpr hv, rfl⟩⟩

theorem encodeJsonAscending_eq (h : leaf.value.Plain) (suffix : Bytes) :
    encodeJsonAscending leaf ++ suffix = jsonMarker :: (encodePathAscending leaf.path ++
      escapedTerm :: jsonPathEnd :: (encodeScalarAscending leaf.value ++ suffix)) := by
  obtain ⟨path, value⟩ := leaf
  cases value with
  | pathMin => exact h.elim
  | pathMax => exact h.elim
  | _ => simp [encodeJsonAscending]

theorem encodeJsonDescending_eq (h : leaf.value.Plain) (suffix : Bytes) :
    encodeJsonDescending leaf ++ suffix = jsonMarker :: (encodePathDescending leaf.path ++
      (~~~escapedTerm) :: (~~~jsonPathEnd) :: (encodeScalarDescending leaf.value ++ suffix)) := by
  obtain ⟨path, value⟩ := leaf
  cases value with
  | pathMin => exact h.elim
  | pathMax => exact h.elim
  | _ => simp [encodeJsonDescending]

theorem decodeJsonAscending_iff (h : leaf.value.Plain) (suffix : Bytes) :
    decodeJsonAscending (encodeJsonAscending leaf ++ suffix) = some (leaf, suffix) ↔
      (∀ p ∈ leaf.path, AscendingReadable p) ∧ leaf.value.AscendingReadable := by
  rw [encodeJsonAscending_eq h]
  exact readsLeaf_iff (fun rest => decodePathAscending_iff) (decodeScalarAscending_iff h suffix)

theorem decodeJsonDescending_iff (h : leaf.value.Plain) (suffix : Bytes) :
    decodeJsonDescending (encodeJsonDescending leaf ++ suffix) = some (leaf, suffix) ↔
      (∀ p ∈ leaf.path, DescendingReadable p) ∧ leaf.value.DescendingReadable := by
  rw [encodeJsonDescending_eq h]
  exact readsLeaf_iff (fun rest => decodePathDescending_iff) (decodeScalarDescending_iff h suffix)

/-- A leaf is read back exactly when the decoder can tell its parts and its value. -/
theorem json_leaf_read_back (leaf : JsonLeafValue) (h : leaf.value.Plain) :
    ((∀ suffix, decodeJsonAscending (encodeJsonAscending leaf ++ suffix) = some (leaf, suffix)) ↔
      (∀ p ∈ leaf.path, AscendingReadable p) ∧ leaf.value.AscendingReadable) ∧
    ((∀ suffix, decodeJsonDescending (encodeJsonDescending leaf ++ suffix) = some (leaf, suffix)) ↔
      (∀ p ∈ leaf.path, DescendingReadable p) ∧ leaf.value.DescendingReadable) :=
  ⟨⟨fun hall => (decodeJsonAscending_iff h []).mp (hall []), fun hok suffix => (decodeJsonAscending_iff h suffix).mpr hok⟩,
    fun hall => (decodeJsonDescending_iff h []).mp (hall []), fun hok suffix => (decodeJsonDescending_iff h suffix).mpr hok⟩

/-- A string under a name is read back in both directions. -/
theorem name_read_back :
    (∀ suffix, decodeJsonAscending (encodeJsonAscending ⟨[.property "name"], .string "x"⟩ ++ suffix) =
      some (⟨[.property "name"], .string "x"⟩, suffix)) ∧
    ∀ suffix, decodeJsonDescending (encodeJsonDescending ⟨[.property "name"], .string "x"⟩ ++ suffix) =
      some (⟨[.property "name"], .string "x"⟩, suffix) := by
  have hn : readableName "name" = true := by decide
  obtain ⟨hasc, hdescending⟩ := json_leaf_read_back ⟨[.property "name"], .string "x"⟩ trivial
  refine ⟨hasc.mpr ⟨fun p hp => ?_, trivial⟩, hdescending.mpr ⟨fun p hp => ?_, trivial⟩⟩
  all_goals
    rw [mem_singleton.mp hp]
    exact hn

/-- A name that starts outside ASCII is read as an index, and a descending boolean is not read at all. -/
theorem accented_name_and_bool_lost :
    decodeJsonAscending (encodeJsonAscending ⟨[.property "é"], .null⟩) ≠ some (⟨[.property "é"], .null⟩, []) ∧
    decodeJsonDescending (encodeJsonDescending ⟨[], .bool true⟩) = none := by
  refine ⟨?_, rfl⟩
  intro h
  have h' := decodeJsonAscending_iff (show (JsonLeafValue.mk [.property "é"] .null).value.Plain from trivial) []
  rw [append_nil] at h'
  have hname : readableName "é" = true := (h'.mp h).1 (.property "é") mem_cons_self
  exact absurd hname (by decide)

end Defra.Index
