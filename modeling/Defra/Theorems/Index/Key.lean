import Defra.Theorems.Index.Codec

/-! The bytes of an index's fields are in the order of the fields' values, and hold them. -/

namespace Defra.Index
open KeyOrder Reader Option List

/-! ### Values and their order -/

/-- The value is of the kind. -/
def ScalarKind.Takes (kind : ScalarKind) (value : Scalar) : Prop :=
  match kind.baseKind, value with
  | .nillableBool, .bool _ | .nillableInt, .int _ | .nillableFloat64, .float64 _ | .nillableFloat32, .float32 _
  | .nillableString, .string _ | .nillableBlob, .bytes _ | .nillableDateTime, .time _ => True
  | _, _ => False

def Scalar.Indexable : Scalar → Prop
  | .time value => value.isLeapSecond = false
  | _ => True

/-- The value has a place among the others: NaN and leap seconds have none. -/
def Scalar.Ordered : Scalar → Prop
  | .float64 bits => Index.float64.isNan bits.toNat = false
  | .float32 bits => Index.float32.isNan bits.toNat = false
  | .time value => value.isLeapSecond = false
  | _ => True

/-- The order of two values of one type. -/
def Scalar.order : Scalar → Scalar → Ordering
  | .bool a, .bool b => cmp a b
  | .int a, .int b => cmp a.toInt b.toInt
  | .float64 a, .float64 b => cmp (Index.float64.numeric a.toNat) (Index.float64.numeric b.toNat)
  | .float32 a, .float32 b => cmp (Index.float32.numeric a.toNat) (Index.float32.numeric b.toNat)
  | .string a, .string b => cmp (utf8 a) (utf8 b)
  | .bytes a, .bytes b => cmp a b
  | .time a, .time b => (cmp a.seconds.toInt b.seconds.toInt).then (cmp (a.nanos.toNat : Int) b.nanos.toNat)
  | _, _ => .eq

variable {value : Scalar}

theorem Scalar.Ordered.indexable (h : value.Ordered) : value.Indexable := by
  cases value with
  | time value => exact h
  | _ => trivial

/-- The value as it is read back. -/
def Scalar.canonical : Scalar → Scalar
  | .float64 bits => .float64 (.ofNat (Index.float64.readBack bits.toNat))
  | .float32 bits => .float32 (.ofNat (Index.float32.readBack bits.toNat))
  | value => value

def NormalValue.plain : NormalValue → Option Scalar
  | .scalar value => some value
  | .nillable value => value
  | _ => none

def FieldKind.Takes (kind : FieldKind) (val : NormalValue) : Prop :=
  (val.isNil = true ∨ ∃ value, val.plain = some value) ∧
    ∀ value, val.plain = some value → (∃ scalar, kind = .scalar scalar ∧ scalar.Takes value) ∧ value.Ordered

/-- A nil comes first. -/
def orderPlain : Option Scalar → Option Scalar → Ordering
  | none, none => .eq
  | none, some _ => .lt
  | some _, none => .gt
  | some a, some b => a.order b

/-- Each value is turned around when its field is descending. -/
def orderFields : List IndexField → List NormalValue → List NormalValue → Ordering
  | field :: fields, x :: xs, y :: ys =>
    let first := orderPlain x.plain y.plain
    (if field.descending then first.swap else first).then (orderFields fields xs ys)
  | _, _, _ => .eq

def recovered (val : NormalValue) : NormalValue :=
  match val.plain with
  | none => .null
  | some value => .scalar value.canonical

/-! ### Types and first bytes -/

theorem encodeScalar_isSome (h : value.Indexable) (down : Bool) : ∃ bytes, encodeScalar value down = some bytes := by
  cases value with
  | time time => exact ⟨_, if_neg (by rw [h]; exact Bool.false_ne_true)⟩
  | _ => exact ⟨_, rfl⟩

def Scalar.encodedType (down : Bool) : Scalar → EncodedType
  | .bool _ => .bool
  | .int _ => .int
  | .float64 _ => .float64
  | .float32 _ => .float32
  | .string _ | .bytes _ => if down then .bytesDesc else .bytes
  | .time _ => .time

theorem peekType_int {marker : UInt8} (h : 128 ≤ marker.toNat) (h' : marker.toNat ≤ 253) (rest : Bytes) :
    peekType (marker :: rest) = .int := by
  have hall : ∀ n : Fin 256, 128 ≤ n.val → n.val ≤ 253 → peekType [UInt8.ofNat n] = .int := by decide +kernel
  have := hall ⟨marker.toNat, marker.toNat_lt⟩ h h'
  rwa [UInt8.ofNat_toNat] at this

theorem peekType_varint (v : Int64) (rest : Bytes) : peekType (encodeVarintAscending v ++ rest) = .int := by
  by_cases h : v.toInt < 0
  · have hle := widthOf_le v.toInt.natAbs
    rw [encodeVarintAscending_negative h]
    exact peekType_int (by rw [negativeMarker hle]; omega) (by rw [negativeMarker hle]; omega) _
  · obtain ⟨marker, tail, heq, hm, hm'⟩ := encodeUvarintAscending_head v.toUInt64
    rw [encodeVarintAscending_nonneg (not_lt.mp h), heq]
    exact peekType_int (by omega) hm' _

theorem lt_signBit64 (bits : UInt64) : bits.toNat < 2 * float64.signBit := bits.toNat_lt
theorem lt_signBit32 (bits : UInt32) : bits.toNat < 2 * float32.signBit := bits.toNat_lt

variable {a b : Scalar} {vals : List NormalValue} (fmt : FloatFormat) (word : String) (count : Option Int64)

theorem FloatFormat.head_mem (bits : Nat) (down : Bool) : ∃ marker rest,
    (if down then fmt.encodeDescending bits else fmt.encodeAscending bits) = marker :: rest ∧
      marker ∈ [fmt.nan, fmt.neg, fmt.zero, fmt.pos, fmt.nanDesc] := by
  have hasc : ∀ bits, ∃ marker rest, fmt.encodeAscending bits = marker :: rest ∧
      marker ∈ [fmt.nan, fmt.neg, fmt.zero, fmt.pos, fmt.nanDesc] := by
    intro bits
    unfold encodeAscending
    split_ifs
    all_goals exact ⟨_, _, rfl, by simp⟩
  cases down with
  | false => exact hasc bits
  | true =>
    rw [if_pos rfl, encodeDescending]
    split
    · exact ⟨_, _, rfl, by simp⟩
    · exact hasc _

variable {down : Bool} {bytes : Bytes}

theorem peekType_scalar (h : value.Indexable) (hb : encodeScalar value down = some bytes) (rest : Bytes) :
    peekType (bytes ++ rest) = value.encodedType down := by
  cases value with
  | bool v => cases hb; cases down <;> cases v <;> rfl
  | int v => cases hb; cases down <;> exact peekType_varint _ rest
  | float64 v =>
    cases hb
    obtain ⟨marker, tail, heq, hmem⟩ := float64.head_mem v.toNat down
    simp only [mem_cons, not_mem_nil, or_false] at hmem
    rw [heq]
    rcases hmem with rfl | rfl | rfl | rfl | rfl <;> rfl
  | float32 v =>
    cases hb
    obtain ⟨marker, tail, heq, hmem⟩ := float32.head_mem v.toNat down
    simp only [mem_cons, not_mem_nil, or_false] at hmem
    rw [heq]
    rcases hmem with rfl | rfl | rfl | rfl | rfl <;> rfl
  | string v => cases hb; cases down <;> rfl
  | bytes v => cases hb; cases down <;> rfl
  | time v =>
    rw [encodeScalar, encodeTimeValue, if_neg (by rw [h]; exact Bool.false_ne_true)] at hb
    cases hb
    cases down <;> rfl

theorem before_null (h : value.Indexable) (hb : encodeScalar value down = some bytes) :
    Before encodeNullAscending bytes ∧ Before bytes encodeNullDescending := by
  have hpeek := peekType_scalar h hb []
  rw [append_nil] at hpeek
  have hn : peekType bytes ≠ .null := by
    rw [hpeek]
    cases value <;> cases down <;> simp [Scalar.encodedType]
  cases bytes with
  | nil =>
    cases value <;> cases down <;> cases hpeek
  | cons marker rest =>
    have hall : ∀ n : Fin 256, peekType [UInt8.ofNat n] ≠ .null → (0 : UInt8) < UInt8.ofNat n ∧ UInt8.ofNat n < 0xff := by
      decide +kernel
    have := hall ⟨marker.toNat, marker.toNat_lt⟩
    rw [UInt8.ofNat_toNat] at this
    exact ⟨.head _ _ (this hn).1, .head _ _ (this hn).2⟩

/-! ### Order -/

theorem encodeFloat_order {a b : Nat} (ha : a < 2 * fmt.signBit) (hb : b < 2 * fmt.signBit)
    (hna : fmt.isNan a = false) (hnb : fmt.isNan b = false) (down : Bool) :
    Agrees (if down then (cmp (fmt.numeric a) (fmt.numeric b)).swap
      else cmp (fmt.numeric a) (fmt.numeric b))
      (if down then fmt.encodeDescending a else fmt.encodeAscending a)
      (if down then fmt.encodeDescending b else fmt.encodeAscending b) := by
  cases down with
  | false => exact fmt.encodeAscending_order ha hb hna hnb
  | true => exact fmt.encodeDescending_order ha hb hna hnb

inductive SameType : Scalar → Scalar → Prop where
  | bool (a b : Bool) : SameType (.bool a) (.bool b)
  | int (a b : Int64) : SameType (.int a) (.int b)
  | float64 (a b : UInt64) : SameType (.float64 a) (.float64 b)
  | float32 (a b : UInt32) : SameType (.float32 a) (.float32 b)
  | string (a b : String) : SameType (.string a) (.string b)
  | bytes (a b : Bytes) : SameType (.bytes a) (.bytes b)
  | time (a b : Time) : SameType (.time a) (.time b)

theorem ScalarKind.Takes.sameType {kind : ScalarKind} (ha : kind.Takes a) (hb : kind.Takes b) : SameType a b := by
  unfold ScalarKind.Takes at ha hb
  split at ha <;> try exact ha.elim
  all_goals
    rename_i hk
    rw [hk] at hb
    cases b <;> try exact hb.elim
  all_goals constructor

variable {p q : Bytes}

/-- The bytes of scalars of one type are in their order. -/
theorem encodeScalar_order (htype : SameType a b) (ha : a.Ordered) (hb : b.Ordered)
    (hp : encodeScalar a down = some p) (hq : encodeScalar b down = some q) :
    Agrees (if down then (a.order b).swap else a.order b) p q := by
  cases htype with
  | bool x y =>
    cases hp; cases hq
    cases down with
    | false => exact encodeBoolAscending_order x y
    | true => exact encodeBoolDescending_order x y
  | int x y =>
    cases hp; cases hq
    cases down with
    | false =>
      rw [if_neg Bool.false_ne_true]
      exact encodeVarintAscending_order x y
    | true =>
      exact encodeVarintDescending_order x y
  | float64 x y =>
    cases hp; cases hq
    exact encodeFloat_order float64 (lt_signBit64 x) (lt_signBit64 y) ha hb down
  | float32 x y =>
    cases hp; cases hq
    exact encodeFloat_order float32 (lt_signBit32 x) (lt_signBit32 y) ha hb down
  | string x y =>
    cases hp; cases hq
    cases down with
    | false => exact encodeBytesAscending_order (utf8 x) (utf8 y)
    | true => exact encodeBytesDescending_order (utf8 x) (utf8 y)
  | bytes x y =>
    cases hp; cases hq
    cases down with
    | false => exact encodeBytesAscending_order x y
    | true => exact encodeBytesDescending_order x y
  | time x y =>
    rw [encodeScalar, encodeTimeValue, if_neg (by rw [ha]; exact Bool.false_ne_true)] at hp
    rw [encodeScalar, encodeTimeValue, if_neg (by rw [hb]; exact Bool.false_ne_true)] at hq
    cases hp; cases hq
    cases down with
    | false => exact encodeTimeAscending_order _ _ _ _
    | true => exact encodeTimeDescending_order _ _ _ _

theorem lt_of_not_leap {time : Time} (h : time.isLeapSecond = false) : time.nanos.toNat < 1000000000 := by
  have hlt : ¬nanosPerSecond ≤ time.nanos := of_decide_eq_false h
  exact not_le.mp fun hle => hlt (UInt32.le_iff_toNat_le.mpr hle)

/-! ### Reading back -/

def FieldKind.isString (kind : FieldKind) : Bool := kind.asScalar.any fun kind => kind.baseKind = .nillableString

/-- The value that a field of the kind gives back. Only the kind tells a string from bytes. -/
def Scalar.readAs (kind : FieldKind) : Scalar → Option Scalar
  | .string s => some (if kind.isString then .string s else .bytes (utf8 s))
  | .bytes data => if kind.isString then (fromUtf8 data).map .string else some (.bytes data)
  | value => some value.canonical

theorem reads_bytesValue (kind : FieldKind) (down : Bool) {data : Bytes}
    (h : (if kind.isString then (fromUtf8 data).map Scalar.string else some (.bytes data)) = some value) : Reads (do
      let v ← if down then decodeBytesDescending else decodeBytesAscending
      if kind.isString then return .scalar (.string (← lift (fromUtf8 v)))
      else return .scalar (.bytes v) : Reader NormalValue)
      (if down then encodeBytesDescending data else encodeBytesAscending data) (.scalar value) := by
  have hlast : Reads (if kind.isString then (do return .scalar (.string (← lift (fromUtf8 data))))
      else return .scalar (.bytes data) : Reader NormalValue) [] (.scalar value) := by
    cases hstring : kind.isString with
    | true =>
      rw [hstring] at h
      obtain ⟨s, hs, rfl⟩ := map_eq_some_iff.mp h
      exact (Reads.lift hs).map fun s => NormalValue.scalar (.string s)
    | false =>
      rw [hstring] at h
      cases h
      exact Reads.pure _
  cases down with
  | false => exact (reads_bytes data).bind_nil hlast
  | true => exact (reads_bytes_descending data).bind_nil hlast

variable {kind : FieldKind}

/-- A scalar is read back from its bytes. -/
theorem reads_scalar {back : Scalar} (hback : value.readAs kind = some back)
    (h : value.Indexable) (hb : encodeScalar value down = some bytes) :
    Reads (decodeFieldValue down kind) bytes (.scalar back) := by
  intro rest
  rw [decodeFieldValue, peekType_scalar h hb rest]
  revert rest
  cases value with
  | bool v =>
    cases hb; cases hback
    cases down with
    | false => exact (reads_bool v).bind_nil (Reads.pure _)
    | true => exact (reads_bool_descending v).bind_nil (Reads.pure _)
  | int v =>
    cases hb; cases hback
    cases down with
    | false => exact (reads_varint v).bind_nil (Reads.pure _)
    | true => exact (reads_varint_descending v).bind_nil (Reads.pure _)
  | float64 v =>
    cases hb; cases hback
    have hread := (float64.reads (lt_signBit64 v) down).map fun bits => NormalValue.scalar (.float64 (.ofNat bits))
    cases down <;> exact hread
  | float32 v =>
    cases hb; cases hback
    have hread := (float32.reads (lt_signBit32 v) down).map fun bits => NormalValue.scalar (.float32 (.ofNat bits))
    cases down <;> exact hread
  | string v =>
    have hutf8 : (if kind.isString then (fromUtf8 (utf8 v)).map Scalar.string else some (.bytes (utf8 v))) = some back := by
      rw [fromUtf8_utf8, ← hback, Scalar.readAs]
      cases kind.isString <;> rfl
    have hread := reads_bytesValue kind down hutf8
    cases hb
    cases down <;> exact hread
  | bytes v =>
    have hread := reads_bytesValue kind down hback
    cases hb
    cases down <;> exact hread
  | time v =>
    have hn := lt_of_not_leap h
    have hlast : Reads (do return .scalar (.time (← lift (timestampOpt v.seconds v.nanos))) : Reader NormalValue) []
        (.scalar (.time v)) :=
      (Reads.lift (dif_pos ⟨v.inRange, hn⟩)).bind_nil (Reads.pure _)
    rw [encodeScalar, encodeTimeValue, if_neg (by rw [h]; exact Bool.false_ne_true)] at hb
    cases hb; cases hback
    cases down with
    | false => exact (reads_time reads_varint v.seconds hn).bind_nil hlast
    | true => exact (reads_time reads_varint_descending v.seconds hn).bind_nil hlast

theorem ScalarKind.Takes.readAs {kind : ScalarKind} (h : kind.Takes value) :
    value.readAs (.scalar kind) = some value.canonical := by
  have hstring : (FieldKind.scalar kind).isString = decide (kind.baseKind = .nillableString) := rfl
  unfold ScalarKind.Takes at h
  split at h <;> simp_all [Scalar.readAs, Scalar.canonical]

variable {val : NormalValue}

theorem encodeFieldValue_of_plain (h : val.plain = some value) (down : Bool) :
    encodeFieldValue val down = encodeScalar value down := by
  cases val with
  | scalar v => cases h; rfl
  | nillable v => cases h; rfl
  | _ => cases h

theorem FieldKind.Takes.encode (h : kind.Takes val) (down : Bool) : (val.plain = none ∧
      encodeFieldValue val down = some (if down then encodeNullDescending else encodeNullAscending)) ∨
    ∃ value scalar bytes, val.plain = some value ∧ kind = .scalar scalar ∧ scalar.Takes value ∧ value.Ordered ∧
      encodeScalar value down = some bytes ∧ encodeFieldValue val down = some bytes := by
  obtain ⟨hnil, hv⟩ := h
  cases hp : val.plain with
  | none =>
    have hnil : val.isNil = true := by
      rcases hnil with hnil | ⟨value, hs⟩
      · exact hnil
      · rw [hp] at hs
        cases hs
    exact .inl ⟨rfl, if_pos hnil⟩
  | some value =>
    obtain ⟨⟨scalar, hk, htakes⟩, hord⟩ := hv value hp
    obtain ⟨bytes, hb⟩ := encodeScalar_isSome hord.indexable down
    exact .inr ⟨value, scalar, bytes, rfl, hk, htakes, hord, hb,
      (encodeFieldValue_of_plain hp down).trans hb⟩

theorem reads_fieldValue (h : kind.Takes val) (hb : encodeFieldValue val down = some bytes) :
    Reads (decodeFieldValue down kind) bytes (recovered val) := by
  rcases h.encode down with ⟨hplain, hnull⟩ | ⟨value, scalar, p, hplain, rfl, htakes, hord, hp, hs⟩
  · cases hb.symm.trans hnull
    rw [recovered, hplain]
    intro rest
    cases down <;> rfl
  · cases hb.symm.trans hs
    rw [recovered, hplain]
    exact reads_scalar htakes.readAs hord.indexable hp

theorem encodeFieldValue_order {x y : NormalValue} (hx : kind.Takes x) (hy : kind.Takes y)
    (hp : encodeFieldValue x down = some p)
    (hq : encodeFieldValue y down = some q) :
    Agrees (if down then (orderPlain x.plain y.plain).swap else orderPlain x.plain y.plain) p q := by
  rcases hx.encode down with ⟨hxp, hp'⟩ | ⟨a, kind, p', hxp, rfl, hka, ha, hp'', hp'⟩ <;>
    rcases hy.encode down with ⟨hyp, hq'⟩ | ⟨b, kind', q', hyp, hk, hkb, hb, hq'', hq'⟩ <;>
    cases hp.symm.trans hp' <;> cases hq.symm.trans hq' <;> rw [hxp, hyp]
  · cases down <;> exact rfl
  · cases down with
    | false => exact (before_null hb.indexable hq'').1
    | true => exact (before_null hb.indexable hq'').2
  · cases down with
    | false => exact (before_null ha.indexable hp'').1
    | true => exact (before_null ha.indexable hp'').2
  · cases hk
    exact encodeScalar_order (hka.sameType hkb) ha hb hp'' hq''

/-! ### Several fields -/

def Takes (fields : List IndexField) (vals : List NormalValue) : Prop :=
  List.Forall₂ (fun field val => field.kind.Takes val) fields vals

variable {fields : List IndexField}

theorem encodeFields_cons {field : IndexField} (hp : encodeFieldValue val field.descending = some p)
    (hq : encodeFields fields vals = some q) : encodeFields (field :: fields) (val :: vals) = some (p ++ q) := by
  rw [encodeFields, hp, bind_eq_bind, hq]
  rfl

theorem encodeFields_isSome (h : Takes fields vals) : ∃ bytes, encodeFields fields vals = some bytes ∧
      Reads (decodeFields fields) bytes (vals.map recovered) := by
  induction h with
  | nil => exact ⟨[], rfl, Reads.pure []⟩
  | @cons field val fields vals htakes _ ih =>
    obtain ⟨q, hq, hread⟩ := ih
    have he : ∃ p, encodeFieldValue val field.descending = some p := by
      rcases htakes.encode field.descending with ⟨-, hp⟩ | ⟨_, _, p, -, -, -, -, -, hp⟩
      · exact ⟨_, hp⟩
      · exact ⟨p, hp⟩
    obtain ⟨p, hp⟩ := he
    exact ⟨p ++ q, encodeFields_cons hp hq, (reads_fieldValue htakes hp).bind (hread.bind_nil (Reads.pure _))⟩

/-- The bytes of the fields, taken together, are in the order of the values. -/
theorem encodeFields_agrees {xs ys : List NormalValue} (hx : Takes fields xs)
    (hy : Takes fields ys) (hp : encodeFields fields xs = some p) (hq : encodeFields fields ys = some q) :
    Agrees (orderFields fields xs ys) p q := by
  induction hx generalizing ys p q with
  | nil =>
    cases hy
    cases hp
    cases hq
    exact rfl
  | cons hfx hx ih =>
    cases hy with
    | cons hfy hy =>
      simp only [encodeFields, bind_eq_bind, bind_eq_some_iff] at hp hq
      obtain ⟨p1, hp1, p2, hp2, hp⟩ := hp
      obtain ⟨q1, hq1, q2, hq2, hq⟩ := hq
      cases hp
      cases hq
      exact (encodeFieldValue_order hfx hfy hp1 hq1).append (ih hy hp2 hq2)

/-- Keys are in the order of their tuples, none is a proper prefix of another, and the values are read back from a key
    whatever follows it, a negative zero as a positive one. -/
theorem encodeFields_order (fields : List IndexField) (xs ys : List NormalValue) (hx : Takes fields xs)
    (hy : Takes fields ys) :
    ∃ p q, encodeFields fields xs = some p ∧ encodeFields fields ys = some q ∧
      cmp p q = orderFields fields xs ys ∧ (p <+: q → p = q) ∧
      ∀ rest, decodeFields fields (p ++ rest) = some (xs.map recovered, rest) := by
  obtain ⟨p, hp, hread⟩ := encodeFields_isSome hx
  obtain ⟨q, hq, -⟩ := encodeFields_isSome hy
  have hagrees := encodeFields_agrees hx hy hp hq
  exact ⟨p, q, hp, hq, hagrees.cmp_eq, hagrees.eq_of_prefix, hread⟩

/-! ### Words -/

/-- A string, descending, and a number. -/
def wordFields : List IndexField := [⟨.scalar .string, true⟩, ⟨.scalar .nillableInt, false⟩]

def wordTuple : List NormalValue :=
  [.scalar (.string word), .nillable (count.map .int)]

theorem takes_wordTuple : Takes wordFields (wordTuple word count) := by
  have hw : (FieldKind.scalar .string).Takes (.scalar (.string word)) :=
    ⟨.inr ⟨_, rfl⟩, fun value h => by cases h; exact ⟨⟨_, rfl, trivial⟩, trivial⟩⟩
  have hc : (FieldKind.scalar .nillableInt).Takes (.nillable (count.map .int)) := by
    cases count with
    | none => exact ⟨.inl rfl, nofun⟩
    | some v => exact ⟨.inr ⟨_, rfl⟩, fun value h => by cases h; exact ⟨⟨_, rfl, trivial⟩, trivial⟩⟩
  exact .cons hw (.cons hc .nil)

def words : List (List NormalValue) := [wordTuple "b" none, wordTuple "b" (some 300), wordTuple "a" (some (-1))]

/-- The later word comes first, and within a word a missing number does. -/
theorem words_order : words.Pairwise fun x y => ∃ p q, encodeFields wordFields x = some p ∧
    encodeFields wordFields y = some q ∧ cmp p q = .lt ∧ (p <+: q → p = q) ∧
      ∀ rest, decodeFields wordFields (p ++ rest) = some (x.map recovered, rest) := by
  have hlt : words.Pairwise fun x y => orderFields wordFields x y = .lt := by decide
  have htakes : ∀ x ∈ words, Takes wordFields x := by
    simp only [words, mem_cons, not_mem_nil, or_false]
    rintro x (rfl | rfl | rfl) <;> exact takes_wordTuple ..
  refine hlt.imp_of_mem fun {x y} hx hy hxy => ?_
  rw [← hxy]
  exact encodeFields_order wordFields x y (htakes x hx) (htakes y hy)

/-- Of 2016-12-31T23:59:60Z. -/
def leapSecond : Time := ⟨1483228799, 1000000000, by decide, by decide⟩

/-- A negative zero is not read back as such, and a leap second has no key. -/
theorem negative_zero_and_leap_second_lost : (∃ bits bytes, float64.isNan bits.toNat = false ∧
    encodeFieldValue (.scalar (.float64 bits)) false = some bytes ∧
    decodeFieldValue false (.scalar .float64) bytes = some (.scalar (.float64 0), []) ∧ bits ≠ 0) ∧
    ∀ down, encodeFieldValue (.scalar (.time leapSecond)) down = none := by
  refine ⟨⟨0x8000000000000000, [3], ?_, ?_, ?_, ?_⟩, fun down => ?_⟩
  · decide
  · rfl
  · rfl
  · decide
  · rfl

end Defra.Index
