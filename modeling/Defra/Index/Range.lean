import Defra.Lib.KeyedList
import Defra.Index.Encoding

/-! Secondary indexes in the key-value store and the scans over them (`index_key.rs`, `doc_id_index.rs`, `simple.rs`, `unique.rs`
    and `range_iterator.rs` of the `storage` crate). -/

namespace Defra.Index
open Reader

structure KvPair where
  key : Bytes
  value : Bytes
  deriving Repr, DecidableEq

abbrev KvStore := KeyedList KvPair.key

/-- The keys with a prefix, from `start` on and below `stop`, in order or in reverse. -/
structure IterOptions where
  keyPrefix : Bytes
  start : Option Bytes := none
  stop : Option Bytes := none
  reverse : Bool

structure StoreIterator where
  range : List KvPair
  rest : List KvPair
  reverse : Bool

variable (buf : Bytes) (store : KvStore) (collectionShortId : UInt32) (opts : IterOptions) (desc : IndexDescription)
  (values : List NormalValue) (docShortId : UInt64) (isUnique : Bool) (prefixValues : List NormalValue)

def IterOptions.admits (key : Bytes) : Bool :=
  opts.keyPrefix.isPrefixOf key && opts.start.all (fun start => decide (start ≤ key)) &&
    opts.stop.all (fun stop => decide (key < stop))

def KvStore.iterator : StoreIterator :=
  let pairs := store.toList.filter fun kv => opts.admits kv.key
  let range := if opts.reverse then pairs.reverse else pairs
  { range, rest := range, reverse := opts.reverse }

def StoreIterator.seek (iter : StoreIterator) (key : Bytes) : StoreIterator :=
  { iter with rest := iter.range.dropWhile fun kv => if iter.reverse then decide (key < kv.key) else decide (kv.key < key) }

def separator : UInt8 := 0x2f

/-- The number encoding of keys (`keys/utils`), which is not that of field values. -/
def encodeKeyUvarint (value : UInt64) : Bytes :=
  if value.toNat < 240 then [UInt8.ofNat value.toNat]
  else if value.toNat ≤ 2287 then
    let v := value.toNat - 240
    [0xf0 + UInt8.ofNat (v / 256), UInt8.ofNat (v % 256)]
  else
    let width := widthOf value.toNat
    (0xf7 + UInt8.ofNat width) :: Wire.toBe width value.toNat

def readUvarint : Reader UInt64 := do
  let first ← byte
  if first ≤ 0xef then return UInt64.ofNat first.toNat
  else if first ≤ 0xf7 then
    let low ← byte
    return UInt64.ofNat (240 + (first.toNat - 0xf0) * 256 + low.toNat)
  else return UInt64.ofNat (← be (first.toNat - 0xf7))

def decodeKeyUvarint : Except String (Bytes × UInt64) :=
  match readUvarint buf with
  | some (value, rest) => .ok (rest, value)
  | none => .error (if buf.isEmpty then "Empty buffer for uvarint decode" else "Buffer too short for its uvarint")

def encodeKeyVarint (value : Int64) : Bytes := encodeKeyUvarint (value.toUInt64 ^^^ 0x8000000000000000)

def decodeKeyVarint : Except String (Bytes × Int64) := do
  let (remaining, unsigned) ← decodeKeyUvarint buf
  return (remaining, (unsigned ^^^ 0x8000000000000000).toInt64)

def encodeDocShortId : Bytes := if docShortId ≠ 0 then encodeKeyUvarint docShortId else []

def decodeDocShortId (data : Bytes) : Option UInt64 := do
  let docShortId ← all readUvarint data
  if docShortId = 0 then none else return docShortId

structure IndexedFieldDescription where
  name : String
  descending : Bool
  deriving Repr, DecidableEq

structure IndexDescription where
  name : String
  id : UInt32
  fields : List IndexedFieldDescription
  unique : Bool
  deriving Repr, DecidableEq

/-- Every value is decoded as a blob, unless its marker tells another type. -/
def IndexDescription.keyFields : List IndexField :=
  desc.fields.map fun field => { kind := .scalar .nillableBlob, descending := field.descending }

def indexPrefix (collectionShortId indexId : UInt32) : Bytes :=
  separator :: (encodeKeyUvarint (.ofNat collectionShortId.toNat) ++
    separator :: (encodeKeyUvarint (.ofNat indexId.toNat) ++ [separator]))

structure IndexEntry where
  docShortId : UInt64
  values : List NormalValue

def hasNilField : Bool := values.any NormalValue.isNil

def buildKey :
    Option Bytes := do
  let fields ← encodeFields desc.keyFields values
  return indexPrefix collectionShortId desc.id ++
    (fields ++ if docShortId ≠ 0 then separator :: encodeDocShortId docShortId else [])

/-- A unique index has the short ID in the value, unless a field is nil. -/
def entryPair (entry : IndexEntry) : Option KvPair :=
  if desc.unique && !hasNilField entry.values then do
    return { key := ← buildKey collectionShortId desc entry.values 0, value := encodeDocShortId entry.docShortId }
  else do
    return { key := ← buildKey collectionShortId desc entry.values entry.docShortId, value := [] }

inductive Bound where
  | inclusive (value : NormalValue)
  | exclusive (value : NormalValue)
  | unbounded

structure RangeIterator where
  inner : StoreIterator
  indexPrefixLen : Nat
  desc : IndexDescription
  isUnique : Bool
  lowerBoundKey : Option Bytes
  upperBoundKey : Option Bytes
  lowerInclusive : Bool
  upperInclusive : Bool
  exhausted : Bool
  reverse : Bool

/-- The last byte that is not 0xff, plus one. -/
def prefixSuccessor (p : Bytes) : Option Bytes :=
  match p.reverse.dropWhile (· = 0xff) with
  | [] => none
  | last :: rest => some (rest.reverse ++ [last + 1])

def encodePrefixValues : List IndexedFieldDescription → List NormalValue → Option Bytes
  | _, [] => some []
  | fields, value :: values => do
    let bytes ← encodeFieldValue value (fields.head?.any (·.descending))
    let rest ← encodePrefixValues fields.tail values
    return bytes ++ rest

def Bound.key (keyPrefix : Bytes) (descending : Bool) : Bound → Option (Option Bytes × Bool)
  | .inclusive value => do return (some (keyPrefix ++ (← encodeFieldValue value descending)), true)
  | .exclusive value => do return (some (keyPrefix ++ (← encodeFieldValue value descending)), false)
  | .unbounded => some (none, true)

/-- After all keys with the bound's value when it is exclusive. The outer `none` is a scan with nothing to return. -/
def lowerStart (lowerBoundKey : Option Bytes) (inclusive : Bool) : Option (Option Bytes) :=
  match lowerBoundKey with
  | none => some none
  | some key => if inclusive then some (some key) else (prefixSuccessor key).map some

def upperStop (upperBoundKey : Option Bytes) (inclusive : Bool) : Option Bytes :=
  upperBoundKey.map fun key => if inclusive then key ++ [0xff] else key

def RangeIterator.newRange (lower upper : Bound) (reverse : Bool) : Option RangeIterator := do
  let base := indexPrefix collectionShortId desc.id
  let keyPrefix := base ++ (← encodePrefixValues desc.fields prefixValues)
  let descending := (desc.fields[prefixValues.length]?).any (·.descending)
  let (lowerBoundKey, lowerInclusive) ← lower.key keyPrefix descending
  let (upperBoundKey, upperInclusive) ← upper.key keyPrefix descending
  let start := lowerStart lowerBoundKey lowerInclusive
  let inner := store.iterator
    { keyPrefix, start := start.getD none, stop := upperStop upperBoundKey upperInclusive, reverse }
  return { inner, indexPrefixLen := base.length, desc, isUnique, lowerBoundKey, upperBoundKey, lowerInclusive,
           upperInclusive, exhausted := start.isNone, reverse }

def RangeIterator.newPrefix (reverse : Bool) : Option RangeIterator := do
  let base := indexPrefix collectionShortId desc.id
  let keyPrefix := base ++ (← encodePrefixValues desc.fields prefixValues)
  return { inner := store.iterator { keyPrefix, reverse }, indexPrefixLen := base.length, desc, isUnique,
           lowerBoundKey := none, upperBoundKey := none, lowerInclusive := true, upperInclusive := true,
           exhausted := false, reverse }

namespace RangeIterator

variable (iter : RangeIterator) (key : Bytes)

/-- The bounds then tell whether the cursor's key is included. -/
def applyCursorSeek (seekKey : Bytes) (inclusive reversed : Bool) : RangeIterator :=
  if reversed then
    { iter with upperBoundKey := some seekKey, upperInclusive := inclusive, inner := iter.inner.seek (seekKey ++ [0xff]) }
  else { iter with lowerBoundKey := some seekKey, lowerInclusive := inclusive, inner := iter.inner.seek seekKey }

def aboveLower (lower : Bytes) (inclusive : Bool) (key : Bytes) : Bool :=
  let cmpLen := min lower.length key.length
  !decide (key.take cmpLen < lower.take cmpLen) &&
    (inclusive ||
      !(decide (key.take cmpLen = lower.take cmpLen) && decide (lower.length ≤ key.length) &&
        decide (key.take lower.length = lower)))

def belowUpper (upper : Bytes) (inclusive : Bool) (key : Bytes) : Bool :=
  let cmpLen := min upper.length key.length
  !decide (upper.take cmpLen < key.take cmpLen) &&
    (inclusive ||
      !(decide (key.take cmpLen = upper.take cmpLen) && decide (upper.length ≤ key.length) &&
        decide (upper ≤ key.take upper.length)))

def isKeyWithinBounds : Bool :=
  iter.lowerBoundKey.all (aboveLower · iter.lowerInclusive key) && iter.upperBoundKey.all (belowUpper · iter.upperInclusive key)

/-- A key outside the bounds ends the scan when it is past the bound in the scan's direction. -/
def passed : Bool :=
  (!iter.reverse && iter.upperBoundKey.any fun upper => decide (upper ≤ key)) ||
    (iter.reverse && iter.lowerBoundKey.any fun lower => decide (key < lower))

def extractEntry (kv : KvPair) : Option IndexEntry := do
  let (values, suffix) ← decodeFields iter.desc.keyFields (kv.key.drop iter.indexPrefixLen)
  let docShortId ←
    if iter.isUnique && !hasNilField values && !kv.value.isEmpty then decodeDocShortId kv.value
    else
      match suffix with
      | first :: second :: rest => if first = separator then decodeDocShortId (second :: rest) else none
      | _ => none
  return { docShortId, values }

def nextIn (iter : RangeIterator) : List KvPair → Option (Option IndexEntry × RangeIterator)
  | [] => some (none, { iter with exhausted := true, inner := { iter.inner with rest := [] } })
  | kv :: rest =>
    let hasBounds := iter.lowerBoundKey.isSome || iter.upperBoundKey.isSome
    let iter' := { iter with inner := { iter.inner with rest } }
    if hasBounds && !iter.isKeyWithinBounds kv.key then
      if iter.passed kv.key then some (none, { iter' with exhausted := true }) else nextIn iter rest
    else do return (some (← iter.extractEntry kv), iter')

def next : Option (Option IndexEntry × RangeIterator) :=
  if iter.exhausted then some (none, iter) else iter.nextIn iter.inner.rest

/-- `next` until it has nothing more; each call but the last takes a pair from the store's iterator. -/
def collect : Nat → RangeIterator → Option (List IndexEntry)
  | 0, _ => none
  | calls + 1, iter => do
    match ← iter.next with
    | (none, _) => return []
    | (some entry, iter) => return entry :: (← collect calls iter)

def collectAll : Option (List IndexEntry) := iter.collect (iter.inner.rest.length + 1)

end RangeIterator

/-- The key that a cursor seeks to, from its boundary entry's values in the order of the index's fields and, where keys hold
    it, the short ID (`cursor.rs` of the `query` crate, `seek.rs` of the `db` crate). -/
def cursorSeekKey :
    Option Bytes := do
  let key := indexPrefix collectionShortId desc.id ++ (← encodePrefixValues desc.fields values)
  let hasNullValue := values.any NormalValue.isNil
  if !desc.unique || hasNullValue then return key ++ separator :: encodeDocShortId docShortId else return key

end Defra.Index
