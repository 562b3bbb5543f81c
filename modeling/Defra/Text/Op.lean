import Mathlib.Algebra.GroupWithZero.Nat
import Defra.Bytes

/-! Edits to a Text field, as a Text block carries them (`text_op.rs`). A `String` is the list of its
    characters: every operation of the source counts Unicode scalar values, never bytes. -/

namespace Defra.Text

inductive TextOp where
  /-- Insert `text` before the character at `pos`. -/
  | insert (pos : UInt64) (text : List Char)
  /-- Delete `len` characters starting at `pos`. -/
  | delete (pos len : UInt64)
  deriving Repr, DecidableEq

/-- `pos` as an index into a text of `len` characters, the end when past it. -/
def clamp (pos : Nat) (len : Nat) : Nat := min pos len

/-- `u64::saturating_add`. -/
def saturatingAdd (a b : UInt64) : Nat := min (a.toNat + b.toNat) (2 ^ 64 - 1)

namespace TextOp

def apply (text : List Char) : TextOp → List Char
  | .insert pos new =>
    let start := clamp pos.toNat text.length
    text.take start ++ new ++ text.drop start
  | .delete pos len =>
    let start := clamp pos.toNat text.length
    let stop := clamp (saturatingAdd pos len) text.length
    text.take start ++ text.drop stop

def applyAll (text : List Char) (ops : List TextOp) : List Char := ops.foldl apply text

/-- The number of pairs that `zip` and `take_while` let through. -/
def common (old new : List Char) : Nat := ((old.zip new).takeWhile fun pair => pair.1 == pair.2).length

/-- By what the texts share at both ends: one delete of the middle, one insert of what replaces it. -/
def diff (old new : List Char) : List TextOp :=
  let first := common old new
  let oldRest := old.drop first
  let newRest := new.drop first
  let suffix := common oldRest.reverse newRest.reverse
  let removed := oldRest.length - suffix
  let inserted := newRest.take (newRest.length - suffix)
  (if removed > 0 then [.delete (.ofNat first) (.ofNat removed)] else []) ++
    if inserted.isEmpty then [] else [.insert (.ofNat first) inserted]

end TextOp

/-- A `&str`: its characters, of at most `isize::MAX` bytes together. -/
structure Str where
  chars : List Char
  bytes_lt : (chars.map Char.utf8Size).sum < 2 ^ 63

structure TextBlock where
  id : Bytes
  parents : List Bytes
  ops : List TextOp
  deriving Repr, DecidableEq

/-- What a replay fails with (`Error::MergeError` of `defra_core`). -/
inductive Error where
  | mergeError (message : String)
  deriving Repr, DecidableEq

end Defra.Text
