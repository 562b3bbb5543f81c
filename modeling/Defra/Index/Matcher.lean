import Defra.Lib.Wildcard
import Defra.Index.Value

/-! Patterns against the values of index entries (`index/matcher/mod.rs` of the `storage` crate). -/

namespace Defra.Index.Matcher

/-- `%`. -/
def percent : UInt8 := 37

/-- A wildcard takes the byte from the old row's entry before it, and is never passed over. -/
def likeRow (byte : UInt8) : Bytes → List Bool → Bool → List Bool
  | p :: pattern, old :: row, prev =>
    (if p = percent then prev || old else if byte = p then prev else false) :: likeRow byte pattern row old
  | _, _, _ => []

def likeEnd : Bytes → List Bool → Bool → Bool
  | p :: pattern, old :: row, cur => likeEnd pattern row (if p = percent ∧ cur then true else old)
  | _, _, cur => cur

def likeRows (pattern : Bytes) : Bytes → List Bool → Bool → Bool
  | [], row, first => likeEnd pattern row first
  | byte :: text, row, first => likeRows pattern text (likeRow byte pattern row first) false

def likeMatch (text pattern : String) : Bool :=
  likeRows (utf8 pattern) (utf8 text) (Wildcard.startRow percent (utf8 pattern)) true

def asStr : NormalValue → Option String
  | .scalar (.string s) | .nillable (some (.string s)) => some s
  | _ => none

def like (pattern : String) (value : NormalValue) : Bool := (asStr value).any fun s => likeMatch s pattern

/-- `NlikeMatcher::matches`: a value that is not a string matches neither. -/
def nlike (pattern : String) (value : NormalValue) : Bool := (asStr value).isSome && !like pattern value

end Defra.Index.Matcher
