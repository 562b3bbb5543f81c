import Defra.Bytes

/-! What every operand and value of the merge operator starts with (`merge/mod.rs`). -/

namespace Defra.Merge

def magic : Bytes := [68, 77, 1]

def int64 : UInt8 := 1
def float32 : UInt8 := 2
def float64 : UInt8 := 3
def stats : UInt8 := 4
def document : UInt8 := 5
def vectorLinks : UInt8 := 6
def vectorCounts : UInt8 := 7
def headSet : UInt8 := 8
def headSetState : UInt8 := 9

/-- What every operand of `kind` starts with. -/
def header (kind : UInt8) : Bytes := magic ++ [kind]

def encode (kind : UInt8) (value : Bytes) : Bytes := header kind ++ value

def decode (bytes : Bytes) : Option (UInt8 × Bytes) :=
  match bytes.dropPrefix? magic with
  | some (kind :: value) => some (kind, value)
  | _ => none

/-- What follows the header of an operand or value of `kind`. -/
def body (kind : UInt8) (bytes : Bytes) : Option Bytes :=
  (decode bytes).bind fun (found, value) => if found = kind then some value else none

end Defra.Merge
