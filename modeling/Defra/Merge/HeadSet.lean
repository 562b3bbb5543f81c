import Defra.Lib.KeyedList
import Defra.Lib.Wire
import Defra.Merge.Operand

/-! Head sets: per name, live with its priority or superseded before its own head arrived. A write holds, per name, a
    function on the name's state (`merge/head_set.rs`). -/

namespace Defra.Merge.HeadSet
open Reader

inductive State where
  | absent
  | ahead
  | live (priority : UInt64)
  deriving Repr, DecidableEq

/-- What a function does to the states of one class: leave them, or send them to one state. -/
inductive Image where
  | keep
  | toState (state : State)
  deriving Repr, DecidableEq

def Image.resolve : Image → State → State
  | .keep, input => input
  | .toState state, _ => state

/-- A name's function on states, as the images of absent, ahead and live. -/
structure Func where
  absent : Image
  ahead : Image
  live : Image
  deriving Repr, DecidableEq

namespace Func

def identity : Func := ⟨.keep, .keep, .keep⟩
def supersede : Func := ⟨.keep, .keep, .toState .absent⟩
def supersedeAhead : Func := ⟨.toState .ahead, .keep, .toState .absent⟩
def add (priority : UInt64) : Func := ⟨.toState (.live priority), .toState .absent, .keep⟩

def apply (func : Func) (state : State) : State :=
  match state with
  | .absent => func.absent.resolve state
  | .ahead => func.ahead.resolve state
  | .live _ => func.live.resolve state

/-- One spelling per function: sending absent to absent, or ahead to ahead, is leaving them. -/
def canonical (func : Func) : Func :=
  { func with
    absent := if func.absent = .toState .absent then .keep else func.absent
    ahead := if func.ahead = .toState .ahead then .keep else func.ahead }

/-- The image of `first`, then what `next` does, which is `second` on the class `first` keeps. -/
def chain (next : Func) : Image → Image → Image
  | .keep, second => second
  | .toState mid, _ => .toState (next.apply mid)

def andThen (func next : Func) : Func :=
  canonical
    { absent := chain next func.absent next.absent
      ahead := chain next func.ahead next.ahead
      live := chain next func.live next.live }

end Func

def putUvarint (value : Nat) : Bytes :=
  if value < 128 then [UInt8.ofNat value] else UInt8.ofNat (value % 128 + 128) :: putUvarint (value / 128)

/-- The rest of a number whose bytes before `index` gave `value`. The tenth byte carries only the top bit. -/
def takeUvarintFrom (index value : Nat) : Nat → Reader Nat
  | 0 => fail
  | left + 1 => do
    let next ← byte
    let low := (next &&& 0x7f).toNat
    if index = 9 ∧ low > 1 then fail
    else
      let value := value ||| (low <<< (7 * index))
      if next &&& 0x80 = 0 then return value else takeUvarintFrom (index + 1) value left

def takeUvarint : Reader Nat := takeUvarintFrom 0 0 10

def takeName : Reader Bytes := do
  take (← takeUvarint)

variable (hash : Bytes → UInt64) (name : Bytes)

def putName : Bytes := putUvarint name.length ++ name

def putImage : Image → Bytes
  | .keep => [0]
  | .toState .absent => [1]
  | .toState .ahead => [2]
  | .toState (.live priority) => 3 :: putUvarint priority.toNat

def takeImage : Reader Image := do
  match (← byte) with
  | 0 => return .keep
  | 1 => return .toState .absent
  | 2 => return .toState .ahead
  | 3 => return .toState (.live (UInt64.ofNat (← takeUvarint)))
  | _ => fail

/-- `count` more entries. A name that does not rise over the last one is refused. -/
def listFrom {α : Type} (entry : Reader α) : Nat → Option Bytes → Reader (List (Bytes × α))
  | 0, _ => pure []
  | count + 1, last => do
    let name ← takeName
    if last.any (name ≤ ·) then fail
    else
      let first ← entry
      let rest ← listFrom entry count (some name)
      return (name, first) :: rest

def list {α : Type} (entry : Reader α) (body : Bytes) : Option (List (Bytes × α)) :=
  Reader.all (do listFrom entry (← takeUvarint) none) body

def takeFunc : Reader Func := do
  let absent ← takeImage
  let ahead ← takeImage
  let live ← takeImage
  return Func.canonical { absent, ahead, live }

def takeState : Reader State := do
  match (← byte) with
  | 0 => return .ahead
  | 1 => return .live (UInt64.ofNat (← takeUvarint))
  | _ => fail

def operandEntries (body : Bytes) : Option (List (Bytes × Func)) := list takeFunc body

def stateEntries (body : Bytes) : Option (List (Bytes × State)) := list takeState body

def putFunc (func : Func) : Bytes := putImage func.absent ++ putImage func.ahead ++ putImage func.live

def putState : State → Bytes
  | .live priority => 1 :: putUvarint priority.toNat
  | .ahead | .absent => [0]

def encodeOperand (entries : List (Bytes × Func)) : Bytes :=
  encode headSet (putUvarint entries.length ++ entries.flatMap fun (name, func) => putName name ++ putFunc func)

abbrev Names := KeyedList (Prod.fst : Bytes × State → Bytes)

def encodeState (names : Names) : Bytes :=
  encode headSetState
    (putUvarint names.toList.length ++ names.toList.flatMap fun (name, state) => putName name ++ putState state)

/-- Do to `name` what `func` does. A name that gets absent is not stored. -/
def applyEntry (names : Names) (entry : Bytes × Func) : Names :=
  let (name, func) := entry
  match func.apply (((names.find? name).map Prod.snd).getD .absent) with
  | .absent => names.erase name
  | state => names.put (name, state)

def applyOperand (names : Names) (operand : Bytes) : Option Names := do
  return (← operandEntries (← body headSet operand)).foldl applyEntry names

/-- The stored value after `operands`, in order, onto `base`. -/
def full (base : Option Bytes) (operands : List Bytes) : Option Bytes := do
  let names : Names ← match base with
    | some bytes => (body headSetState bytes).bind fun body => (stateEntries body).map KeyedList.ofList
    | none => pure ∅
  let names ← operands.foldlM applyOperand names
  return encodeState names

/-- A name's functions are composed, in one walk over both lists. -/
def walk : List (Bytes × Func) → List (Bytes × Func) → List (Bytes × Func)
  | [], right => right
  | left, [] => left
  | (a, first) :: left, (b, second) :: right =>
    if a = b then (a, first.andThen second) :: walk left right
    else if a < b then (a, first) :: walk left ((b, second) :: right)
    else (b, second) :: walk ((a, first) :: left) right
termination_by left right => left.length + right.length

def foldEntries (left right : List (Bytes × Func)) : List (Bytes × Func) :=
  (walk left right).filter fun entry => entry.2 ≠ .identity

/-- One operand that does what `left`, then `right`, does. -/
def fold (left right : Bytes) : Option Bytes := do
  let left ← operandEntries (← body headSet left)
  let right ← operandEntries (← body headSet right)
  return encodeOperand (foldEntries left right)

def namePart : UInt32 := 0x80000000

/-- The part of a set that is `name`'s state: a hash of the name with the flag set. -/
def part : UInt32 := namePart ||| (hash name).toUInt32

/-- No parts, an ID that is no name's part, or malformed bytes: true. -/
def touches (body : Bytes) (parts : List UInt32) : Bool :=
  parts.isEmpty || parts.any (fun id => id &&& namePart = 0) ||
    (operandEntries body).all fun entries => entries.any fun entry => parts.contains (part hash entry.1)

structure Write where
  entries : KeyedList (Prod.fst : Bytes × Func → Bytes) := ∅

namespace Write

variable (write : Write) (name : Bytes)

def andThen (func : Func) : Write :=
  let held := ((write.entries.find? name).map Prod.snd).getD .identity
  { entries := write.entries.put (name, held.andThen func) }

/-- `name` becomes a head at `priority`; an ahead `name` is consumed. -/
def add (priority : UInt64) : Write := write.andThen name (.add priority)

/-- `name` stops being a head, and its own head has already arrived. -/
def supersede : Write := write.andThen name .supersede

/-- `name` stops being a head, and is held ahead until its own head arrives. -/
def supersedeAhead : Write := write.andThen name .supersedeAhead

def isEmpty : Bool := write.entries.toList.all fun entry => entry.2 = .identity

def operand : Bytes := encodeOperand (write.entries.toList.filter fun entry => entry.2 ≠ .identity)

end Write

structure Set where
  names : Names := ∅

namespace Set

def read (bytes : Bytes) : Option Set :=
  (body headSetState bytes).bind fun body => (stateEntries body).map fun entries => { names := .ofList entries }

variable (set : Set) (name : Bytes)

def apply (write : Write) : Set := { names := write.entries.toList.foldl applyEntry set.names }

def live : List (Bytes × UInt64) := set.names.toList.filterMap fun (name, state) =>
  match state with
  | .live priority => some (name, priority)
  | .ahead | .absent => none

def ahead : List Bytes := set.names.toList.filterMap fun (name, state) =>
  match state with
  | .ahead => some name
  | .live _ | .absent => none

def state : Option State := (set.names.find? name).map Prod.snd

def isLive : Bool :=
  match set.state name with
  | some (.live _) => true
  | _ => false

end Set
end Defra.Merge.HeadSet
