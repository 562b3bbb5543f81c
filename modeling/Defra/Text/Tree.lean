import Defra.Text.Order

/-! The Fugue tree a replay builds (`Tree` in `fugue.rs`). Every character is a node. Where the source
    indexes a vector, an index past its end reads as the root, which no step of a replay does. -/

namespace Defra.Text

inductive Side where
  | left
  | right
  deriving Repr, DecidableEq

/-- `usize::MAX` for the root, `BASE` for a placeholder span, or the topological position of the block. -/
inductive Origin where
  | root
  | base
  | step (position : Nat)
  deriving Repr, DecidableEq

structure Node where
  block : Origin
  offset : Nat
  ch : Char
  /-- One, or a placeholder span's run, each the right child of the one before. Left children hang on its first, right ones
      on its last. -/
  len : Nat
  deletedBy : List Nat
  left : List Nat
  right : List Nat
  deriving Repr, DecidableEq

def ROOT : Nat := 0

/-- The root, or a placeholder span of `len` characters. -/
def blank (block : Origin) (len : Nat) : Node :=
  { block, offset := 0, ch := '\x00', len, deletedBy := [], left := [], right := [] }

def node (block offset : Nat) (ch : Char) : Node :=
  { block := .step block, offset, ch, len := 1, deletedBy := [], left := [], right := [] }

inductive Ancestry where
  | prefixTo (stop : Nat)
  | set (bits : List Bool)
  deriving Repr, DecidableEq

namespace Ancestry

def contains : Ancestry → Nat → Bool
  | .prefixTo stop, position => position < stop
  | .set bits, position => bits.getD position false

/-- The bitmap of an ancestry over `len` positions. -/
def bits : Ancestry → Nat → List Bool
  | .set bits, _ => bits
  | .prefixTo stop, len => (List.range len).map (· < stop)

end Ancestry

/-- What one block sees of the tree: the blocks before it, and itself. -/
structure Version where
  ancestry : Ancestry
  block : Origin

def Version.has (version : Version) : Origin → Bool
  | .base => true
  | .root => version.block == .root
  | .step position => version.block == .step position || version.ancestry.contains position

/-- The order has every node while every node is visible to the block being replayed. -/
structure Tree where
  ids : List Bytes
  nodes : List Node
  /-- `none` after a step that saw only part of the tree. -/
  order : Option Order

namespace Tree

/-- A span of `base` placeholder characters under the root, for blocks with `ids` in topological order. -/
def withPlaceholder (ids : List Bytes) (base : Nat) : Tree :=
  if base > 0 then
    { ids
      nodes := [{ blank .root 0 with right := [1] }, blank .base base]
      order := some (.new [1] fun _ => base) }
  else { ids, nodes := [blank .root 0], order := some (.new [] fun _ => base) }

variable (t : Tree) (index : Nat) (order : Order) (version : Version) (k : Nat) (origin : Nat) (spot : Spot)

def nodeOf : Node := t.nodes.getD index (blank .root 0)

def id : Origin → Bytes
  | .step position => t.ids.getD position []
  | .base | .root => []

def cmpId (a b : Nat) : Ordering :=
  (compare (t.id (t.nodeOf a).block) (t.id (t.nodeOf b).block)).then
    (compare (t.nodeOf a).offset (t.nodeOf b).offset)

def present (node : Nat) : Bool := version.has (t.nodeOf node).block

def dead (node : Nat) : Bool :=
  (t.nodeOf node).deletedBy.any fun block => version.has (.step block)

def weight (t : Tree) (version : Version) (node : Nat) : Nat :=
  if t.dead version node then 0 else (t.nodeOf node).len

def modify (f : Node → Node) : Tree := { t with nodes := t.nodes.modify index f }

/-- After its first `k` characters, the rest of the span becomes the first part's only right child and takes over its right
    children. Returns the spots of both, which a chunk split may have moved. -/
def split (k : Nat) (version : Version) : Tree × Order × Spot × Spot :=
  let node := order.nodeAt spot
  let head := t.nodeOf node
  let index := t.nodes.length
  let rest := { head with len := head.len - k, left := [] }
  let t := t.modify node fun head => { head with len := k, right := [index] }
  let t := { t with nodes := t.nodes ++ [rest] }
  let w := t.weight version index
  let order := order.hide spot w
  let (order, rest) := order.insert (order.after spot) index w (t.weight version)
  (t, order, order.before rest, rest)

/-- Make visible character `k` the last of its node, and return that node's spot. -/
def endAt (version : Version) : Except Error (Tree × Order × Spot) := do
  let (spot, inner) ← order.nthVisible k (t.weight version)
  if inner + 1 < (t.nodeOf (order.nodeAt spot)).len then
    let (t, order, first, _) := t.split order spot (inner + 1) version
    return (t, order, first)
  return (t, order, spot)

/-- Make visible character `k` the first of its node, and return that node's spot. -/
def startAt (version : Version) : Except Error (Tree × Order × Spot) := do
  let (spot, inner) ← order.nthVisible k (t.weight version)
  if inner = 0 then
    return (t, order, spot)
  let (t, order, _, rest) := t.split order spot inner version
  return (t, order, rest)

inductive Item where
  | visit (node : Nat)
  | emit (node : Nat)

/-- The top of `stack` is first. Every turn pops one item, and every node is visited and emitted at most once. -/
def traverseLoop (t : Tree) (keep : Nat → Bool) : Nat → List Item → List Nat → List Nat
  | 0, _, out => out
  | _ + 1, [], out => out
  | fuel + 1, .emit node :: stack, out => traverseLoop t keep fuel stack (out ++ [node])
  | fuel + 1, .visit node :: stack, out =>
    let n := t.nodeOf node
    traverseLoop t keep fuel
      ((n.left.filter keep).map .visit ++ (if node = ROOT then [] else [.emit node]) ++
        (n.right.filter keep).map .visit ++ stack) out

def traverse (version : Option Version) : List Nat :=
  let keep := fun node => match version with
    | none => true
    | some version => t.present version node
  t.traverseLoop keep (2 * t.nodes.length) [.visit ROOT] []

/-- Hang a new node under `parent` on `side`, among its siblings by ID. -/
def attach (t : Tree) (node : Node) (parent : Nat) (side : Side) : Tree × Nat :=
  let index := t.nodes.length
  let t := { t with nodes := t.nodes ++ [node] }
  let kids := match side with
    | .left => (t.nodeOf parent).left
    | .right => (t.nodeOf parent).right
  let spot := (kids.takeWhile fun kid => t.cmpId kid index == .lt).length
  let t := t.modify parent fun n => match side with
    | .left => { n with left := n.left.insertIdx spot index }
    | .right => { n with right := n.right.insertIdx spot index }
  (t, index)

/-- A block that follows every block before it sees every node, so the kept order is its version's. -/
def orderFor (linear : Bool) : Order :=
  let fresh := Order.new (t.traverse (if linear then none else some version)) (t.weight version)
  match t.order with
  | some order => if linear then order else fresh
  | none => fresh

/-- The characters of an insert after its first: each the right child of the one before. -/
def insertRest (block : Nat) (version : Version) : List Char → Tree → Order → Nat → Spot → Nat → Tree × Order × Nat
  | [], t, order, _, _, nextOffset => (t, order, nextOffset)
  | ch :: chars, t, order, previous, spot, nextOffset =>
    let (t, previous) := t.attach (node block nextOffset ch) previous .right
    let (order, spot) := order.insert (order.after spot) previous 1 (t.weight version)
    insertRest block version chars t order previous spot (nextOffset + 1)

/-- The left origin of an insert at visible position `p`, which must end its node, and the spot right after it. -/
def leftOrigin : Nat → Except Error (Tree × Order × Nat × Spot)
  | 0 => return (t, order, ROOT, {})
  | k + 1 => do
    let (t, order, spot) ← t.endAt order k version
    return (t, order, order.nodeAt spot, order.after spot)

def hasRight : Bool :=
  (t.nodeOf origin).right.any fun kid => t.present version kid

/-- `origin` is the character before the insert, and `spot` the one after. -/
def parentOf : Nat × Side :=
  match order.nodeFrom spot with
  | some next => if t.hasRight version origin then (next, .left) else (origin, .right)
  | none => (origin, .right)

def applyInsert (t : Tree) (order : Order) (version : Version) (block pos : Nat) (text : List Char)
    (nextOffset : Nat) : Except Error (Tree × Order × Nat) :=
  match text with
  | [] => return (t, order, nextOffset)
  | first :: chars => do
    let (t, order, origin, spot) ← t.leftOrigin order version (clamp pos order.visible)
    let (parent, side) := t.parentOf order version origin spot
    let (t, previous) := t.attach (node block nextOffset first) parent side
    let (order, spot) := order.insert spot previous 1 (t.weight version)
    return insertRest block version chars t order previous spot (nextOffset + 1)

/-- From `spot` on, mark whole nodes until `left` visible characters are gone. -/
def deleteLoop (block : Nat) (version : Version) : Nat → Tree → Order → Spot → Nat → Tree × Order
  | 0, t, order, _, _ => (t, order)
  | _ + 1, t, order, _, 0 => (t, order)
  | fuel + 1, t, order, spot, left + 1 =>
    let node := order.nodeAt spot
    let w := t.weight version node
    if w > 0 then
      let t := t.modify node fun n => { n with deletedBy := n.deletedBy ++ [block] }
      let order := order.hide spot w
      deleteLoop block version fuel t order (order.after spot) (left + 1 - w)
    else deleteLoop block version fuel t order (order.after spot) (left + 1)

def applyDelete (block : Nat) (pos len : UInt64) :
    Except Error (Tree × Order) := do
  let start := clamp pos.toNat order.visible
  let stop := clamp (saturatingAdd pos len) order.visible
  if start < stop then
    -- The range starts and ends on node edges, so it deletes whole nodes.
    let (t, order, _) ← t.endAt order (stop - 1) version
    let (t, order, spot) ← t.startAt order start version
    return deleteLoop block version order.intoNodes.length t order spot (stop - start)
  return (t, order)

/-- Apply one op of the block at position `block`, which sees `ancestry`. `nextOffset` numbers its characters. -/
def apply (op : TextOp) (block : Nat) (ancestry : Ancestry) (nextOffset : Nat) :
    Except Error (Tree × Nat) := do
  let version : Version := { ancestry, block := .step block }
  let linear := ancestry == .prefixTo block
  let order := t.orderFor version linear
  let (t, order, nextOffset) ← match op with
    | .insert pos text => t.applyInsert order version block pos.toNat text nextOffset
    | .delete pos len => do
      let (t, order) ← t.applyDelete order version block pos len
      pure (t, order, nextOffset)
  return ({ t with order := if linear then some order else none }, nextOffset)

end Tree
end Defra.Text
