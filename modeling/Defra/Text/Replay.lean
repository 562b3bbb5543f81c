import Defra.Text.Tree

/-! Replaying a Text field's blocks (`replay`, `merge_text`, `build` and `topological` in `fugue.rs`). -/

namespace Defra.Text

variable (order : List TextBlock) (parents : List Nat) (t : Tree) (blocks : List TextBlock) (ancestry : List Ancestry)
  (base : Option Nat) (step : Nat)

def indexOf (id : Bytes) : Option Nat := blocks.findIdx? (·.id == id)

/-- One for each time `block` names the parent. -/
def parentsIn (block : TextBlock) : List Nat :=
  block.parents.filterMap (indexOf blocks)

/-- One entry for each time a block names `p`. -/
def childrenOf (p : Nat) : List Nat :=
  blocks.zipIdx.flatMap fun (block, i) => ((parentsIn blocks block).filter (· == p)).map fun _ => i

/-- How the pairs of the `ready` set compare: by ID, then by index. -/
def readyLt (a b : Bytes × Nat) : Bool := a.1 < b.1 || (a.1 == b.1 && a.2 < b.2)

/-- `BTreeSet::insert` on the `ready` set, a list in ascending order. -/
def insertReady (x : Bytes × Nat) : List (Bytes × Nat) → List (Bytes × Nat)
  | [] => [x]
  | y :: ready =>
    if readyLt x y then x :: y :: ready
    else if readyLt y x then y :: insertReady x ready
    else y :: ready

/-- A child waits for one parent fewer, and is ready when it waits for none. -/
def release (state : List (Bytes × Nat) × List Nat) (child : Nat) : List (Bytes × Nat) × List Nat :=
  let left := state.2.getD child 0 - 1
  let waiting := state.2.set child left
  if left = 0 then (insertReady (((blocks[child]?.map (·.id)).getD []), child) state.1, waiting)
  else (state.1, waiting)

/-- The loop of `topological`. Every turn orders one block, and no block is ready twice. -/
def topologicalLoop (blocks : List TextBlock) : Nat → List (Bytes × Nat) → List Nat → List Nat → List Nat
  | 0, _, _, order => order
  | _ + 1, [], _, order => order
  | fuel + 1, first :: ready, waiting, order =>
    let state := (childrenOf blocks first.2).foldl (release blocks) (ready, waiting)
    topologicalLoop blocks fuel state.1 state.2 (order ++ [first.2])

def firstReady : List (Bytes × Nat) :=
  blocks.zipIdx.foldl (fun ready (block, i) =>
    if (parentsIn blocks block).length = 0 then insertReady (block.id, i) ready else ready) []

/-- Every block follows its parents, ties broken by ID. With `outside`, a parent missing from `blocks` comes before all;
    without it, that is an error. -/
def topological (outside : Bool) : Except Error (List Nat) := do
  if ¬ (blocks.map (·.id)).Nodup then
    throw (.mergeError "a Text field's history holds a block twice")
  if ¬ outside ∧ blocks.any fun block => block.parents.any fun parent => (indexOf blocks parent).isNone then
    throw (.mergeError "a Text field's history is missing a parent block")
  let waiting := blocks.map fun block => (parentsIn blocks block).length
  let order := topologicalLoop blocks blocks.length (firstReady blocks) waiting []
  if order.length ≠ blocks.length then
    throw (.mergeError "a Text field's history has a cycle")
  return order

def orBits : List Bool → List Bool → List Bool
  | [], _ => []
  | bits, [] => bits
  | bit :: bits, their :: theirs => (bit || their) :: orBits bits theirs

/-- Whether a block's parent is the step before, and that step saw everything before it. -/
def followsStep : Bool :=
  match parents with
  | [parent] => parent + 1 == step && ancestry[parent]? == some (.prefixTo parent)
  | _ => false

def ancestryOf : Ancestry :=
  if followsStep parents ancestry step then .prefixTo step
  else
    let bits := parents.foldl (fun bits parent =>
      (orBits bits ((ancestry.getD parent (.set [])).bits step)).set parent true) (List.replicate step false)
    if bits.count true = step then .prefixTo step else .set bits

def applyOps (ops : List TextOp) (step : Nat) (before : Ancestry) : Except Error Tree := do
  let (t, _) ← ops.foldlM (fun (state : Tree × Nat) op => state.1.apply op step before state.2) (t, 0)
  return t

/-- The steps of `build`: each block of the order, with the ancestry of every block before it. -/
def buildSteps (order : List TextBlock) : List TextBlock → Tree → List Ancestry → Except Error Tree
  | [], t, _ => return t
  | block :: rest, t, ancestry => do
    let before := ancestryOf (parentsIn order block) ancestry ancestry.length
    let t ← applyOps t block.ops ancestry.length before
    buildSteps order rest t (ancestry ++ [before])

/-- The tree of the blocks as they come, and its nodes in reading order, deleted ones too. -/
def buildAlong : Except Error (Tree × List Nat) := do
  let t ← buildSteps order order (.withPlaceholder (order.map (·.id)) (base.getD 0)) []
  let full := match t.order with
    | some order => order.intoNodes
    | none => t.traverse none
  return (t, full)

/-- With `base`, the tree starts from that many placeholder characters, and a parent outside `blocks` stands for them. -/
def build : Except Error (Tree × List Nat) := do
  let order ← topological blocks base.isSome
  buildAlong (order.filterMap (blocks[·]?)) base

structure Character where
  block : Bytes
  offset : Nat
  ch : Char
  deleted : Bool
  deriving Repr, DecidableEq

/-- The characters of a tree whose nodes in reading order are `full`. -/
def charactersOf (full : List Nat) : List Character :=
  let version : Version := { ancestry := .prefixTo t.ids.length, block := .root }
  full.map fun node =>
    let n := t.nodeOf node
    { block := t.id n.block, offset := n.offset, ch := n.ch, deleted := t.dead version node }

def charactersAlong : Except Error (List Character) := do
  let (t, full) ← buildAlong order none
  return charactersOf t full

def characters : Except Error (List Character) := do
  let (t, full) ← build blocks none
  return charactersOf t full

def visibleText (characters : List Character) : List Char := (characters.filter (!·.deleted)).map (·.ch)

/-- Every parent that a block names is in `blocks`. -/
def replay : Except Error (List Char) := do
  let characters ← characters blocks
  return visibleText characters

/-- Where the version without the block at `new` shows a character, the placeholder span there learns it from `stored`.
    `none` when that is not the version's text. -/
def recover (t : Tree) (new : Nat) : List Nat → List Char → List (List Char) → Option (List (List Char))
  | [], stored, placeholders => if stored.isEmpty then some placeholders else none
  | node :: full, stored, placeholders =>
    let n := t.nodeOf node
    if n.block = .step new ∨ n.deletedBy.any (· ≠ new) then recover t new full stored placeholders
    else if stored.length < n.len then none
    else
      let held := stored.take n.len
      if n.block = .base then recover t new full (stored.drop n.len) (placeholders.set node held)
      else if held.head? ≠ some n.ch then none
      else recover t new full (stored.drop n.len) placeholders

/-- The text after merging `new`, replayed from a critical block. `blocks` are those after it, `new` among them; `base` is
    the length of the critical block's text, and `current` the stored text of every block but `new`. -/
def mergeText (current : List Char) (base : Nat) (blocks : List TextBlock) (new : Bytes) :
    Except Error (Option (List Char)) := do
  if blocks.any fun block => block.parents.any (· == new) then
    return none
  let (t, full) ← build blocks (some base)
  match t.ids.findIdx? (· == new) with
  | none => throw (.mergeError "the merged Text block is not among the blocks replayed")
  | some step =>
    match recover t step full current (t.nodes.map fun _ => []) with
    | none => return none
    | some placeholders =>
      return some (full.flatMap fun node =>
        let n := t.nodeOf node
        if n.deletedBy.isEmpty then
          if n.block = .base then placeholders.getD node [] else [n.ch]
        else [])

end Defra.Text
