import Defra.Query.IndexSelection

/-! The node of a plan that sorts rows (`plan/orderby.rs` of the `query` crate). Its source is the list of the rows that are still
    to be pulled. `render` is the JSON text of a value. -/

namespace Defra.Query
open Index Json

def typeOrder : Value → Nat
  | .null => 0
  | .bool _ => 1
  | .number _ => 2
  | .string _ => 3
  | .array _ => 4
  | .object _ => 5

section
variable (render : Value → String)

mutual

def compareNonNull : Value → Value → Ordering
  | .number a, .number b => compareF64 (asF64 a) (asF64 b)
  | .string a, .string b => compare (utf8 a) (utf8 b)
  | .bool a, .bool b => compare a b
  | .array a, .array b => compareItems a b
  | .object a, .object b => compare (utf8 (render (.object a))) (utf8 (render (.object b)))
  | a, b => compare (typeOrder a) (typeOrder b)

def compareItems : List Value → List Value → Ordering
  | a :: as, b :: bs => (compareNonNull a b).then (compareItems as bs)
  | as, bs => compare as.length bs.length

end

def orderValues (a b : Option Value) : Ordering :=
  match a, b with
  | none, none | some .null, some .null | none, some .null | some .null, none => .eq
  | none, some _ | some .null, some _ => .lt
  | some _, none | some _, some .null => .gt
  | some a, some b => compareNonNull render a b

end

def traverseNestedValue (value : Value) : List String → Option Value
  | [] => some value
  | name :: path =>
    match value with
    | .object members => (members.lookup name).bind fun member => traverseNestedValue member path
    | _ => none

/-- The first name is looked up among the rendered names, then among the fields. -/
def getFieldValue (mapping : DocumentMapping) (doc : PlanFields) (fields : List String) : Option Value :=
  match fields with
  | [] => none
  | name :: path => do
    let index ← (mapping.tryFindIndexFromRenderKey name).or (mapping.firstIndexOfName name)
    let value ← doc[index]?.getD none
    traverseNestedValue value path

section
variable (render : Value → String) (mapping : DocumentMapping)

def compareByCondition (a b : PlanFields) (condition : OrderCondition) : Ordering :=
  let order := orderValues render (getFieldValue mapping a condition.fields) (getFieldValue mapping b condition.fields)
  match condition.direction with
  | .asc => order
  | .desc => order.swap

def compareDocs (orderBy : OrderBy) (a b : PlanFields) : Ordering :=
  match orderBy with
  | [] => .eq
  | condition :: orderBy => (compareByCondition render mapping a b condition).then (compareDocs orderBy a b)

/-- `sort_by`, which is stable. -/
def sortRows (orderBy : OrderBy) (rows : List PlanFields) : List PlanFields :=
  rows.mergeSort fun a b => (compareDocs render mapping orderBy a b).isLE

end

structure OrderByNode where
  source : List PlanFields
  orderBy : OrderBy
  mapping : DocumentMapping
  buffer : List PlanFields
  position : Nat
  orderedPrefix : Nat
  pending : Option PlanFields
  exhausted : Bool

namespace OrderByNode

def new (source : List PlanFields) (orderBy : OrderBy) (mapping : DocumentMapping) : OrderByNode where
  source := source
  orderBy := orderBy
  mapping := mapping
  buffer := []
  position := 0
  orderedPrefix := 0
  pending := none
  exhausted := false

variable (node : OrderByNode)

def withOrderedPrefix (count : Nat) : OrderByNode :=
  { node with orderedPrefix := min count node.orderBy.length }

variable (render : Value → String)

/-- Rows join as long as the ordered conditions find them equal to the first. -/
def pull (node : OrderByNode) : List PlanFields → List PlanFields → OrderByNode
  | [], buffer => { node with source := [], buffer := buffer, exhausted := true }
  | doc :: source, buffer =>
    let samePrefix : Bool := match buffer with
      | [] => true
      | first :: _ =>
        (node.orderBy.take node.orderedPrefix).all fun condition =>
          compareByCondition render node.mapping first doc condition = .eq
    if samePrefix then node.pull source (buffer ++ [doc])
    else { node with source := source, buffer := buffer, pending := some doc }

def loadOrderGroup (node : OrderByNode) : OrderByNode :=
  let buffer := node.pending.toList
  let taken := { node with buffer := buffer, position := 0, pending := none }
  let loaded := if node.exhausted then taken else pull render taken node.source buffer
  { loaded with buffer := sortRows render loaded.mapping loaded.orderBy loaded.buffer }

def fieldExists (mapping : DocumentMapping) (condition : OrderCondition) : Bool :=
  match condition.fields with
  | [] => true
  | name :: _ => (mapping.firstIndexOfName name).isSome || (mapping.tryFindIndexFromRenderKey name).isSome

def start : Except String OrderByNode :=
  match node.orderBy.find? fun condition => !fieldExists node.mapping condition with
  | some condition => .error ("field or alias not found. Name: " ++ condition.fields.headD "")
  | none =>
    if 0 < node.orderedPrefix then .ok node
    else .ok { node with source := [], buffer := sortRows render node.mapping node.orderBy (node.buffer ++ node.source) }

def next : Option PlanFields × OrderByNode :=
  let node := if node.buffer.length ≤ node.position ∧ 0 < node.orderedPrefix then node.loadOrderGroup render else node
  match node.buffer[node.position]? with
  | none => (none, node)
  | some doc => (some doc, { node with position := node.position + 1 })

/-- The rows of the next `n` calls, up to the first that gives none. -/
def emit : Nat → OrderByNode → List PlanFields
  | 0, _ => []
  | n + 1, node =>
    match node.next render with
    | (none, _) => []
    | (some doc, node) => doc :: emit n node

end OrderByNode

end Defra.Query
