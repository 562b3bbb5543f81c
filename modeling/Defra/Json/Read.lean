import Defra.Json.Frontier

/-! Reading a frontier: the value it materializes, and the edits that lost a race (`Index`, `materialize` and
    `conflicts` in `json_crdt.rs`). -/

namespace Defra.Json

/-- A candidate in a path's race: it edits this very path, or sets a path below it. -/
structure Racer where
  own : Bool
  entry : Entry

def Racer.isMap (racer : Racer) : Bool := !racer.own || racer.entry.edit.isMap

/-- `a` beats `b`: higher priority, or the same priority and a higher block ID. -/
def beats (a b : Entry) : Bool := b.priority < a.priority || (a.priority == b.priority && b.block < a.block)

/-- What a path reads as on its own. -/
inductive Node where
  | absent
  | map
  | value (value : Value)

structure Index where
  byPath : KeyedList (Prod.fst : Bytes × List Entry → Bytes) := ∅

namespace Index

variable (index : Index) (key : Bytes)

def push (entry : Entry) : Index :=
  let key := encodePath entry.path
  match index.byPath.find? key with
  | some (_, entries) => { byPath := index.byPath.put (key, entries ++ [entry]) }
  | none => { byPath := index.byPath.put (key, [entry]) }

def new (frontier : Frontier) : Index := frontier.entries.toList.foldl push {}

/-- Each with whether it is at the path itself. -/
def under : List Racer :=
  (index.byPath.rangeWhile key fun (k, _) => key.isPrefixOf k).flatMap fun (k, entries) =>
    entries.map fun entry => { own := k.length == key.length, entry }

/-- Its own edits and the sets below it. With any set below, the path's own deletes sit out. -/
def racers : List Racer :=
  let all := (index.under key).filter fun racer => racer.own || !racer.entry.edit.isDelete
  let implied := all.any fun racer => !racer.own
  all.filter fun racer => !(implied && racer.own && racer.entry.edit.isDelete)

def winner : Option Racer :=
  match index.racers key with
  | [] => none
  | first :: rest => some (rest.foldl (fun best racer => if beats racer.entry best.entry then racer else best) first)

def node : Node :=
  match index.winner key with
  | none => .absent
  | some racer =>
    if racer.isMap then .map
    else match racer.entry.edit with
      | .set value => .value value
      | .map => .map
      | .delete => .absent

/-- The value at `path`, given that every path above it is a map. Each turn goes one segment down. -/
def build (index : Index) : Nat → Path → Option Value
  | 0, _ => none
  | fuel + 1, path =>
    match index.node (encodePath path) with
    | .absent => none
    | .value value => some value
    | .map =>
      let children : KeyedList utf8 :=
        .ofList (((index.under (encodePath path)).filter fun racer => !racer.own).map fun racer =>
          racer.entry.path.getD path.length "")
      some (.object (children.toList.filterMap fun child =>
        (build index fuel (path ++ [child])).map fun value => (child, value)))

end Index

/-- One edit that lost a race at a path, as the conflicts query lists it. -/
structure Conflict where
  path : Path
  block : Bytes
  priority : Nat
  edit : JsonEdit

namespace Frontier

variable (f : Frontier)

def depth : Nat := (f.entries.toList.map fun entry => entry.path.length).foldr max 0

/-- The JSON this frontier reads as, `none` when the field is absent. -/
def materialize : Option Value := (Index.new f).build (f.depth + 1) []

def concurrent (racer winner : Racer) : Bool :=
  match racer.own, winner.own with
  | true, true => true
  | false, true => !racer.entry.seen.contains winner.entry.block
  | true, false => !winner.entry.seen.contains racer.entry.block
  | false, false => true

/-- The racers that lost without the winner having seen them, except an implied map losing to a map. A block in `listed` is
    not listed again. -/
def losers (key : Bytes) (winner : Racer) : List Racer → List Bytes → List Conflict
  | [], _ => []
  | racer :: rest, listed =>
    if racer.entry.block = winner.entry.block ∨ (racer.isMap ∧ winner.isMap) ∨ racer.entry.block ∈ listed then
      losers key winner rest listed
    else if concurrent racer winner then
      match decodePath key with
      | none => losers key winner rest listed
      | some path =>
        { path, block := racer.entry.block, priority := racer.entry.priority,
          edit := if racer.own then racer.entry.edit else .map } ::
          losers key winner rest (racer.entry.block :: listed)
    else losers key winner rest listed

def conflictsAt (index : Index) (key : Bytes) : List Conflict :=
  match index.winner key with
  | none => []
  | some winner =>
    losers key winner ((index.under key).filter fun racer => racer.own || !racer.entry.edit.isDelete) []

def paths : KeyedList (id : Bytes → Bytes) :=
  .ofList (f.entries.toList.flatMap fun entry =>
    (List.range (entry.path.length + 1)).map fun depth => encodePath (entry.path.take depth))

def conflicts : List Conflict := f.paths.toList.flatMap (conflictsAt (Index.new f))

end Frontier
end Defra.Json
