import Defra.Lib.Dag
import Defra.Json.Read

/-! A replica of a JSON field that merges the blocks of its DAG one at a time. -/

namespace Defra.Json

structure JsonBlock where
  id : Bytes
  parents : List Bytes
  priority : Nat
  ops : List JsonOp

/-- The operand of the block's ops, composed onto the frontier and settled. `inPast b` says which blocks are before `b`. -/
def mergeBlock (inPast : Bytes → Bytes → Bool) (f : Frontier) (block : JsonBlock) : Frontier :=
  (f.compose (f.delta block.ops block.id block.priority (inPast block.id))).settle

def mergeAll (inPast : Bytes → Bytes → Bool) (order : List JsonBlock) : Frontier :=
  order.foldl (mergeBlock inPast) {}

abbrev IsAncestor (blocks : List JsonBlock) : Bytes → Bytes → Prop :=
  Dag.IsAncestor JsonBlock.id JsonBlock.parents blocks

abbrev LinearExtension (blocks order : List JsonBlock) : Prop :=
  Dag.LinearExtension JsonBlock.id JsonBlock.parents blocks order

end Defra.Json
