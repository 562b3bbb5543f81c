import Defra.Lib.Dag
import Defra.Text.Replay

/-! Histories of a Text field: the DAG its blocks make, the orders a replica can merge them in, and a replica that
    merges them one at a time (`merge_field_causal`). -/

namespace Defra.Text

abbrev IsParent (blocks : List TextBlock) : Bytes → Bytes → Prop := Dag.IsParent TextBlock.id TextBlock.parents blocks

abbrev IsAncestor (blocks : List TextBlock) : Bytes → Bytes → Prop :=
  Dag.IsAncestor TextBlock.id TextBlock.parents blocks

/-- A whole history: distinct IDs, every parent there, and no cycle. -/
structure Valid (blocks : List TextBlock) : Prop where
  nodup : (blocks.map (·.id)).Nodup
  parents : ∀ block ∈ blocks, ∀ p ∈ block.parents, p ∈ blocks.map (·.id)
  acyclic : ∀ a, ¬ IsAncestor blocks a a

/-- `version` is a version of a history: a set of its blocks that holds their parents. -/
structure IsVersion (blocks version : List TextBlock) : Prop where
  nodup : version.Nodup
  subset : version ⊆ blocks
  closed : ∀ block ∈ version, ∀ p ∈ block.parents, p ∈ version.map (·.id)

abbrev LinearExtension (blocks order : List TextBlock) : Prop :=
  Dag.LinearExtension TextBlock.id TextBlock.parents blocks order

def headsOf (merged : List TextBlock) : List Bytes :=
  (merged.map (·.id)).filter fun id => !merged.any fun block => block.parents.contains id

/-- `x` is critical in a history: every other block is before it or after it. -/
structure IsCritical (history : List TextBlock) (x : TextBlock) : Prop where
  mem : x ∈ history
  splits : ∀ b ∈ history, b = x ∨ IsAncestor history b.id x.id ∨ IsAncestor history x.id b.id

structure Replica where
  merged : List TextBlock := []
  text : List Char := []
  deriving Repr, DecidableEq

namespace Replica

/-- The ops count in the parent version, so they apply to the stored text when the parents are the heads; otherwise the
    history replays. -/
def merge (replica : Replica) (block : TextBlock) : Except Error Replica := do
  let merged := replica.merged ++ [block]
  if block.parents.isPerm (headsOf replica.merged) then
    return { merged, text := TextOp.applyAll replica.text block.ops }
  let text ← replay merged
  return { merged, text }

def deliver (blocks : List TextBlock) : Except Error Replica := blocks.foldlM merge {}

end Replica
end Defra.Text
