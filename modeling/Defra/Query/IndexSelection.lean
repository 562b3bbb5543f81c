import Mathlib.Data.List.Sort
import Mathlib.Data.List.Destutter
import Defra.Index.Range
import Defra.Query.Filter

/-! The orders a query asks for and the patterns an index scan filters by (`planner/index_selection/` of the `query` crate). -/

namespace Defra.Query
open Index Json

inductive OrderDirection where
  | asc | desc
  deriving Repr, DecidableEq

/-- A path of field names: more than one goes through relations. -/
structure OrderCondition where
  fields : List String
  direction : OrderDirection
  deriving Repr, DecidableEq

abbrev OrderBy := List OrderCondition

inductive ScanValueFilter where
  | like (pattern : String)
  | nlike (pattern : String)
  | ilike (pattern : String)
  | nilike (pattern : String)
  deriving Repr, DecidableEq

def filteredString : NormalValue → Option String
  | .scalar (.string s) | .nillable (some (.string s)) => some s
  | .scalar (.bytes b) | .nillable (some (.bytes b)) => fromUtf8 b
  | .jsonLeaf ⟨_, .string s⟩ => some s
  | _ => none

def ScanValueFilter.matchesValue (lib : Library) (filter : ScanValueFilter) (value : NormalValue) : Bool :=
  match filteredString value with
  | none => false
  | some s =>
    match filter with
    | .like pattern => likePatternMatch s pattern
    | .nlike pattern => !likePatternMatch s pattern
    | .ilike pattern => likePatternMatch (lib.toLowercase s) (lib.toLowercase pattern)
    | .nilike pattern => !likePatternMatch (lib.toLowercase s) (lib.toLowercase pattern)

end Defra.Query
