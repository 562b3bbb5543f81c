import Defra.Zanzibar.Types

/-! Permission checks (`engine/` and `lookup.rs` of the `zanzibar` crate). A check walks the rewrite rules of a policy over the
    stored tuples, with a trail that cuts cycles, a memo of results that no cut touched, and a budget. -/

namespace Defra.Zanzibar

structure NodeId where
  resource : String
  objectId : String
  relation : String
  deriving DecidableEq, Repr

abbrev NodeTrail := List NodeId

structure CheckKey where
  policyId : String
  node : NodeId
  subject : String
  deriving DecidableEq, Repr

/-- The memo of a check or a batch, and the work it has done. -/
structure CheckCache where
  steps : Nat := 0
  results : List (CheckKey × Bool) := []

def maxEvaluationDepth : Nat := 64

def maxEvaluationSteps : Nat := 10000

abbrev Check := ExceptT Error (StateM CheckCache)

namespace CheckCache

def get (cache : CheckCache) (key : CheckKey) : Option Bool := (cache.results.find? (·.1 = key)).map Prod.snd

def set (cache : CheckCache) (key : CheckKey) (result : Bool) : CheckCache :=
  { cache with results := (key, result) :: cache.results }

end CheckCache

def charge : Check Unit := do
  let cache ← getThe CheckCache
  if cache.steps < maxEvaluationSteps then modifyThe CheckCache fun cache => { cache with steps := cache.steps + 1 }
  else throw (.evaluationLimitExceeded "steps")

structure Engine where
  policies : List Policy
  tuples : List (String × Relationship)

namespace Engine

def addPolicy (engine : Engine) (policy : Policy) : Engine :=
  { engine with policies := policy :: engine.policies.filter (·.id ≠ policy.id) }

variable (engine : Engine)

def isActorResource (policyId resource : String) : Bool :=
  match engine.policies.find? (·.id = policyId) with
  | some { actor := some actor, .. } => actor.name = resource
  | _ => false

def getExpression (policyId resource relation : String) : Except Error RelationExpression :=
  match engine.policies.find? (·.id = policyId) with
  | none => .error (.policyNotFound policyId)
  | some policy =>
    match (policy.resources ++ policy.actor.toList).reverse.find? (·.name = resource) with
    | none => .error (.resourceNotFound resource)
    | some found =>
      match found.relations.reverse.find? (·.name = relation) with
      | none => .error (.relationNotFound resource relation)
      | some found => .ok found.expression

variable (policyId : String) (node : NodeId)

def getRelationSubjects : List Subject :=
  engine.tuples.filterMap fun (policy, rel) =>
    if policy = policyId ∧ rel.resource = node.resource ∧ rel.objectId = node.objectId ∧ rel.relation = node.relation
    then some rel.subject else none

def getRelationTargets : List ObjectRef :=
  (engine.getRelationSubjects policyId node).filterMap fun subject => match subject with
    | .entitySet resource objectId _ => some { resource, objectId }
    | _ => none

def checkPermissionDirect (subject : String) : Bool :=
  (engine.getRelationSubjects policyId node).any fun held =>
    held = .entity subject || held = .wildcard || held.isTypedWildcard

end Engine

/-- Whether a permission is granted, and whether the answer depended on a cycle that was cut. -/
abbrev Eval := Bool × Bool

/-- The first granted of some branches decides; otherwise none is, with the taints of all. -/
def anyGranted {α : Type} (step : α → Check Eval) : Bool → List α → Check Eval
  | tainted, [] => pure (false, tainted)
  | tainted, a :: as => do
    let (granted, t) ← step a
    if granted then pure (true, t) else anyGranted step (tainted || t) as

def allGranted {α : Type} (step : α → Check Eval) : Bool → List α → Check Eval
  | tainted, [] => pure (true, tainted)
  | tainted, a :: as => do
    let (granted, t) ← step a
    if granted then allGranted step (tainted || t) as else pure (false, t)

namespace Engine
variable (engine : Engine) (policyId subject : String)

section
variable (inner : NodeId → RelationExpression → NodeTrail → Check Eval) (trail : NodeTrail) (node : NodeId)
  (computedRelation : String) (target : Subject)

def evaluateExprCached (expression : RelationExpression) (trail : NodeTrail) : Check Eval := do
  let key : CheckKey := { policyId, node, subject }
  match (← getThe CheckCache).get key with
  | some cached => do
    charge
    pure (cached, false)
  | none => do
    let (value, tainted) ← inner node expression trail
    if tainted then pure (value, true)
    else do
      modifyThe CheckCache fun cache => cache.set key value
      pure (value, false)

/-- Go on to another node. One that is on the trail already is cut: not granted, and tainted. -/
def follow : Check Eval :=
  if node ∈ trail then pure (false, true)
  else do
    let expression ← MonadExcept.ofExcept (engine.getExpression policyId node.resource node.relation)
    evaluateExprCached policyId subject inner node expression (node :: trail)

/-- A userset is followed, an object edge grants the actor it names. -/
def thisSubject :
    Check Eval := do
  charge
  match target with
  | .entitySet resource objectId relation =>
    if relation.isEmpty then pure (engine.isActorResource policyId resource && objectId = subject, false)
    else engine.follow policyId subject inner trail { resource, objectId, relation }
  | _ => pure (false, false)

def ttuTarget (target : ObjectRef) : Check Eval := do
  charge
  engine.follow policyId subject inner trail
    { resource := target.resource, objectId := target.objectId, relation := computedRelation }

def ttuSubject : Check Eval := do
  charge
  match target with
  | .entitySet resource objectId _ =>
    engine.follow policyId subject inner trail { resource, objectId, relation := computedRelation }
  | .wildcard | .typedWildcard _ => pure (true, false)
  | .entity _ => pure (false, false)

end

/-- `depth` is what is left of the depth budget. -/
def evaluateExprInner : (depth : Nat) → NodeId → RelationExpression → NodeTrail → Check Eval
  | 0, _, _, _ => do
    charge
    throw (.evaluationLimitExceeded "depth")
  | depth + 1, node, expression, trail => do
    charge
    let inner := evaluateExprInner depth
    match expression with
    | .this =>
      if engine.checkPermissionDirect policyId node subject then pure (true, false)
      else anyGranted (engine.thisSubject policyId subject inner trail) false (engine.getRelationSubjects policyId node)
    | .computedUserset relation => engine.follow policyId subject inner trail { node with relation }
    | .tupleToUserset tupleRelation computedRelation => do
      let tupleNode := { node with relation := tupleRelation }
      let (granted, tainted) ← anyGranted (engine.ttuTarget policyId subject inner trail computedRelation) false
        (engine.getRelationTargets policyId tupleNode)
      let subjects := engine.getRelationSubjects policyId tupleNode
      if granted then pure (true, tainted)
      else anyGranted (engine.ttuSubject policyId subject inner trail computedRelation) tainted subjects
    | .union exprs => anyGranted (fun expr => inner node expr trail) false exprs
    | .intersection exprs => allGranted (fun expr => inner node expr trail) false exprs
    | .difference base subtract => do
      let (baseGranted, baseTainted) ← inner node base trail
      if baseGranted then do
        let (subtractGranted, subtractTainted) ← inner node subtract trail
        -- a cut cycle is no proof of absence, and negating it could grant what is excluded
        if subtractTainted then throw .indeterminateExclusion
        else pure (!subtractGranted, baseTainted)
      else pure (false, baseTainted)

def checkWithCache (resource objectId relation : String) : Check Bool := do
  let expression ← MonadExcept.ofExcept (engine.getExpression policyId resource relation)
  let node : NodeId := { resource, objectId, relation }
  let (granted, _) ← evaluateExprCached policyId subject (engine.evaluateExprInner policyId subject maxEvaluationDepth) node
    expression [node]
  pure granted

def check (resource objectId relation : String) : Except Error Bool :=
  ((engine.checkWithCache policyId subject resource objectId relation).run.run {}).1

end Engine

structure PermissionCheckRequest where
  policyId : String
  resource : String
  objectId : String
  relation : String
  subject : String
  deriving DecidableEq, Repr

namespace Engine
variable (engine : Engine)

def checkAll : List PermissionCheckRequest → CheckCache → List (Except Error Bool)
  | [], _ => []
  | req :: requests, cache =>
    let (result, cache) :=
      (engine.checkWithCache req.policyId req.subject req.resource req.objectId req.relation).run.run cache
    result :: checkAll requests cache

def checkMany (requests : List PermissionCheckRequest) : List (Except Error Bool) := engine.checkAll requests {}

end Engine

inductive StepResult where
  | granted
  | denied
  | skipped
  | continuing
  deriving DecidableEq, Repr

def StepResult.of (result : Bool) : StepResult := if result then .granted else .denied

structure EvaluationStep where
  expressionType : String
  node : NodeId
  result : StepResult
  details : Option String
  deriving DecidableEq, Repr

abbrev Traced := Bool × List EvaluationStep

def anyTraced {α : Type} (step : α → Check Traced) : List EvaluationStep → List α → Check Traced
  | steps, [] => pure (false, steps)
  | steps, a :: as => do
    let (granted, more) ← step a
    if granted then pure (true, steps ++ more) else anyTraced step (steps ++ more) as

namespace Engine
variable (engine : Engine) (policyId subject : String)

def tracedSubject (traced : NodeId → RelationExpression → NodeTrail → Check Traced) (trail : NodeTrail) (target : Subject) :
    Check Traced := do
  charge
  match target with
  | .entitySet resource objectId relation =>
    let node : NodeId := { resource, objectId, relation }
    if relation.isEmpty then
      if engine.isActorResource policyId resource && objectId = subject then
        pure (true, [⟨"Actor", node, .granted, some "Actor object matches the requested identity"⟩])
      else pure (false, [])
    else if node ∈ trail then pure (false, [])
    else do
      let expression ← MonadExcept.ofExcept (engine.getExpression policyId resource relation)
      traced node expression (node :: trail)
  | _ => pure (false, [])

section
variable (inner : NodeId → RelationExpression → NodeTrail → Check Eval) (node : NodeId) (trail : NodeTrail)
  (branch : RelationExpression × Nat)

def tracedTarget (computedRelation : String) (target : ObjectRef) : Check Traced := do
  charge
  let node : NodeId := { resource := target.resource, objectId := target.objectId, relation := computedRelation }
  if node ∈ trail then pure (false, [⟨"TTU target", node, .skipped, some "Cycle detected"⟩])
  else do
    let (granted, _) ← engine.follow policyId subject inner trail node
    if granted then
      pure (true, [⟨"TTU target match", node, .granted,
        some s!"Found permission via {target.resource}:{target.objectId}#{computedRelation}"⟩])
    else pure (false, [])

def tracedTtuSubject (tupleNode : NodeId) (computedRelation : String) (target : Subject) : Check Traced := do
  charge
  match target with
  | .entitySet resource objectId _ =>
    let node : NodeId := { resource, objectId, relation := computedRelation }
    let (granted, _) ← engine.follow policyId subject inner trail node
    if granted then
      pure (true, [⟨"TTU EntitySet match", node, .granted,
        some s!"Found permission via EntitySet {resource}:{objectId}#{computedRelation}"⟩])
    else pure (false, [])
  | .wildcard | .typedWildcard _ =>
    pure (true, [⟨"TTU Wildcard", tupleNode, .granted, some "Wildcard on tuple relation grants access"⟩])
  | .entity _ => pure (false, [])

def tracedBranch : Check Traced := do
  let (granted, _) ← inner node branch.1 trail
  if granted then
    pure (true, [⟨s!"Union branch {branch.2 + 1}", node, .granted, some "Branch succeeded, short-circuiting"⟩])
  else pure (false, [])

/-- An intersection is denied by the first branch that is. -/
def tracedDenial : Check Traced := do
  let (granted, _) ← inner node branch.1 trail
  if granted then pure (false, [])
  else pure (true, [⟨s!"Intersection branch {branch.2 + 1}", node, .denied, some "Branch failed, short-circuiting"⟩])

end

def evaluateExprWithTrace : (depth : Nat) → NodeId → RelationExpression → NodeTrail → Check Traced
  | 0, _, _, _ => do
    charge
    throw (.evaluationLimitExceeded "depth")
  | depth + 1, node, expression, trail => do
    charge
    let inner := engine.evaluateExprInner policyId subject depth
    match expression with
    | .this =>
      let direct := engine.checkPermissionDirect policyId node subject
      let steps := [⟨"This (direct lookup)", node, .of direct, some s!"Direct tuple check for subject {subject}"⟩]
      let subjects := engine.getRelationSubjects policyId node
      if direct then pure (true, steps)
      else anyTraced (engine.tracedSubject policyId subject (evaluateExprWithTrace depth) trail) steps subjects
    | .computedUserset relation =>
      let computed := { node with relation }
      if computed ∈ trail then
        pure (false, [⟨"ComputedUserset", computed, .skipped, some "Cycle detected, returning false"⟩])
      else do
        let expression ← MonadExcept.ofExcept (engine.getExpression policyId node.resource relation)
        let (result, steps) ← evaluateExprWithTrace depth computed expression (computed :: trail)
        pure (result,
          ⟨"ComputedUserset", computed, .continuing, some s!"Checking relation '{relation}' on same object"⟩ :: steps ++
          [⟨"ComputedUserset (result)", computed, .of result, none⟩])
    | .tupleToUserset tupleRelation computedRelation => do
      let tupleNode := { node with relation := tupleRelation }
      let steps := [⟨"TupleToUserset", node, .continuing, some s!"Following '{tupleRelation}' to check '{computedRelation}'"⟩]
      let (granted, steps) ← anyTraced (engine.tracedTarget policyId subject inner trail computedRelation) steps
        (engine.getRelationTargets policyId tupleNode)
      if granted then pure (true, steps)
      else do
        let (granted, steps) ← anyTraced (engine.tracedTtuSubject policyId subject inner trail tupleNode computedRelation) steps
          (engine.getRelationSubjects policyId tupleNode)
        if granted then pure (true, steps)
        else pure (false, steps ++ [⟨"TupleToUserset (result)", node, .denied, some "No matching TTU path found"⟩])
    | .union exprs => do
      let steps := [⟨"Union", node, .continuing, some s!"Evaluating {exprs.length} branches (OR)"⟩]
      let (granted, steps) ← anyTraced (tracedBranch inner node trail) steps exprs.zipIdx
      if granted then pure (true, steps)
      else pure (false, steps ++ [⟨"Union (result)", node, .denied, some "All branches failed"⟩])
    | .intersection exprs => do
      let steps := [⟨"Intersection", node, .continuing, some s!"Evaluating {exprs.length} branches (AND)"⟩]
      let (denied, steps) ← anyTraced (tracedDenial inner node trail) steps exprs.zipIdx
      if denied then pure (false, steps)
      else pure (true, steps ++ [⟨"Intersection (result)", node, .granted, some "All branches succeeded"⟩])
    | .difference base subtract => do
      let steps := [⟨"Difference", node, .continuing, some "Evaluating base AND NOT subtract"⟩]
      let (baseGranted, _) ← inner node base trail
      if baseGranted then do
        let (subtractGranted, subtractTainted) ← inner node subtract trail
        if subtractTainted then throw .indeterminateExclusion
        else pure (!subtractGranted, steps ++ [⟨"Difference (result)", node, .of !subtractGranted,
          some s!"Base=true, Subtract={subtractGranted}, Result={!subtractGranted}"⟩])
      else pure (false, steps ++ [⟨"Difference (base)", node, .denied, some "Base expression failed"⟩])

structure PermissionExplanation where
  granted : Bool
  node : NodeId
  subject : String
  trace : List EvaluationStep

def explain (resource objectId relation : String) : Except Error PermissionExplanation := do
  let expression ← engine.getExpression policyId resource relation
  let node : NodeId := { resource, objectId, relation }
  let (granted, trace) ← ((engine.evaluateExprWithTrace policyId subject maxEvaluationDepth node expression [node]).run.run {}).1
  pure { granted, node, subject, trace }

end Engine
end Defra.Zanzibar
