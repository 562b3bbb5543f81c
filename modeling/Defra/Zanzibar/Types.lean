import Mathlib.Init

/-! Policies and relationship tuples (`types/` and `expression/mod.rs` of the `zanzibar` crate). -/

namespace Defra.Zanzibar

/-! ### Tuples -/

inductive Subject where
  | entity (did : String)
  | entitySet (resource objectId relation : String)
  | typedWildcard (resource : String)
  | wildcard
  deriving DecidableEq, Repr

def Subject.isTypedWildcard : Subject → Bool
  | typedWildcard _ => true
  | _ => false

structure Relationship where
  resource : String
  objectId : String
  relation : String
  subject : Subject
  deriving DecidableEq, Repr

structure ObjectRef where
  resource : String
  objectId : String
  deriving DecidableEq, Repr

inductive Error where
  | indeterminateExclusion
  | evaluationLimitExceeded (limit : String)
  | policyNotFound (id : String)
  | relationNotFound (resource relation : String)
  | resourceNotFound (resource : String)
  | invalidPolicy (message : String)
  | dpiMissingOwner (resource : String)
  | dpiExpressionMissingOwner (resource relation : String)
  | dpiDisallowedOperation (resource relation operation : String)
  | invalidRelationshipField (field reason : String)
  deriving DecidableEq, Repr

def forbiddenChars : List Char := ['/', '\\']

def validateField (fieldName value : String) : Except Error Unit :=
  if value.isEmpty then .error (.invalidRelationshipField fieldName "must not be empty")
  else match value.toList.find? forbiddenChars.contains with
    | some ch => .error (.invalidRelationshipField fieldName s!"contains forbidden character '{ch}'")
    | none => .ok ()

namespace Relationship

/-- A relationship whose fields are checked. `Relationship::new` takes them as they are. -/
def tryNew (resource objectId relation : String) (subject : Subject) : Except Error Relationship := do
  validateField "resource" resource
  validateField "object_id" objectId
  validateField "relation" relation
  .ok { resource, objectId, relation, subject }

end Relationship

/-! ### Policies -/

inductive RelationExpression where
  | this
  | computedUserset (relation : String)
  | tupleToUserset (tupleRelation computedRelation : String)
  | union (exprs : List RelationExpression)
  | intersection (exprs : List RelationExpression)
  | difference (base subtract : RelationExpression)
  deriving Repr

def RelationExpression.isThis : RelationExpression → Bool
  | this => true
  | _ => false

structure Relation where
  name : String
  expression : RelationExpression
  deriving Repr

structure Resource where
  name : String
  relations : List Relation
  deriving Repr

def Resource.getRelation (resource : Resource) (name : String) : Option Relation :=
  resource.relations.find? (·.name = name)

structure Policy where
  id : String
  actor : Option Resource := none
  resources : List Resource
  deriving Repr

namespace Policy

def getResource (policy : Policy) (name : String) : Option Resource :=
  (policy.resources.find? (·.name = name)).or (policy.actor.filter (·.name = name))

def getRelation (policy : Policy) (resource relation : String) : Option Relation :=
  (policy.getResource resource).bind (·.getRelation relation)

mutual

def validateExpression (policy : Policy) (resourceName : String) : RelationExpression → Except Error Unit
  | .this => .ok ()
  | .computedUserset relation =>
    if (policy.getRelation resourceName relation).isNone then
      .error (.invalidPolicy
        s!"ComputedUserset references non-existent relation '{relation}' in resource '{resourceName}'")
    else .ok ()
  | .tupleToUserset tupleRelation _ =>
    if (policy.getRelation resourceName tupleRelation).isNone then
      .error (.invalidPolicy
        s!"TupleToUserset references non-existent tuple relation '{tupleRelation}' in resource '{resourceName}'")
    else .ok ()
  | .union exprs => policy.validateExpressions resourceName exprs
  | .intersection exprs => policy.validateExpressions resourceName exprs
  | .difference base subtract => do
    policy.validateExpression resourceName base
    policy.validateExpression resourceName subtract

def validateExpressions (policy : Policy) (resourceName : String) : List RelationExpression → Except Error Unit
  | [] => .ok ()
  | expr :: exprs => do
    policy.validateExpression resourceName expr
    policy.validateExpressions resourceName exprs

end

def validate (policy : Policy) : Except Error Unit :=
  (policy.resources ++ policy.actor.toList).forM fun resource =>
    resource.relations.forM fun relation => policy.validateExpression resource.name relation.expression

/-! ### The rules of document policies -/

mutual

def expressionIncludesOwner : RelationExpression → Bool
  | .this => false
  | .computedUserset relation => relation = "owner"
  | .tupleToUserset _ computedRelation => computedRelation = "owner"
  | .union exprs => anyIncludesOwner exprs
  | .intersection exprs => allIncludeOwner exprs
  | .difference base subtract => expressionIncludesOwner base || expressionIncludesOwner subtract

def anyIncludesOwner : List RelationExpression → Bool
  | [] => false
  | expr :: exprs => expressionIncludesOwner expr || anyIncludesOwner exprs

def allIncludeOwner : List RelationExpression → Bool
  | [] => true
  | expr :: exprs => expressionIncludesOwner expr && allIncludeOwner exprs

end

mutual

/-- No operation is disallowed: every leaf gives `None`. -/
def findDisallowedOperation : RelationExpression → Option String
  | .this => none
  | .computedUserset _ => none
  | .tupleToUserset _ _ => none
  | .union exprs => findDisallowedAmong exprs
  | .intersection exprs => findDisallowedAmong exprs
  | .difference base subtract => (findDisallowedOperation base).or (findDisallowedOperation subtract)

def findDisallowedAmong : List RelationExpression → Option String
  | [] => none
  | expr :: exprs => (findDisallowedOperation expr).or (findDisallowedAmong exprs)

end

def validateDpiRelation (resource : Resource) (relation : Relation) : Except Error Unit :=
  if relation.name = "owner" then .ok ()
  else if relation.expression.isThis then .ok ()
  else if !expressionIncludesOwner relation.expression then
    .error (.dpiExpressionMissingOwner resource.name relation.name)
  else match findDisallowedOperation relation.expression with
    | some op => .error (.dpiDisallowedOperation resource.name relation.name op)
    | none => .ok ()

def validateDpi (policy : Policy) : Except Error Unit :=
  policy.resources.forM fun resource =>
    if (resource.getRelation "owner").isNone then .error (.dpiMissingOwner resource.name)
    else resource.relations.forM (validateDpiRelation resource)

end Policy
end Defra.Zanzibar
