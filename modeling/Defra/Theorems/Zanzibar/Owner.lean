import Defra.Lib.Checked
import Defra.Theorems.Zanzibar.Check

/-! An expression that names `owner` outside a difference and a tuple to userset grants the owner of the object; the validation
    takes an exclusion of the owner, and the owner of another object, for the same. -/

namespace Defra.Zanzibar
open List

/-- The validation accepts the policy, and an owner relation is given by its own tuples. -/
structure Accepted (policy : Policy) : Prop where
  valid : policy.validate = .ok ()
  dpi : policy.validateDpi = .ok ()
  owner : ∀ resource ∈ policy.resources, ∀ rel ∈ resource.relations, rel.name = "owner" → rel.expression = .this

/-- The engine finds the resource, not the actor, and the relation under their names: no later ones are declared with them. -/
structure Found (policy : Policy) (resource : Resource) (rel : Relation) : Prop where
  mem : resource ∈ policy.resources
  byName : (policy.resources ++ policy.actor.toList).reverse.find? (·.name = resource.name) = some resource
  relationByName : resource.relations.reverse.find? (·.name = rel.name) = some rel

mutual

def grantsOwner : RelationExpression → Bool
  | .this => false
  | .computedUserset rel => rel = "owner"
  | .tupleToUserset _ _ => false
  | .union exprs => anyGrantsOwner exprs
  | .intersection exprs => allGrantOwner exprs
  | .difference _ _ => false

def anyGrantsOwner : List RelationExpression → Bool
  | [] => false
  | expr :: exprs => grantsOwner expr || anyGrantsOwner exprs

def allGrantOwner : List RelationExpression → Bool
  | [] => true
  | expr :: exprs => grantsOwner expr && allGrantOwner exprs

end

theorem anyGrantsOwner_iff {exprs : List RelationExpression} :
    anyGrantsOwner exprs = true ↔ ∃ expr ∈ exprs, grantsOwner expr = true := by
  induction exprs with
  | nil => simp [anyGrantsOwner]
  | cons expr exprs ih => simp [anyGrantsOwner, ih]

theorem allGrantOwner_iff {exprs : List RelationExpression} :
    allGrantOwner exprs = true ↔ ∀ expr ∈ exprs, grantsOwner expr = true := by
  induction exprs with
  | nil => simp [allGrantOwner]
  | cons expr exprs ih => simp [allGrantOwner, ih]

theorem forM_ok {α : Type} {f : α → Except Error Unit} {as : List α} (h : as.forM f = .ok ()) {a : α} (ha : a ∈ as) :
    f a = .ok () := by
  induction as with
  | nil => exact absurd ha not_mem_nil
  | cons b as ih =>
    obtain ⟨_, hb, h⟩ := Checked.bind h
    rcases mem_cons.mp ha with rfl | ha
    · exact hb
    · exact ih h ha

theorem Accepted.owner_found {policy : Policy} (h : Accepted policy) {resource : Resource} (hresource : resource ∈ policy.resources) :
    ∃ rel, resource.relations.reverse.find? (·.name = "owner") = some rel ∧ rel.expression = .this := by
  have hd := forM_ok h.dpi hresource
  cases ho : resource.getRelation "owner" with
  | none =>
    rw [ho] at hd
    cases hd
  | some declared =>
    have hs : (resource.relations.reverse.find? (·.name = "owner")).isSome := by
      rw [find?_isSome]
      exact ⟨declared, mem_reverse.mpr (mem_of_find?_eq_some ho), by simpa using find?_some ho⟩
    obtain ⟨rel, hr⟩ := Option.isSome_iff_exists.mp hs
    have hn : rel.name = "owner" := by simpa using find?_some hr
    exact ⟨rel, hr, h.owner resource hresource rel (mem_reverse.mp (mem_of_find?_eq_some hr)) hn⟩

namespace Engine
variable {eng : Engine} {policy : Policy}

theorem holds_of_grantsOwner {pid subject : String} {node : NodeId} {P N : Set NodeId}
    (ho : { node with relation := "owner" } ∈ P) : ∀ {expr : RelationExpression}, grantsOwner expr = true →
      Holds eng pid subject node expr P N
  | .computedUserset rel, h => by
    obtain rfl : rel = "owner" := by simpa [grantsOwner] using h
    exact ho
  | .union exprs, h => by
    obtain ⟨expr, he, hgrants⟩ := anyGrantsOwner_iff.mp h
    rw [Holds, anyHolds_iff]
    exact ⟨expr, he, holds_of_grantsOwner ho hgrants⟩
  | .intersection exprs, h => by
    rw [Holds, allHold_iff]
    exact fun expr he => holds_of_grantsOwner ho (allGrantOwner_iff.mp h expr he)

theorem checkPermissionDirect_of_mem {pid did : String} {node : NodeId}
    (h : (pid, ⟨node.resource, node.objectId, node.relation, .entity did⟩) ∈ eng.tuples) :
    eng.checkPermissionDirect pid node did = true := by
  have hsubject : .entity did ∈ eng.getRelationSubjects pid node := mem_filterMap.mpr ⟨_, h, by simp⟩
  exact any_eq_true.mpr ⟨_, hsubject, by simp⟩

/-- An owner is not denied a relation that grants the owner outside a difference and a tuple to userset. -/
theorem owner_never_denied (hpolicy : eng.policies.find? (·.id = policy.id) = some policy) (haccepted : Accepted policy)
    {resource : Resource} {rel : Relation} (hfound : Found policy resource rel)
    (hgrants : grantsOwner rel.expression = true) {objectId did : String}
    (htuple : (policy.id, ⟨resource.name, objectId, "owner", .entity did⟩) ∈ eng.tuples) :
    eng.check policy.id did resource.name objectId rel.name ≠ .ok false := by
  obtain ⟨owner, hlast, ht⟩ := haccepted.owner_found hfound.mem
  have hownerExpr : eng.getExpression policy.id resource.name "owner" = .ok .this := by
    simp only [getExpression, hpolicy, hfound.byName, hlast, ht]
  have hexpr : eng.getExpression policy.id resource.name rel.name = .ok rel.expression := by
    simp only [getExpression, hpolicy, hfound.byName, hfound.relationByName]
  have ho : ⟨resource.name, objectId, "owner"⟩ ∈ (eng.rules policy.id did).holding := by
    refine (mem_holding hownerExpr).mpr ?_
    rw [Holds]
    exact .inl (checkPermissionDirect_of_mem htuple)
  intro hc
  have hnode : ⟨resource.name, objectId, rel.name⟩ ∈ (eng.rules policy.id did).holding :=
    (mem_holding hexpr).mpr (holds_of_grantsOwner ho hgrants)
  exact Bool.noConfusion ((check_holding hc).mpr hnode)

/-- The readers are those given directly or the owner, the guests those given directly except the owner, and the editors the
    owners of the folder. -/
def notesPolicy : Policy where
  id := "notes"
  resources := [⟨"note", [⟨"owner", .this⟩, ⟨"folder", .this⟩, ⟨"reader", .union [.this, .computedUserset "owner"]⟩,
    ⟨"guest", .difference .this (.computedUserset "owner")⟩, ⟨"editor", .tupleToUserset "folder" "owner"⟩]⟩]

def notes : Engine where
  policies := [notesPolicy]
  tuples := [("notes", ⟨"note", "n1", "owner", .entity "alice"⟩)]

theorem notesPolicy_accepted : Accepted notesPolicy := ⟨rfl, rfl, by simp [notesPolicy]⟩

theorem notes_reader_granted :
    notes.check "notes" "alice" "note" "n1" "reader" ≠ .ok false ∧ notes.check "notes" "alice" "note" "n1" "reader" = .ok true :=
  ⟨@owner_never_denied notes notesPolicy rfl notesPolicy_accepted _ ⟨"reader", .union [.this, .computedUserset "owner"]⟩
    ⟨mem_cons_self, rfl, rfl⟩ rfl "n1" "alice" mem_cons_self, rfl⟩

theorem notes_owner_denied : Accepted notesPolicy ∧ ("notes", ⟨"note", "n1", "owner", .entity "alice"⟩) ∈ notes.tuples ∧
    notes.check "notes" "alice" "note" "n1" "guest" = .ok false ∧ notes.check "notes" "alice" "note" "n1" "editor" = .ok false :=
  ⟨notesPolicy_accepted, mem_cons_self, rfl, rfl⟩

end Engine
end Defra.Zanzibar
