import Defra.Lib.Alternating
import Defra.Zanzibar.Engine

/-! What a policy and its tuples mean for one subject: the one-step rewrite operator on nodes, where the subtracted part of a
    difference is an exception. -/

variable {exprs : List RelationExpression}

namespace Defra.Zanzibar
open List Alternating
namespace Engine
variable (eng : Engine) (pid subj : String)

/-! ### What an expression says -/

/-- The subject of a tuple is the actor asked for, or a node of `P`. -/
def SubjectHolds (P : Set NodeId) : Subject → Prop
  | .entitySet resource objectId relation =>
    if relation.isEmpty then (eng.isActorResource pid resource && objectId = subj) = true
    else { resource, objectId, relation } ∈ P
  | _ => False

def TtuHolds (computed : String) (P : Set NodeId) : Subject → Prop
  | .entitySet resource objectId _ => { resource, objectId, relation := computed } ∈ P
  | .wildcard | .typedWildcard _ => True
  | .entity _ => False

mutual

/-- The nodes `P` hold, and the nodes `N` are those that exceptions look at. -/
def Holds (node : NodeId) : RelationExpression → Set NodeId → Set NodeId → Prop
  | .this, P, _ => eng.checkPermissionDirect pid node subj = true ∨
      ∃ target ∈ eng.getRelationSubjects pid node, eng.SubjectHolds pid subj P target
  | .computedUserset relation, P, _ => { node with relation } ∈ P
  | .tupleToUserset tupleRelation computed, P, _ =>
    ∃ target ∈ eng.getRelationSubjects pid { node with relation := tupleRelation }, TtuHolds computed P target
  | .union exprs, P, N => AnyHolds node exprs P N
  | .intersection exprs, P, N => AllHold node exprs P N
  | .difference base subtract, P, N => Holds node base P N ∧ ¬Holds node subtract N P
termination_by structural expr => expr

def AnyHolds (node : NodeId) : List RelationExpression → Set NodeId → Set NodeId → Prop
  | [], _, _ => False
  | expr :: exprs, P, N => Holds node expr P N ∨ AnyHolds node exprs P N
termination_by structural exprs => exprs

def AllHold (node : NodeId) : List RelationExpression → Set NodeId → Set NodeId → Prop
  | [], _, _ => True
  | expr :: exprs, P, N => Holds node expr P N ∧ AllHold node exprs P N
termination_by structural exprs => exprs

end

variable {eng pid subj} {node : NodeId} {P P' N N' : Set NodeId}

theorem anyHolds_iff :
    AnyHolds eng pid subj node exprs P N ↔ ∃ expr ∈ exprs, Holds eng pid subj node expr P N := by
  induction exprs with
  | nil => simp [AnyHolds]
  | cons expr exprs ih => simp [AnyHolds, ih]

theorem allHold_iff :
    AllHold eng pid subj node exprs P N ↔ ∀ expr ∈ exprs, Holds eng pid subj node expr P N := by
  induction exprs with
  | nil => simp [AllHold]
  | cons expr exprs ih => simp [AllHold, ih]

/-! ### What an expression refers to -/

/-- The expression looks at the node `m`, in the subtracted part of a difference or not. -/
inductive Refers (eng : Engine) (pid : String) (node : NodeId) : RelationExpression → Bool → NodeId → Prop
  | this {resource objectId relation : String} :
    .entitySet resource objectId relation ∈ eng.getRelationSubjects pid node → ¬relation.isEmpty →
      Refers eng pid node .this false { resource, objectId, relation }
  | computedUserset {relation : String} : Refers eng pid node (.computedUserset relation) false { node with relation }
  | tupleToUserset {tupleRelation computed resource objectId relation : String} :
    .entitySet resource objectId relation ∈ eng.getRelationSubjects pid { node with relation := tupleRelation } →
      Refers eng pid node (.tupleToUserset tupleRelation computed) false
        { resource, objectId, relation := computed }
  | union {exprs : List RelationExpression} {expr : RelationExpression} {sub : Bool} {m : NodeId} : expr ∈ exprs →
      Refers eng pid node expr sub m → Refers eng pid node (.union exprs) sub m
  | intersection {exprs : List RelationExpression} {expr : RelationExpression} {sub : Bool} {m : NodeId} :
      expr ∈ exprs → Refers eng pid node expr sub m →
      Refers eng pid node (.intersection exprs) sub m
  | base {base subtract : RelationExpression} {sub : Bool} {m : NodeId} :
      Refers eng pid node base sub m → Refers eng pid node (.difference base subtract) sub m
  | subtract {base subtract : RelationExpression} {sub : Bool} {m : NodeId} :
      Refers eng pid node subtract sub m → Refers eng pid node (.difference base subtract) true m

mutual

/-- The expression subtracts nothing. -/
def differenceFree : RelationExpression → Bool
  | .this | .computedUserset _ | .tupleToUserset _ _ => true
  | .union exprs => allDifferenceFree exprs
  | .intersection exprs => allDifferenceFree exprs
  | .difference _ _ => false

def allDifferenceFree : List RelationExpression → Bool
  | [] => true
  | expr :: exprs => differenceFree expr && allDifferenceFree exprs

end

theorem allDifferenceFree_iff : allDifferenceFree exprs = true ↔ ∀ expr ∈ exprs, differenceFree expr = true := by
  induction exprs with
  | nil => simp [allDifferenceFree]
  | cons expr exprs ih => simp [allDifferenceFree, ih]

variable {expr : RelationExpression} {m : NodeId} {resource relation : String} {sub : Bool}

theorem Refers.not_subtracted (h : Refers eng pid node expr sub m) (hfree : differenceFree expr = true)
    : sub = false := by
  induction h with
  | this => rfl
  | computedUserset => rfl
  | tupleToUserset => rfl
  | union he _ ih => exact ih (allDifferenceFree_iff.mp hfree _ he)
  | intersection he _ ih => exact ih (allDifferenceFree_iff.mp hfree _ he)
  | base => cases hfree
  | subtract => cases hfree

/-- More of the nodes an expression looks at, and fewer of those its exceptions do, keep it. -/
theorem Holds.mono : ∀ {expr : RelationExpression} {P P' N N' : Set NodeId},
    (∀ m sub, Refers eng pid node expr sub m → m ∈ P → m ∈ P') →
    (∀ m, Refers eng pid node expr true m → m ∈ N' → m ∈ N) →
    Holds eng pid subj node expr P N → Holds eng pid subj node expr P' N'
  | .this, P, P', N, N', hP, _, h => by
    refine h.imp id ?_
    rintro ⟨target, ht, hh⟩
    refine ⟨target, ht, ?_⟩
    cases target with
    | entitySet resource objectId relation =>
      by_cases hempty : relation.isEmpty = true
      · simpa only [SubjectHolds, if_pos hempty] using hh
      · simp only [SubjectHolds, if_neg hempty] at hh ⊢
        exact hP _ _ (.this ht hempty) hh
    | entity did => exact hh
    | typedWildcard resource => exact hh
    | wildcard => exact hh
  | .computedUserset relation, P, P', N, N', hP, _, h => by
    exact hP _ _ .computedUserset h
  | .tupleToUserset tupleRelation computed, P, P', N, N', hP, _, h => by
    obtain ⟨target, ht, hh⟩ := h
    refine ⟨target, ht, ?_⟩
    cases target with
    | entitySet resource objectId relation => exact hP _ _ (.tupleToUserset ht) hh
    | entity did => exact hh
    | typedWildcard resource => exact hh
    | wildcard => exact hh
  | .union exprs, P, P', N, N', hP, hN, h => by
    rw [Holds, anyHolds_iff] at h ⊢
    obtain ⟨expr, he, hh⟩ := h
    exact ⟨expr, he, Holds.mono (fun m s hm => hP m s (.union he hm)) (fun m hm => hN m (.union he hm)) hh⟩
  | .intersection exprs, P, P', N, N', hP, hN, h => by
    rw [Holds, allHold_iff] at h ⊢
    exact fun expr he => Holds.mono (fun m s hm => hP m s (.intersection he hm))
      (fun m hm => hN m (.intersection he hm)) (h expr he)
  | .difference base subtract, P, P', N, N', hP, hN, h => by
    refine ⟨Holds.mono (fun m s hm => hP m s (.base hm)) (fun m hm => hN m (.base hm)) h.1, fun hs => h.2 ?_⟩
    exact Holds.mono (fun m _ hm => hN m (.subtract hm)) (fun m hm => hP m _ (.subtract hm)) hs

variable (eng pid subj)

/-! ### Rules and their models -/

/-- The rules of a policy for one subject. -/
def rules : Rules NodeId where
  step P N := {node | ∃ expr, eng.getExpression pid node.resource node.relation = .ok expr ∧
    Holds eng pid subj node expr P N}
  mono hP hN _ := fun ⟨expr, hexpr, h⟩ => ⟨expr, hexpr, h.mono (fun _ _ _ hm => hP hm) fun _ _ hm => hN hm⟩

/-- The expression of `n` refers to `m`. -/
def DependsOn (n m : NodeId) : Prop :=
  ∃ expr sub, eng.getExpression pid n.resource n.relation = .ok expr ∧ Refers eng pid n expr sub m

/-- The rule of `n` looks at `m` in the subtracted part of a difference. -/
def Excludes (n m : NodeId) : Prop :=
  ∃ expr, eng.getExpression pid n.resource n.relation = .ok expr ∧ Refers eng pid n expr true m

/-- No node depends on itself through a subtraction. -/
def Stratified : Prop :=
  ∀ n m, eng.Excludes pid n m → ¬Relation.ReflTransGen (eng.DependsOn pid) m n

def DifferenceFree : Prop :=
  ∀ resource relation expr, eng.getExpression pid resource relation = .ok expr → differenceFree expr = true

variable {eng pid subj}

theorem DifferenceFree.not_excludes (h : eng.DifferenceFree pid) (n m : NodeId) : ¬eng.Excludes pid n m :=
  fun ⟨expr, he, hrefers⟩ => Bool.noConfusion (hrefers.not_subtracted (h _ _ expr he))

theorem DifferenceFree.stratified (h : eng.DifferenceFree pid) : eng.Stratified pid :=
  fun n m hexcludes => absurd hexcludes (h.not_excludes n m)

theorem Excludes.dependsOn {n m : NodeId} (h : eng.Excludes pid n m) : eng.DependsOn pid n m :=
  let ⟨expr, he, hrefers⟩ := h
  ⟨expr, true, he, hrefers⟩

theorem looks : Rules.Looks (eng.rules pid subj) (eng.DependsOn pid) (eng.Excludes pid) where
  depends_of_excludes := Excludes.dependsOn
  step hP hN := fun ⟨expr, he, h⟩ => ⟨expr, he, h.mono (fun m s hm => hP m ⟨expr, s, he, hm⟩)
    fun m hm => hN m ⟨expr, he, hm⟩⟩

def rewrite (eng : Engine) (pid subj : String) (P : Set NodeId) : Set NodeId := (eng.rules pid subj).step P P

/-! ### Finitely many nodes -/

mutual

def mentioned : RelationExpression → List String
  | .this => []
  | .computedUserset relation => [relation]
  | .tupleToUserset _ computed => [computed]
  | .union exprs => mentionedIn exprs
  | .intersection exprs => mentionedIn exprs
  | .difference base subtract => mentioned base ++ mentioned subtract

def mentionedIn : List RelationExpression → List String
  | [] => []
  | expr :: exprs => mentioned expr ++ mentionedIn exprs

end

theorem mentioned_subset (h : expr ∈ exprs) : mentioned expr ⊆ mentionedIn exprs := by
  induction exprs with
  | nil => exact absurd h not_mem_nil
  | cons e exprs ih =>
    rcases mem_cons.mp h with rfl | h
    · exact subset_append_left _ _
    · exact Subset.trans (ih h) (subset_append_right _ _)

def relationNames (eng : Engine) : List String :=
  eng.policies.flatMap (fun policy => (policy.resources ++ policy.actor.toList).flatMap fun resource =>
    resource.relations.flatMap fun relation => mentioned relation.expression) ++
  eng.tuples.map fun t => match t.2.subject with
    | .entitySet _ _ relation => relation
    | _ => ""

def subjectObjects (eng : Engine) : List (String × String) :=
  eng.tuples.map fun t => match t.2.subject with
    | .entitySet resource objectId _ => (resource, objectId)
    | _ => ("", "")

theorem mem_tuples_of_subject {target : Subject} (h : target ∈ eng.getRelationSubjects pid node) :
    ∃ t ∈ eng.tuples, t.2.subject = target := by
  obtain ⟨t, ht, heq⟩ := mem_filterMap.mp h
  simp only [Option.ite_none_right_eq_some, Option.some.injEq] at heq
  exact ⟨t, ht, heq.2⟩

theorem declared_of_getExpression (h : eng.getExpression pid resource relation = .ok expr) :
    ∃ policy ∈ eng.policies, policy.id = pid ∧ ∃ found ∈ policy.resources ++ policy.actor.toList,
      found.name = resource ∧ ∃ rel ∈ found.relations, rel.name = relation ∧ rel.expression = expr := by
  unfold getExpression at h
  split at h
  case h_1 => cases h
  case h_2 policy hp =>
    split at h
    case h_1 => cases h
    case h_2 found hf =>
      split at h
      case h_1 => cases h
      case h_2 rel hr =>
        refine ⟨policy, mem_of_find?_eq_some hp, by simpa using find?_some hp, found, ?_, ?_, rel, ?_, ?_, ?_⟩
        · exact mem_reverse.mp (mem_of_find?_eq_some hf)
        · simpa using find?_some hf
        · exact mem_reverse.mp (mem_of_find?_eq_some hr)
        · simpa using find?_some hr
        · exact Except.ok.inj h

theorem mentioned_of_getExpression (h : eng.getExpression pid resource relation = .ok expr)
    : mentioned expr ⊆ relationNames eng := by
  obtain ⟨policy, hp, _, found, hf, _, rel, hr, _, rfl⟩ := declared_of_getExpression h
  intro name hn
  refine mem_append_left _ (mem_flatMap.mpr ⟨policy, hp, ?_⟩)
  exact mem_flatMap.mpr ⟨found, hf, mem_flatMap.mpr ⟨rel, hr, hn⟩⟩

theorem Refers.within (h : Refers eng pid node expr sub m) :
    ((m.resource, m.objectId) = (node.resource, node.objectId) ∨ (m.resource, m.objectId) ∈ subjectObjects eng) ∧
      (m.relation ∈ mentioned expr ∨ m.relation ∈ relationNames eng) := by
  have hobj : ∀ {n : NodeId} {resource objectId relation : String},
      .entitySet resource objectId relation ∈ eng.getRelationSubjects pid n →
      (resource, objectId) ∈ subjectObjects eng ∧ relation ∈ relationNames eng := by
    intro n resource objectId relation hmem
    obtain ⟨t, ht, heq⟩ := mem_tuples_of_subject hmem
    exact ⟨mem_map.mpr ⟨t, ht, by rw [heq]⟩, mem_append_right _ (mem_map.mpr ⟨t, ht, by rw [heq]⟩)⟩
  induction h with
  | this hmem _ => exact ⟨.inr (hobj hmem).1, .inr (hobj hmem).2⟩
  | computedUserset => exact ⟨.inl rfl, .inl (by simp [mentioned])⟩
  | tupleToUserset hmem => exact ⟨.inr (hobj hmem).1, .inl (by simp [mentioned])⟩
  | union he _ ih => exact ⟨ih.1, ih.2.imp (fun h => mentioned_subset he h) id⟩
  | intersection he _ ih => exact ⟨ih.1, ih.2.imp (fun h => mentioned_subset he h) id⟩
  | base _ ih => exact ⟨ih.1, ih.2.imp (mem_append_left _) id⟩
  | subtract _ ih => exact ⟨ih.1, ih.2.imp (mem_append_right _) id⟩

/-- A node depends on finitely many. -/
theorem finite_below (eng : Engine) (pid : String) (n : NodeId) : {m | Relation.ReflTransGen (eng.DependsOn pid) n m}.Finite := by
  have hw : ∀ {m}, Relation.ReflTransGen (eng.DependsOn pid) n m →
      (m.resource, m.objectId) ∈ (n.resource, n.objectId) :: subjectObjects eng ∧
        m.relation ∈ n.relation :: relationNames eng := by
    intro m hm
    induction hm with
    | refl => exact ⟨mem_cons_self, mem_cons_self⟩
    | tail _ hstep ih =>
      obtain ⟨expr, sub, he, hrefers⟩ := hstep
      obtain ⟨hobj, hr⟩ := hrefers.within
      refine ⟨?_, mem_cons_of_mem _ (hr.elim (fun h => mentioned_of_getExpression he h) id)⟩
      rcases hobj with heq | hmem
      · exact heq ▸ ih.1
      · exact mem_cons_of_mem _ hmem
  let nodes := ((n.resource, n.objectId) :: subjectObjects eng).product (n.relation :: relationNames eng)
  refine (finite_toSet (nodes.map fun x => (⟨x.1.1, x.1.2, x.2⟩ : NodeId))).subset fun m hm => ?_
  obtain ⟨hobj, hr⟩ := hw hm
  exact mem_map.mpr ⟨((m.resource, m.objectId), m.relation), mem_product.mpr ⟨hobj, hr⟩, rfl⟩

theorem Stratified.wellFounded (h : eng.Stratified pid) :
    WellFounded (Rules.Below (eng.DependsOn pid) (eng.Excludes pid)) := by
  refine wellFounded_of_finite ?_ ?_ fun n => (finite_below eng pid n).subset ?_
  · rintro x y z ⟨a, b, hya, hab, hbx⟩ ⟨c, d, hzc, hcd, hdy⟩
    exact ⟨c, d, hzc, hcd, ((hdy.trans hya).tail (hab.dependsOn)).trans hbx⟩
  · rintro x ⟨a, b, hxa, hab, hbx⟩
    exact h a b hab (hbx.trans hxa)
  · rintro m ⟨a, b, hna, hab, hbm⟩
    exact (hna.tail (hab.dependsOn)).trans hbm

/-- What follows when the exceptions are looked up in it. They are of lower strata, and there is only one. -/
theorem Stratified.isModel (h : eng.Stratified pid) :
    (eng.rules pid subj).IsModel (eng.rules pid subj).holding ∧
      ∀ M, (eng.rules pid subj).IsModel M → M = (eng.rules pid subj).holding :=
  ⟨Rules.isModel_holding looks h.wellFounded, fun _ hM => hM.eq_holding looks h.wellFounded⟩

theorem DifferenceFree.isLeast (h : eng.DifferenceFree pid) :
    IsLeast (Function.fixedPoints (eng.rewrite pid subj)) (eng.rules pid subj).holding := by
  have hmodel : (eng.rules pid subj).IsModel (eng.rules pid subj).holding := h.stratified.isModel.1
  constructor
  · show (eng.rules pid subj).step _ _ = _
    nth_rewrite 1 [hmodel]
    rw [Rules.step_least]
    exact hmodel.symm
  · intro P hP
    rw [hmodel]
    refine Rules.least_subset fun n hn => ?_
    rw [← show eng.rewrite pid subj P = P from hP]
    exact looks.step (fun _ _ hm => hm) (fun m hexcludes => absurd hexcludes (h.not_excludes n m)) hn

end Engine
end Defra.Zanzibar
