import Defra.Lib.Checked
import Defra.Theorems.Zanzibar.Check

/-! The traced evaluator answers by the same model as the one it explains: it keeps no memo of its own results and follows
    usersets by itself, so its answers are related to the rules again. -/

namespace Defra.Zanzibar
open List

/-- A traced answer about a fact that holds only if `G` and follows from elsewhere if `L`. -/
structure Told (G L : Prop) (r : Traced) : Prop where
  sound : r.1 = true → G
  complete : L → r.1 = true

theorem Told.imp {G G' L L' : Prop} {r : Traced} (h : Told G L r) (hG : G → G') (hL : L' → L) : Told G' L' r :=
  ⟨fun hr => hG (h.sound hr), fun hl => h.complete (hL hl)⟩

variable {G L : Prop} {I : CheckCache → Prop} {steps : List EvaluationStep} {α : Type}

theorem Told.denied (h : ¬L) : Told G L (false, steps) :=
  ⟨fun hr => (nomatch hr), fun hl => absurd hl h⟩

theorem Told.granted (h : G) : Told G L (true, steps) :=
  ⟨fun _ => h, fun _ => rfl⟩

/-- What the evaluator tells of a result. -/
theorem told_guarded {result : Bool} {more : List EvaluationStep} (hsound : result = true → G) (hcomplete : L → result = true) :
    Guarded I (if result then pure (true, steps) else pure (false, more) : Check Traced) (Told G L) := by
  cases result with
  | true => exact .pure (.granted (hsound rfl))
  | false => exact .pure (.denied fun h => Bool.false_ne_true (hcomplete h))

theorem anyTraced_guarded {step : α → Check Traced} {G L : α → Prop} {as : List α}
    (h : ∀ a ∈ as, Guarded I (step a) (Told (G a) (L a))) (steps : List EvaluationStep) :
    Guarded I (anyTraced step steps as) (Told (∃ a ∈ as, G a) (∃ a ∈ as, L a)) := by
  induction as generalizing steps with
  | nil => exact .pure (.denied (by simp))
  | cons a as ih =>
    refine .bind (h a mem_cons_self) fun r hr => ?_
    obtain ⟨granted, more⟩ := r
    cases granted with
    | true => exact .pure (.granted ⟨a, mem_cons_self, hr.sound rfl⟩)
    | false =>
      refine (ih (fun b hb => h b (mem_cons_of_mem a hb)) _).mono fun r' hr' => hr'.imp ?_ ?_
      · rintro ⟨b, hb, hGb⟩
        exact ⟨b, mem_cons_of_mem a hb, hGb⟩
      · rintro ⟨b, hb, hLb⟩
        rcases mem_cons.mp hb with rfl | hb
        · exact absurd (hr.complete hLb) Bool.false_ne_true
        · exact ⟨b, hb, hLb⟩

theorem anyTraced_zipIdx_guarded {step : α × Nat → Check Traced} {G L : α → Prop}
    (h : ∀ a i, Guarded I (step (a, i)) (Told (G a) (L a))) (steps : List EvaluationStep) (as : List α) :
    Guarded I (anyTraced step steps as.zipIdx) (Told (∃ a ∈ as, G a) (∃ a ∈ as, L a)) := by
  refine (anyTraced_guarded (fun b _ => h b.1 b.2) steps).mono fun r hr => hr.imp ?_ ?_
  · rintro ⟨b, hb, hGb⟩
    exact ⟨b.1, fst_mem_of_mem_zipIdx hb, hGb⟩
  · rintro ⟨a, ha, hLa⟩
    rw [← zipIdx_map_fst 0 as] at ha
    obtain ⟨b, hb, rfl⟩ := mem_map.mp ha
    exact ⟨b, hb, hLa⟩

namespace Engine
variable {eng : Engine} {pid subj : String} {inner : NodeId → RelationExpression → NodeTrail → Check Eval}
  {traced : NodeId → RelationExpression → NodeTrail → Check Traced}

variable (eng pid subj) in
def Tells (traced : NodeId → RelationExpression → NodeTrail → Check Traced) : Prop :=
  ∀ node expr trail, Guarded eng.CacheOk (traced node expr trail)
    (Told (Holds eng pid subj node expr (eng.rules pid subj).holding (eng.rules pid subj).possible)
      (Holds eng pid subj node expr (eng.off pid subj trail) (eng.rules pid subj).possible))

theorem Tells.node (ht : eng.Tells pid subj traced) {node : NodeId} {expr : RelationExpression}
    (he : eng.getExpression pid node.resource node.relation = .ok expr) (trail : NodeTrail) :
    Guarded eng.CacheOk (traced node expr (node :: trail))
      (Told (node ∈ (eng.rules pid subj).holding) (node ∈ eng.off pid subj trail)) :=
  (ht node expr (node :: trail)).mono fun _ hr => hr.imp (mem_holding he).mpr (holds_of_mem_off he)

theorem tracedSubject_guarded (ht : eng.Tells pid subj traced) (trail : NodeTrail) (target : Subject) :
    Guarded eng.CacheOk (eng.tracedSubject pid subj traced trail target)
      (Told (eng.SubjectHolds pid subj (eng.rules pid subj).holding target)
        (eng.SubjectHolds pid subj (eng.off pid subj trail) target)) := by
  refine .bind charge_guarded fun _ _ => ?_
  cases target with
  | entitySet resource objectId relation =>
    simp only [SubjectHolds]
    split
    case isTrue =>
      split
      case isTrue hactor => exact .pure (.granted hactor)
      case isFalse hactor => exact .pure (.denied hactor)
    case isFalse =>
      split
      case isTrue hmem => exact .pure (.denied fun ho => not_mem_trail ho hmem)
      case isFalse => exact .bind (.liftExcept fun expr he => he) fun expr he => ht.node he trail
  | entity did => exact .pure (.denied id)
  | typedWildcard resource => exact .pure (.denied id)
  | wildcard => exact .pure (.denied id)

theorem tracedTarget_guarded (hinner : eng.Answers pid subj inner) (trail : NodeTrail) (computed : String)
    (target : ObjectRef) :
    Guarded eng.CacheOk (eng.tracedTarget pid subj inner trail computed target)
      (Told (⟨target.resource, target.objectId, computed⟩ ∈ (eng.rules pid subj).holding)
        (⟨target.resource, target.objectId, computed⟩ ∈ eng.off pid subj trail)) := by
  refine .bind charge_guarded fun _ _ => ?_
  dsimp only
  split
  case isTrue hmem => exact .pure (.denied fun ho => not_mem_trail ho hmem)
  case isFalse =>
    exact .bind (follow_guarded hinner trail _) fun r hr => told_guarded hr.sound hr.complete

theorem tracedTtuSubject_guarded (hinner : eng.Answers pid subj inner) (trail : NodeTrail) (tupleNode : NodeId)
    (computed : String) (target : Subject) :
    Guarded eng.CacheOk (eng.tracedTtuSubject pid subj inner trail tupleNode computed target)
      (Told (TtuHolds computed (eng.rules pid subj).holding target)
        (TtuHolds computed (eng.off pid subj trail) target)) := by
  refine .bind charge_guarded fun _ _ => ?_
  cases target with
  | entitySet resource objectId relation =>
    exact .bind (follow_guarded hinner trail _) fun r hr => told_guarded hr.sound hr.complete
  | entity did => exact .pure (.denied id)
  | typedWildcard resource => exact .pure (.granted trivial)
  | wildcard => exact .pure (.granted trivial)

section Branches
variable (hinner : eng.Answers pid subj inner) (node : NodeId) (trail : NodeTrail) (expr : RelationExpression) (i : Nat)
include hinner

theorem tracedBranch_guarded : Guarded eng.CacheOk (tracedBranch inner node trail (expr, i))
    (Told (Holds eng pid subj node expr (eng.rules pid subj).holding (eng.rules pid subj).possible)
      (Holds eng pid subj node expr (eng.off pid subj trail) (eng.rules pid subj).possible)) :=
  .bind (hinner node expr trail) fun _ hr => told_guarded hr.sound hr.complete

/-- A branch that denies does not follow off the trail, and one that does not hold denies. -/
theorem tracedDenial_guarded : Guarded eng.CacheOk (tracedDenial inner node trail (expr, i))
    (Told (¬Holds eng pid subj node expr (eng.off pid subj trail) (eng.rules pid subj).possible)
      (¬Holds eng pid subj node expr (eng.rules pid subj).holding
        (eng.rules pid subj).possible)) := by
  refine .bind (hinner node expr trail) fun r hr => ?_
  obtain ⟨granted, tainted⟩ := r
  cases granted with
  | true => exact .pure (.denied fun hnot => hnot (hr.sound rfl))
  | false => exact .pure (.granted fun ho => Bool.false_ne_true (hr.complete ho))

end Branches

theorem evaluateExprWithTrace_guarded : ∀ depth, eng.Tells pid subj (eng.evaluateExprWithTrace pid subj depth)
  | 0 => fun _ _ _ => .bind charge_guarded fun _ _ => .throw _
  | depth + 1 => by
    have htraced : eng.Tells pid subj (eng.evaluateExprWithTrace pid subj depth) :=
      evaluateExprWithTrace_guarded depth
    have hinner : eng.Answers pid subj (eng.evaluateExprInner pid subj depth) :=
      evaluateExprInner_guarded depth
    intro node expr trail
    refine .bind charge_guarded fun _ _ => ?_
    cases expr with
    | this =>
      simp only [Holds]
      split
      case isTrue hdirect => exact .pure (.granted (.inl hdirect))
      case isFalse hdirect =>
        refine (anyTraced_guarded (fun target _ => tracedSubject_guarded htraced trail target) _).mono fun r hr => ?_
        exact hr.imp .inr fun h => h.resolve_left hdirect
    | computedUserset relation =>
      simp only [Holds]
      split
      case isTrue hmem => exact .pure (.denied fun hoff => not_mem_trail hoff hmem)
      case isFalse =>
        refine .bind (.liftExcept fun expr he => he) fun expr he => ?_
        refine .bind (htraced.node he trail) fun r hr => .pure ?_
        exact ⟨hr.sound, hr.complete⟩
    | tupleToUserset tupleRelation computed =>
      refine .bind (anyTraced_guarded (fun target _ => tracedTarget_guarded hinner trail computed target) _)
        fun r hr => ?_
      obtain ⟨granted, steps⟩ := r
      cases granted with
      | true => exact .pure (.granted (ttuHolds_of_target (hr.sound rfl)))
      | false =>
        refine .bind (anyTraced_guarded (fun target _ => tracedTtuSubject_guarded hinner trail _ computed target) _)
          fun r' hr' => ?_
        exact told_guarded hr'.sound hr'.complete
    | union exprs =>
      simp only [Holds, anyHolds_iff]
      exact .bind (anyTraced_zipIdx_guarded (tracedBranch_guarded hinner node trail) _ exprs) fun r htold =>
        told_guarded htold.sound htold.complete
    | intersection exprs =>
      simp only [Holds, allHold_iff]
      refine .bind (anyTraced_zipIdx_guarded (tracedDenial_guarded hinner node trail) _ exprs) fun r htold => ?_
      obtain ⟨denied, steps⟩ := r
      cases denied with
      | true =>
        obtain ⟨expr, he, hnot⟩ := htold.sound rfl
        exact .pure (.denied fun hoff => hnot (hoff expr he))
      | false =>
        refine .pure (.granted fun expr he => ?_)
        by_contra hnot
        exact Bool.false_ne_true (htold.complete ⟨expr, he, hnot⟩)
    | difference base subtract =>
      refine .bind (hinner node base trail) fun r hr => ?_
      obtain ⟨baseGranted, baseTainted⟩ := r
      cases baseGranted with
      | false => exact .pure (.denied fun hoff => Bool.false_ne_true (hr.complete hoff.1))
      | true =>
        refine .bind (hinner node subtract trail) fun r' hr' => ?_
        obtain ⟨subtractGranted, subtractTainted⟩ := r'
        cases subtractTainted with
        | true => exact .throw _
        | false =>
          cases subtractGranted with
          | false => exact .pure (.granted ⟨hr.sound rfl, hr'.exact rfl rfl⟩)
          | true => exact .pure (.denied fun hoff => hoff.2 ((hr'.sound rfl).mono_off trail))

theorem explain_holding {resource objectId relation : String} {explanation : PermissionExplanation}
    (h : eng.explain pid subj resource objectId relation = .ok explanation) :
    explanation.granted = true ↔ ⟨resource, objectId, relation⟩ ∈ (eng.rules pid subj).holding := by
  obtain ⟨expr, he, h⟩ := Checked.bind h
  obtain ⟨r, hr, hok⟩ := Checked.bind h
  obtain rfl := Except.ok.inj hok
  have htraced : eng.Tells pid subj (eng.evaluateExprWithTrace pid subj maxEvaluationDepth) :=
    evaluateExprWithTrace_guarded maxEvaluationDepth
  have htold := (@htraced.node _ _ _ _ ⟨resource, objectId, relation⟩ expr he []) {} (cacheOk_empty eng)
  have htold := htold.2 r hr
  exact ⟨htold.sound, fun hmem => htold.complete (mem_off_nil hmem)⟩

/-- A batch and an explanation grant what a single check of the request grants. -/
theorem check_agrees {requests : List PermissionCheckRequest} {i : Nat} {req : PermissionCheckRequest}
    (hreq : requests[i]? = some req) {granted : Bool}
    (hcheck : eng.check req.policyId req.subject req.resource req.objectId req.relation = .ok granted) :
    (∀ b, (eng.checkMany requests)[i]? = some (.ok b) → b = granted) ∧
    ∀ explanation, eng.explain req.policyId req.subject req.resource req.objectId req.relation = .ok explanation →
      explanation.granted = granted := by
  have hsingle := check_holding hcheck
  constructor
  · intro b hb
    exact Bool.eq_iff_iff.mpr ((checkAll_holding (cacheOk_empty eng) hreq hb).trans hsingle.symm)
  · intro explanation he
    exact Bool.eq_iff_iff.mpr ((explain_holding he).trans hsingle.symm)

/-- The second request reads what the first has left in the memo. -/
theorem sharedDocs_agrees :
    (∀ b, (sharedDocs.checkMany [⟨"docs", "doc", "b", "reader", "alice"⟩, ⟨"docs", "doc", "a", "reader", "alice"⟩])[1]? =
      some (.ok b) → b = true) ∧
    (sharedDocs.checkMany [⟨"docs", "doc", "b", "reader", "alice"⟩, ⟨"docs", "doc", "a", "reader", "alice"⟩])[1]? =
      some (.ok true) ∧
    (sharedDocs.explain "docs" "alice" "doc" "a" "reader").map PermissionExplanation.granted = .ok true :=
  ⟨(@check_agrees sharedDocs [⟨"docs", "doc", "b", "reader", "alice"⟩, ⟨"docs", "doc", "a", "reader", "alice"⟩] 1
    ⟨"docs", "doc", "a", "reader", "alice"⟩ rfl true rfl).1, rfl, rfl⟩

end Engine
end Defra.Zanzibar
