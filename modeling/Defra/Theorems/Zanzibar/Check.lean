import Defra.Lib.Guarded
import Defra.Theorems.Zanzibar.Rules

/-! A check that comes through answers whether the node holds in the least partial model of the policy's rules, whatever the
    trail, the short-circuits and the memo: a granted permission holds, and a denial that no cut touched may not hold. -/

namespace Defra.Zanzibar
open List Option

/-! ### Verdicts -/

/-- The fact holds only if `G`, may hold only if `U`, and follows from elsewhere if `L`. -/
structure Verdict (G U L : Prop) (r : Eval) : Prop where
  sound : r.1 = true → G
  exact : r.1 = false → r.2 = false → ¬U
  complete : L → r.1 = true

theorem Verdict.imp {G G' U U' L L' : Prop} {r : Eval} (h : Verdict G U L r) (hG : G → G') (hU : U' → U) (hL : L' → L) :
    Verdict G' U' L' r :=
  ⟨fun hr => hG (h.sound hr), fun hr ht hu => h.exact hr ht (hU hu), fun hl => h.complete (hL hl)⟩

variable {granted : Bool}

theorem Verdict.of_iff {G U L : Prop} (hG : granted = true ↔ G) (hUG : U → G) (hLG : L → G) :
    Verdict G U L (granted, false) where
  sound hr := hG.mp hr
  exact hr _ hu := by
    rw [hG.mpr (hUG hu)] at hr
    cases hr
  complete hl := hG.mpr (hLG hl)

section Loops
variable {α : Type} {I : CheckCache → Prop} {step : α → Check Eval} {G U L : α → Prop} {as : List α}

theorem anyGranted_guarded (h : ∀ a ∈ as, Guarded I (step a) (Verdict (G a) (U a) (L a))) (tainted : Bool) :
    Guarded I (anyGranted step tainted as) fun r =>
      Verdict (∃ a ∈ as, G a) (∃ a ∈ as, U a) (∃ a ∈ as, L a) r ∧ (r.1 = false → r.2 = false → tainted = false) := by
  induction as generalizing tainted with
  | nil =>
    refine .pure ⟨⟨fun hr => (nomatch hr), ?_, ?_⟩, fun _ ht => ht⟩
    · simp
    · simp
  | cons a as ih =>
    refine .bind (h a mem_cons_self) fun r hr => ?_
    obtain ⟨granted, t⟩ := r
    cases granted with
    | true =>
      refine .pure ⟨⟨fun _ => ⟨a, mem_cons_self, hr.sound rfl⟩, fun h => (nomatch h), fun _ => rfl⟩, fun h => nomatch h⟩
    | false =>
      refine (ih (fun b hb => h b (mem_cons_of_mem a hb)) (tainted || t)).mono fun r' hr' => ⟨⟨?_, ?_, ?_⟩, ?_⟩
      · intro hg
        obtain ⟨b, hb, hGb⟩ := hr'.1.sound hg
        exact ⟨b, mem_cons_of_mem a hb, hGb⟩
      · rintro hg ht ⟨b, hb, hUb⟩
        have hclean := hr'.2 hg ht
        rw [Bool.or_eq_false_iff] at hclean
        rcases mem_cons.mp hb with rfl | hb
        · exact hr.exact rfl hclean.2 hUb
        · exact hr'.1.exact hg ht ⟨b, hb, hUb⟩
      · rintro ⟨b, hb, hLb⟩
        rcases mem_cons.mp hb with rfl | hb
        · exact absurd (hr.complete hLb) Bool.false_ne_true
        · exact hr'.1.complete ⟨b, hb, hLb⟩
      · intro hg ht
        exact (Bool.or_eq_false_iff.mp (hr'.2 hg ht)).1

theorem allGranted_guarded (h : ∀ a ∈ as, Guarded I (step a) (Verdict (G a) (U a) (L a))) (tainted : Bool) :
    Guarded I (allGranted step tainted as) (Verdict (∀ a ∈ as, G a) (∀ a ∈ as, U a) (∀ a ∈ as, L a)) := by
  induction as generalizing tainted with
  | nil => exact .pure ⟨fun _ => by simp, fun h => (nomatch h), fun _ => rfl⟩
  | cons a as ih =>
    refine .bind (h a mem_cons_self) fun r hr => ?_
    obtain ⟨granted, t⟩ := r
    cases granted with
    | true =>
      refine (ih (fun b hb => h b (mem_cons_of_mem a hb)) (tainted || t)).mono fun r' hr' => ?_
      refine hr'.imp (fun hG => ?_) (fun hU b hb => hU b (mem_cons_of_mem a hb))
        fun hL b hb => hL b (mem_cons_of_mem a hb)
      exact forall_mem_cons.mpr ⟨hr.sound rfl, hG⟩
    | false =>
      refine .pure ⟨fun h => (nomatch h), fun _ ht hU => ?_, fun hL => ?_⟩
      · exact hr.exact rfl ht (hU a mem_cons_self)
      · exact absurd (hr.complete (hL a mem_cons_self)) Bool.false_ne_true

end Loops

namespace Engine
variable {eng : Engine} {pid subj : String}

/-! ### The memo -/

/-- The memo answers as the model does. -/
def CacheOk (eng : Engine) (cache : CheckCache) : Prop :=
  ∀ key value, cache.get key = some value →
    (value = true → key.node ∈ (eng.rules key.policyId key.subject).holding) ∧
      (value = false → key.node ∉ (eng.rules key.policyId key.subject).possible)

theorem cacheOk_empty (eng : Engine) : eng.CacheOk {} := fun _ _ h => nomatch h

theorem charge_guarded : Guarded eng.CacheOk charge fun _ => True := by
  refine .bind .get fun cache _ => ?_
  split
  · exact .modify fun cache h => h
  · exact .throw _

variable {cache : CheckCache} {resource objectId relation : String} (trail : NodeTrail)

theorem CacheOk.set (h : eng.CacheOk cache) {key : CheckKey} {value : Bool}
    (ht : value = true → key.node ∈ (eng.rules key.policyId key.subject).holding)
    (hf : value = false → key.node ∉ (eng.rules key.policyId key.subject).possible) :
    eng.CacheOk (cache.set key value) := by
  intro other result hg
  rw [CheckCache.get, CheckCache.set, find?_cons] at hg
  split at hg
  case h_1 heq =>
    obtain rfl := of_decide_eq_true heq
    obtain rfl := some.inj hg
    exact ⟨ht, hf⟩
  case h_2 => exact h other result hg

variable (eng pid subj) in
/-- The nodes that hold by a derivation that avoids the trail. -/
def off (trail : NodeTrail) : Set NodeId :=
  (eng.rules pid subj).avoiding (eng.rules pid subj).possible {node | node ∈ trail}

variable (eng pid subj) in
/-- An evaluation that comes through gives the verdict of the model. -/
def Answers (inner : NodeId → RelationExpression → NodeTrail → Check Eval) : Prop :=
  ∀ node expr trail, Guarded eng.CacheOk (inner node expr trail)
    (Verdict (Holds eng pid subj node expr (eng.rules pid subj).holding (eng.rules pid subj).possible)
      (Holds eng pid subj node expr (eng.rules pid subj).possible (eng.rules pid subj).holding)
      (Holds eng pid subj node expr (eng.off pid subj trail) (eng.rules pid subj).possible))

theorem off_subset : eng.off pid subj trail ⊆ (eng.rules pid subj).holding := by
  rw [(eng.rules pid subj).isPartial_holding.holds]
  exact Alternating.Rules.avoiding_subset_least

theorem holding_subset_possible : (eng.rules pid subj).holding ⊆ (eng.rules pid subj).possible :=
  (eng.rules pid subj).isPartial_holding.subset

variable {node : NodeId} {expr : RelationExpression}

section
variable (hexpr : eng.getExpression pid node.resource node.relation = .ok expr)
include hexpr

/-! ### Holding and possible nodes -/

theorem mem_holding : node ∈ (eng.rules pid subj).holding ↔ Holds eng pid subj node expr
      (eng.rules pid subj).holding (eng.rules pid subj).possible := by
  rw [(eng.rules pid subj).isPartial_holding.mem_holds]
  constructor
  · rintro ⟨other, ho, h⟩
    rwa [Except.ok.inj (hexpr.symm.trans ho)]
  · exact fun h => ⟨expr, hexpr, h⟩

theorem mem_possible : node ∈ (eng.rules pid subj).possible ↔ Holds eng pid subj node expr
      (eng.rules pid subj).possible (eng.rules pid subj).holding := by
  rw [(eng.rules pid subj).isPartial_holding.mem_possible]
  constructor
  · rintro ⟨other, ho, h⟩
    rwa [Except.ok.inj (hexpr.symm.trans ho)]
  · exact fun h => ⟨expr, hexpr, h⟩

omit hexpr in
theorem not_mem_trail {trail : NodeTrail} (h : node ∈ eng.off pid subj trail) : node ∉ trail :=
  (Alternating.Rules.mem_avoiding.mp h).2

theorem holds_of_mem_off {trail : NodeTrail} (h : node ∈ eng.off pid subj trail) :
    Holds eng pid subj node expr (eng.off pid subj (node :: trail))
      (eng.rules pid subj).possible := by
  obtain ⟨other, ho, hholds⟩ := Alternating.Rules.step_avoiding h
  rw [Except.ok.inj (hexpr.symm.trans ho)]
  have ht : {m | m ∈ node :: trail} = insert node {m | m ∈ trail} := by
    ext m
    simp
  rwa [off, ht]

end

theorem mem_off_nil (h : node ∈ (eng.rules pid subj).holding) : node ∈ eng.off pid subj [] := by
  rw [(eng.rules pid subj).isPartial_holding.holds] at h
  have he : {m | m ∈ ([] : NodeTrail)} = ∅ := by
    ext m
    simp
  rwa [off, he]

variable {inner : NodeId → RelationExpression → NodeTrail → Check Eval}

section
variable (hinner : eng.Answers pid subj inner)
include hinner

/-! ### Evaluation -/

theorem evaluateExprCached_guarded
    (hexpr : eng.getExpression pid node.resource node.relation = .ok expr) (trail : NodeTrail) :
    Guarded eng.CacheOk (evaluateExprCached pid subj inner node expr trail)
      (Verdict (node ∈ (eng.rules pid subj).holding) (node ∈ (eng.rules pid subj).possible)
        (Holds eng pid subj node expr (eng.off pid subj trail) (eng.rules pid subj).possible)) := by
  refine .bind .get fun cache hc => ?_
  split
  case h_1 cached hg =>
    obtain ⟨ht, hf⟩ := hc _ _ hg
    refine .bind charge_guarded fun _ _ => .pure ⟨ht, fun hr _ => hf hr, fun ho => ?_⟩
    have hholds := (mem_holding hexpr).mpr (ho.mono (fun m _ _ hm => off_subset trail hm) fun _ _ hm => hm)
    cases hcached : cached with
    | true => rfl
    | false => exact absurd (holding_subset_possible hholds) (hf hcached)
  case h_2 =>
    refine .bind (hinner node expr trail) fun r hr => ?_
    have hverdict := hr.imp (mem_holding hexpr).mpr (mem_possible hexpr).mp id
    obtain ⟨value, tainted⟩ := r
    cases tainted with
    | true => exact .pure hverdict
    | false =>
      refine .bind (.modify fun cache hc => hc.set hverdict.sound fun hr => hverdict.exact hr rfl) fun _ _ => .pure ?_
      exact hverdict

variable (trail : NodeTrail) (computed : String) (target : Subject)

theorem follow_guarded (node : NodeId) : Guarded eng.CacheOk (eng.follow pid subj inner trail node)
      (Verdict (node ∈ (eng.rules pid subj).holding) (node ∈ (eng.rules pid subj).possible)
        (node ∈ eng.off pid subj trail)) := by
  unfold follow
  split
  case isTrue hmem =>
    exact .pure ⟨fun h => (nomatch h), fun _ h => (nomatch h), fun ho => absurd hmem (not_mem_trail ho)⟩
  case isFalse =>
    refine .bind (.liftExcept fun expr hexpr => hexpr) fun expr hexpr => ?_
    exact (evaluateExprCached_guarded hinner hexpr (node :: trail)).mono fun r hr => hr.imp id id (holds_of_mem_off hexpr)

theorem thisSubject_guarded : Guarded eng.CacheOk (eng.thisSubject pid subj inner trail target)
      (Verdict (eng.SubjectHolds pid subj (eng.rules pid subj).holding target)
        (eng.SubjectHolds pid subj (eng.rules pid subj).possible target)
        (eng.SubjectHolds pid subj (eng.off pid subj trail) target)) := by
  refine .bind charge_guarded fun _ _ => ?_
  cases target with
  | entitySet resource objectId relation =>
    simp only [SubjectHolds]
    split
    case isTrue => exact .pure (.of_iff Iff.rfl id id)
    case isFalse => exact follow_guarded hinner trail _
  | entity did => exact .pure (.of_iff (by simp [SubjectHolds]) id id)
  | typedWildcard resource => exact .pure (.of_iff (by simp [SubjectHolds]) id id)
  | wildcard => exact .pure (.of_iff (by simp [SubjectHolds]) id id)

theorem ttuTarget_guarded (target : ObjectRef) :
    Guarded eng.CacheOk (eng.ttuTarget pid subj inner trail computed target)
      (Verdict (⟨target.resource, target.objectId, computed⟩ ∈ (eng.rules pid subj).holding)
        (⟨target.resource, target.objectId, computed⟩ ∈ (eng.rules pid subj).possible)
        (⟨target.resource, target.objectId, computed⟩ ∈ eng.off pid subj trail)) :=
  .bind charge_guarded fun _ _ => follow_guarded hinner trail _

theorem ttuSubject_guarded : Guarded eng.CacheOk (eng.ttuSubject pid subj inner trail computed target)
      (Verdict (TtuHolds computed (eng.rules pid subj).holding target)
        (TtuHolds computed (eng.rules pid subj).possible target)
        (TtuHolds computed (eng.off pid subj trail) target)) := by
  refine .bind charge_guarded fun _ _ => ?_
  cases target with
  | entitySet resource objectId relation => exact follow_guarded hinner trail _
  | entity did => exact .pure (.of_iff (by simp [TtuHolds]) id id)
  | typedWildcard resource => exact .pure (.of_iff (by simp [TtuHolds]) id id)
  | wildcard => exact .pure (.of_iff (by simp [TtuHolds]) id id)

end

theorem ttuHolds_of_target {tupleNode : NodeId} {computed : String} {P : Set NodeId}
    (h : ∃ target ∈ eng.getRelationTargets pid tupleNode, ⟨target.resource, target.objectId, computed⟩ ∈ P) :
    ∃ target ∈ eng.getRelationSubjects pid tupleNode, TtuHolds computed P target := by
  obtain ⟨target, ht, hmem⟩ := h
  obtain ⟨held, hh, heq⟩ := mem_filterMap.mp ht
  refine ⟨held, hh, ?_⟩
  cases held with
  | entitySet resource objectId relation =>
    obtain rfl := some.inj heq
    exact hmem
  | entity did => cases heq
  | typedWildcard resource => cases heq
  | wildcard => cases heq

theorem Holds.mono_off
    (h : Holds eng pid subj node expr (eng.rules pid subj).holding (eng.rules pid subj).possible) :
    Holds eng pid subj node expr (eng.rules pid subj).possible (eng.off pid subj trail) :=
  h.mono (fun _ _ _ hm => holding_subset_possible hm) fun _ _ hm => holding_subset_possible (off_subset trail hm)

/-- At every depth, evaluation answers as the model does, or fails. -/
theorem evaluateExprInner_guarded : ∀ depth, eng.Answers pid subj (eng.evaluateExprInner pid subj depth)
  | 0 => fun _ _ _ => .bind charge_guarded fun _ _ => .throw _
  | depth + 1 => by
    have hinner : eng.Answers pid subj (eng.evaluateExprInner pid subj depth) :=
      evaluateExprInner_guarded depth
    intro node expr trail
    refine .bind charge_guarded fun _ _ => ?_
    cases expr with
    | this =>
      simp only [Holds]
      split
      case isTrue hdirect => exact .pure (.of_iff (by simp [hdirect]) (fun _ => .inl hdirect) fun _ => .inl hdirect)
      case isFalse hdirect =>
        refine (anyGranted_guarded (fun target _ => thisSubject_guarded hinner trail target) false).mono fun r hr => ?_
        exact hr.1.imp .inr (fun h => h.resolve_left hdirect) fun h => h.resolve_left hdirect
    | computedUserset relation =>
      exact follow_guarded hinner trail _
    | tupleToUserset tupleRelation computed =>
      refine .bind (anyGranted_guarded (fun target _ => ttuTarget_guarded hinner trail computed target) false)
        fun r hr => ?_
      obtain ⟨granted, tainted⟩ := r
      cases granted with
      | true => exact .pure ⟨fun _ => ttuHolds_of_target (hr.1.sound rfl), fun h => (by cases h), fun _ => rfl⟩
      | false =>
        exact (anyGranted_guarded (fun target _ => ttuSubject_guarded hinner trail computed target) tainted).mono
          fun r' hr' => hr'.1
    | union exprs =>
      simp only [Holds, anyHolds_iff]
      exact (anyGranted_guarded (fun expr _ => hinner node expr trail) false).mono fun r hr => hr.1
    | intersection exprs =>
      simp only [Holds, allHold_iff]
      exact allGranted_guarded (fun expr _ => hinner node expr trail) false
    | difference base subtract =>
      refine .bind (hinner node base trail) fun r hr => ?_
      obtain ⟨baseGranted, baseTainted⟩ := r
      cases baseGranted with
      | false =>
        exact .pure ⟨fun h => (by cases h), fun _ ht h => hr.exact rfl ht h.1, fun h => absurd (hr.complete h.1) Bool.false_ne_true⟩
      | true =>
        refine .bind (hinner node subtract trail) fun r' hr' => ?_
        obtain ⟨subtractGranted, subtractTainted⟩ := r'
        cases subtractTainted with
        | true => exact .throw _
        | false =>
          cases subtractGranted with
          | false => exact .pure ⟨fun _ => ⟨hr.sound rfl, hr'.exact rfl rfl⟩, fun h => (by cases h), fun _ => rfl⟩
          | true =>
            have hs := hr'.sound rfl
            exact .pure ⟨fun h => (by cases h), fun _ _ h => h.2 hs, fun h => absurd (hs.mono_off trail) h.2⟩

theorem checkWithCache_guarded (eng : Engine) (pid subj resource objectId relation : String) :
    Guarded eng.CacheOk (eng.checkWithCache pid subj resource objectId relation) fun granted =>
      granted = true ↔ ⟨resource, objectId, relation⟩ ∈ (eng.rules pid subj).holding := by
  refine .bind (.liftExcept fun expr hexpr => hexpr) fun expr hexpr => ?_
  refine .bind (evaluateExprCached_guarded (evaluateExprInner_guarded maxEvaluationDepth) hexpr _) fun r hr => .pure ?_
  exact ⟨hr.sound, fun h => hr.complete (holds_of_mem_off hexpr (mem_off_nil h))⟩

/-- A check that comes through says whether the node holds in the least partial model. -/
theorem check_holding (h : eng.check pid subj resource objectId relation = .ok granted) :
    granted = true ↔ ⟨resource, objectId, relation⟩ ∈ (eng.rules pid subj).holding :=
  (checkWithCache_guarded eng pid subj resource objectId relation {} (cacheOk_empty eng)).2 granted h

/-- A check that comes through answers by the least fixpoint of the rewrite operator, and with a difference in the policy by
    the stratified model. -/
theorem check_exact {granted : Bool} (h : eng.check pid subj resource objectId relation = .ok granted) :
    (eng.DifferenceFree pid → ∃ M, IsLeast (Function.fixedPoints (eng.rewrite pid subj)) M ∧
      (granted = true ↔ ⟨resource, objectId, relation⟩ ∈ M)) ∧
    (eng.Stratified pid → ∃ M, ((eng.rules pid subj).IsModel M ∧
      ∀ M', (eng.rules pid subj).IsModel M' → M' = M) ∧ (granted = true ↔ ⟨resource, objectId, relation⟩ ∈ M)) :=
  ⟨fun hfree => ⟨_, hfree.isLeast, check_holding h⟩, fun hstratified => ⟨_, hstratified.isModel, check_holding h⟩⟩

/-! ### Shared documents -/

/-- Documents that are each other's parents: a reader of one reads the other, unless banned from it. -/
def sharedDocs : Engine where
  policies := [
    { id := "docs", actor := none, resources := [⟨"doc", [⟨"parent", .this⟩, ⟨"owner", .this⟩, ⟨"banned", .this⟩,
      ⟨"reader", .difference (.union [.this, .computedUserset "owner", .tupleToUserset "parent" "reader"])
        (.computedUserset "banned")⟩]⟩] },
    { id := "files", actor := none, resources := [⟨"file", [⟨"parent", .this⟩,
      ⟨"reader", .union [.this, .tupleToUserset "parent" "reader"]⟩]⟩] }]
  tuples := [
    ("docs", ⟨"doc", "a", "parent", .entitySet "doc" "b" ""⟩), ("docs", ⟨"doc", "b", "parent", .entitySet "doc" "a" ""⟩),
    ("docs", ⟨"doc", "b", "owner", .entity "alice"⟩), ("docs", ⟨"doc", "a", "banned", .entity "bob"⟩),
    ("files", ⟨"file", "a", "parent", .entitySet "file" "b" ""⟩), ("files", ⟨"file", "b", "parent", .entitySet "file" "a" ""⟩),
    ("files", ⟨"file", "b", "reader", .entity "alice"⟩)]

theorem sharedDocs_expression {resource relation : String}
    (h : sharedDocs.getExpression "docs" resource relation = .ok expr) :
    if relation = "reader" then expr = .difference (.union [.this, .computedUserset "owner", .tupleToUserset "parent" "reader"])
      (.computedUserset "banned") else expr = .this := by
  obtain ⟨policy, hp, hid, found, hf, _, rel, hr, rfl, rfl⟩ := declared_of_getExpression h
  simp only [sharedDocs, mem_cons, not_mem_nil, or_false] at hp
  rcases hp with rfl | rfl
  case inr => simp at hid
  simp only [mem_cons, not_mem_nil, or_false, toList, append_nil] at hf
  subst hf
  simp only [mem_cons, not_mem_nil, or_false] at hr
  rcases hr with rfl | rfl | rfl | rfl <;> simp

theorem sharedDocs_stratified : sharedDocs.Stratified "docs" := by
  rintro n m ⟨expr, hexpr, hrefers⟩ hreach
  have hrule := sharedDocs_expression hexpr
  split at hrule
  case isFalse =>
    subst hrule
    cases hrefers
  case isTrue hr =>
    subst hrule
    cases hrefers with
    | base h => cases h.not_subtracted rfl
    | subtract h =>
      cases h
      rcases hreach.cases_head with heq | ⟨next, ⟨other, subtracted, ho, hn⟩, _⟩
      · have hb : "banned" = "reader" := (congrArg NodeId.relation heq).trans hr
        exact absurd hb (by decide)
      · obtain rfl : other = .this := sharedDocs_expression ho
        cases hn with
        | this hmem =>
          obtain ⟨t, ht, heq⟩ := mem_filterMap.mp hmem
          simp only [sharedDocs, mem_cons, not_mem_nil, or_false] at ht
          rcases ht with rfl | rfl | rfl | rfl | rfl | rfl | rfl <;> simp at heq

theorem sharedDocs_differenceFree : sharedDocs.DifferenceFree "files" := by
  intro resource relation expr hexpr
  obtain ⟨policy, hp, hid, found, hf, _, rel, hr, rfl, rfl⟩ := declared_of_getExpression hexpr
  simp only [sharedDocs, mem_cons, not_mem_nil, or_false] at hp
  rcases hp with rfl | rfl
  case inl => simp at hid
  simp only [mem_cons, not_mem_nil, or_false, toList, append_nil] at hf
  subst hf
  simp only [mem_cons, not_mem_nil, or_false] at hr
  rcases hr with rfl | rfl <;> rfl

theorem sharedDocs_exact :
    (∃ M, IsLeast (Function.fixedPoints (sharedDocs.rewrite "files" "alice")) M ∧ ⟨"file", "a", "reader"⟩ ∈ M) ∧
    (∃ M, (sharedDocs.rules "docs" "alice").IsModel M ∧ ⟨"doc", "a", "reader"⟩ ∈ M) ∧
    ∃ M, (sharedDocs.rules "docs" "bob").IsModel M ∧ ⟨"doc", "a", "reader"⟩ ∉ M := by
  have hf : sharedDocs.check "files" "alice" "file" "a" "reader" = .ok true := rfl
  have ha : sharedDocs.check "docs" "alice" "doc" "a" "reader" = .ok true := rfl
  have hb : sharedDocs.check "docs" "bob" "doc" "a" "reader" = .ok false := rfl
  obtain ⟨M, hM, hiff⟩ := (check_exact hf).1 sharedDocs_differenceFree
  obtain ⟨A, hA, ha⟩ := (check_exact ha).2 sharedDocs_stratified
  obtain ⟨B, hB, hb⟩ := (check_exact hb).2 sharedDocs_stratified
  exact ⟨⟨M, hM, hiff.mp rfl⟩, ⟨A, hA.1, ha.mp rfl⟩, ⟨B, hB.1, fun h => Bool.noConfusion (hb.mpr h)⟩⟩

theorem checkAll_holding {requests : List PermissionCheckRequest} (hc : eng.CacheOk cache) {i : Nat}
    {req : PermissionCheckRequest} (hr : requests[i]? = some req)
    (h : (eng.checkAll requests cache)[i]? = some (.ok granted)) :
    granted = true ↔ ⟨req.resource, req.objectId, req.relation⟩ ∈ (eng.rules req.policyId req.subject).holding := by
  induction requests generalizing cache i with
  | nil => cases hr
  | cons first requests ih =>
    have hf := checkWithCache_guarded eng first.policyId first.subject first.resource first.objectId first.relation
      cache hc
    cases i with
    | zero =>
      obtain rfl := some.inj hr
      exact hf.2 granted (some.inj h)
    | succ i => exact ih hf.1 hr h

end Engine
end Defra.Zanzibar
