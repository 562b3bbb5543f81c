import Defra.Lib.KeyedList
import Mathlib.Data.String.Basic

/-! The history of a collection's versions and the migration along it: `history.rs` and `pipeline.rs` of the `lens` crate, and
    `build_collection_history` (`definition/lens.rs` of the `db` crate). The transforms are a parameter. -/

namespace Defra.Lens
open Option List

structure CollectionSource where
  sourceCollectionId : String
  transform : Option String := none
  deriving DecidableEq, Repr

structure CollectionVersion where
  versionId : String
  collectionId : String
  previousVersion : Option CollectionSource := none
  deriving DecidableEq, Repr

/-- The transform is the one from the version before. -/
structure CollectionHistoryLink where
  versionId : String
  collectionId : String
  transform : Option String := none
  previous : List String := []
  next : List String := []
  deriving DecidableEq, Repr

abbrev History := KeyedList CollectionHistoryLink.versionId

def historyLink (version : CollectionVersion) : CollectionHistoryLink :=
  match version.previousVersion with
  | none => { versionId := version.versionId, collectionId := version.collectionId }
  | some prev =>
    { versionId := version.versionId, collectionId := version.collectionId, transform := prev.transform,
      previous := [prev.sourceCollectionId] }

/-- The order in which a map hands out its values. -/
structure Iteration where
  values : List CollectionHistoryLink → List CollectionHistoryLink
  perm : ∀ links, (values links).Perm links

variable (order : Iteration) (history : History) (versions : List CollectionVersion) (targetVersionId : String)

def reverseLinks : List (String × String) :=
  (order.values history.toList).flatMap fun link => link.previous.map fun prev => (prev, link.versionId)

def addNext (link : String × String) : History :=
  match history.find? link.1 with
  | none => history
  | some parent =>
    if link.2 ∈ parent.next then history else history.put { parent with next := parent.next ++ [link.2] }

def fullHistory : History :=
  let history := KeyedList.ofList (versions.map historyLink)
  (reverseLinks order history).foldl addNext history

structure TargetedHistoryLink where
  versionId : String
  collectionId : String
  transform : Option String := none
  previous : Option String := none
  next : Option String := none
  deriving DecidableEq, Repr

abbrev TargetedHistory := KeyedList TargetedHistoryLink.versionId

def TargetedHistoryLink.of (item : CollectionHistoryLink) : TargetedHistoryLink :=
  { versionId := item.versionId, collectionId := item.collectionId, transform := item.transform }

inductive Direction where
  | forwards
  | backwards
  deriving DecidableEq, Repr

def Direction.ids : Direction → CollectionHistoryLink → List String
  | forwards, item => item.next
  | backwards, item => item.previous

/-- The link of a version that a walk reaches from `current`. -/
def Direction.reached : Direction → (current item : CollectionHistoryLink) → TargetedHistoryLink
  | forwards, current, item => { TargetedHistoryLink.of item with previous := some current.versionId }
  | backwards, current, item => { TargetedHistoryLink.of item with next := some current.versionId }

def Direction.point : Direction → TargetedHistoryLink → String → TargetedHistoryLink
  | forwards, link, id => if link.next.isNone then { link with next := some id } else link
  | backwards, link, id => if link.previous.isNone then { link with previous := some id } else link

/-- Link `item`, and point the link of `current` to it. -/
def attach (direction : Direction) (current item : CollectionHistoryLink) (result : TargetedHistory) : TargetedHistory :=
  let result := result.put (direction.reached current item)
  match result.find? current.versionId with
  | none => result
  | some link => result.put (direction.point link item.versionId)

/-- Every version that is reached is walked from in both directions. `fuel` bounds the depth. -/
def linkItems (history : History) : (fuel : Nat) → Direction → CollectionHistoryLink → TargetedHistory → TargetedHistory
  | 0, _, _, result => result
  | fuel + 1, direction, current, result =>
    (direction.ids current).foldl
      (fun result id =>
        if (result.find? id).isSome then result
        else match history.find? id with
          | none => result
          | some item =>
            let result := attach direction current item result
            let result := linkItems history fuel .forwards item result
            linkItems history fuel .backwards item result)
      result

/-- A version is linked when it is reached, so the walk is never deeper than there are versions. -/
def buildTargetedHistory : Option TargetedHistory := do
  let target ← history.find? targetVersionId
  let fuel := history.toList.length
  let result : TargetedHistory := KeyedList.put ∅ (TargetedHistoryLink.of target)
  let result := linkItems history fuel .forwards target result
  some (linkItems history fuel .backwards target result)

def buildCollectionHistory : Option TargetedHistory :=
  if versions.isEmpty then none else buildTargetedHistory (fullHistory order versions) targetVersionId

inductive Error where
  | schemaVersionNotFound (id : String)
  | pipeline (message : String)
  | wasmExecution (message : String)
  | transformNotFound (id : String)
  deriving DecidableEq, Repr

variable {δ : Type}

abbrev TransformStore (δ : Type) := String → δ → (inverse : Bool) → Except Error δ

structure LensInput (δ : Type) where
  collectionVersionId : String
  doc : δ

def applyTransform (store : TransformStore δ) (transform : Option String) (doc : δ) (inverse : Bool) : Except Error δ :=
  match transform with
  | none => .ok doc
  | some id => store id doc inverse

def unvisited (history : TargetedHistory) (visited : List String) : Nat :=
  (history.toList.filter fun link => link.versionId ∉ visited).length

theorem unvisited_cons_lt {history : TargetedHistory} {visited : List String} {id : String} {link : TargetedHistoryLink}
    (hl : history.find? id = some link) (hid : id ∉ visited) : unvisited history (id :: visited) < unvisited history visited := by
  obtain ⟨hmem, hkey⟩ := KeyedList.find?_eq_some.mp hl
  have hsub : (history.toList.filter fun link => link.versionId ∉ id :: visited) =
      (history.toList.filter fun link => link.versionId ∉ visited).filter fun link => link.versionId ≠ id := by
    rw [List.filter_filter]
    exact filter_congr fun x _ => by simp
  rw [unvisited, hsub]
  refine length_filter_lt_length_iff_exists.mpr ⟨link, mem_filter.mpr ⟨hmem, ?_⟩, ?_⟩
  · simpa [hkey] using hid
  · simp [hkey]

theorem unvisited_cons_le (history : TargetedHistory) (visited : List String) (id : String) :
    unvisited history (id :: visited) ≤ unvisited history visited := by
  refine List.Sublist.length_le (monotone_filter_right _ fun link hl => ?_)
  simp only [mem_cons, not_or, decide_eq_true_eq] at hl ⊢
  exact hl.2

def migrationLoop (store : TransformStore δ) (source target : String) (history : TargetedHistory) (doc : δ) (current : String)
    (visited : List String) : Except Error δ :=
  if current = target then .ok doc
  else match _hcurrent : history.find? current with
    | none => .error (.schemaVersionNotFound current)
    | some link =>
      match _hnext : link.next.filter (· ∉ visited) with
      | some next =>
        match _hlink : history.find? next with
        | none => .error (.schemaVersionNotFound next)
        | some nextLink =>
          match applyTransform store nextLink.transform doc false with
          | .error error => .error error
          | .ok doc => migrationLoop store source target history doc next (next :: visited)
      | none =>
        match _hprev : link.previous.filter (· ∉ visited) with
        | some prev =>
          match applyTransform store link.transform doc true with
          | .error error => .error error
          | .ok doc => migrationLoop store source target history doc prev (prev :: visited)
        | none => .error (.pipeline s!"no migration path from {source} to {target}")
termination_by unvisited history visited + if (history.find? current).isSome then 1 else 0
decreasing_by
  · have hid : next ∉ visited := by simpa using (filter_eq_some_iff.mp _hnext).2
    have := unvisited_cons_lt _hlink hid
    simp only [_hlink, _hcurrent, isSome_some, if_true]
    omega
  · have hid : prev ∉ visited := by simpa using (filter_eq_some_iff.mp _hprev).2
    simp only [_hcurrent, isSome_some, if_true]
    cases hfind : history.find? prev with
    | none =>
      have := unvisited_cons_le history visited prev
      simp only [isSome_none, Bool.false_eq_true, if_false]
      omega
    | some prevLink =>
      have := unvisited_cons_lt hfind hid
      simp only [isSome_some, if_true]
      omega

def transformToTarget (store : TransformStore δ) (targetVersionId : String) (history : TargetedHistory) (input : LensInput δ) :
    Except Error δ :=
  if input.collectionVersionId = targetVersionId then .ok input.doc
  else match history.find? input.collectionVersionId with
    | none => .error (.schemaVersionNotFound input.collectionVersionId)
    | some _ =>
      migrationLoop store input.collectionVersionId targetVersionId history input.doc input.collectionVersionId
        [input.collectionVersionId]

end Defra.Lens
