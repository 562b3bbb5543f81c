import Defra.Lens.History
import Defra.Lib.Rooted

/-! Each step of the walk that makes the links attaches one version to another that is linked already; what such a step keeps,
    the walk keeps. In a tree a version not above the target then links back to its parent and on to its first child, and one
    above it links on towards it. -/

namespace Defra.Lens
open Rooted List Direction
variable {hist : History} {res : TargetedHistory} {dir : Direction} {cur item : CollectionHistoryLink}
  {link : TargetedHistoryLink} {id : String} {P : TargetedHistory → Prop}

theorem History.versionId (h : hist.find? id = some item) : item.versionId = id := (KeyedList.find?_eq_some.mp h).2

theorem TargetedHistory.versionId (h : res.find? id = some link) : link.versionId = id := (KeyedList.find?_eq_some.mp h).2

@[simp] theorem reached_versionId : (dir.reached cur item).versionId = item.versionId := by cases dir <;> rfl

@[simp] theorem point_versionId : (dir.point link id).versionId = link.versionId := by
  cases dir with
  | forwards =>
    simp only [point]
    split <;> rfl
  | backwards =>
    simp only [point]
    split <;> rfl

theorem find?_attach (hc : res.find? cur.versionId = some link) (hi : res.find? item.versionId = none) (v : String) :
    (attach dir cur item res).find? v =
      if v = cur.versionId then some (dir.point link item.versionId)
      else if v = item.versionId then some (dir.reached cur item) else res.find? v := by
  have hne : cur.versionId ≠ item.versionId := by
    intro heq
    rw [heq, hi] at hc
    cases hc
  have hf : (res.put (dir.reached cur item)).find? cur.versionId = some link := by
    rw [KeyedList.find?_put, reached_versionId, if_neg hne, hc]
  have hkey := TargetedHistory.versionId hc
  simp only [attach, hf, KeyedList.find?_put, point_versionId, reached_versionId, hkey]

/-! ### Attaching a version -/

/-- What is linked stays linked. -/
def Extends (res result' : TargetedHistory) : Prop := ∀ id, (res.find? id).isSome → (result'.find? id).isSome

theorem Extends.trans {r₁ r₂ r₃ : TargetedHistory} (h : Extends r₁ r₂) (h' : Extends r₂ r₃) : Extends r₁ r₃ :=
  fun id hid => h' id (h id hid)

/-- A step of the walk: `item` is the first version in the direction that is not linked yet. -/
structure CanAttach (hist : History) (dir : Direction) (cur item : CollectionHistoryLink) (res : TargetedHistory) :
    Prop where
  current_item : hist.find? cur.versionId = some cur
  current_linked : (res.find? cur.versionId).isSome
  item_item : hist.find? item.versionId = some item
  item_new : res.find? item.versionId = none
  first : ∃ front back, dir.ids cur = front ++ item.versionId :: back ∧
    ∀ id ∈ front, (hist.find? id).isSome → (res.find? id).isSome

section
variable (h : CanAttach hist dir cur item res)
include h

theorem CanAttach.find? : ∃ link, res.find? cur.versionId = some link ∧ ∀ v, (attach dir cur item res).find? v =
      if v = cur.versionId then some (dir.point link item.versionId)
      else if v = item.versionId then some (dir.reached cur item) else res.find? v := by
  obtain ⟨link, hl⟩ := Option.isSome_iff_exists.mp h.current_linked
  exact ⟨link, hl, find?_attach hl h.item_new⟩

/-- A link after a step is the one that was pointed, the one that was reached, or one as before. -/
theorem CanAttach.link_cases : ∃ link, res.find? cur.versionId = some link ∧
      ∀ {v l}, (attach dir cur item res).find? v = some l →
        (v = cur.versionId ∧ l = dir.point link item.versionId) ∨
        (v = item.versionId ∧ l = dir.reached cur item) ∨
        (v ≠ cur.versionId ∧ v ≠ item.versionId ∧ res.find? v = some l) := by
  obtain ⟨link, hl, hf⟩ := h.find?
  refine ⟨link, hl, fun {v l} hv => ?_⟩
  rw [hf] at hv
  split at hv
  case isTrue heq => exact .inl ⟨heq, (Option.some.inj hv).symm⟩
  case isFalse hne =>
    split at hv
    case isTrue heq => exact .inr (.inl ⟨heq, (Option.some.inj hv).symm⟩)
    case isFalse hne' => exact .inr (.inr ⟨hne, hne', hv⟩)

theorem CanAttach.extends : Extends res (attach dir cur item res) := by
  obtain ⟨link, _, hf⟩ := h.find?
  intro id hid
  rw [hf]
  split
  · rfl
  · split
    · rfl
    · exact hid

theorem CanAttach.isSome : ((attach dir cur item res).find? item.versionId).isSome := by
  obtain ⟨link, _, hf⟩ := h.find?
  rw [hf]
  split
  · rfl
  · simp

/-- How many versions are not linked yet. -/
def missing (hist : History) (res : TargetedHistory) : Nat :=
  (hist.toList.filter fun item => (res.find? item.versionId).isNone).length

omit h in
theorem missing_le {result' : TargetedHistory} (h : Extends res result') : missing hist result' ≤ missing hist res := by
  refine Sublist.length_le (monotone_filter_right _ fun item hi => ?_)
  by_contra hnot
  have hsome := h item.versionId (by simpa [Option.isSome_iff_ne_none] using hnot)
  simp [Option.isNone_iff_eq_none.mp hi] at hsome

theorem CanAttach.missing_lt : missing hist (attach dir cur item res) < missing hist res := by
  have hsome := h.isSome
  have hsub : (hist.toList.filter fun x => ((attach dir cur item res).find? x.versionId).isNone) =
      (hist.toList.filter fun x => (res.find? x.versionId).isNone).filter
        fun x => ((attach dir cur item res).find? x.versionId).isNone := by
    rw [filter_filter]
    refine filter_congr fun x _ => ?_
    by_cases hx : (res.find? x.versionId).isNone
    · simp [hx]
    · have := h.extends x.versionId (by simpa [Option.isSome_iff_ne_none] using hx)
      simp [Option.isSome_iff_ne_none.mp this]
  rw [missing, hsub]
  refine length_filter_lt_length_iff_exists.mpr ⟨item, mem_filter.mpr ⟨?_, ?_⟩, ?_⟩
  · exact (KeyedList.find?_eq_some.mp h.item_item).1
  · simp [h.item_new]
  · simp [Option.isSome_iff_ne_none.mp hsome]

end

/-! ### The walk -/

/-- One turn of the loop over the versions next to `cur`. -/
def linkNext (hist : History) (fuel : Nat) (dir : Direction) (cur : CollectionHistoryLink) (res : TargetedHistory)
    (id : String) : TargetedHistory :=
  if (res.find? id).isSome then res
  else match hist.find? id with
    | none => res
    | some item => linkItems hist fuel .backwards item (linkItems hist fuel .forwards item (attach dir cur item res))

/-- The versions next to `item` are linked. -/
def Explored (hist : History) (res : TargetedHistory) (item : CollectionHistoryLink) : Prop :=
  ∀ dir : Direction, ∀ id ∈ dir.ids item, (hist.find? id).isSome → (res.find? id).isSome

/-- It keeps `P` and what is linked, and with enough fuel it goes on from all that it links. -/
structure Walked (hist : History) (P : TargetedHistory → Prop) (fuel : Nat) (res result' : TargetedHistory) : Prop where
  keeps : P res → P result'
  extends_ : Extends res result'
  explored : missing hist res ≤ fuel → ∀ {id item}, hist.find? id = some item → res.find? id = none →
    (result'.find? id).isSome → Explored hist result' item

theorem Walked.refl {fuel : Nat} : Walked hist P fuel res res :=
  ⟨id, fun _ h => h, fun _ _ _ _ hnone hsome => by simp [hnone] at hsome⟩

theorem Walked.trans {fuel : Nat} {r₁ r₂ r₃ : TargetedHistory} (h : Walked hist P fuel r₁ r₂)
    (h' : Walked hist P fuel r₂ r₃) : Walked hist P fuel r₁ r₃ := by
  refine ⟨fun hP => h'.keeps (h.keeps hP), h.extends_.trans h'.extends_, fun hf id item hi hn hs => ?_⟩
  cases hmid : r₂.find? id with
  | none => exact h'.explored ((missing_le h.extends_).trans hf) hi hmid hs
  | some link =>
    have he := h.explored hf hi hn (by simp [hmid])
    exact fun dir v hv hv' => h'.extends_ v (he dir v hv hv')

theorem linkItems_walked (step : ∀ {dir cur item res}, CanAttach hist dir cur item res → P res →
      P (attach dir cur item res)) (fuel : Nat) :
    ∀ {dir : Direction} {cur : CollectionHistoryLink} {res : TargetedHistory},
      hist.find? cur.versionId = some cur → (res.find? cur.versionId).isSome →
      Walked hist P fuel res (linkItems hist fuel dir cur res) ∧
      (missing hist res ≤ fuel → ∀ id ∈ dir.ids cur, (hist.find? id).isSome →
        ((linkItems hist fuel dir cur res).find? id).isSome) := by
  induction fuel with
  | zero =>
    intro dir cur res _ _
    refine ⟨.refl, fun hfuel id _ hid => ?_⟩
    show (res.find? id).isSome
    -- nothing is missing
    obtain ⟨item, hi⟩ := Option.isSome_iff_exists.mp hid
    by_contra hn
    have hmem := (KeyedList.find?_eq_some.mp hi).1
    have hnil := length_eq_zero_iff.mp (Nat.le_zero.mp hfuel)
    exact filter_eq_nil_iff.mp hnil item hmem (by simpa [History.versionId hi, Option.isSome_iff_ne_none] using hn)
  | succ fuel ih =>
    intro dir cur res hi hl
    -- along the ids, those before are linked as far as the history has them
    suffices hfold : ∀ back front res, dir.ids cur = front ++ back → (res.find? cur.versionId).isSome →
        (∀ id ∈ front, (hist.find? id).isSome → (res.find? id).isSome) →
        Walked hist P (fuel + 1) res (back.foldl (linkNext hist fuel dir cur) res) ∧
          ∀ id ∈ dir.ids cur, (hist.find? id).isSome →
            ((back.foldl (linkNext hist fuel dir cur) res).find? id).isSome from
      (hfold _ [] res rfl hl fun _ h => absurd h not_mem_nil).imp id fun h _ => h
    intro back
    induction back with
    | nil =>
      refine fun front res hids _ hfront => ⟨.refl, fun id hid => hfront id ?_⟩
      rwa [hids, append_nil] at hid
    | cons id back ihback =>
      intro front res hids hl hfront
      suffices hnext : Walked hist P (fuel + 1) res (linkNext hist fuel dir cur res id) ∧
          ((hist.find? id).isSome → ((linkNext hist fuel dir cur res id).find? id).isSome) by
        obtain ⟨hwalked, hid⟩ := hnext
        have hrest := ihback (front ++ [id]) (linkNext hist fuel dir cur res id) (by simpa using hids)
          (hwalked.extends_ _ hl) fun v hv hs => by
            rcases mem_append.mp hv with hv | hv
            · exact hwalked.extends_ _ (hfront v hv hs)
            · obtain rfl := mem_singleton.mp hv
              exact hid hs
        exact ⟨hwalked.trans hrest.1, hrest.2⟩
      unfold linkNext
      split
      case isTrue hs => exact ⟨.refl, fun _ => hs⟩
      case isFalse hn =>
        split
        case h_1 hfind => exact ⟨.refl, fun hs => by simp [hfind] at hs⟩
        case h_2 next hfind =>
          have hkey := History.versionId hfind
          have ha : CanAttach hist dir cur next res :=
            ⟨hi, hl, hkey ▸ hfind, by simpa [hkey] using hn, front, back, hkey ▸ hids, hfront⟩
          obtain ⟨hf, hforwardIds⟩ := @ih .forwards next _ ha.item_item ha.isSome
          have hl' := hf.extends_ _ ha.isSome
          obtain ⟨hb, hbackwardIds⟩ := @ih .backwards next _ ha.item_item hl'
          have hboth := hf.trans hb
          refine ⟨⟨fun hP => hboth.keeps (step ha hP), ha.extends.trans hboth.extends_,
            fun hfuel v item hv hvnone hvsome => ?_⟩, fun _ => hkey ▸ hboth.extends_ _ ha.isSome⟩
          have hless := ha.missing_lt
          by_cases hnew : (attach dir cur next res).find? v = none
          · exact hboth.explored (by omega) hv hnew hvsome
          · -- the version that was attached
            have hvnext : v = next.versionId := by
              by_contra hne
              obtain ⟨link, hc, hfindAttach⟩ := ha.find?
              rw [hfindAttach] at hnew
              split at hnew
              case isTrue heq => simp [heq, hc] at hvnone
              case isFalse => exact hnew hvnone
            obtain rfl : next = item := Option.some.inj ((hvnext ▸ ha.item_item).symm.trans hv)
            intro d w hw hs
            cases d with
            | forwards => exact hb.extends_ _ (hforwardIds (by omega) w hw hs)
            | backwards => exact hbackwardIds ((missing_le hf.extends_).trans (by omega)) w hw hs

/-! ### The links of a tree -/

/-- Back to the parent that `parent` gives, and on to the children. -/
structure Shape (hist : History) (parent : String → Option String) : Prop where
  previous : ∀ {id item}, hist.find? id = some item →
    ∀ p, p ∈ item.previous ∧ (hist.find? p).isSome ↔ parent id = some p
  next : ∀ {id item}, hist.find? id = some item → ∀ c, c ∈ item.next ↔ parent c = some id

section Tree
variable {parent : String → Option String} {root target : String}

/-- A version not above the target links back to its parent, and on to its first child once one is linked; one above links on
    towards it. -/
structure Towards (hist : History) (parent : String → Option String) (target : String) (res : TargetedHistory) : Prop where
  known : ∀ {id link}, res.find? id = some link → ∃ item, hist.find? id = some item ∧ link.transform = item.transform
  target_linked : (res.find? target).isSome
  beside : ∀ {id link}, res.find? id = some link → ¬Above parent id target →
    ∃ p, parent id = some p ∧ link.previous = some p ∧ (res.find? p).isSome
  first : ∀ {id link item}, res.find? id = some link → hist.find? id = some item → ¬Above parent id target →
    link.next = none ∧ (∀ c ∈ item.next, res.find? c = none) ∨ link.next = item.next.head?
  above : ∀ {id link}, res.find? id = some link → Above parent id target → id ≠ target →
    ∃ c, parent c = some id ∧ Above parent c target ∧ (res.find? c).isSome ∧ link.next = some c

theorem Towards.start {item : CollectionHistoryLink} (h : hist.find? target = some item) :
    Towards hist parent target (KeyedList.put ∅ (TargetedHistoryLink.of item)) := by
  have hkey := History.versionId h
  have hf : ∀ {id link}, (KeyedList.put ∅ (TargetedHistoryLink.of item) : TargetedHistory).find? id = some link →
      id = target ∧ link = TargetedHistoryLink.of item := by
    intro id link hl
    rw [KeyedList.find?_put] at hl
    split at hl
    case isTrue heq => exact ⟨heq.trans hkey, (Option.some.inj hl).symm⟩
    case isFalse => cases hl
  refine ⟨fun hl => ?_, ?_, fun hl hnot => ?_, fun hl _ hnot => ?_, fun hl _ hne => ?_⟩
  · obtain ⟨rfl, rfl⟩ := hf hl
    exact ⟨item, h, rfl⟩
  · simp [KeyedList.find?_put, TargetedHistoryLink.of, hkey]
  · exact absurd ((hf hl).1 ▸ .refl) hnot
  · exact absurd ((hf hl).1 ▸ .refl) hnot
  · exact absurd (hf hl).1 hne

variable (htree : IsTree parent root {id | (hist.find? id).isSome}) (hshape : Shape hist parent)
include htree hshape

section
variable (h : Towards hist parent target res)
include h

/-- One that is above would be linked before its parent. -/
theorem Towards.not_above_of_forwards (hatt : CanAttach hist .forwards cur item res) :
    parent item.versionId = some cur.versionId ∧ ¬Above parent item.versionId target := by
  obtain ⟨front, back, hids, _⟩ := hatt.first
  have hp : parent item.versionId = some cur.versionId := by
    refine (hshape.next hatt.current_item _).mp ?_
    rw [show cur.next = front ++ item.versionId :: back from hids]
    simp
  refine ⟨hp, fun ha => ?_⟩
  have hcur : Above parent cur.versionId target := (above_parent hp).trans ha
  obtain ⟨link, hl⟩ := Option.isSome_iff_exists.mp hatt.current_linked
  by_cases ht : cur.versionId = target
  · exact htree.not_above_parent hp (ht ▸ ha)
  · obtain ⟨c, hc, hct, hlinked, _⟩ := h.above hl hcur ht
    rw [htree.child_unique hc hp hct ha, hatt.item_new] at hlinked
    cases hlinked

omit htree in
/-- One that is not above would be linked before its child. -/
theorem Towards.above_of_backwards (hatt : CanAttach hist .backwards cur item res) :
    parent cur.versionId = some item.versionId ∧ Above parent cur.versionId target := by
  obtain ⟨front, back, hids, _⟩ := hatt.first
  have hpar : parent cur.versionId = some item.versionId := by
    refine (hshape.previous hatt.current_item _).mp ⟨?_, by simp [hatt.item_item]⟩
    rw [show cur.previous = front ++ item.versionId :: back from hids]
    simp
  refine ⟨hpar, ?_⟩
  by_contra hnot
  obtain ⟨link, hl⟩ := Option.isSome_iff_exists.mp hatt.current_linked
  obtain ⟨p, hp, _, hlinked⟩ := h.beside hl hnot
  rw [hpar] at hp
  rw [← Option.some.inj hp, hatt.item_new] at hlinked
  cases hlinked

theorem Towards.attach_forwards (ha : CanAttach hist .forwards cur item res) :
    Towards hist parent target (attach .forwards cur item res) := by
  obtain ⟨hpar, hnot⟩ := h.not_above_of_forwards htree hshape ha
  obtain ⟨link, hlink, hcases⟩ := ha.link_cases
  have hgrows := ha.extends
  -- the pointed link goes back where it did, and on where it did if it did
  have hpoint : ∀ id, (forwards.point link id).previous = link.previous ∧
      (forwards.point link id).transform = link.transform ∧
      (forwards.point link id).next = link.next.or (some id) := by
    simp only [point]
    cases hn : link.next with
    | none => simp
    | some next => simp [hn]
  refine ⟨fun {v l} hv => ?_, hgrows _ h.target_linked, fun {v l} hv hvnot => ?_, fun {v l vitem} hv hi hvnot => ?_,
    fun {v l} hv habove hne => ?_⟩
  · rcases hcases hv with ⟨rfl, rfl⟩ | ⟨rfl, rfl⟩ | ⟨_, _, hold⟩
    · obtain ⟨vitem, hvitem, ht⟩ := h.known hlink
      exact ⟨vitem, hvitem, (hpoint _).2.1.trans ht⟩
    · exact ⟨item, ha.item_item, rfl⟩
    · exact h.known hold
  · rcases hcases hv with ⟨rfl, rfl⟩ | ⟨rfl, rfl⟩ | ⟨_, _, hold⟩
    · obtain ⟨p, hp, hprev, hlinked⟩ := h.beside hlink hvnot
      exact ⟨p, hp, (hpoint _).1.trans hprev, hgrows _ hlinked⟩
    · exact ⟨cur.versionId, hpar, rfl, hgrows _ ha.current_linked⟩
    · obtain ⟨p, hp, hprev, hlinked⟩ := h.beside hold hvnot
      exact ⟨p, hp, hprev, hgrows _ hlinked⟩
  · rcases hcases hv with ⟨rfl, rfl⟩ | ⟨rfl, rfl⟩ | ⟨hne, _, hold⟩
    · -- the first child that is linked is the first child
      obtain rfl : vitem = cur := Option.some.inj (hi.symm.trans ha.current_item)
      obtain ⟨front, back, hids, hfront⟩ := ha.first
      replace hids : vitem.next = front ++ item.versionId :: back := hids
      right
      rw [(hpoint _).2.2]
      rcases h.first hlink hi hvnot with ⟨hnone, hchildren⟩ | hf
      · cases front with
        | nil => simp [hnone, hids]
        | cons c front =>
          have hc : c ∈ vitem.next := by simp [hids]
          have hlinked := hfront c mem_cons_self (htree.parent_mem ((hshape.next hi c).mp hc)).1
          rw [hchildren c hc] at hlinked
          cases hlinked
      · have hs : vitem.next.head?.isSome := by simp [hids]
        obtain ⟨c, hc⟩ := Option.isSome_iff_exists.mp hs
        rw [hf, hc]
        rfl
    · left
      refine ⟨rfl, fun c hc => ?_⟩
      have hcparent := (hshape.next hi c).mp hc
      by_contra hlinked
      obtain ⟨l, hl⟩ := Option.ne_none_iff_exists'.mp hlinked
      -- a child that is linked is linked back to its parent
      rcases hcases hl with ⟨rfl, _⟩ | ⟨rfl, _⟩ | ⟨_, _, hold⟩
      · exact htree.not_above_parent hpar (above_parent hcparent)
      · exact htree.not_above_parent hcparent .refl
      · have hcnot : ¬Above parent c target := fun habove => hvnot ((above_parent hcparent).trans habove)
        obtain ⟨p, hp, _, hplinked⟩ := h.beside hold hcnot
        rw [hcparent] at hp
        rw [← Option.some.inj hp, ha.item_new] at hplinked
        cases hplinked
    · refine (h.first hold hi hvnot).imp (fun ⟨hnone, hchildren⟩ => ⟨hnone, fun c hc => ?_⟩) id
      by_contra hlinked
      obtain ⟨l, hl⟩ := Option.ne_none_iff_exists'.mp hlinked
      have hcparent := (hshape.next hi c).mp hc
      rcases hcases hl with ⟨rfl, _⟩ | ⟨rfl, _⟩ | ⟨_, _, hcold⟩
      · rw [hchildren _ hc] at hlink
        cases hlink
      · rw [hpar] at hcparent
        exact hne (Option.some.inj hcparent).symm
      · rw [hchildren c hc] at hcold
        cases hcold
  · rcases hcases hv with ⟨rfl, rfl⟩ | ⟨rfl, rfl⟩ | ⟨_, _, hold⟩
    · obtain ⟨c, hc, hct, hlinked, hn⟩ := h.above hlink habove hne
      exact ⟨c, hc, hct, hgrows _ hlinked, by rw [(hpoint _).2.2, hn]; rfl⟩
    · exact absurd habove hnot
    · obtain ⟨c, hc, hct, hlinked, hn⟩ := h.above hold habove hne
      exact ⟨c, hc, hct, hgrows _ hlinked, hn⟩

omit htree in
theorem Towards.attach_backwards (ha : CanAttach hist .backwards cur item res) :
    Towards hist parent target (attach .backwards cur item res) := by
  obtain ⟨hpar, habove⟩ := h.above_of_backwards hshape ha
  obtain ⟨link, hlink, hcases⟩ := ha.link_cases
  have hgrows := ha.extends
  have hpoint : ∀ id, (backwards.point link id).next = link.next ∧
      (backwards.point link id).transform = link.transform := by
    intro id
    simp only [point]
    split
    · exact ⟨rfl, rfl⟩
    · exact ⟨rfl, rfl⟩
  have hitemAbove : Above parent item.versionId target := (above_parent hpar).trans habove
  refine ⟨fun {v l} hv => ?_, hgrows _ h.target_linked, fun {v l} hv hvnot => ?_, fun {v l vitem} hv hi hvnot => ?_,
    fun {v l} hv hvabove hne => ?_⟩
  · rcases hcases hv with ⟨rfl, rfl⟩ | ⟨rfl, rfl⟩ | ⟨_, _, hold⟩
    · obtain ⟨vitem, hvitem, ht⟩ := h.known hlink
      exact ⟨vitem, hvitem, (hpoint _).2.trans ht⟩
    · exact ⟨item, ha.item_item, rfl⟩
    · exact h.known hold
  · rcases hcases hv with ⟨rfl, rfl⟩ | ⟨rfl, rfl⟩ | ⟨_, _, hold⟩
    · exact absurd habove hvnot
    · exact absurd hitemAbove hvnot
    · obtain ⟨p, hp, hprev, hlinked⟩ := h.beside hold hvnot
      exact ⟨p, hp, hprev, hgrows _ hlinked⟩
  · rcases hcases hv with ⟨rfl, rfl⟩ | ⟨rfl, rfl⟩ | ⟨_, _, hold⟩
    · exact absurd habove hvnot
    · exact absurd hitemAbove hvnot
    · refine (h.first hold hi hvnot).imp (fun ⟨hnone, hchildren⟩ => ⟨hnone, fun c hc => ?_⟩) id
      by_contra hlinked
      obtain ⟨l, hl⟩ := Option.ne_none_iff_exists'.mp hlinked
      have hcparent := (hshape.next hi c).mp hc
      rcases hcases hl with ⟨rfl, _⟩ | ⟨rfl, _⟩ | ⟨_, _, hcold⟩
      · exact hvnot ((above_parent hcparent).trans habove)
      · exact hvnot ((above_parent hcparent).trans hitemAbove)
      · rw [hchildren c hc] at hcold
        cases hcold
  · rcases hcases hv with ⟨rfl, rfl⟩ | ⟨rfl, rfl⟩ | ⟨_, _, hold⟩
    · obtain ⟨c, hc, hct, hlinked, hn⟩ := h.above hlink hvabove hne
      exact ⟨c, hc, hct, hgrows _ hlinked, (hpoint _).1.trans hn⟩
    · exact ⟨cur.versionId, hpar, habove, hgrows _ ha.current_linked, rfl⟩
    · obtain ⟨c, hc, hct, hlinked, hn⟩ := h.above hold hvabove hne
      exact ⟨c, hc, hct, hgrows _ hlinked, hn⟩

end

/-- A version not above the target links back to its parent and on to its first child, one above it links on towards it. -/
structure Targeted (hist : History) (parent : String → Option String) (target : String) (tgt : TargetedHistory) : Prop where
  linked : ∀ {id item}, hist.find? id = some item → ∃ link, tgt.find? id = some link ∧ link.transform = item.transform
  beside : ∀ {id item link}, hist.find? id = some item → tgt.find? id = some link → ¬Above parent id target →
    link.previous = parent id ∧ link.next = item.next.head?
  above : ∀ {id link}, tgt.find? id = some link → Above parent id target → id ≠ target →
    ∃ c, parent c = some id ∧ Above parent c target ∧ link.next = some c

/-- The links of a tree lead towards the target. -/
theorem buildTargetedHistory_targeted {item : CollectionHistoryLink} (hi : hist.find? target = some item) :
    ∃ tgt, buildTargetedHistory hist target = some tgt ∧ Targeted hist parent target tgt := by
  have hkey := History.versionId hi
  have hstep : ∀ {dir cur item res}, CanAttach hist dir cur item res →
      Towards hist parent target res → Towards hist parent target (Lens.attach dir cur item res) := by
    intro dir cur item res ha h
    cases dir with
    | forwards => exact h.attach_forwards htree hshape ha
    | backwards => exact h.attach_backwards hshape ha
  let start : TargetedHistory := KeyedList.put ∅ (TargetedHistoryLink.of item)
  have hstart : Towards hist parent target start := .start hi
  have hself : hist.find? item.versionId = some item := hkey ▸ hi
  obtain ⟨hforwards, hforwardIds⟩ := @linkItems_walked hist _ @hstep hist.toList.length .forwards item start hself
    (hkey ▸ hstart.target_linked)
  obtain ⟨hb, hbackwardIds⟩ := @linkItems_walked hist _ @hstep hist.toList.length .backwards item _ hself
    (hforwards.extends_ _ (hkey ▸ hstart.target_linked))
  have hboth := hforwards.trans hb
  have hf := hboth.keeps hstart
  refine ⟨_, by rw [buildTargetedHistory, hi]; rfl, ?_⟩
  set final := linkItems hist hist.toList.length .backwards item
    (linkItems hist hist.toList.length .forwards item start)
  have hfuel : missing hist start ≤ hist.toList.length := length_filter_le _ _
  have he : ∀ {id item}, hist.find? id = some item → (final.find? id).isSome → Explored hist final item := by
    intro id other ho hlinked
    cases hid : start.find? id with
    | none => exact hboth.explored hfuel ho hid hlinked
    | some link =>
      have ht : id = item.versionId := by
        rw [KeyedList.find?_put] at hid
        split at hid
        case isTrue heq => exact heq
        case isFalse => cases hid
      obtain rfl : item = other := Option.some.inj (hself.symm.trans (ht ▸ ho))
      intro dir v hv hs
      cases dir with
      | forwards => exact hb.extends_ _ (hforwardIds hfuel v hv hs)
      | backwards => exact hbackwardIds ((missing_le hforwards.extends_).trans hfuel) v hv hs
  have hall : ∀ {id}, (hist.find? id).isSome → (final.find? id).isSome := by
    intro id hid
    have ht : (hist.find? target).isSome := by rw [hi]; rfl
    refine htree.forall_of_closed (P := fun id => (final.find? id).isSome) (x := target) ht hf.target_linked
      (fun {y p} hy hp => ?_) (fun {y c} hy hc => ?_) hid
    · obtain ⟨other, ho⟩ := Option.isSome_iff_exists.mp (htree.parent_mem hp).1
      obtain ⟨hmem, hs⟩ := (hshape.previous ho p).mpr hp
      exact he ho hy .backwards p hmem hs
    · obtain ⟨other, ho⟩ := Option.isSome_iff_exists.mp (htree.parent_mem hc).2
      exact he ho hy .forwards c ((hshape.next ho c).mpr hc) (htree.parent_mem hc).1
  refine ⟨fun {id other} ho => ?_, fun {id other link} ho hl hnot => ?_, fun {id link} hl habove hne => ?_⟩
  · obtain ⟨link, hl⟩ := Option.isSome_iff_exists.mp (hall (Option.isSome_iff_exists.mpr ⟨other, ho⟩))
    obtain ⟨known, hk, htr⟩ := hf.known hl
    obtain rfl := Option.some.inj (ho.symm.trans hk)
    exact ⟨link, hl, htr⟩
  · obtain ⟨p, hp, hprev, _⟩ := hf.beside hl hnot
    refine ⟨hprev.trans hp.symm, ?_⟩
    rcases hf.first hl ho hnot with ⟨hnone, hchildren⟩ | hfirst
    · cases hn : other.next with
      | nil => exact hnone
      | cons c rest =>
        have hc : c ∈ other.next := by simp [hn]
        have hlinked := hall (htree.parent_mem ((hshape.next ho c).mp hc)).1
        rw [hchildren c hc] at hlinked
        cases hlinked
    · exact hfirst
  · obtain ⟨c, hc, hct, _, hn⟩ := hf.above hl habove hne
    exact ⟨c, hc, hct, hn⟩

end Tree
end Defra.Lens
