import Defra.Lib.PathMap
import Defra.Json.Field

/-! A JSON value is what stands at each of its paths, and an op on it is an edit there. -/

namespace Defra.Json
open Members List PathMap Option KeyedList

variable {new : Value} {x y : Option Value} (ms : Members) (path : Path)

/-! ### Members -/

/-- The members of an object, in the order of their keys. -/
def Members.Sorted : Prop := ms.Pairwise fun a b => memberKey a < memberKey b

namespace Members.Sorted
variable {ms other : Members} {key : String} {val : Value}

section
variable (h : Sorted ms)
include h

theorem get_eq_some : get ms key = some val ↔ (key, val) ∈ ms := by
  constructor
  · intro hg
    obtain ⟨member, hf, rfl⟩ := map_eq_some_iff.mp hg
    have hk : member.1 = key := by simpa using find?_some hf
    rw [← hk]
    exact mem_of_find?_eq_some hf
  · intro hmem
    obtain ⟨member, hf⟩ := isSome_iff_exists.mp
      (find?_isSome (p := fun m : String × Value => decide (m.1 = key)) |>.mpr ⟨_, hmem, by simp⟩)
    have hk : member.1 = key := by simpa using find?_some hf
    have heq : member = (key, val) := @eq_of_key _ _ _ memberKey ⟨ms, h⟩ _ _
      (mem_of_find?_eq_some hf) hmem (congrArg utf8 hk)
    rw [get, hf, heq]
    rfl

theorem insert (key : String) (val : Value) : Sorted (insert ms key val) := sorted_putIn _ h

theorem remove (key : String) : Sorted (remove ms key) := h.filter _

theorem map {f : String × Value → String × Value} (hf : ∀ m, (f m).1 = m.1) : Sorted (ms.map f) := by
  refine pairwise_map.mpr (h.imp fun {a b} hlt => ?_)
  rw [memberKey, memberKey, hf, hf]
  exact hlt

theorem mem_insert {member : String × Value} :
    member ∈ Members.insert ms key val ↔ member = (key, val) ∨ member ∈ ms ∧ member.1 ≠ key := by
  rw [Members.insert, mem_putIn h]
  refine or_congr_right (and_congr_right fun _ => not_congr ⟨utf8_inj, congrArg utf8⟩)

theorem get_insert (key key' : String) (val : Value) :
    Members.get (Members.insert ms key val) key' = if key' = key then some val else Members.get ms key' := by
  refine ext fun v => ?_
  rw [(h.insert key val).get_eq_some, h.mem_insert]
  split
  · rename_i heq
    simp [heq, eq_comm]
  · rename_i hne
    rw [h.get_eq_some]
    simp [hne]

theorem get_remove (key key' : String) :
    Members.get (Members.remove ms key) key' = if key' = key then none else Members.get ms key' := by
  refine ext fun v => ?_
  rw [(h.remove key).get_eq_some, Members.remove]
  split
  · rename_i heq
    simp [heq]
  · rename_i hne
    rw [h.get_eq_some]
    simp [hne]

theorem ext (h' : Sorted other) (hg : ∀ key, get ms key = get other key) : ms = other := by
  have heq : (⟨ms, h⟩ : KeyedList memberKey) = ⟨other, h'⟩ := by
    refine ext_mem fun m => ?_
    show (m.1, m.2) ∈ ms ↔ (m.1, m.2) ∈ other
    rw [← h.get_eq_some, ← h'.get_eq_some, hg]
  exact congrArg KeyedList.toList heq

end

end Members.Sorted

theorem Members.get_map (f : Value → Value) (key key' : String) :
    get (ms.map fun m => if m.1 = key then (m.1, f m.2) else m) key' =
      if key' = key then (get ms key').map f else get ms key' := by
  unfold get
  rw [find?_map]
  have hcomp : ((fun m : String × Value => decide (m.1 = key')) ∘ fun m => if m.1 = key then (m.1, f m.2) else m) =
      fun m => decide (m.1 = key') := by
    funext m
    dsimp only [Function.comp_apply]
    split <;> rfl
  rw [hcomp]
  cases hf : ms.find? fun m => decide (m.1 = key') with
  | none => simp
  | some m =>
    have hk : m.1 = key' := by simpa using find?_some hf
    by_cases heq : key' = key
    · simp [hk, heq]
    · simp [hk, heq]

/-- A value as `serde_json` holds it: the maps on the way to its leaves are in order. -/
inductive Value.Sorted : Value → Prop
  | plain {val : Value} (plain : val.asObject = none) : Value.Sorted val
  | object {ms : Members} (keys : Members.Sorted ms) (values : ∀ m ∈ ms, Value.Sorted m.2) :
      Value.Sorted (.object ms)

/-! ### Places -/

/-- The value, if there is one, is sorted. -/
def SortedAt (val : Option Value) : Prop := ∀ v ∈ val, v.Sorted

/-- What a value is where it stands. -/
def placeOf : Option Value → Place Value
  | none => .absent
  | some (.object _) => .map
  | some val => .value val

/-- What stands at a path. -/
def placeAt (val : Option Value) (path : Path) : Place Value := placeOf (valueAt val path)

theorem valueAt_cons (val : Option Value) (key : String) (path : Path) :
    valueAt val (key :: path) = valueAt (get (mapOf val) key) path := by
  rw [valueAt]
  cases val with
  | none => rfl
  | some v => cases v <;> rfl

theorem placeAt_cons (val : Option Value) (key : String) (path : Path) :
    placeAt val (key :: path) = placeAt (get (mapOf val) key) path := congrArg placeOf (valueAt_cons ..)

theorem placeOf_plain {val : Value} (h : val.asObject = none) : placeOf (some val) = .value val := by
  cases val <;> first | rfl | cases h

variable {val : Option Value}

theorem placeOf_eq_absent : placeOf val = .absent ↔ val = none := by
  cases val with
  | none => exact iff_of_true rfl rfl
  | some v => cases v <;> exact iff_of_false (fun h => by cases h) (some_ne_none _)

theorem valueAt_none : valueAt none path = none := by
  induction path with
  | nil => rfl
  | cons key path ih => exact (valueAt_cons ..).trans ih

namespace SortedAt
variable {val : Option Value}

theorem none : SortedAt none := fun _ h => by cases h

theorem some {v : Value} (h : v.Sorted) : SortedAt (some v) := fun _ hv => some.inj hv ▸ h

theorem mapOf (h : SortedAt val) : Sorted (mapOf val) ∧ ∀ m ∈ Json.mapOf val, m.2.Sorted := by
  cases val with
  | none => exact ⟨.nil, fun _ hm => by cases hm⟩
  | some v =>
    cases h v rfl with
    | plain hp =>
      have hn : Json.mapOf (.some v) = [] := by simp [Json.mapOf, hp]
      rw [hn]
      exact ⟨.nil, fun _ hm => by cases hm⟩
    | object hkeys hvs => exact ⟨hkeys, hvs⟩

theorem get (h : SortedAt val) (key : String) : SortedAt (get (Json.mapOf val) key) :=
  fun _ hv => h.mapOf.2 _ (h.mapOf.1.get_eq_some.mp hv)

theorem valueAt (h : SortedAt val) (path : Path) : SortedAt (valueAt val path) := by
  induction path generalizing val with
  | nil => exact h
  | cons key path ih =>
    rw [valueAt_cons]
    exact ih (h.get key)

end SortedAt

/-- Values with the same places are equal, if this is known of values that are there. -/
theorem eq_of_places (h : ∀ path, placeAt x path = placeAt y path) (hs : ∀ v w, x = some v → y = some w → v = w)
    : x = y := by
  have hroot : placeOf x = placeOf y := h []
  cases x with
  | none => exact (placeOf_eq_absent.mp hroot.symm).symm
  | some v =>
    cases y with
    | none => exact placeOf_eq_absent.mp hroot
    | some w => rw [hs v w rfl rfl]

/-- A sorted value is known by its places. -/
theorem Value.Sorted.ext {a b : Value} (ha : a.Sorted) (hb : b.Sorted)
    (h : ∀ path, placeAt (some a) path = placeAt (some b) path) : a = b := by
  induction ha generalizing b with
  | @plain a hp =>
    have hroot : placeOf (some a) = placeOf (some b) := h []
    rw [placeOf_plain hp] at hroot
    cases hb with
    | plain hp' =>
      rw [placeOf_plain hp'] at hroot
      cases hroot
      rfl
    | object => cases hroot
  | @object ms hkeys hvs ih =>
    have hroot : placeOf (some (.object ms)) = placeOf (some b) := h []
    cases hb with
    | plain hp' =>
      rw [placeOf_plain hp'] at hroot
      cases hroot
    | @object other hkeys' hvs' =>
      refine congrArg Value.object (hkeys.ext hkeys' fun key => ?_)
      have hchild : ∀ path, placeAt (Members.get ms key) path = placeAt (Members.get other key) path := by
        intro path
        have := h (key :: path)
        rwa [placeAt_cons, placeAt_cons] at this
      refine eq_of_places hchild fun v w hg hg' => ?_
      rw [hg, hg'] at hchild
      exact ih (key, v) (hkeys.get_eq_some.mp hg) (hvs' _ (hkeys'.get_eq_some.mp hg')) hchild

theorem SortedAt.ext (hx : SortedAt x) (hy : SortedAt y) (h : ∀ path, placeAt x path = placeAt y path) : x = y := by
  refine eq_of_places h fun v w hv hw => ?_
  rw [hv, hw] at h
  exact (hx v hv).ext (hy w hw) h

/-! ### Sets and deletions -/

/-- After a set, what is below the path is the new value, and what is above it is a map. -/
theorem placeAt_setAt (new : Value) (h : SortedAt val) (q : Path) : placeAt (some (setAt path new val)) q =
      if path <+: q then placeAt (some new) (q.drop path.length) else if q <+: path then .map else placeAt val q := by
  induction path generalizing val q with
  | nil => simp [setAt]
  | cons key path ih =>
    rw [setAt]
    cases q with
    | nil => simp [placeAt, valueAt, placeOf]
    | cons key' q =>
      rw [placeAt_cons, placeAt_cons]
      show placeAt (get (insert _ _ _) key') q = _
      rw [h.mapOf.1.get_insert]
      by_cases hk : key' = key
      · rw [if_pos hk, hk, ih (h.get key)]
        simp
      · have hk' : key ≠ key' := fun he => hk he.symm
        rw [if_neg hk, if_neg (by simp [hk']), if_neg (by simp [hk])]

theorem sorted_setAt (hn : new.Sorted) (h : SortedAt val) : (setAt path new val).Sorted := by
  induction path generalizing val with
  | nil => exact hn
  | cons key path ih =>
    refine .object (h.mapOf.1.insert _ _) fun m hm => ?_
    rcases h.mapOf.1.mem_insert.mp hm with rfl | ⟨hm, -⟩
    · exact ih (h.get key)
    · exact h.mapOf.2 m hm

theorem placeAt_plain {val : Value} (h : val.asObject = none) (key : String) (path : Path) :
    placeAt (some val) (key :: path) = .absent := by
  have hnil : mapOf (some val) = [] := by simp [mapOf, h]
  rw [placeAt_cons, hnil]
  exact placeOf_eq_absent.mpr (valueAt_none path)

theorem deleteAt_plain {val : Value} (h : val.asObject = none) (path : Path) : deleteAt path val = val := by
  cases val with
  | object => cases h
  | _ => cases path <;> rfl

theorem get_deleteAt (key : String) (path : Path) {ms : Members} (h : Sorted ms) (key' : String) :
    get (mapOf (some (deleteAt (key :: path) (.object ms)))) key' =
      if key' = key then if path = [] then none else (get ms key').map (deleteAt path)
      else get ms key' := by
  cases path with
  | nil => exact h.get_remove key key'
  | cons => exact get_map ms _ key key'

/-- After a deletion, nothing is left at the path or below. -/
theorem placeAt_deleteAt {path : Path} (hpath : path ≠ []) {val : Value} (h : val.Sorted) (q : Path) :
    placeAt (some (deleteAt path val)) q = if path <+: q then .absent else placeAt (some val) q := by
  induction path generalizing val q with
  | nil => exact absurd rfl hpath
  | cons key path ih =>
    cases h with
    | plain hp =>
      rw [deleteAt_plain hp]
      split
      · rename_i hq
        obtain ⟨rest, rfl⟩ := hq
        exact placeAt_plain hp ..
      · rfl
    | @object ms hkeys hvs =>
      cases q with
      | nil => cases path <;> rfl
      | cons key' q =>
        rw [placeAt_cons, get_deleteAt key path hkeys]
        show _ = if _ then _ else placeAt (get ms key') q
        rw [if_congr cons_prefix_cons rfl rfl]
        have ha : placeAt none q = .absent := placeOf_eq_absent.mpr (valueAt_none q)
        by_cases hk : key' = key
        · rw [if_pos hk, hk, if_congr (and_iff_right rfl) rfl rfl]
          cases hg : get ms key with
          | none => rw [map_none, ite_self, ha, ite_self]
          | some child =>
            by_cases hn : path = []
            · rw [if_pos hn, hn, if_pos nil_prefix, ha]
            · rw [if_neg hn]
              exact ih hn (hvs _ (hkeys.get_eq_some.mp hg)) q
        · rw [if_neg hk, if_neg fun h => hk h.1.symm]

theorem sorted_deleteAt {val : Value} (h : val.Sorted) : (deleteAt path val).Sorted := by
  induction path generalizing val with
  | nil => cases val <;> exact h
  | cons key path ih =>
    cases h with
    | plain hp =>
      rw [deleteAt_plain hp]
      exact .plain hp
    | @object ms hkeys hvs =>
      rw [deleteAt]
      split
      · exact .object (hkeys.remove key) fun m hm => hvs m (mem_of_mem_filter hm)
      · refine .object (hkeys.map fun m => by split <;> rfl) fun m hm => ?_
        obtain ⟨child, hc, rfl⟩ := mem_map.mp hm
        split
        · exact ih (hvs child hc)
        · exact hvs child hc

/-! ### Ops as edits -/

/-- The op sets no object: those are written path by path. -/
def JsonOp.Plain (op : JsonOp) : Prop := ∀ val, op.edit = .set val → val.asObject = none

def JsonEdit.edit : JsonEdit → Edit Value
  | .set val => .put val
  | .map => .map
  | .delete => .cut

/-- The op as an edit at its path. -/
def JsonOp.op (op : JsonOp) : Op String Value where
  path := op.path
  edit := op.edit.edit

theorem placeAt_put (path q : Path) {place : Place Value} (h : SortedAt val) (hroot : placeOf (some new) = place)
    (hbelow : ∀ key rest, placeAt (some new) (key :: rest) = .absent) :
    placeAt (some (setAt path new val)) q =
      if path <+: q then if q = path then place else .absent else if q <+: path then .map else placeAt val q := by
  rw [placeAt_setAt path new h]
  split
  · rename_i hq
    obtain ⟨rest, rfl⟩ := hq
    rw [drop_left]
    cases rest with
    | nil =>
      rw [append_nil, if_pos rfl]
      exact hroot
    | cons key rest =>
      rw [if_neg (by simp)]
      exact hbelow key rest
  · rfl

/-- An op changes each place as its edit does. -/
theorem placeAt_applyOp (h : SortedAt val) {op : JsonOp} (hop : op.Plain) (q : Path) :
    placeAt (applyOp val op) q = op.op.at q (placeAt val q) := by
  obtain ⟨path, edit⟩ := op
  cases edit with
  | set new =>
    have hplain := hop new rfl
    refine (placeAt_put path q h (placeOf_plain hplain) (placeAt_plain hplain)).trans ?_
    exact if_congr Iff.rfl rfl (if_congr (and_iff_left rfl).symm rfl rfl)
  | map =>
    have hbelow : ∀ key rest, placeAt (some (.object [])) (key :: rest) = .absent := fun key rest => by
      exact placeOf_eq_absent.mpr (valueAt_none rest)
    refine (placeAt_put path q h rfl hbelow).trans ?_
    exact if_congr Iff.rfl rfl (if_congr (and_iff_left rfl).symm rfl rfl)
  | delete =>
    have hat : (JsonOp.op ⟨path, .delete⟩).at q (placeAt val q) = if path <+: q then .absent else placeAt val q := by
      refine if_congr Iff.rfl (ite_self _) (if_neg fun h => ?_)
      cases h.2
    rw [hat, applyOp]
    cases path with
    | nil =>
      exact placeOf_eq_absent.mpr (valueAt_none q)
    | cons key path =>
      rw [if_neg (by simp)]
      cases val with
      | none =>
        have ha : placeAt none q = .absent := placeOf_eq_absent.mpr (valueAt_none q)
        rw [map_none, ha, ite_self]
      | some v => exact placeAt_deleteAt (cons_ne_nil _ _) (h v rfl) q

theorem sorted_applyOp (h : SortedAt val) {op : JsonOp} (hop : op.Plain) : SortedAt (applyOp val op) := by
  obtain ⟨path, edit⟩ := op
  cases edit with
  | set new => exact .some (sorted_setAt path (.plain (hop new rfl)) h)
  | map => exact .some (sorted_setAt path (.object .nil fun m hm => by cases hm) h)
  | delete =>
    rw [applyOp]
    dsimp only
    split
    · exact .none
    · intro v hv
      obtain ⟨w, hw, rfl⟩ := map_eq_some_iff.mp hv
      exact sorted_deleteAt path (h w hw)

theorem sorted_applyOps (h : SortedAt val) {ops : List JsonOp} (ho : ∀ op ∈ ops, op.Plain) :
    SortedAt (applyOps val ops) := by
  induction ops generalizing val with
  | nil => exact h
  | cons op ops ih =>
    obtain ⟨hop, ho⟩ := forall_mem_cons.mp ho
    exact ih (sorted_applyOp h hop) ho

/-- After ops, each place is what their edits leave there. -/
theorem placeAt_applyOps (h : SortedAt val) {ops : List JsonOp} (ho : ∀ op ∈ ops, op.Plain)
    (q : Path) : placeAt (applyOps val ops) q = readAt (ops.map JsonOp.op) q (placeAt val q) := by
  induction ops generalizing val with
  | nil => rfl
  | cons op ops ih =>
    obtain ⟨hop, ho⟩ := forall_mem_cons.mp ho
    exact (ih (sorted_applyOp h hop) ho).trans (congrArg _ (placeAt_applyOp h hop q))

end Defra.Json
