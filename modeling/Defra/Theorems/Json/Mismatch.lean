import Defra.Theorems.Json.Landed

/-! Where what lands of a local write of a JSON field differs from what it reads, and the ops that write a value whole. -/

namespace Defra.Json
open Members List Frontier PathMap Option

theorem Number.equal_refl (n : Number) : n.equal n = true := by
  cases n <;> simp [Number.equal]

mutual

theorem Value.equal_refl : ∀ v : Value, v.equal v = true
  | .null => rfl
  | .bool b => by simp [Value.equal]
  | .number n => n.equal_refl
  | .string s => by simp [Value.equal]
  | .array items => equalItems_refl items
  | .object ms => equalMembers_refl ms

theorem equalItems_refl : ∀ items : List Value, equalItems items items = true
  | [] => rfl
  | v :: items => by rw [equalItems, Value.equal_refl v, equalItems_refl items]; rfl

theorem equalMembers_refl : ∀ ms : List (String × Value), equalMembers ms ms = true
  | [] => rfl
  | (key, v) :: ms => by rw [equalMembers, Value.equal_refl v, equalMembers_refl ms]; simp

end

/-- `==` of what fields hold. -/
def equalAt : Option Value → Option Value → Bool
  | none, none => true
  | some a, some b => a.equal b
  | _, _ => false

theorem JsonEdit.node_place_ne {edit : JsonEdit} (h : edit.isDelete = false) : edit.node.place ≠ .absent := by
  cases edit with
  | delete => cases h
  | set val => exact fun he => by cases he
  | map => exact fun he => by cases he

theorem JsonEdit.eq_of_place {edit edit' : JsonEdit} (h : edit.isDelete = false) (h' : edit'.isDelete = false)
    (hp : edit.node.place = edit'.node.place) : edit = edit' := by
  cases edit with
  | delete => cases h
  | set val =>
    cases edit' with
    | delete => cases h'
    | set value' =>
      cases hp
      rfl
    | map => cases hp
  | map =>
    cases edit' with
    | delete => cases h'
    | set value' => cases hp
    | map => rfl

variable {path : Path}

theorem mem_diffMembers {old : Option Members} {ms : Members} {op : JsonOp} : op ∈ diffMembers path old ms ↔
      ∃ m ∈ ms, op ∈ diffAt (path ++ [m.1]) (old.bind fun map => get map m.1) m.2 := by
  induction ms with
  | nil => simp [diffMembers]
  | cons m ms ih =>
    rw [diffMembers, mem_append, ih]
    simp

theorem diffAt_plain {val : Value} (h : val.asObject = none) (path : Path) :
    diffAt path none val = [{ path, edit := .set val }] := by
  cases val <;> first | rfl | cases h

theorem mem_diffAt {val : Value} (h : val.Sorted) (path : Path) {op : JsonOp} : op ∈ diffAt path none val ↔
    ∃ r, op.path = path ++ r ∧ op.edit.isDelete = false ∧ op.edit.node.place = placeAt (some val) r := by
  obtain ⟨q, edit⟩ := op
  induction h generalizing path with
  | @plain val hplain =>
    have hroot : placeAt (some val) [] = (JsonEdit.set val).node.place := placeOf_plain hplain
    rw [diffAt_plain hplain, mem_singleton]
    constructor
    · intro heq
      cases heq
      exact ⟨[], (append_nil _).symm, rfl, hroot.symm⟩
    · rintro ⟨r, hpath, hdel, hp⟩
      cases r with
      | nil =>
        rw [hroot] at hp
        cases JsonEdit.eq_of_place hdel rfl hp
        rw [show q = path from hpath.trans (append_nil path)]
      | cons key r =>
        rw [placeAt_plain hplain] at hp
        exact absurd hp (JsonEdit.node_place_ne hdel)
  | @object ms hkeys hvs ih =>
    have hdiff : diffAt path none (.object ms) = { path, edit := .map } :: diffMembers path none ms := rfl
    have hroot : placeAt (some (.object ms)) [] = JsonEdit.map.node.place := rfl
    rw [hdiff, mem_cons, mem_diffMembers]
    constructor
    · rintro (heq | ⟨m, hm, hop⟩)
      · cases heq
        exact ⟨[], (append_nil _).symm, rfl, rfl⟩
      · obtain ⟨r, hpath, hdel, hp⟩ := (ih m hm (path ++ [m.1])).mp hop
        refine ⟨m.1 :: r, hpath.trans (append_assoc ..), hdel, ?_⟩
        rw [hp]
        exact congrArg (placeAt · r) (hkeys.get_eq_some.mpr hm).symm
    · rintro ⟨r, hpath, hdel, hp⟩
      cases r with
      | nil =>
        rw [hroot] at hp
        cases JsonEdit.eq_of_place hdel rfl hp
        exact .inl (by rw [show q = path from hpath.trans (append_nil path)])
      | cons key r =>
        cases hg : get ms key with
        | none =>
          have ha : placeAt (get (mapOf (some (.object ms))) key) r = .absent := by
            show placeAt (get ms key) r = _
            rw [hg]
            exact placeOf_eq_absent.mpr (valueAt_none r)
          exact absurd (hp.trans ha) (JsonEdit.node_place_ne hdel)
        | some child =>
          have hm := hkeys.get_eq_some.mp hg
          refine .inr ⟨(key, child), hm, (ih _ hm (path ++ [key])).mpr ⟨r, ?_, hdel, ?_⟩⟩
          · rw [hpath]
            exact (append_assoc path [key] r).symm
          · rw [hp]
            exact congrArg (placeAt · r) hg

theorem mismatchMembers_some {landed read : Members} (h : mismatchMembers landed read = some path) :
    ∃ m ∈ landed, ∃ rest, path = m.1 :: rest ∧ mismatchAt m.2 (get read m.1) = some rest := by
  induction landed with
  | nil => cases h
  | cons m landed ih =>
    rw [mismatchMembers] at h
    cases hm : mismatchAt m.2 (get read m.1) with
    | some rest =>
      rw [hm] at h
      exact ⟨m, mem_cons_self, rest, (some.inj h).symm, hm⟩
    | none =>
      rw [hm] at h
      obtain ⟨m', hm', hr⟩ := ih h
      exact ⟨m', mem_cons_of_mem m hm', hr⟩

theorem mismatchMembers_none {landed read : Members} (h : mismatchMembers landed read = none) :
    ∀ m ∈ landed, mismatchAt m.2 (get read m.1) = none := by
  induction landed with
  | nil =>
    intro m hm
    cases hm
  | cons m landed ih =>
    rw [mismatchMembers] at h
    cases hm : mismatchAt m.2 (get read m.1) with
    | some rest =>
      rw [hm] at h
      cases h
    | none =>
      rw [hm] at h
      exact forall_mem_cons.mpr ⟨hm, ih h⟩

/-- Two fields differ at a path below maps of both. -/
structure DiffersAt (landed read : Option Value) (path : Path) : Prop where
  maps : ∀ q, q <+: path → q ≠ path → placeAt landed q = .map ∧ placeAt read q = .map
  ne : valueAt landed path ≠ valueAt read path

theorem DiffersAt.cons {landed read : Members} {key : String} (h : DiffersAt (get landed key) (get read key) path) :
    DiffersAt (some (.object landed)) (some (.object read)) (key :: path) where
  maps q hq hne := by
    cases q with
    | nil => exact ⟨rfl, rfl⟩
    | cons key' q =>
      obtain ⟨rfl, hpre⟩ := cons_prefix_cons.mp hq
      exact h.maps q hpre fun he => hne (he ▸ rfl)
  ne := by
    exact h.ne

variable {landed : Value} {read : Option Value}

theorem mismatchAt_root (h : ∀ ms others, landed = .object ms → read ≠ some (.object others)) :
    mismatchAt landed read = if read.any landed.equal then none else some [] := by
  cases landed with
  | object ms =>
    cases read with
    | none => rfl
    | some r =>
      cases r with
      | object others => exact absurd rfl (h ms others rfl)
      | _ => rfl
  | _ => cases read <;> rfl

theorem differsAt_root (h : ¬read.any landed.equal = true) : DiffersAt (some landed) read [] where
  maps q hq hne := absurd (prefix_nil.mp hq) hne
  ne heq := by
    have hr : read = some landed := heq.symm
    rw [hr, any_some, landed.equal_refl] at h
    exact h rfl

theorem mismatchAt_some (h : landed.Sorted)
    (hmis : mismatchAt landed read = some path) : DiffersAt (some landed) read path := by
  have hroot : ∀ {landed : Value} {read : Option Value} {path : Path},
      (if read.any landed.equal then none else some []) = some path → DiffersAt (some landed) read path := by
    intro landed read path hif
    split at hif
    · cases hif
    · rename_i hnot
      cases hif
      exact differsAt_root hnot
  induction h generalizing read path with
  | @plain landed hp =>
    rw [mismatchAt_root fun ms _ heq => by rw [heq] at hp; cases hp] at hmis
    exact hroot hmis
  | @object ms hkeys hvs ih =>
    by_cases hr : ∃ others, read = some (.object others)
    · obtain ⟨others, rfl⟩ := hr
      rw [mismatchAt] at hmis
      cases hmembers : mismatchMembers ms others with
      | some path' =>
        rw [hmembers] at hmis
        cases hmis
        obtain ⟨m, hm, rest, rfl, hrest⟩ := mismatchMembers_some hmembers
        refine .cons ?_
        rw [hkeys.get_eq_some.mpr hm]
        exact ih m hm hrest
      | none =>
        rw [hmembers] at hmis
        obtain ⟨m, hf, rfl⟩ := map_eq_some_iff.mp hmis
        have hn : get ms m.1 = none := by simpa using find?_some hf
        refine .cons ⟨fun q hq hne => absurd (prefix_nil.mp hq) hne, fun heq => ?_⟩
        have hg : get others m.1 = none := (heq.symm.trans (congrArg (valueAt · []) hn) :)
        have hmem := mem_of_find?_eq_some hf
        simp [Members.get, find?_eq_none] at hg
        exact hg m.1 m.2 hmem rfl
    · rw [mismatchAt_root fun _ others _ heq => hr ⟨others, heq⟩] at hmis
      exact hroot hmis

theorem equalMembers_of {ms others : Members} (h : Sorted ms) (h' : Sorted others)
    (hvalue : ∀ m ∈ ms, ∃ v, (m.1, v) ∈ others ∧ m.2.equal v = true) (hk : ∀ m ∈ others, ∃ v, (m.1, v) ∈ ms) :
    equalMembers ms others = true := by
  induction ms generalizing others with
  | nil =>
    cases others with
    | nil => rfl
    | cons m others =>
      obtain ⟨v, hv⟩ := hk m mem_cons_self
      cases hv
  | cons m ms ih =>
    obtain ⟨hm, hmembers⟩ := pairwise_cons.mp h
    obtain ⟨⟨v, hv, he⟩, hvalue⟩ := forall_mem_cons.mp hvalue
    cases others with
    | nil => cases hv
    | cons m' others =>
      obtain ⟨hm', ho⟩ := pairwise_cons.mp h'
      -- The first keys are the same: each is in the other map, and no key is before it there.
      have hf : (m.1, v) = m' := by
        rcases mem_cons.mp hv with heq | hv
        · exact heq
        · obtain ⟨w, hw⟩ := hk m' mem_cons_self
          rcases mem_cons.mp hw with heq | hw
          · have hlt := hm' _ hv
            have hkeys : m'.1 = m.1 := (Prod.ext_iff.mp heq).1
            rw [memberKey, hkeys] at hlt
            exact absurd hlt (lt_irrefl _)
          · exact absurd (hm' _ hv) (lt_asymm (hm (m'.1, w) hw))
      subst hf
      have hne : ∀ x ∈ ms, x.1 ≠ m.1 := fun x hx heq => by
        have hlt := hm x hx
        rw [memberKey, memberKey, heq] at hlt
        exact lt_irrefl _ hlt
      have hne' : ∀ x ∈ others, x.1 ≠ m.1 := fun x hx heq => by
        have hlt := hm' x hx
        rw [memberKey, memberKey, heq] at hlt
        exact lt_irrefl _ hlt
      have hrest : equalMembers ms others = true := by
        refine ih hmembers ho (fun x hx => ?_) fun x hx => ?_
        · obtain ⟨w, hw, hxw⟩ := hvalue x hx
          refine ⟨w, (mem_cons.mp hw).resolve_left fun heq => ?_, hxw⟩
          exact hne x hx (Prod.ext_iff.mp heq).1
        · obtain ⟨w, hw⟩ := hk x (mem_cons_of_mem _ hx)
          refine ⟨w, (mem_cons.mp hw).resolve_left fun heq => ?_⟩
          exact hne' x hx (Prod.ext_iff.mp heq).1
      rw [equalMembers, he, hrest]
      simp

theorem mismatchAt_none (h : landed.Sorted) (hr : SortedAt read)
    (hmis : mismatchAt landed read = none) : equalAt (some landed) read = true := by
  have hroot : ∀ {landed : Value} {read : Option Value},
      (if read.any landed.equal then none else some ([] : Path)) = none → equalAt (some landed) read = true := by
    intro landed read hif
    split at hif
    · rename_i ha
      cases read with
      | none => cases ha
      | some r => exact ha
    · cases hif
  induction h generalizing read with
  | @plain landed hp =>
    rw [mismatchAt_root fun ms _ heq => by rw [heq] at hp; cases hp] at hmis
    exact hroot hmis
  | @object ms hkeys hvs ih =>
    by_cases ho : ∃ others, read = some (.object others)
    · obtain ⟨others, rfl⟩ := ho
      obtain ⟨hkeys', hvs'⟩ := hr.mapOf
      rw [mismatchAt] at hmis
      cases hmembers : mismatchMembers ms others with
      | some path =>
        rw [hmembers] at hmis
        cases hmis
      | none =>
        rw [hmembers] at hmis
        have hf := find?_eq_none.mp (map_eq_none_iff.mp hmis)
        refine equalMembers_of hkeys hkeys' (fun m hm => ?_) fun m hm => ?_
        · have he := ih m hm (hr.get m.1) (mismatchMembers_none hmembers m hm)
          cases hg : get others m.1 with
          | none =>
            have hn : get (mapOf (some (.object others))) m.1 = none := hg
            rw [hn] at he
            cases he
          | some v =>
            have hs : get (mapOf (some (.object others))) m.1 = some v := hg
            rw [hs] at he
            exact ⟨v, hkeys'.get_eq_some.mp hg, he⟩
        · cases hg : get ms m.1 with
          | none => exact absurd (by rw [hg]; rfl) (hf m hm)
          | some v => exact ⟨v, hkeys.get_eq_some.mp hg⟩
    · rw [mismatchAt_root fun _ others _ heq => ho ⟨others, heq⟩] at hmis
      exact hroot hmis

theorem mismatch_some {landed : Option Value} (h : SortedAt landed)
    (hm : mismatch landed read = some path) : DiffersAt landed read path := by
  cases landed with
  | some v => exact mismatchAt_some (h v rfl) hm
  | none =>
    cases read with
    | none => cases hm
    | some r =>
      cases hm
      refine ⟨fun q hq hne => absurd (prefix_nil.mp hq) hne, fun heq => ?_⟩
      cases heq

theorem mismatch_none {landed : Option Value} (h : SortedAt landed) (hr : SortedAt read)
    (hm : mismatch landed read = none) : equalAt landed read = true := by
  cases landed with
  | some v => exact mismatchAt_none (h v rfl) hr hm
  | none =>
    cases read with
    | none => rfl
    | some r => cases hm

end Defra.Json
