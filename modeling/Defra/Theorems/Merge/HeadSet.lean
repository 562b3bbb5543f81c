import Defra.Merge.HeadSet

/-! Head-set operands fold exactly: a name's functions compose, and the bytes of a fold read back as the fold. -/

namespace Defra.Merge.HeadSet
open KeyedList List Reader Func

namespace Func

@[simp] theorem canonical_apply (f : Func) (s : State) : f.canonical.apply s = f.apply s := by
  cases s with
  | absent =>
    simp only [canonical, apply]
    split <;> simp_all [Image.resolve]
  | ahead =>
    simp only [canonical, apply]
    split <;> simp_all [Image.resolve]
  | live priority => rfl

@[simp] theorem canonical_canonical (f : Func) : f.canonical.canonical = f.canonical := by
  simp only [canonical, mk.injEq, and_true]
  constructor <;> split <;> simp_all

theorem resolve_chain (next : Func) (first second : Image) (s : State) (h : next.apply s = second.resolve s) :
    (chain next first second).resolve s = next.apply (first.resolve s) := by
  cases first with
  | keep => exact h.symm
  | toState mid => rfl

@[simp] theorem andThen_apply (f g : Func) (s : State) : (f.andThen g).apply s = g.apply (f.apply s) := by
  rw [andThen, canonical_apply]
  cases s <;> exact resolve_chain g _ _ _ rfl

@[simp] theorem canonical_andThen (f g : Func) : (f.andThen g).canonical = f.andThen g := canonical_canonical _

@[simp] theorem identity_apply (s : State) : identity.apply s = s := by cases s <;> rfl

/-- An entry built of additions and supersessions takes the live state away, or makes the absent one live. -/
def Acts (f : Func) : Prop := f.live ≠ .keep ∨ ∃ priority, f.absent = .toState (.live priority)

theorem acts_add (priority : UInt64) : (add priority).Acts := .inr ⟨priority, rfl⟩

theorem acts_supersede : supersede.Acts := .inl (by decide)

theorem acts_supersedeAhead : supersedeAhead.Acts := .inl (by decide)

theorem Acts.ne_identity {f : Func} (h : f.Acts) : f ≠ identity := by
  rintro rfl
  rcases h with h | ⟨_, h⟩
  · exact h rfl
  · cases h

theorem Acts.andThen {f : Func} (hf : f.Acts) (g : Func) : (f.andThen g).Acts := by
  by_cases hl : f.live = .keep
  · obtain ⟨priority, habs⟩ := hf.resolve_left (not_not.mpr hl)
    by_cases hnext : g.live = .keep
    · -- What `f` makes live stays as it is.
      have : (g.apply (.live priority)) = .live priority := by rw [apply, hnext, Image.resolve]
      exact .inr ⟨priority, by simp [Func.andThen, canonical, chain, habs, this]⟩
    · exact .inl (by simpa [Func.andThen, canonical, chain, hl] using hnext)
  · cases hf : f.live with
    | keep => exact absurd hf hl
    | toState mid => exact .inl (by simp [Func.andThen, canonical, chain, hf])

theorem identity_andThen {f : Func} (h : f.canonical = f) : identity.andThen f = f := h

end Func

/-- The state of a name. -/
def stateAt (names : Names) (name : Bytes) : State := ((names.find? name).map Prod.snd).getD .absent

/-- Absent names are not stored. -/
def Stored (names : Names) : Prop := ∀ entry ∈ names, entry.2 ≠ .absent

theorem stored_empty : Stored ∅ := fun entry h => absurd h (not_mem_empty entry)

variable {names : Names} {name : Bytes}

theorem stateAt_eq_iff {state : State} (hs : state ≠ .absent) : stateAt names name = state ↔ (name, state) ∈ names := by
  unfold stateAt
  cases hf : names.find? name with
  | none =>
    refine ⟨fun he => absurd he.symm hs, fun hmem => ?_⟩
    rw [find?_eq_some.mpr ⟨hmem, rfl⟩] at hf
    cases hf
  | some entry =>
    obtain ⟨hmem, hkey⟩ := find?_eq_some.mp hf
    constructor
    · rintro rfl
      rw [← hkey]
      exact hmem
    · intro hmem'
      rw [eq_of_key hmem hmem' hkey]
      rfl

theorem names_ext {s t : Names} (hs : Stored s) (ht : Stored t) (h : ∀ name, stateAt s name = stateAt t name) : s = t := by
  refine ext_mem fun ⟨name, state⟩ => ?_
  by_cases ha : state = .absent
  · exact ⟨fun hm => absurd ha (hs _ hm), fun hm => absurd ha (ht _ hm)⟩
  · rw [← stateAt_eq_iff ha, ← stateAt_eq_iff ha, h]

theorem stateAt_applyEntry (names : Names) (name : Bytes) (f : Func) (other : Bytes) :
    stateAt (applyEntry names (name, f)) other =
      if other = name then f.apply (stateAt names name) else stateAt names other := by
  unfold stateAt applyEntry
  simp only
  cases hstate : f.apply (((names.find? name).map Prod.snd).getD .absent) with
  | absent =>
    simp only [find?_erase]
    split <;> rfl
  | ahead =>
    simp only [find?_put]
    split <;> rfl
  | live priority =>
    simp only [find?_put]
    split <;> rfl

theorem stored_applyEntry (h : Stored names) (entry : Bytes × Func) : Stored (applyEntry names entry) := by
  intro e he
  unfold applyEntry at he
  simp only at he
  split at he
  · exact h e (mem_erase.mp he).1
  · rename_i hne
    rcases mem_put.mp he with rfl | ⟨he, -⟩
    · exact hne
    · exact h e he

theorem stored_foldl (h : Stored names) (es : List (Bytes × Func)) : Stored (es.foldl applyEntry names) := by
  induction es generalizing names with
  | nil => exact h
  | cons entry es ih => exact ih (stored_applyEntry h entry)

/-- What the entries do to a name. -/
def funcAt (es : List (Bytes × Func)) (name : Bytes) : Func :=
  ((es.find? fun entry => entry.1 = name).map Prod.snd).getD .identity

def Sorted {α : Type} (es : List (Bytes × α)) : Prop := es.Pairwise fun a b => a.1 < b.1

theorem funcAt_cons (name : Bytes) (f : Func) (es : List (Bytes × Func)) (other : Bytes) :
    funcAt ((name, f) :: es) other = if name = other then f else funcAt es other := by
  unfold funcAt
  by_cases h : name = other <;> simp [h]

variable {es : List (Bytes × Func)}

theorem funcAt_of_not_mem (h : ∀ entry ∈ es, entry.1 ≠ name) : funcAt es name = .identity := by
  have : es.find? (fun entry => entry.1 = name) = none := by simpa using h
  rw [funcAt, this]
  rfl

theorem stateAt_foldl (hsort : Sorted es) (names : Names) (name : Bytes) :
    stateAt (es.foldl applyEntry names) name = (funcAt es name).apply (stateAt names name) := by
  induction es generalizing names with
  | nil => exact (identity_apply _).symm
  | cons entry es ih =>
    obtain ⟨entryName, f⟩ := entry
    obtain ⟨hfirst, hsort⟩ := pairwise_cons.mp hsort
    rw [foldl_cons, ih hsort, stateAt_applyEntry, funcAt_cons]
    by_cases h : name = entryName
    · rw [if_pos h, if_pos h.symm, h, funcAt_of_not_mem fun entry he => (hfirst entry he).ne', identity_apply]
    · rw [if_neg h, if_neg (Ne.symm h)]

theorem funcAt_filter (hsort : Sorted es) (name : Bytes) :
    funcAt (es.filter fun entry => entry.2 ≠ .identity) name = funcAt es name := by
  induction es with
  | nil => rfl
  | cons entry es ih =>
    obtain ⟨entryName, f⟩ := entry
    obtain ⟨hfirst, hsort⟩ := pairwise_cons.mp hsort
    rw [funcAt_cons, filter_cons]
    by_cases hf : f = .identity
    · rw [if_neg (by simp [hf]), ih hsort]
      by_cases h : entryName = name
      · rw [if_pos h, hf, ← h, funcAt_of_not_mem fun entry he => (hfirst entry he).ne']
      · rw [if_neg h]
    · rw [if_pos (by simp [hf]), funcAt_cons, ih hsort]

variable {l r : List (Bytes × Func)}

theorem mem_walk : name ∈ (walk l r).map Prod.fst ↔ name ∈ l.map Prod.fst ∨ name ∈ r.map Prod.fst := by
  fun_induction walk l r with
  | case1 right => simp
  | case2 left => simp
  | case3 first left a second right ih =>
    simp only [map_cons, mem_cons, ih]
    tauto
  | case4 a first left b second right _ _ ih =>
    simp only [map_cons, mem_cons, ih]
    tauto
  | case5 a first left b second right _ _ ih =>
    simp only [map_cons, mem_cons, ih]
    tauto

theorem sorted_walk (hl : Sorted l) (hr : Sorted r) : Sorted (walk l r) := by
  -- Each entry is put before a walk whose names all come later.
  have hcons : ∀ {name : Bytes} {f : Func} {l r : List (Bytes × Func)}, (∀ e ∈ l, name < e.1) → (∀ e ∈ r, name < e.1) →
      Sorted (walk l r) → Sorted ((name, f) :: walk l r) := by
    intro name f l r hl hr hw
    refine pairwise_cons.mpr ⟨fun e he => ?_, hw⟩
    rcases mem_walk.mp (mem_map_of_mem (f := Prod.fst) he) with h | h
    · obtain ⟨e', he', hn⟩ := mem_map.mp h
      exact hn ▸ hl e' he'
    · obtain ⟨e', he', hn⟩ := mem_map.mp h
      exact hn ▸ hr e' he'
  fun_induction walk l r with
  | case1 right => exact hr
  | case2 left => exact hl
  | case3 first left a second right ih =>
    obtain ⟨hlfirst, hl⟩ := pairwise_cons.mp hl
    obtain ⟨hrfirst, hr⟩ := pairwise_cons.mp hr
    exact hcons hlfirst hrfirst (ih hl hr)
  | case4 a first left b second right _ hlt ih =>
    obtain ⟨hlfirst, hl⟩ := pairwise_cons.mp hl
    refine hcons hlfirst (fun e he => ?_) (ih hl hr)
    rcases mem_cons.mp he with rfl | he
    · exact hlt
    · exact hlt.trans ((pairwise_cons.mp hr).1 e he)
  | case5 a first left b second right hne hlt ih =>
    obtain ⟨hrfirst, hr⟩ := pairwise_cons.mp hr
    have hba : b < a := lt_of_le_of_ne (not_lt.mp hlt) (Ne.symm hne)
    refine hcons (fun e he => ?_) hrfirst (ih hl hr)
    rcases mem_cons.mp he with rfl | he
    · exact hba
    · exact hba.trans ((pairwise_cons.mp hl).1 e he)

theorem funcAt_walk (hl : Sorted l) (hr : Sorted r) (name : Bytes) (s : State) :
    (funcAt (walk l r) name).apply s = (funcAt r name).apply ((funcAt l name).apply s) := by
  fun_induction walk l r with
  | case1 right => exact congrArg _ (identity_apply s).symm
  | case2 left => exact (identity_apply _).symm
  | case3 first left a second right ih =>
    rw [funcAt_cons, funcAt_cons, funcAt_cons]
    split
    · exact andThen_apply first second s
    · exact ih (pairwise_cons.mp hl).2 (pairwise_cons.mp hr).2
  | case4 a first left b second right hne hlt ih =>
    obtain ⟨hlfirst, hl⟩ := pairwise_cons.mp hl
    rw [funcAt_cons a, funcAt_cons a]
    split
    · rename_i hn
      -- The smaller name is not on the other side.
      have hnone : funcAt ((b, second) :: right) name = .identity := by
        refine funcAt_of_not_mem fun e he => ?_
        rcases mem_cons.mp he with rfl | he
        · exact fun h => hne (hn.trans h.symm)
        · exact ((hn ▸ hlt).trans ((pairwise_cons.mp hr).1 e he)).ne'
      rw [hnone, identity_apply]
    · exact ih hl hr
  | case5 a first left b second right hne hlt ih =>
    obtain ⟨hrfirst, hr⟩ := pairwise_cons.mp hr
    have hba : b < a := lt_of_le_of_ne (not_lt.mp hlt) (Ne.symm hne)
    rw [funcAt_cons b, funcAt_cons b]
    split
    · rename_i hn
      have hnone : funcAt ((a, first) :: left) name = .identity := by
        refine funcAt_of_not_mem fun e he => ?_
        rcases mem_cons.mp he with rfl | he
        · exact fun h => hne (h.trans hn.symm)
        · exact ((hn ▸ hba).trans ((pairwise_cons.mp hl).1 e he)).ne'
      rw [hnone, identity_apply]
    · exact ih hl hr

theorem forall_mem_walk {P : Func → Prop} (hthen : ∀ f g, P f → P g → P (f.andThen g))
    (hl : ∀ e ∈ l, P e.2) (hr : ∀ e ∈ r, P e.2) : ∀ e ∈ walk l r, P e.2 := by
  fun_induction walk l r with
  | case1 right => exact hr
  | case2 left => exact hl
  | case3 first left a second right ih =>
    rw [forall_mem_cons] at hl hr
    exact forall_mem_cons.mpr ⟨hthen _ _ hl.1 hr.1, ih hl.2 hr.2⟩
  | case4 a first left b second right _ _ ih =>
    rw [forall_mem_cons] at hl
    exact forall_mem_cons.mpr ⟨hl.1, ih hl.2 hr⟩
  | case5 a first left b second right _ _ ih =>
    rw [forall_mem_cons] at hr
    exact forall_mem_cons.mpr ⟨hr.1, ih hl hr.2⟩

theorem sorted_foldEntries (hl : Sorted l) (hr : Sorted r) : Sorted (foldEntries l r) :=
  (sorted_walk hl hr).filter _

theorem foldl_foldEntries (hl : Sorted l) (hr : Sorted r) (h : Stored names) :
    (foldEntries l r).foldl applyEntry names = r.foldl applyEntry (l.foldl applyEntry names) := by
  refine names_ext (stored_foldl h _) (stored_foldl (stored_foldl h l) r) fun name => ?_
  rw [stateAt_foldl (sorted_foldEntries hl hr), stateAt_foldl hr, stateAt_foldl hl, foldEntries,
    funcAt_filter (sorted_walk hl hr), funcAt_walk hl hr]

theorem mem_foldEntries (hl : ∀ e ∈ l, e.2.Acts) (hr : ∀ e ∈ r, e.2.Acts) :
    name ∈ (foldEntries l r).map Prod.fst ↔ name ∈ l.map Prod.fst ∨ name ∈ r.map Prod.fst := by
  have hall := forall_mem_walk (fun f g hf _ => hf.andThen g) hl hr
  have : foldEntries l r = walk l r :=
    filter_eq_self.mpr fun e he => decide_eq_true (hall e he).ne_identity
  rw [this, mem_walk]

/-- The writes a writer builds. -/
inductive Write.Built : Write → Prop where
  | new : Built {}
  | add {write} (name : Bytes) (priority : UInt64) : Built write → Built (write.add name priority)
  | supersede {write} (name : Bytes) : Built write → Built (write.supersede name)
  | supersedeAhead {write} (name : Bytes) : Built write → Built (write.supersedeAhead name)

theorem Write.Built.acts {write : Write} (h : write.Built) : ∀ e ∈ write.entries, e.2.Acts ∧ e.2.canonical = e.2 := by
  -- Each entry is put over what was held, if anything.
  have hp : ∀ {write : Write} {f : Func} (name : Bytes),
      (∀ e ∈ write.entries, e.2.Acts ∧ e.2.canonical = e.2) → f.Acts → f.canonical = f →
      ∀ e ∈ (write.andThen name f).entries, e.2.Acts ∧ e.2.canonical = e.2 := by
    intro write f name hall hf hc e he
    rcases mem_put.mp he with rfl | ⟨he, -⟩
    · refine ⟨?_, canonical_andThen _ f⟩
      cases hfind : write.entries.find? name with
      | none =>
        simp only [Option.map_none, Option.getD_none, identity_andThen hc]
        exact hf
      | some held => exact (hall held (find?_eq_some.mp hfind).1).1.andThen f
    · exact hall e he
  induction h with
  | new => exact fun e he => absurd he (not_mem_empty e)
  | add name priority _ ih => exact hp name ih (acts_add priority) rfl
  | supersede name _ ih => exact hp name ih acts_supersede rfl
  | supersedeAhead name _ ih => exact hp name ih acts_supersedeAhead rfl

end Defra.Merge.HeadSet
