import Defra.Theorems.Json.Place

/-! Path edits of one write are turned into the ops of one block, in which a later edit drops and changes earlier ones. They
    read as the edits in order, but for a delete or a set of an object over what the same write left there. -/

namespace Defra.Json
open List PathMap

/-! ### The ops of one edit -/

/-- The values that an edit sets are as `serde_json` holds them. -/
def JsonOp.Sorted (op : JsonOp) : Prop := ∀ v, op.edit = .set v → v.Sorted

theorem plain_singleton (path : Path) {v : Value} (hplain : v.asObject = none) :
    ∀ op ∈ ([{ path, edit := .set v }] : List JsonOp), path <+: op.path ∧ op.Plain := by
  intro op hop
  cases mem_singleton.mp hop
  refine ⟨prefix_rfl, fun other hs => ?_⟩
  cases hs
  exact hplain

mutual

theorem deepSet_spec : ∀ (path : Path) (cur : Option Value) (v : Value),
    ∀ op ∈ deepSet path cur v, path <+: op.path ∧ op.Plain
  | path, cur, .object ms => by
    intro op hop
    rw [deepSet] at hop
    rcases mem_append.mp hop with hop | hop
    · split at hop
      · cases mem_singleton.mp hop
        exact ⟨prefix_rfl, nofun⟩
      · cases hop
    · obtain ⟨m, -, hp, hplain⟩ := deepSetMembers_spec path _ ms op hop
      exact ⟨(prefix_append path [m.1]).trans hp, hplain⟩
  | path, _, .null => plain_singleton path rfl
  | path, _, .bool _ => plain_singleton path rfl
  | path, _, .number _ => plain_singleton path rfl
  | path, _, .string _ => plain_singleton path rfl
  | path, _, .array _ => plain_singleton path rfl

theorem deepSetMembers_spec : ∀ (path : Path) (cur : Option Members) (ms : Members),
    ∀ op ∈ deepSetMembers path cur ms, ∃ m ∈ ms, path ++ [m.1] <+: op.path ∧ op.Plain
  | _, _, [] => nofun
  | path, cur, (key, child) :: ms => by
    intro op hop
    rw [deepSetMembers] at hop
    rcases mem_append.mp hop with hop | hop
    · exact ⟨(key, child), mem_cons_self, deepSet_spec (path ++ [key]) _ child op hop⟩
    · obtain ⟨m, hm, hop⟩ := deepSetMembers_spec path cur ms op hop
      exact ⟨m, mem_cons_of_mem _ hm, hop⟩

end

theorem editOps_spec (working : Option Value) (edit : JsonOp) :
    ∀ op ∈ editOps working edit, edit.path <+: op.path ∧ op.Plain := by
  intro op hop
  rw [editOps] at hop
  split at hop
  · exact deepSet_spec _ _ _ op hop
  · rename_i hset
    cases mem_singleton.mp hop
    exact ⟨prefix_rfl, fun v hv => absurd hv (hset v)⟩

def LayeredOps (ops : List JsonOp) : Prop := ops.Pairwise fun a b => ¬b.path <+: a.path

theorem LayeredOps.layered {ops : List JsonOp} (h : LayeredOps ops) : Layered (ops.map JsonOp.op) := pairwise_map.mpr h

mutual

theorem deepSet_layered : ∀ (path : Path) (cur : Option Value) (v : Value), v.Sorted → LayeredOps (deepSet path cur v)
  | path, cur, .object ms, h => by
    obtain ⟨hkeys, hvs⟩ : Members.Sorted ms ∧ ∀ m ∈ ms, m.2.Sorted := by
      cases h with
      | plain hp => cases hp
      | object hkeys hvs => exact ⟨hkeys, hvs⟩
    rw [deepSet, LayeredOps, pairwise_append]
    refine ⟨?_, deepSetMembers_layered path _ ms hkeys hvs, fun a ha b hb hpath => ?_⟩
    · split
      · exact pairwise_singleton _ _
      · exact .nil
    · split at ha
      · cases mem_singleton.mp ha
        obtain ⟨m, -, hb, -⟩ := deepSetMembers_spec path _ ms b hb
        exact absurd (hb.trans hpath).length_le (by simp)
      · cases ha
  | _, _, .null, _ => pairwise_singleton _ _
  | _, _, .bool _, _ => pairwise_singleton _ _
  | _, _, .number _, _ => pairwise_singleton _ _
  | _, _, .string _, _ => pairwise_singleton _ _
  | _, _, .array _, _ => pairwise_singleton _ _

theorem deepSetMembers_layered : ∀ (path : Path) (cur : Option Members) (ms : Members),
    Members.Sorted ms → (∀ m ∈ ms, m.2.Sorted) → LayeredOps (deepSetMembers path cur ms)
  | _, _, [], _, _ => .nil
  | path, cur, (key, child) :: ms, hk, hvs => by
    obtain ⟨hkey, hk⟩ := pairwise_cons.mp hk
    rw [deepSetMembers, LayeredOps, pairwise_append]
    refine ⟨deepSet_layered _ _ child (hvs _ mem_cons_self),
      deepSetMembers_layered path cur ms hk fun m hm => hvs m (mem_cons_of_mem _ hm),
      fun a ha b hb hp => ?_⟩
    -- Ops under two keys have paths that part there.
    obtain ⟨m, hm, hb, -⟩ := deepSetMembers_spec path cur ms b hb
    have hsame := prefix_of_prefix_length_le (deepSet_spec _ _ child a ha).1 (hb.trans hp) (by simp)
    have heq : key = m.1 := by simpa using hsame.eq_of_length (by simp)
    exact (hkey m hm).ne (congrArg utf8 heq)

end

theorem editOps_layered (working : Option Value) {edit : JsonOp} (h : edit.Sorted) : LayeredOps (editOps working edit) := by
  rw [editOps]
  split
  · rename_i v hset
    exact deepSet_layered _ _ v (h v hset)
  · exact pairwise_singleton _ _

/-! ### What a block keeps of the ops of its edits -/

/-- A value above a later edit becomes a map. -/
def opened (after : List JsonOp) (op : JsonOp) : JsonOp :=
  if op.edit.isSet = true ∧ ∃ later ∈ after, op.path <+: later.path then { op with edit := .map } else op

def kept (after ops : List JsonOp) : List JsonOp :=
  (ops.filter fun op => ∀ later ∈ after, ¬later.path <+: op.path).map (opened after)

theorem opened_path (after : List JsonOp) (op : JsonOp) : (opened after op).path = op.path := by
  unfold opened
  split <;> rfl

theorem kept_settleEarlier (edit : JsonOp) (after ops : List JsonOp) :
    kept after (settleEarlier ops edit.path) = kept (edit :: after) ops := by
  have hstep : ∀ op : JsonOp, (if op.path.isPrefixOf edit.path && op.edit.isSet then { op with edit := .map } else op) =
      opened [edit] op := fun op => by
    simp [opened, and_comm]
  have ho : opened after ∘ opened [edit] = opened (edit :: after) := by
    funext op
    by_cases h : op.edit.isSet = true ∧ op.path <+: edit.path
    · have hm : opened [edit] op = { op with edit := .map } := if_pos (by simpa using h)
      rw [Function.comp_apply, hm]
      exact (if_neg fun hset => Bool.false_ne_true hset.1).trans (if_pos ⟨h.1, edit, mem_cons_self, h.2⟩).symm
    · have hsame : opened [edit] op = op := if_neg (by simpa using h)
      rw [Function.comp_apply, hsame]
      refine if_congr (and_congr_right fun hset => ?_) rfl rfl
      rw [exists_mem_cons_iff, or_iff_right fun hp => h ⟨hset, hp⟩]
  unfold kept settleEarlier
  rw [funext hstep, filter_map, map_map, filter_filter, ho]
  refine congrArg _ (filter_congr fun op _ => ?_)
  rw [Bool.eq_iff_iff]
  simp [opened_path, ← Bool.not_eq_true, isPrefixOf_iff_prefix, and_comm]

section
variable {cur : Option Value} {edits ops after : List JsonOp} {op : JsonOp} {q : Path}

variable (cur edits) in
def written : Option Value × List JsonOp := edits.foldl pathOps (cur, [])

variable (cur edits) in
/-- What the edits leave, each made over what the one before it left. -/
def valueAfter : Option Value := edits.foldl (fun v edit => applyOps v (editOps v edit)) cur

variable (cur edits) in
def InOrder : Prop :=
  apply cur (.paths edits) = edits.foldlM (fun v edit => apply v (.paths [edit])) cur

variable (cur edits ops) in
theorem foldl_pathOps : edits.foldl pathOps (cur, ops) =
    (valueAfter cur edits, kept edits ops ++ (written cur edits).2) := by
  induction edits generalizing cur ops with
  | nil =>
    have ho : opened [] = id := funext fun op => if_neg (by simp)
    simp [kept, ho, valueAfter, written]
  | cons edit edits ih =>
    have hnext : ∀ ops, pathOps (cur, ops) edit =
        (valueAfter cur [edit], settleEarlier ops edit.path ++ editOps cur edit) := fun _ => rfl
    have hw : (written cur (edit :: edits)).2 =
        kept edits (editOps cur edit) ++ (written (valueAfter cur [edit]) edits).2 := by
      rw [written, foldl_cons, hnext, ih]
      rfl
    have happend : ∀ a b : List JsonOp, kept edits (a ++ b) = kept edits a ++ kept edits b := fun a b => by
      rw [kept, filter_append, map_append]
      rfl
    rw [foldl_cons, hnext, ih, happend, kept_settleEarlier, append_assoc, ← hw]
    rfl

theorem written_cons {edit : JsonOp} : (written cur (edit :: edits)).2 =
    kept edits (editOps cur edit) ++ (written (valueAfter cur [edit]) edits).2 :=
  congrArg Prod.snd (foldl_pathOps (valueAfter cur [edit]) edits (editOps cur edit))

theorem inOrder_iff : InOrder cur edits ↔ applyOps cur (written cur edits).2 = valueAfter cur edits := by
  have hfold : edits.foldlM (fun v edit => apply v (.paths [edit])) cur = .ok (valueAfter cur edits) := by
    induction edits generalizing cur with
    | nil => rfl
    | cons edit edits ih => exact ih
  rw [InOrder, hfold]
  exact ⟨Except.ok.inj, fun h => congrArg Except.ok h⟩

/-- One of the edits makes `op` over what the edits before it left, and none of those `after` it is at its path or above. -/
inductive Stands : Option Value → List JsonOp → JsonOp → List JsonOp → Prop
  | head {cur edit after op} (made : op ∈ editOps cur edit) (alone : ∀ later ∈ after, ¬later.path <+: op.path) :
      Stands cur (edit :: after) op after
  | tail {cur edit edits op after} (later : Stands (valueAfter cur [edit]) edits op after) :
      Stands cur (edit :: edits) op after

theorem mem_written : op ∈ (written cur edits).2 ↔ ∃ made after, Stands cur edits made after ∧ opened after made = op := by
  induction edits generalizing cur with
  | nil => exact iff_of_false nofun nofun
  | cons edit edits ih =>
    rw [written_cons, mem_append, ih, kept, mem_map]
    constructor
    · rintro (⟨made, hm, heq⟩ | ⟨made, after, h, heq⟩)
      · obtain ⟨hm, halone⟩ := mem_filter.mp hm
        exact ⟨made, edits, .head hm (of_decide_eq_true halone), heq⟩
      · exact ⟨made, after, .tail h, heq⟩
    · rintro ⟨made, after, h, heq⟩
      cases h with
      | head hm halone => exact .inl ⟨made, mem_filter.mpr ⟨hm, decide_eq_true halone⟩, heq⟩
      | tail h => exact .inr ⟨made, after, h, heq⟩

theorem Stands.plain (h : Stands cur edits op after) : op.Plain := by
  induction h with
  | head hmade => exact (editOps_spec _ _ _ hmade).2
  | tail _ ih => exact ih

variable (cur edits) in
theorem written_plain : ∀ op ∈ (written cur edits).2, op.Plain := by
  intro op hop
  obtain ⟨made, after, h, rfl⟩ := mem_written.mp hop
  unfold opened
  split
  · exact nofun
  · exact h.plain

theorem Stands.edit_prefix (h : Stands cur edits op after) : ∃ edit ∈ edits, edit.path <+: op.path := by
  induction h with
  | head hmade => exact ⟨_, mem_cons_self, (editOps_spec _ _ _ hmade).1⟩
  | tail _ ih =>
    obtain ⟨edit, he, hp⟩ := ih
    exact ⟨edit, mem_cons_of_mem _ he, hp⟩

variable (cur) in
theorem written_layered (hedits : ∀ edit ∈ edits, edit.Sorted) : LayeredOps (written cur edits).2 := by
  induction edits generalizing cur with
  | nil => exact .nil
  | cons edit edits ih =>
    obtain ⟨hedit, hedits⟩ := forall_mem_cons.mp hedits
    rw [written_cons, LayeredOps, pairwise_append]
    refine ⟨pairwise_map.mpr (((editOps_layered _ hedit).filter _).imp fun {a b} hnot => ?_), ih _ hedits, fun a ha b hb hpath => ?_⟩
    · rwa [opened_path, opened_path]
    · obtain ⟨earlier, he, rfl⟩ := mem_map.mp ha
      obtain ⟨later, after, h, rfl⟩ := mem_written.mp hb
      obtain ⟨edit', he', hpath'⟩ := h.edit_prefix
      rw [opened_path, opened_path] at hpath
      exact of_decide_eq_true (mem_filter.mp he).2 edit' he' (hpath'.trans hpath)

end

/-! ### What each path reads in the end -/

section
variable {cur : Option Value} {edits after : List JsonOp} {op : JsonOp} {q : Path}

variable (edits) in
theorem sorted_valueAfter (h : SortedAt cur) : SortedAt (valueAfter cur edits) := by
  induction edits generalizing cur with
  | nil => exact h
  | cons edit edits ih => exact ih (sorted_applyOps h fun op hop => (editOps_spec _ edit op hop).2)

theorem placeAt_valueAfter_singleton (h : SortedAt cur) (edit : JsonOp) (q : Path) :
    placeAt (valueAfter cur [edit]) q = readAt ((editOps cur edit).map JsonOp.op) q (placeAt cur q) :=
  placeAt_applyOps h (fun op hop => (editOps_spec _ edit op hop).2) q

/-- Edits that are not above a path make it a map or leave it, and those that are not below it either leave it. -/
theorem placeAt_valueAfter (h : SortedAt cur) (habove : ∀ later ∈ after, ¬later.path <+: q) :
    (placeAt (valueAfter cur after) q = placeAt cur q ∨ placeAt (valueAfter cur after) q = .map) ∧
      ((∀ later ∈ after, ¬q <+: later.path) → placeAt (valueAfter cur after) q = placeAt cur q) := by
  induction after generalizing cur with
  | nil => exact ⟨.inl rfl, fun _ => rfl⟩
  | cons edit after ih =>
    obtain ⟨he, habove⟩ := forall_mem_cons.mp habove
    obtain ⟨hor, hsame⟩ := ih (sorted_valueAfter [edit] h) habove
    have hnow := placeAt_valueAfter_singleton h edit q
    have hnot : ∀ op ∈ (editOps cur edit).map JsonOp.op, edit.path <+: op.path ∧ ¬op.path <+: q := by
      intro op hop
      obtain ⟨made, hm, rfl⟩ := mem_map.mp hop
      have hp := (editOps_spec _ edit made hm).1
      exact ⟨hp, fun hq => he (hp.trans hq)⟩
    refine ⟨?_, fun hbelow => ?_⟩
    · rcases readAt_of_not_above (fun op hop => (hnot op hop).2) (placeAt cur q) with heq | heq
      · rwa [hnow, heq] at hor
      · exact .inr (hor.elim (fun hor => hor.trans (hnow.trans heq)) id)
    · obtain ⟨hbelow, ha⟩ := forall_mem_cons.mp hbelow
      refine (hsame ha).trans (hnow.trans (readAt_of_not_decides (fun op hop hdecides => ?_) _))
      rcases hdecides with hq | ⟨hq, -⟩
      · exact (hnot op hop).2 hq
      · exact ( prefix_or_prefix_of_prefix hq (hnot op hop).1).elim hbelow he

namespace Stands
variable (hcurrent : SortedAt cur) (hedits : ∀ edit ∈ edits, edit.Sorted) (h : Stands cur edits op after)
include hcurrent hedits h

/-- A path above an op that puts something, or at a map, ends as a map. -/
theorem place_of_map (hm : op.op.PutsBelow q ∨ op.path = q ∧ op.edit = .map) :
    placeAt (valueAfter cur edits) q = .map := by
  induction h with
  | tail _ ih => exact ih (sorted_valueAfter _ hcurrent) (forall_mem_cons.mp hedits).2 hm
  | @head cur edit after op hmade halone =>
    have hq : q <+: op.path := by
      rcases hm with hbelow | ⟨rfl, -⟩
      · exact hbelow.1
      · exact prefix_rfl
    have hl := (editOps_layered cur (hedits edit mem_cons_self)).layered
    have hnow : placeAt (valueAfter cur [edit]) q = .map := by
      rw [placeAt_valueAfter_singleton hcurrent]
      by_cases hbelow : ∃ other ∈ (editOps cur edit).map JsonOp.op, other.PutsBelow q
      · obtain ⟨other, ho, hbelow⟩ := hbelow
        exact hl.readAt_of_below ho hbelow _
      · push Not at hbelow
        obtain ⟨hp, he⟩ := hm.resolve_left (hbelow op.op (mem_map_of_mem hmade))
        rw [hl.readAt_of_at (mem_map_of_mem hmade) hp hbelow, JsonOp.op, he]
        rfl
    have hlater := placeAt_valueAfter (sorted_valueAfter [edit] hcurrent) fun later hmem habove =>
      halone later hmem (habove.trans hq)
    exact hlater.1.elim (fun heq => heq.trans hnow) id

/-- A path where an op stands ends as the op says when no later edit is below it and no op puts anything there. -/
theorem place_of_at (hp : op.path = q) (hnone : ∀ other after, Stands cur edits other after → ¬other.op.PutsBelow q)
    (hl : ∀ later ∈ after, ¬q <+: later.path) : placeAt (valueAfter cur edits) q = op.op.edit.place := by
  induction h with
  | tail _ ih =>
    exact ih (sorted_valueAfter _ hcurrent) (forall_mem_cons.mp hedits).2 hp (fun _ _ h => hnone _ _ h.tail) hl
  | @head cur edit after op hm halone =>
    rw [hp] at halone
    refine ((placeAt_valueAfter (sorted_valueAfter [edit] hcurrent) halone).2 hl).trans ?_
    rw [placeAt_valueAfter_singleton hcurrent]
    refine (editOps_layered cur (hedits edit mem_cons_self)).layered.readAt_of_at (mem_map_of_mem hm) hp
      (fun other ho hb => ?_) _
    -- No later edit is at, above or below the path, so such an op would stand.
    obtain ⟨made, hm', rfl⟩ := mem_map.mp ho
    exact hnone made after (.head hm' fun later hmem ha =>
      ( prefix_or_prefix_of_prefix ha hb.1).elim (halone later hmem) (hl later hmem)) hb

end Stands

variable (cur edits) in
/-- What the edits in order leave at `q` is what the ops that stand say of it. -/
structure Told (q : Path) : Prop where
  /-- It is gone where an op stands at it or above it, and none puts anything at or below it. -/
  removed : (∀ op after, Stands cur edits op after → q <+: op.path → op.edit = .delete) →
    (∃ op after, Stands cur edits op after ∧ op.path <+: q) → placeAt (valueAfter cur edits) q = .absent
  /-- It is as it was where no op stands at it or above it, and none puts anything below it. -/
  untouched : (∀ op after, Stands cur edits op after → q <+: op.path → op.edit = .delete) →
    (∀ op after, Stands cur edits op after → ¬op.path <+: q) →
    placeAt (valueAfter cur edits) q = placeAt cur q
  /-- It is a map where a later edit is below a value that stands at it. -/
  opened : ∀ op after, Stands cur edits op after → op.path = q → op.edit.isSet = true →
    (∃ later ∈ after, q <+: later.path) → placeAt (valueAfter cur edits) q = .map

theorem isCut_op : op.op.edit.isCut = false ↔ op.edit ≠ .delete := by
  obtain ⟨path, edit⟩ := op
  cases edit <;> simp [JsonOp.op, JsonEdit.edit, Edit.isCut]

theorem opened_putsBelow : (opened after op).op.PutsBelow q ↔ op.op.PutsBelow q := by
  unfold opened
  split
  · rename_i h
    refine and_congr_right fun _ => and_congr_right fun _ => iff_of_true rfl (isCut_op.mpr fun hdel => ?_)
    rw [hdel] at h
    cases h.1
  · rfl

/-- Where something is put at or below a path, only a value at it can be misread. -/
theorem Told.of_put (hput : ∃ op after, Stands cur edits op after ∧ q <+: op.path ∧ op.edit ≠ .delete)
    (hopened : ∀ op after, Stands cur edits op after → op.path = q → op.edit.isSet = true →
      (∃ later ∈ after, q <+: later.path) → placeAt (valueAfter cur edits) q = .map) : Told cur edits q := by
  obtain ⟨op, after, h, hq, hne⟩ := hput
  exact ⟨fun hall => absurd (hall op after h hq) hne, fun hall => absurd (hall op after h hq) hne, hopened⟩

/-- The block reads at a path what the edits in order leave there exactly when the ops that stand say it. -/
theorem told_iff (hcurrent : SortedAt cur) (hedits : ∀ edit ∈ edits, edit.Sorted) :
    readAt ((written cur edits).2.map JsonOp.op) q (placeAt cur q) = placeAt (valueAfter cur edits) q ↔
      Told cur edits q := by
  have hl := (written_layered cur hedits).layered
  have hmem : ∀ {op after}, Stands cur edits op after → (opened after op).op ∈ (written cur edits).2.map JsonOp.op :=
    fun h => mem_map_of_mem (mem_written.mpr ⟨_, _, h, rfl⟩)
  have hof : ∀ {P : Op String Value → Prop}, (∀ op after, Stands cur edits op after → P (opened after op).op) →
      ∀ other ∈ (written cur edits).2.map JsonOp.op, P other := by
    intro P hP other hother
    obtain ⟨_, hop, rfl⟩ := mem_map.mp hother
    obtain ⟨op, after, h, rfl⟩ := mem_written.mp hop
    exact hP op after h
  by_cases hdeep : ∃ op after, Stands cur edits op after ∧ op.op.PutsBelow q
  · obtain ⟨op, after, h, hbelow⟩ := hdeep
    have hm := h.place_of_map hcurrent hedits (.inl hbelow)
    rw [hl.readAt_of_below (hmem h) (opened_putsBelow.mpr hbelow), hm]
    exact iff_of_true rfl (.of_put ⟨op, after, h, hbelow.1, isCut_op.mp hbelow.2.2⟩ fun _ _ _ _ _ _ => hm)
  push Not at hdeep
  have hnone := hof (P := fun op => ¬op.PutsBelow q) fun op after h => mt opened_putsBelow.mp (hdeep op after h)
  by_cases hput : ∃ op after, Stands cur edits op after ∧ op.path = q ∧ op.edit ≠ .delete
  · obtain ⟨op, after, h, hp, hne⟩ := hput
    have hr := hl.readAt_of_at (hmem h) ((opened_path ..).trans hp) hnone (placeAt cur q)
    have htold := Told.of_put (q := q) ⟨op, after, h, hp ▸ prefix_rfl, hne⟩
    by_cases hs : op.edit.isSet = true ∧ ∃ later ∈ after, op.path <+: later.path
    · -- The value that stands is read as a map.
      rw [opened, if_pos hs] at hr
      rw [hr]
      exact ⟨fun heq => htold fun _ _ _ _ _ _ => heq.symm, fun ht => (ht.opened op after h hp hs.1 (hp ▸ hs.2)).symm⟩
    · have hsame : opened after op = op := if_neg hs
      have hplace : placeAt (valueAfter cur edits) q = op.op.edit.place := by
        cases hedit : op.edit with
        | delete => exact absurd hedit hne
        | map =>
          rw [h.place_of_map hcurrent hedits (.inr ⟨hp, hedit⟩), JsonOp.op, hedit]
          rfl
        | set v =>
          refine h.place_of_at hcurrent hedits hp hdeep fun later hlater hq => hs ⟨?_, later, hlater, hp ▸ hq⟩
          rw [hedit]
          rfl
      rw [hr, hsame, hplace]
      refine iff_of_true rfl (htold fun other after' h' hp' hs' hlater => ?_)
      -- A value that is read as a map would be another op at the path.
      have heq := hl.eq_of_path (hmem h) (hmem h') ((opened_path ..).trans (hp.trans (hp'.symm.trans (opened_path ..).symm)))
      rw [hplace, ← hsame, heq, opened, if_pos ⟨hs', hp'.symm ▸ hlater⟩]
      rfl
  · push Not at hput
    have hd : ∀ op after, Stands cur edits op after → q <+: op.path → op.edit = .delete := by
      intro op after h hq
      by_contra hne
      exact hdeep op after h ⟨hq, fun hp => hne (hput op after h hp), isCut_op.mpr hne⟩
    have ho : ∀ op after, Stands cur edits op after → op.path = q → op.edit.isSet ≠ true := by
      intro op after h hp
      rw [hput op after h hp]
      exact Bool.false_ne_true
    by_cases habove : ∃ op after, Stands cur edits op after ∧ op.path <+: q
    · have hr : readAt ((written cur edits).2.map JsonOp.op) q (placeAt cur q) = .absent := by
        obtain ⟨op, after, h, hq⟩ := habove
        have hq' : (opened after op).path <+: q := by rwa [opened_path]
        refine hl.readAt_of_above (hmem h) hq' (hof fun op after h hp => ?_) hnone _
        have hp : op.path = q := (opened_path ..).symm.trans hp
        rw [opened, if_neg fun hs => ho op after h hp hs.1, JsonOp.op, hput op after h hp]
        rfl
      rw [hr]
      refine ⟨fun heq => ⟨fun _ _ => heq.symm, fun _ hnot => ?_, fun op after h hp hs => absurd hs (ho op after h hp)⟩,
        fun ht => (ht.removed hd habove).symm⟩
      obtain ⟨op, after, h, hq⟩ := habove
      exact absurd hq (hnot op after h)
    · push Not at habove
      have hr : readAt ((written cur edits).2.map JsonOp.op) q (placeAt cur q) = placeAt cur q := by
        refine readAt_of_not_decides (hof fun op after h hdecides => ?_) _
        have hnot : ¬(opened after op).path <+: q := by
          rw [opened_path]
          exact habove op after h
        rcases hdecides with hq | hq
        · exact hnot hq
        · exact hnone _ (hmem h) ⟨hq.1, fun he => hnot (he ▸ prefix_rfl), hq.2⟩
      rw [hr]
      exact ⟨fun heq => ⟨fun _ ⟨op, after, h, hq⟩ => absurd hq (habove op after h), fun _ _ => heq.symm,
        fun op after h hp hs => absurd hs (ho op after h hp)⟩, fun ht => (ht.untouched hd habove).symm⟩

end

/-- Path edits of one write read as the edits in order exactly when, at every path, what they leave in order is what the ops
    that stand say of it. -/
theorem path_edits_in_order_iff (cur : Option Value) (hcurrent : SortedAt cur) (edits : List JsonOp)
    (hedits : ∀ edit ∈ edits, edit.Sorted) : InOrder cur edits ↔ ∀ q, Told cur edits q := by
  have hplain := written_plain cur edits
  rw [inOrder_iff]
  constructor
  · intro heq q
    rw [← told_iff hcurrent hedits, ← placeAt_applyOps hcurrent hplain, heq]
  · intro h
    refine (sorted_applyOps hcurrent hplain).ext (sorted_valueAfter _ hcurrent) fun q => ?_
    rw [placeAt_applyOps hcurrent hplain]
    exact (told_iff hcurrent hedits).mpr (h q)

def setThenObject : List JsonOp := [⟨["a", "b"], .set (.bool true)⟩, ⟨["a"], .set (.object [("c", .bool false)])⟩]

/-- In one write the first key is lost. -/
theorem setThenObject_not_in_order : ¬InOrder none setThenObject := by
  intro h
  have hone : apply none (.paths setThenObject) = .ok (some (.object [("a", .object [("c", .bool false)])])) := rfl
  have hseq : setThenObject.foldlM (fun v edit => apply v (.paths [edit])) none =
      .ok (some (.object [("a", .object [("b", .bool true), ("c", .bool false)])])) := rfl
  rw [InOrder, hone, hseq] at h
  simp at h

/-- The value that is set then hides the loss, and a delete finds nothing that the write put. -/
def hiddenLoss : List JsonOp := setThenObject ++ [⟨["a"], .set (.bool true)⟩, ⟨["b", "c"], .delete⟩]

theorem hiddenLoss_in_order : InOrder none hiddenLoss ∧ ∀ q, Told none hiddenLoss q := by
  have hsort : ∀ edit ∈ hiddenLoss, edit.Sorted := by
    simp only [hiddenLoss, setThenObject, cons_append, nil_append, forall_mem_cons, JsonOp.Sorted, JsonEdit.set.injEq,
      forall_eq', reduceCtorEq, IsEmpty.forall_iff, implies_true, not_mem_nil, and_true]
    exact ⟨.plain rfl, .object (pairwise_singleton _ _) (by simpa using .plain rfl), .plain rfl⟩
  have horder : InOrder none hiddenLoss := rfl
  exact ⟨horder, (path_edits_in_order_iff none .none hiddenLoss hsort).mp horder⟩

end Defra.Json
