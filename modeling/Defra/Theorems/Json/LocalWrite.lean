import Mathlib.Data.Finset.Card
import Defra.Json.History
import Defra.Theorems.Json.Mismatch
import Defra.Theorems.Json.PathEdits

/-! A local write of a JSON field rewrites the subtrees where its ops would not land as it reads. It comes to an end, and its
    block then lands as the write reads. -/

namespace Defra.Json
open List Frontier PathMap

variable (f : Frontier) (read : Option Value) (value : Option Value) (ops : List JsonOp) (path : Path)

/-! ### Whole subtrees -/

theorem valueAt_append (path rest : Path) :
    valueAt value (path ++ rest) = valueAt (valueAt value path) rest := foldl_append ..

theorem placeAt_append (path rest : Path) :
    placeAt value (path ++ rest) = placeAt (valueAt value path) rest := congrArg placeOf (valueAt_append ..)

/-- The ops that write what `read` has at `path`. -/
def whole : List JsonOp :=
  match valueAt read path with
  | some value => (diff none (some value)).map fun op => { op with path := path ++ op.path }
  | none => [{ path, edit := .delete }]

theorem mem_whole {read : Option Value} (h : SortedAt read) (path : Path) {op : JsonOp} : op ∈ whole read path ↔
    ∃ r, op.path = path ++ r ∧ op.edit.node.place = placeAt (valueAt read path) r ∧ (op.edit.isDelete = true → r = []) := by
  obtain ⟨q, edit⟩ := op
  have hsort := h.valueAt path
  unfold whole
  cases hv : valueAt read path with
  | none =>
    rw [mem_singleton]
    constructor
    · intro heq
      cases heq
      exact ⟨[], (append_nil _).symm, rfl, fun _ => rfl⟩
    · rintro ⟨r, hpath, hp, hdel⟩
      have ha : edit.node.place = .absent := hp.trans (placeOf_eq_absent.mpr (valueAt_none r))
      cases edit with
      | delete =>
        cases hdel rfl
        rw [show q = path from hpath.trans (append_nil path)]
      | set value => cases ha
      | map => cases ha
  | some value =>
    rw [hv] at hsort
    have hmem := fun op : JsonOp => @mem_diffAt value (hsort value rfl) [] op
    rw [mem_map]
    constructor
    · rintro ⟨op, hop, heq⟩
      obtain ⟨r, hpath, hdel, hp⟩ := (hmem op).mp hop
      cases heq
      refine ⟨r, congrArg (path ++ ·) hpath, hp, fun hd => ?_⟩
      cases hdel.symm.trans hd
    · rintro ⟨r, hpath, hp, hdel⟩
      have hs : edit.isDelete = false := by
        cases edit with
        | set value => rfl
        | map => rfl
        | delete =>
          cases hdel rfl
          exact absurd (placeOf_eq_absent.mp hp.symm) (Option.some_ne_none value)
      refine ⟨⟨r, edit⟩, (hmem _).mpr ⟨r, rfl, hs, hp⟩, ?_⟩
      rw [show q = path ++ r from hpath]

theorem asObject_of_placeOf {value : Option Value} {v : Value} (h : placeOf value = .value v) : v.asObject = none := by
  cases value with
  | none => cases h
  | some w => cases w <;> cases h <;> rfl

theorem exists_edit : ∃ edit : JsonEdit, edit.node.place = placeOf value := by
  cases value with
  | none => exact ⟨.delete, rfl⟩
  | some v =>
    cases hv : v.asObject with
    | none => exact ⟨.set v, (placeOf_plain hv).symm⟩
    | some ms =>
      cases v with
      | object => exact ⟨.map, rfl⟩
      | _ => cases hv

/-! ### Where the ops land exactly -/

/-- At the path and below it, the ops are those that write what `read` has there. -/
def ExactAt : Prop :=
  ∀ op : JsonOp, path <+: op.path → (op ∈ ops ↔ op ∈ whole read path)

section Exact
variable {f g : Frontier} {read : Option Value} {ops : List JsonOp} {b : Bytes} {priority : Nat} {path : Path}

theorem ExactAt.place_of_mem (h : ExactAt read ops path) (hr : SortedAt read) {r : Path} {edit : JsonEdit}
    (hop : (⟨path ++ r, edit⟩ : JsonOp) ∈ ops) :
    edit.node.place = placeAt (valueAt read path) r ∧ (edit.isDelete = true → r = []) := by
  obtain ⟨r', hpath, hp⟩ := (mem_whole hr path).mp ((h ⟨path ++ r, edit⟩ (prefix_append ..)).mp hop)
  cases append_cancel_left hpath
  exact hp

/-- However the ops land, they read there as `read` does. -/
theorem ExactAt.nodeAt (h : ExactAt read ops path) (hr : SortedAt read) (hlands : Lands f ops b priority g) (r : Path) :
    g.nodeAt (path ++ r) = placeAt (valueAt read path) r := by
  have hmem : ∀ {s : Path} {edit : JsonEdit}, edit.node.place = placeAt (valueAt read path) s →
      (edit.isDelete = true → s = []) → (⟨path ++ s, edit⟩ : JsonOp) ∈ ops := fun {s edit} hp hdel =>
    (h _ (prefix_append ..)).mpr ((mem_whole hr path).mpr ⟨s, rfl, hp, hdel⟩)
  obtain ⟨edit, hp⟩ := exists_edit (valueAt (valueAt read path) r)
  cases hdel : edit.isDelete with
  | false =>
    obtain ⟨edit', he⟩ := exists_editAt (hmem hp fun hd => by cases hdel.symm.trans hd)
    obtain ⟨hp', -⟩ := h.place_of_mem hr (mem_of_editAt he)
    have hd' : edit'.isDelete = false := by
      cases edit' with
      | delete => exact absurd (hp.trans hp'.symm) (JsonEdit.node_place_ne hdel)
      | set value => rfl
      | map => rfl
    rw [hlands.nodeAt_set he hd', hp']
  | true =>
    have ha : placeAt (valueAt read path) r = .absent := by
      cases edit with
      | delete => exact hp.symm
      | set value => cases hdel
      | map => cases hdel
    have hreach : Reaches ops (path ++ r) := by
      obtain ⟨root, hroot⟩ := exists_edit (valueAt read path)
      exact ⟨⟨path ++ [], root⟩, hmem hroot fun _ => rfl, by simp⟩
    have hgone : ∀ {s : Path} {edit : JsonEdit}, (⟨path ++ (r ++ s), edit⟩ : JsonOp) ∈ ops → edit.isDelete = true := by
      intro s edit hop
      obtain ⟨hp, -⟩ := h.place_of_mem hr hop
      rw [placeAt_append, placeOf_eq_absent.mp ha] at hp
      by_contra hs
      exact JsonEdit.node_place_ne (Bool.eq_false_iff.mpr hs) (hp.trans (placeOf_eq_absent.mpr (valueAt_none s)))
    refine (hlands.nodeAt_gone hreach (fun edit he => ?_) ?_).trans ha.symm
    · have hop := mem_of_editAt he
      rw [← append_nil r] at hop
      exact hgone hop
    · rintro ⟨q, edit, he, ⟨s, rfl⟩, -, hs⟩
      have hop := mem_of_editAt he
      rw [append_assoc] at hop
      cases hs.symm.trans (hgone hop)

end Exact

theorem walk_placeAt {places : Path → Place Value} {base : Path} {value : Option Value}
    (h : ∀ r, places (base ++ r) = placeAt value r) (path : Path) : walk places base path = placeAt value path := by
  have hroot : places base = placeOf value := by
    rw [← append_nil base]
    exact h []
  induction path generalizing base value with
  | nil => exact hroot
  | cons key path ih =>
    have hchild : ∀ r, places (base ++ [key] ++ r) = placeAt (Members.get (mapOf value) key) r := fun r => by
      rw [append_assoc, ← placeAt_cons]
      exact h (key :: r)
    have ha : mapOf value = [] → placeAt value (key :: path) = .absent := fun hn => by
      rw [placeAt_cons, hn]
      exact placeOf_eq_absent.mpr (valueAt_none path)
    rw [walk, hroot]
    cases value with
    | none => exact (ha rfl).symm
    | some v =>
      cases v with
      | object ms =>
        exact ih hchild (h [key])
      | _ => exact (ha rfl).symm

/-! ### Rewriting -/

theorem lands_landed :
    Lands f ops [] maxPriority (f.compose (f.localDelta ops [] maxPriority)) := lands_compose f ops [] maxPriority fun _ _ => rfl

section Anchor
variable {f : Frontier} {read : Option Value} {ops : List JsonOp} {path q : Path}

theorem landed_spec (hf : f.Plain) (ho : ∀ op ∈ ops, op.Plain) : SortedAt (landed f ops) ∧
    ∀ q, placeAt (landed f ops) q = walk (f.compose (f.localDelta ops [] maxPriority)).nodeAt [] q :=
  materialize_spec ((lands_landed f ops).plain hf ho)

theorem DiffersAt.placeAt_landed (h : DiffersAt (landed f ops) read path) (hf : f.Plain) (ho : ∀ op ∈ ops, op.Plain)
    (hq : q <+: path) (rest : Path) :
    placeAt (landed f ops) (q ++ rest) = walk (f.compose (f.localDelta ops [] maxPriority)).nodeAt q rest := by
  obtain ⟨-, hplaces⟩ := landed_spec hf ho
  rw [hplaces, walk_append, nil_append]
  intro p hp hne
  rw [← hplaces]
  exact (h.maps p (hp.trans hq) fun he => hne (hp.eq_of_length_le (he ▸ hq.length_le))).1

theorem DiffersAt.not_exactAt (h : DiffersAt (landed f ops) read path) (hf : f.Plain) (ho : ∀ op ∈ ops, op.Plain)
    (hr : SortedAt read) (hq : q <+: path) : ¬ExactAt read ops q := by
  intro hexact
  refine h.ne (((landed_spec hf ho).1.valueAt _).ext (hr.valueAt _) fun s => ?_)
  have hbelow := walk_placeAt (hexact.nodeAt hr (lands_landed f ops))
  obtain ⟨r, rfl⟩ := id hq
  rw [← placeAt_append, ← placeAt_append, append_assoc, h.placeAt_landed hf ho hq, hbelow, ← placeAt_append]

theorem mem_rewrite {op : JsonOp} : op ∈ rewrite read ops path ↔ op ∈ ops ∧ ¬path <+: op.path ∨ op ∈ whole read path := by
  refine mem_append.trans (or_congr_left (mem_filter.trans (and_congr_right fun _ => ?_)))
  rw [Bool.not_eq_true', ← isPrefixOf_iff_prefix, Bool.not_eq_true]

theorem exactAt_rewrite (read : Option Value) (ops : List JsonOp) (path : Path) : ExactAt read (rewrite read ops path) path :=
  fun _ hpre => mem_rewrite.trans (or_iff_right fun hkept => hkept.2 hpre)

theorem ExactAt.rewrite (h : ExactAt read ops q) (hr : SortedAt read) (hbelow : ¬path <+: q) (habove : ¬q <+: path) :
    ExactAt read (rewrite read ops path) q := by
  intro op hpre
  have hoff : ¬path <+: op.path := fun hp =>
    ( prefix_or_prefix_of_prefix hp hpre).elim hbelow habove
  rw [← h op hpre, mem_rewrite]
  refine (or_iff_left fun hwhole => ?_).trans (and_iff_left hoff)
  obtain ⟨r, hp, -⟩ := (mem_whole hr path).mp hwhole
  exact hoff ⟨r, hp.symm⟩

theorem rewrite_plain (hr : SortedAt read) (ho : ∀ op ∈ ops, op.Plain) (path : Path) :
    ∀ op ∈ rewrite read ops path, op.Plain := by
  intro op hop value hset
  rcases mem_rewrite.mp hop with ⟨hop, -⟩ | hop
  · exact ho op hop value hset
  · obtain ⟨r, -, hplace, -⟩ := (mem_whole hr path).mp hop
    rw [hset] at hplace
    exact asObject_of_placeOf hplace.symm

/-- The paths that the stored entries, the ops and the value read can differ at. -/
structure Covers (f : Frontier) (read : Option Value) (paths : Finset Path) : Prop where
  above : ∀ p ∈ paths, ∀ q, q <+: p → q ∈ paths
  stored : ∀ e ∈ f.entries, e.path ∈ paths
  read : ∀ q, placeAt read q ≠ .absent → q ∈ paths

theorem exists_covers (f : Frontier) (hr : SortedAt read) (ops : List JsonOp) :
    ∃ paths, Covers f read paths ∧ ∀ op ∈ ops, op.path ∈ paths := by
  let all := ops.map JsonOp.path ++ f.entries.toList.map Entry.path ++ (whole read []).map JsonOp.path
  have hmem : ∀ q, q ∈ (all.flatMap inits).toFinset ↔ ∃ p ∈ all, q <+: p := by simp
  have hself : ∀ p ∈ all, p ∈ (all.flatMap inits).toFinset := fun p hp => (hmem p).mpr ⟨p, hp, prefix_rfl⟩
  refine ⟨(all.flatMap inits).toFinset, ⟨fun p hp q hq => ?_, fun e he => hself _ ?_, fun q hq => hself _ ?_⟩,
    fun op hop => hself _ ?_⟩
  · obtain ⟨p', hp', hpre⟩ := (hmem p).mp hp
    exact (hmem q).mpr ⟨p', hp', hq.trans hpre⟩
  · exact mem_append_left _ (mem_append_right _ (mem_map_of_mem he))
  · obtain ⟨edit, hplace⟩ := exists_edit (valueAt read q)
    refine mem_append_right _ (mem_map.mpr ⟨⟨q, edit⟩, (mem_whole hr []).mpr ⟨q, rfl, hplace, fun hd => ?_⟩, rfl⟩)
    cases edit with
    | delete => exact absurd hplace.symm hq
    | set value => cases hd
    | map => cases hd
  · exact mem_append_left _ (mem_append_left _ (mem_map_of_mem hop))

section Ends
variable {paths : Finset Path}

theorem Covers.mem_of_differsAt (h : Covers f read paths) (hp : ∀ op ∈ ops, op.path ∈ paths) (hf : f.Plain)
    (ho : ∀ op ∈ ops, op.Plain) (hdiff : DiffersAt (landed f ops) read path) : path ∈ paths := by
  by_contra hout
  have hr : valueAt read path = none := by
    by_contra hsome
    exact hout (h.read path fun habs => hsome (placeOf_eq_absent.mp habs))
  refine hdiff.ne (Eq.trans (placeOf_eq_absent.mp ?_) hr.symm)
  have hplace := hdiff.placeAt_landed hf ho prefix_rfl []
  rw [append_nil] at hplace
  refine hplace.trans (nodeAt_absent fun e he hpre => ?_)
  rcases (lands_landed f ops).only e he with ⟨hedit, -⟩ | ⟨hs, -⟩
  · exact hout (h.above _ (hp _ (mem_of_editAt hedit)) _ hpre)
  · exact hout (h.above _ (h.stored e hs) _ hpre)

theorem Covers.rewrite (h : Covers f read paths) (hread : SortedAt read) (hp : ∀ op ∈ ops, op.path ∈ paths)
    (hpath : path ∈ paths) : ∀ op ∈ rewrite read ops path, op.path ∈ paths := by
  intro op hop
  rcases mem_rewrite.mp hop with ⟨hop, -⟩ | hop
  · exact hp op hop
  · obtain ⟨r, hr, hplace, hdel⟩ := (mem_whole hread path).mp hop
    rw [hr]
    cases hd : op.edit.isDelete with
    | true =>
      rw [hdel hd, append_nil]
      exact hpath
    | false =>
      refine h.read _ fun habs => JsonEdit.node_place_ne hd ?_
      rw [hplace, ← placeAt_append, habs]

open Classical in
/-- The paths that no exact rewrite covers yet. -/
noncomputable def remaining (paths : Finset Path) (read : Option Value) (ops : List JsonOp) : Finset Path :=
  paths.filter fun q => ∀ p, p <+: q → ¬ExactAt read ops p

open Classical in
theorem mem_remaining : q ∈ remaining paths read ops ↔ q ∈ paths ∧ ∀ p, p <+: q → ¬ExactAt read ops p := Finset.mem_filter

theorem remaining_rewrite_lt (hf : f.Plain) (ho : ∀ op ∈ ops, op.Plain) (hr : SortedAt read)
    (hdiff : DiffersAt (landed f ops) read path) (hpath : path ∈ paths) :
    (remaining paths read (rewrite read ops path)).card < (remaining paths read ops).card := by
  have hnot := fun p (hp : p <+: path) => hdiff.not_exactAt hf ho hr hp
  refine Finset.card_lt_card (Finset.ssubset_iff_of_subset (fun q hq => ?_) |>.mpr ⟨path, ?_, fun hmem => ?_⟩)
  · obtain ⟨hq, hopen⟩ := mem_remaining.mp hq
    refine mem_remaining.mpr ⟨hq, fun p hp he => ?_⟩
    by_cases hbelow : path <+: p
    · exact hopen path (hbelow.trans hp) (exactAt_rewrite read ops path)
    · exact hopen p hp (he.rewrite hr hbelow fun habove => hnot p habove he)
  · exact mem_remaining.mpr ⟨hpath, hnot⟩
  · exact (mem_remaining.mp hmem).2 path prefix_rfl (exactAt_rewrite read ops path)

/-- Rewriting comes to an end, and its ops land as the write reads. -/
theorem anchor_ends (hf : f.Plain) (hr : SortedAt read) (hcovers : Covers f read paths) (fuel : Nat) :
    ∀ ops : List JsonOp, (∀ op ∈ ops, op.Plain) → (∀ op ∈ ops, op.path ∈ paths) → (remaining paths read ops).card < fuel →
      ∃ ops', (∀ more, fuel ≤ more → anchor f read more ops = some ops') ∧ (∀ op ∈ ops', op.Plain) ∧
        equalAt (landed f ops') read = true := by
  induction fuel with
  | zero => exact fun _ _ _ h => absurd h (Nat.not_lt_zero _)
  | succ fuel ih =>
    intro ops ho hp hc
    have hsort := (landed_spec hf ho).1
    have hstep : ∀ more, fuel + 1 ≤ more → ∃ less, more = less + 1 ∧ fuel ≤ less := fun more hmore =>
      ⟨more - 1, by omega, by omega⟩
    cases hm : mismatch (landed f ops) read with
    | none =>
      refine ⟨ops, fun more hmore => ?_, ho, mismatch_none hsort hr hm⟩
      obtain ⟨less, rfl, -⟩ := hstep more hmore
      rw [anchor, hm]
    | some path =>
      have hdiff := mismatch_some hsort hm
      have hpath := hcovers.mem_of_differsAt hp hf ho hdiff
      have hl := remaining_rewrite_lt hf ho hr hdiff hpath
      obtain ⟨ops', ha, hspec⟩ := ih (rewrite read ops path) (rewrite_plain hr ho path)
        (hcovers.rewrite hr hp hpath) (by omega)
      refine ⟨ops', fun more hmore => ?_, hspec⟩
      obtain ⟨less, rfl, hle⟩ := hstep more hmore
      rw [anchor, hm]
      exact ha less hle

end Ends

end Anchor

/-! ### The ops of a write -/

theorem plain_diffAt_of_plain {value : Value} (h : value.asObject = none) (path : Path) (old : Option Value) :
    ∀ op ∈ diffAt path old value, op.Plain := by
  intro op hop
  have hdiff : diffAt path old value = if old.any (·.equal value) then [] else [{ path, edit := .set value }] := by
    cases value <;> first | rfl | cases h
  rw [hdiff] at hop
  split at hop
  · cases hop
  · cases mem_singleton.mp hop
    intro v hs
    cases hs
    exact h

mutual

theorem plain_diffAt : ∀ (path : Path) (old : Option Value) (value : Value), ∀ op ∈ diffAt path old value, op.Plain
  | path, old, .object new => by
    intro op hop
    have hc : op.edit = .delete ∨ op.edit = .map ∨ ∃ old, op ∈ diffMembers path old new := by
      unfold diffAt at hop
      split at hop
      · rcases mem_append.mp hop with hop | hop
        · obtain ⟨m, -, rfl⟩ := mem_map.mp hop
          exact .inl rfl
        · exact .inr (.inr ⟨_, hop⟩)
      · rcases mem_cons.mp hop with rfl | hop
        · exact .inr (.inl rfl)
        · exact .inr (.inr ⟨_, hop⟩)
    intro value hset
    rcases hc with hd | hm | ⟨old, hop⟩
    · cases hd.symm.trans hset
    · cases hm.symm.trans hset
    · exact plain_diffMembers path old new op hop value hset
  | path, old, .null => plain_diffAt_of_plain rfl path old
  | path, old, .bool _ => plain_diffAt_of_plain rfl path old
  | path, old, .number _ => plain_diffAt_of_plain rfl path old
  | path, old, .string _ => plain_diffAt_of_plain rfl path old
  | path, old, .array _ => plain_diffAt_of_plain rfl path old

theorem plain_diffMembers : ∀ (path : Path) (old : Option Members) (ms : Members),
    ∀ op ∈ diffMembers path old ms, op.Plain
  | _, _, [] => by
    intro op hop
    cases hop
  | path, old, (key, value) :: ms => by
    intro op hop
    rw [diffMembers] at hop
    rcases mem_append.mp hop with hop | hop
    · exact plain_diffAt _ _ value op hop
    · exact plain_diffMembers path old ms op hop

end

theorem plain_blockOps {current : Option Value} {op : FieldOp} {ops : List JsonOp} (h : blockOps current op = .ok ops) :
    ∀ op ∈ ops, op.Plain := by
  cases op with
  | set value =>
    cases h
    cases value with
    | some value => exact plain_diffAt [] current value
    | none =>
      intro op hop v hs
      rw [diff] at hop
      split at hop
      · cases mem_singleton.mp hop
        cases hs
      · cases hop
  | paths edits =>
    cases h
    exact written_plain current edits
  | increment => cases h
  | edit => cases h
  | operand => cases h

/-- A local write over a frontier that sets no object as a plain value ends, and its block lands as the write reads. -/
theorem local_write_lands (hf : f.Plain) (op : FieldOp) (value : Option Value)
    (happly : apply f.materialize op = .ok value) :
    ∃ ops fuel, (∀ more, fuel ≤ more → writeData more f op = .ok (some ops)) ∧
      ∀ (inPast : Bytes → Bytes → Bool) (b : JsonBlock), b.ops = ops → b.priority ≤ maxPriority →
        (∀ e ∈ f.entries, inPast b.id e.block = true ∧ e.priority < b.priority) →
        equalAt (mergeBlock inPast f b).materialize value = true := by
  unfold apply at happly
  cases ho : blockOps f.materialize op with
  | error e =>
    rw [ho] at happly
    cases happly
  | ok ops =>
    rw [ho] at happly
    cases happly
    have hplain := plain_blockOps ho
    have hread : SortedAt (applyOps f.materialize ops) := sorted_applyOps (materialize_spec hf).1 hplain
    obtain ⟨paths, hcovers, hp⟩ := exists_covers f hread ops
    obtain ⟨ops', hanchor, hplain', hlands⟩ := anchor_ends hf hread hcovers _ ops hplain hp (Nat.lt_succ_self _)
    refine ⟨ops', (remaining paths (applyOps f.materialize ops) ops).card + 1, fun more hm => ?_, fun inPast b hb hle hpast => ?_⟩
    · unfold writeData
      dsimp only
      rw [ho]
      exact congrArg Except.ok (hanchor more hm)
    · have hmerge : (mergeBlock inPast f b).materialize = landed f ops' := by
        have hnew := lands_compose f b.ops b.id b.priority fun e he => (hpast e he).1
        rw [hb] at hnew
        have hhigh : ∀ e ∈ f.entries, e.priority < maxPriority := fun e he => (hpast e he).2.trans_le hle
        subst hb
        exact hnew.materialize_eq (lands_landed f b.ops) (fun e he => (hpast e he).2) hhigh hf hplain'
      rw [hmerge]
      exact hlands

/-! ### Writes inside an object -/

def oneEntry (edit : JsonEdit) : Frontier where
  entries := ⟨[⟨path, [1], 1, edit, []⟩], pairwise_singleton ..⟩

def setInside : FieldOp := .paths [⟨["a", "b"], .set (.bool false)⟩]

theorem setInside_lands : ∃ ops fuel,
    (∀ more, fuel ≤ more → writeData more (oneEntry ["a"] (.set (.bool true))) setInside = .ok (some ops)) ∧
      ∀ (inPast : Bytes → Bytes → Bool) (b : JsonBlock), b.ops = ops → b.priority ≤ maxPriority →
        (∀ e ∈ (oneEntry ["a"] (.set (.bool true))).entries, inPast b.id e.block = true ∧ e.priority < b.priority) →
        equalAt (mergeBlock inPast (oneEntry ["a"] (.set (.bool true))) b).materialize
          (some (.object [("a", .object [("b", .bool false)])])) = true := by
  refine local_write_lands (oneEntry ["a"] (.set (.bool true))) (fun e he value hs => ?_) setInside _ rfl
  cases mem_singleton.mp he
  cases hs
  rfl

def storedObject : Frontier := oneEntry [] (.set (.object [("a", .object [("x", .bool true)])]))

def deleteInside : FieldOp := .paths [⟨["a", "x"], .delete⟩]

/-- What is inside the object cannot be removed: the write rewrites the same path again and again. -/
theorem storedObject_never_written : apply storedObject.materialize deleteInside = .ok (some (.object [("a", .object [])])) ∧
    ∀ fuel, writeData fuel storedObject deleteInside = .ok none := by
  refine ⟨rfl, fun fuel => ?_⟩
  have hm : mismatch (landed storedObject [⟨["a", "x"], .delete⟩]) (some (.object [("a", .object [])])) =
      some ["a", "x"] := rfl
  have hr : rewrite (some (.object [("a", .object [])])) [⟨["a", "x"], .delete⟩] ["a", "x"] =
      [⟨["a", "x"], .delete⟩] := rfl
  have ha : anchor storedObject (some (.object [("a", .object [])])) fuel [⟨["a", "x"], .delete⟩] = none := by
    induction fuel with
    | zero => rfl
    | succ fuel ih =>
      rw [anchor, hm]
      dsimp only
      rw [hr]
      exact ih
  exact congrArg Except.ok ha

end Defra.Json
