import Defra.Theorems.Json.Read

/-! Which edits stay depends on the DAG alone: an edit leaves when a block that had seen it edits its path or one above it. What
    an entry records as seen depends on the order of merging, but not where an edit that stayed is concerned. -/

namespace Defra.Json
open KeyedList List Frontier

variable {done' : List JsonBlock} {g : Frontier}

section
variable {inPast : Bytes → Bytes → Bool} {done : List JsonBlock} {f : Frontier}

/-! ### Edits that stay -/

/-- No block that had seen the edit edits its path or one above. -/
def Stays (inPast : Bytes → Bytes → Bool) (done : List JsonBlock) (b : JsonBlock) (path : Path) : Prop :=
  ∀ c ∈ done, inPast c.id b.id = true → ¬ Reaches c.ops path

/-- The frontier holds the edits that stay. -/
structure Holds (inPast : Bytes → Bytes → Bool) (done : List JsonBlock) (f : Frontier) : Prop where
  settled : f.removes = ∅
  sound : ∀ e ∈ f.entries, ∃ b ∈ done, e.block = b.id ∧ e.priority = b.priority ∧
    editAt b.ops e.path = some e.edit ∧ Stays inPast done b e.path
  complete : ∀ b ∈ done, ∀ path edit, editAt b.ops path = some edit → Stays inPast done b path →
    ∃ e ∈ f.entries, e.path = path ∧ e.block = b.id
  seen_past : ∀ e ∈ f.entries, ∀ w ∈ e.seen, inPast e.block w = true
  seen_held : ∀ e ∈ f.entries, ∀ above ∈ f.entries, above.path <+: e.path → above.path ≠ e.path →
    inPast e.block above.block = true → above.block ∈ e.seen

theorem holds_nil : Holds inPast [] {} :=
  ⟨rfl, fun e he => absurd he (not_mem_empty e), fun _ hb => absurd hb not_mem_nil,
    fun e he => absurd he (not_mem_empty e), fun e he => absurd he (not_mem_empty e)⟩

/-- One block: what stays is held again. -/
theorem Holds.mergeBlock (h : Holds inPast done f) {block : JsonBlock} (hn : ∀ b ∈ done, b.id ≠ block.id)
    (hlater : ∀ b ∈ done, inPast b.id block.id = false) (hself : inPast block.id block.id = false) :
    Holds inPast (done ++ [block]) (mergeBlock inPast f block) := by
  have hfresh : ∀ e ∈ f.entries, e.block ≠ block.id := by
    intro e he
    obtain ⟨b, hb, heb, -⟩ := h.sound e he
    exact heb ▸ hn b hb
  have hstays : ∀ b ∈ done, ∀ path, Stays inPast (done ++ [block]) b path ↔
      Stays inPast done b path ∧ ¬ (inPast block.id b.id = true ∧ Reaches block.ops path) := by
    intro b _ path
    simp only [Stays, mem_append, mem_singleton, or_imp, forall_and, forall_eq, not_and]
  have ho : ∀ path, Stays inPast (done ++ [block]) block path := by
    intro path c hc hp
    rcases mem_append.mp hc with hc | hc
    · rw [hlater c hc] at hp
      cases hp
    · rw [mem_singleton.mp hc, hself] at hp
      cases hp
  refine ⟨rfl, fun e he => ?_, fun b hb path edit hedit hst => ?_, fun e he w hw => ?_,
    fun e he above ha hpre hne hp => ?_⟩
  · rcases (mem_mergeBlock hfresh).mp he with ⟨hedit, hblock, hprio, -⟩ | ⟨he, hkept⟩
    · exact ⟨block, by simp, hblock, hprio, hedit, ho _⟩
    · obtain ⟨b, hb, hblock, hprio, hedit, hst⟩ := h.sound e he
      exact ⟨b, by simp [hb], hblock, hprio, hedit, (hstays b hb _).mpr ⟨hst, hblock ▸ hkept⟩⟩
  · rcases mem_append.mp hb with hb | hb
    · obtain ⟨hst, hkept⟩ := (hstays b hb path).mp hst
      obtain ⟨e, he, rfl, hblock⟩ := h.complete b hb path edit hedit hst
      exact ⟨e, (mem_mergeBlock hfresh).mpr (.inr ⟨he, hblock ▸ hkept⟩), rfl, hblock⟩
    · obtain rfl := mem_singleton.mp hb
      exact ⟨⟨path, b.id, b.priority, edit, (f.seenAbove (inPast b.id) path).toList⟩,
        (mem_mergeBlock hfresh).mpr (.inl ⟨hedit, rfl, rfl, rfl⟩), rfl, rfl⟩
  · rcases (mem_mergeBlock hfresh).mp he with ⟨-, hblock, -, hseen⟩ | ⟨he, -⟩
    · rw [hseen] at hw
      rw [hblock]
      exact ((mem_seenAbove f).mp hw).1
    · exact h.seen_past e he w hw
  · rcases (mem_mergeBlock hfresh).mp ha with ⟨-, hab, -, -⟩ | ⟨ha, -⟩
    · -- The new block is in no merged block's past, nor in its own.
      obtain ⟨b, hb, heb, -⟩ : ∃ b ∈ done ++ [block], e.block = b.id ∧ True := by
        rcases (mem_mergeBlock hfresh).mp he with ⟨-, hblock, -⟩ | ⟨he, -⟩
        · exact ⟨block, by simp, hblock, trivial⟩
        · obtain ⟨b, hb, heb, -⟩ := h.sound e he
          exact ⟨b, by simp [hb], heb, trivial⟩
      rw [hab, heb] at hp
      rcases mem_append.mp hb with hb | hb
      · rw [hlater b hb] at hp
        cases hp
      · rw [mem_singleton.mp hb, hself] at hp
        cases hp
    · rcases (mem_mergeBlock hfresh).mp he with ⟨-, hblock, -, hseen⟩ | ⟨he, -⟩
      · rw [hseen]
        exact (mem_seenAbove f).mpr ⟨hblock ▸ hp, above, ha, rfl, hpre, hne⟩
      · exact h.seen_held e he above ha hpre hne hp

/-- Each entry of one frontier of the blocks is in another one, but for what it records as seen. -/
theorem Holds.exists_plain (h : Holds inPast done f) (h' : Holds inPast done' g)
    (hids : ∀ b ∈ done, ∀ c ∈ done, b.id = c.id → b = c) (hmem : ∀ b, b ∈ done ↔ b ∈ done') {e : Entry}
    (he : e ∈ f.entries) : ∃ e' ∈ g.entries, e'.plain = e.plain := by
  obtain ⟨b, hb, hblock, hprio, hedit, hst⟩ := h.sound e he
  obtain ⟨e', he', hp, hblock'⟩ :=
    h'.complete b ((hmem b).mp hb) e.path e.edit hedit fun c hc => hst c ((hmem c).mpr hc)
  obtain ⟨c, hc, hcid, hprio', hedit', -⟩ := h'.sound e' he'
  obtain rfl := hids c ((hmem c).mpr hc) b hb (hcid.symm.trans hblock')
  rw [hp, hedit] at hedit'
  exact ⟨e', he', Entry.plain_eq_iff.mpr
    ⟨hp, hblock'.trans hblock.symm, hprio'.trans hprio.symm, (Option.some.inj hedit').symm⟩⟩

theorem Holds.samePlain (h : Holds inPast done f) (h' : Holds inPast done' g)
    (hids : ∀ b ∈ done, ∀ c ∈ done, b.id = c.id → b = c) (hmem : ∀ b, b ∈ done ↔ b ∈ done') : SamePlain f g := by
  have hs : ∀ f : Frontier, (f.entries.toList.map Entry.plain).Pairwise fun x y => entryKey x < entryKey y :=
    fun f => pairwise_map.mpr f.entries.sorted
  have hids' : ∀ b ∈ done', ∀ c ∈ done', b.id = c.id → b = c := fun b hb c hc =>
    hids b ((hmem b).mpr hb) c ((hmem c).mpr hc)
  refine congrArg toList (ext_mem (s := ⟨_, hs f⟩) (t := ⟨_, hs g⟩) fun e => ?_)
  simp only [mem_def, mem_map]
  constructor
  · rintro ⟨e, he, rfl⟩
    exact h.exists_plain h' hids hmem he
  · rintro ⟨e, he, rfl⟩
    exact h'.exists_plain h hids' (fun b => (hmem b).symm) he

end

variable {done : List JsonBlock} {inPast : Bytes → Bytes → Bool} {key : Bytes}

/-! ### Conflicts -/

theorem winner_mem {index : Index} {racer : Racer} (h : index.winner key = some racer) : racer ∈ index.under key := by
  have hfold : ∀ (rest : List Racer) (first : Racer),
      rest.foldl (fun best racer => if beats racer.entry best.entry then racer else best) first ∈ first :: rest := by
    intro rest
    induction rest with
    | nil => exact fun first => mem_cons_self
    | cons racer rest ih =>
      intro first
      rw [foldl_cons]
      split
      · exact mem_cons_of_mem first (ih racer)
      · rcases mem_cons.mp (ih first) with he | he
        · exact mem_cons.mpr (.inl he)
        · exact mem_cons_of_mem first (mem_cons_of_mem racer he)
  have hracers : racer ∈ index.racers key := by
    unfold Index.winner at h
    cases hr : index.racers key with
    | nil => simp [hr] at h
    | cons first rest =>
      rw [hr] at h
      exact Option.some.inj h ▸ hfold rest first
  exact mem_of_mem_filter (mem_of_mem_filter hracers)

variable {f : Frontier}

theorem Holds.concurrent_eq (h : Holds inPast done f) {path : Path} {racer winner : Racer}
    (hr : racer ∈ (Index.new f).under (encodePath path)) (hw : winner ∈ (Index.new f).under (encodePath path)) :
    concurrent racer winner = match racer.own, winner.own with
      | true, true => true
      | false, true => !inPast racer.entry.block winner.entry.block
      | true, false => !inPast winner.entry.block racer.entry.block
      | false, false => true := by
  -- An entry at the path and one below it: the lower one recorded the upper one when it had seen it.
  have hs : ∀ {upper lower : Racer}, upper ∈ (Index.new f).under (encodePath path) →
      lower ∈ (Index.new f).under (encodePath path) → upper.own = true → lower.own = false →
      lower.entry.seen.contains upper.entry.block = inPast lower.entry.block upper.entry.block := by
    intro upper lower hupper hlower ho hb
    obtain ⟨hu, -, huown⟩ := Index.mem_under_new.mp hupper
    obtain ⟨hl, hpre, hlown⟩ := Index.mem_under_new.mp hlower
    have hupath : upper.entry.path = path := of_decide_eq_true (huown.symm.trans ho)
    have hlpath : lower.entry.path ≠ path := of_decide_eq_false (hlown.symm.trans hb)
    rw [Bool.eq_iff_iff, contains_iff_mem]
    refine ⟨h.seen_past _ hl _, h.seen_held _ hl _ hu (hupath ▸ hpre) ?_⟩
    rw [hupath]
    exact Ne.symm hlpath
  cases hrown : racer.own <;> cases hwown : winner.own <;> simp only [concurrent, hrown, hwown]
  · rw [hs hw hr hwown hrown]
  · rw [hs hr hw hrown hwown]

theorem SamePlain.paths (h : SamePlain f g) : f.paths = g.paths := by
  have hp : ∀ f : Frontier, f.paths = .ofList ((f.entries.toList.map Entry.plain).flatMap fun entry =>
      (range (entry.path.length + 1)).map fun depth => encodePath (entry.path.take depth)) := fun f => by
    rw [flatMap_map]
    rfl
  rw [hp, hp, h]

theorem exists_path_of_mem_paths (h : key ∈ f.paths) : ∃ path, key = encodePath path := by
  rw [Frontier.paths, mem_ofList_of_inj fun x _ y _ hxy => hxy, mem_flatMap] at h
  obtain ⟨entry, -, h⟩ := h
  obtain ⟨depth, -, rfl⟩ := mem_map.mp h
  exact ⟨entry.path.take depth, rfl⟩

theorem Holds.conflicts_eq (h : Holds inPast done f) (h' : Holds inPast done' g) (hsame : SamePlain f g)
    : f.conflicts = g.conflicts := by
  rw [Frontier.conflicts, Frontier.conflicts, ← hsame.paths]
  refine flatMap_congr fun key hk => ?_
  obtain ⟨path, rfl⟩ := exists_path_of_mem_paths hk
  have hwin := hsame.winner path
  unfold conflictsAt
  cases hf : (Index.new f).winner (encodePath path) with
  | none =>
    rw [hf] at hwin
    rw [Option.map_eq_none_iff.mp hwin.symm]
  | some winner =>
    rw [hf] at hwin
    obtain ⟨winner', hg, hww⟩ := Option.map_eq_some_iff.mp hwin.symm
    rw [hg]
    refine SamePlain.losers_congr hww.symm [] ?_ fun r hr r' hr' hrr => ?_
    · have hp : ∀ racers : List Racer, (racers.filter fun racer => racer.own || !racer.entry.edit.isDelete).map
          Racer.plain = (racers.map Racer.plain).filter fun racer => racer.own || !racer.entry.edit.isDelete := by
        intro racers
        rw [filter_map]
        rfl
      rw [hp, hp, hsame.under]
    · rw [h.concurrent_eq (mem_of_mem_filter hr) (winner_mem hf),
        h'.concurrent_eq (mem_of_mem_filter hr') (winner_mem hg)]
      obtain ⟨ho, he⟩ := Racer.plain_eq_iff.mp hrr
      obtain ⟨hwown, hwentry⟩ := Racer.plain_eq_iff.mp hww
      rw [ho, hwown, (Entry.plain_eq_iff.mp he).2.1, (Entry.plain_eq_iff.mp hwentry).2.1]

section
variable {bs order : List JsonBlock} {inPast : Bytes → Bytes → Bool}

/-! ### Convergence -/

theorem holds_mergeAll (hids : (bs.map JsonBlock.id).Nodup) (ho : LinearExtension bs order)
    (hpast : ∀ a b, inPast b a = true ↔ IsAncestor bs a b) : Holds inPast order (mergeAll inPast order) := by
  have hnd : (order.map JsonBlock.id).Nodup := (ho.perm.map JsonBlock.id).nodup_iff.mpr hids
  -- The ancestors of a block of the order stand before it.
  have hbef : ∀ {l block r}, order = l ++ block :: r → ∀ b ∈ block :: r, inPast block.id b.id = false := by
    intro l block r hsp b hb
    refine Bool.eq_false_iff.mpr fun hp => ?_
    have hmem := ho.ancestor_before hids ((hpast b.id block.id).mp hp) hsp rfl
    rw [hsp, map_append] at hnd
    exact (nodup_append.mp hnd).2.2 _ hmem _ (mem_map_of_mem hb) rfl
  have hrun : ∀ rest done, order = done ++ rest → Holds inPast done (mergeAll inPast done) →
      Holds inPast order (mergeAll inPast order) := by
    intro rest
    induction rest with
    | nil =>
      intro done hsp h
      rwa [hsp, append_nil]
    | cons block rest ih =>
      intro done hsp h
      refine ih (done ++ [block]) (by rw [hsp]; simp) ?_
      have hstep := h.mergeBlock (fun b hb heq => ?_) (fun b hb => ?_)
        (hbef hsp block mem_cons_self)
      · rwa [mergeAll, foldl_append]
      · rw [hsp, map_append] at hnd
        exact (nodup_append.mp hnd).2.2 _ (mem_map_of_mem hb) _ (by simp) heq
      · obtain ⟨l, r, rfl⟩ := append_of_mem hb
        exact hbef (l := l) (r := r ++ block :: rest) (by rw [hsp]; simp) block (by simp)
  exact hrun order [] rfl holds_nil

/-- Replicas that merge the blocks of a DAG in any two orders hold the same edits, read as the same value and list the same
    conflicts. -/
theorem mergeAll_converges {order' : List JsonBlock} (hids : (bs.map JsonBlock.id).Nodup)
    (hpast : ∀ a b, inPast b a = true ↔ IsAncestor bs a b) (horder : LinearExtension bs order)
    (horder' : LinearExtension bs order') :
    (mergeAll inPast order).entries.toList.map (fun e => (e.path, e.block, e.priority, e.edit)) =
        (mergeAll inPast order').entries.toList.map (fun e => (e.path, e.block, e.priority, e.edit)) ∧
      (mergeAll inPast order).materialize = (mergeAll inPast order').materialize ∧
      (mergeAll inPast order).conflicts = (mergeAll inPast order').conflicts := by
  have h := holds_mergeAll hids horder hpast
  have h' := holds_mergeAll hids horder' hpast
  have hinj : ∀ b ∈ order, ∀ c ∈ order, b.id = c.id → b = c := fun b hb c hc =>
    inj_on_of_nodup_map hids (horder.perm.mem_iff.mp hb) (horder.perm.mem_iff.mp hc)
  have hsame := h.samePlain h' hinj fun b => horder.perm.mem_iff.trans horder'.perm.mem_iff.symm
  refine ⟨?_, hsame.materialize, h.conflicts_eq h' hsame⟩
  have := congrArg (map fun e : Entry => (e.path, e.block, e.priority, e.edit)) hsame
  rwa [map_map, map_map] at this

end

/-- One block sets a path, a second sets one below it, and a third deletes it at the same time. -/
def updateAndDelete : List JsonBlock :=
  [⟨[0], [], 1, [⟨["a"], .set .null⟩]⟩, ⟨[1], [[0]], 2, [⟨["a", "b"], .set (.bool true)⟩]⟩,
    ⟨[2], [[0]], 2, [⟨["a"], .delete⟩]⟩]

/-- The past of each block of `updateAndDelete`. -/
def updateAndDeletePast (b a : Bytes) : Bool := a = [0] && (b = [1] || b = [2])

theorem updateAndDeletePast_iff (a b : Bytes) : updateAndDeletePast b a = true ↔ IsAncestor updateAndDelete a b := by
  have hpar : ∀ a b, Dag.IsParent JsonBlock.id JsonBlock.parents updateAndDelete a b ↔
      a = [0] ∧ (b = [1] ∨ b = [2]) := by
    intro a b
    constructor
    · rintro ⟨-, block, hblock, rfl, ha⟩
      simp only [updateAndDelete, mem_cons, not_mem_nil, or_false] at hblock
      rcases hblock with rfl | rfl | rfl
      · cases ha
      · exact ⟨mem_singleton.mp ha, .inl rfl⟩
      · exact ⟨mem_singleton.mp ha, .inr rfl⟩
    · rintro ⟨rfl, rfl | rfl⟩
      · exact ⟨by decide, ⟨[1], [[0]], 2, [⟨["a", "b"], .set (.bool true)⟩]⟩, by simp [updateAndDelete], rfl, by decide⟩
      · exact ⟨by decide, ⟨[2], [[0]], 2, [⟨["a"], .delete⟩]⟩, by simp [updateAndDelete], rfl, by decide⟩
  have hpast : ∀ b a, updateAndDeletePast b a = true ↔ a = [0] ∧ (b = [1] ∨ b = [2]) := by simp [updateAndDeletePast]
  rw [hpast, ← hpar]
  refine ⟨Relation.TransGen.single, fun h => ?_⟩
  induction h with
  | single h => exact h
  | tail _ hbc ih =>
    have hb := ((hpar _ _).mp hbc).1
    rcases ((hpar _ _).mp ih).2 with h | h <;> rw [hb] at h <;> cases h

theorem updateAndDelete_converges : (updateAndDelete.map JsonBlock.id).Nodup ∧
    (mergeAll updateAndDeletePast updateAndDelete).conflicts =
      (mergeAll updateAndDeletePast
        [⟨[0], [], 1, [⟨["a"], .set .null⟩]⟩, ⟨[2], [[0]], 2, [⟨["a"], .delete⟩]⟩,
          ⟨[1], [[0]], 2, [⟨["a", "b"], .set (.bool true)⟩]⟩]).conflicts :=
  ⟨by decide, (mergeAll_converges (by decide) updateAndDeletePast_iff
    (Dag.LinearExtension.of_pairwise _ (Perm.refl _) (by decide) (by decide) (by decide))
    (Dag.LinearExtension.of_pairwise _ ((Perm.swap _ _ []).cons _) (by decide) (by decide) (by decide))).2.2⟩

end Defra.Json
