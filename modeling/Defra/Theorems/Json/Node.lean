import Defra.Theorems.Json.Read
import Defra.Theorems.Json.Place

/-! What a path of a frontier reads as: the race at the path, told by the entries that are in it, and the value as the places
    of its paths. -/

namespace Defra.Json
open List Frontier PathMap KeyedList

/-! ### Races -/

/-- The higher priority wins, and at the same priority the greater block. -/
def rank (e : Entry) : Nat ×ₗ Bytes := toLex (e.priority, e.block)

theorem beats_iff {a b : Entry} : beats a b = true ↔ rank b < rank a := by
  rw [rank, rank, Prod.Lex.toLex_lt_toLex, beats, Bool.or_eq_true, Bool.and_eq_true, decide_eq_true_eq, decide_eq_true_eq,
    beq_iff_eq, eq_comm]

theorem foldl_best (rest : List Racer) (first : Racer) : ∃ winner before after,
    rest.foldl (fun best racer => if beats racer.entry best.entry then racer else best) first = winner ∧
      first :: rest = before ++ winner :: after ∧ (∀ r ∈ before, rank r.entry < rank winner.entry) ∧
      ∀ r ∈ after, rank r.entry ≤ rank winner.entry := by
  induction rest generalizing first with
  | nil => exact ⟨first, [], [], rfl, rfl, by simp, by simp⟩
  | cons racer rest ih =>
    rw [foldl_cons]
    split
    · rename_i hbeats
      obtain ⟨winner, before, after, hfold, hs, hb, ha⟩ := ih racer
      refine ⟨winner, first :: before, after, hfold, congrArg (first :: ·) hs, forall_mem_cons.mpr ⟨?_, hb⟩, ha⟩
      -- The racer is the winner or comes before it.
      refine (beats_iff.mp hbeats).trans_le ?_
      have hmem : racer ∈ before ++ winner :: after := hs ▸ mem_cons_self
      rcases mem_append.mp hmem with hmem | hmem
      · exact (hb racer hmem).le
      · rcases mem_cons.mp hmem with rfl | hmem
        · exact le_rfl
        · exact ha racer hmem
    · rename_i hbeats
      have hle : rank racer.entry ≤ rank first.entry := not_lt.mp fun h => hbeats (beats_iff.mpr h)
      obtain ⟨winner, before, after, hfold, hs, hb, ha⟩ := ih first
      cases before with
      | nil =>
        obtain ⟨rfl, rfl⟩ := cons.inj hs
        exact ⟨first, [], racer :: rest, hfold, rfl, by simp, forall_mem_cons.mpr ⟨hle, ha⟩⟩
      | cons other before =>
        obtain ⟨rfl, rfl⟩ := cons.inj hs
        obtain ⟨ho, hb⟩ := forall_mem_cons.mp hb
        exact ⟨winner, first :: racer :: before, after, hfold, rfl,
          forall_mem_cons.mpr ⟨ho, forall_mem_cons.mpr ⟨hle.trans_lt ho, hb⟩⟩, ha⟩

/-- An edit below needs a map at the path. -/
def Implied (f : Frontier) (path : Path) : Prop :=
  ∃ e ∈ f.entries, path <+: e.path ∧ e.path ≠ path ∧ e.edit.isDelete = false

/-- The entry is in the race at the path. -/
structure IsRacer (f : Frontier) (path : Path) (e : Entry) : Prop where
  mem : e ∈ f.entries
  below : path <+: e.path
  delete : e.edit.isDelete = true → e.path = path ∧ ¬Implied f path

section Race
variable {f : Frontier} {path : Path}

theorem any_implied : ((((Index.new f).under (encodePath path)).filter fun racer =>
    racer.own || !racer.entry.edit.isDelete).any fun racer => !racer.own) = true ↔ Implied f path := by
  rw [any_eq_true]
  constructor
  · rintro ⟨racer, hmem, ho⟩
    obtain ⟨hmem, hraces⟩ := mem_filter.mp hmem
    obtain ⟨hentry, hp, howneq⟩ := Index.mem_under_new.mp hmem
    have ho : racer.own = false := by simpa using ho
    rw [ho] at howneq hraces
    exact ⟨racer.entry, hentry, hp, of_decide_eq_false howneq.symm, by simpa using hraces⟩
  · rintro ⟨e, he, hp, hne, hedit⟩
    have hu : (⟨decide (e.path = path), e⟩ : Racer) ∈ (Index.new f).under (encodePath path) :=
      Index.mem_under_new.mpr ⟨he, hp, rfl⟩
    exact ⟨_, mem_filter.mpr ⟨hu, by simp [hedit]⟩, by simp [hne]⟩

theorem mem_racers {racer : Racer} : racer ∈ (Index.new f).racers (encodePath path) ↔
    IsRacer f path racer.entry ∧ racer.own = decide (racer.entry.path = path) := by
  rw [Index.racers, mem_filter, mem_filter, Index.mem_under_new]
  constructor
  · rintro ⟨⟨⟨he, hb, ho⟩, hraces⟩, hkept⟩
    refine ⟨⟨he, hb, fun hd => ?_⟩, ho⟩
    have ht : racer.own = true := by simpa [hd] using hraces
    refine ⟨of_decide_eq_true (ho.symm.trans ht), fun himplied => ?_⟩
    rw [any_implied.mpr himplied, ht, hd] at hkept
    cases hkept
  · rintro ⟨hr, ho⟩
    refine ⟨⟨⟨hr.mem, hr.below, ho⟩, ?_⟩, ?_⟩
    · cases hd : racer.entry.edit.isDelete with
      | false => exact Bool.or_true _
      | true => rw [ho, decide_eq_true (hr.delete hd).1, Bool.true_or]
    · cases hd : racer.entry.edit.isDelete with
      | false => rw [Bool.and_false, Bool.not_false]
      | true =>
        have hnot := mt any_implied.mp (hr.delete hd).2
        rw [Bool.eq_false_iff.mpr hnot, Bool.false_and, Bool.false_and, Bool.not_false]

theorem sorted_racers (f : Frontier) (path : Path) :
    ((Index.new f).racers (encodePath path)).Pairwise fun a b => entryKey a.entry < entryKey b.entry := by
  refine Pairwise.filter _ (Pairwise.filter _ ?_)
  rw [Index.under_new, pairwise_map]
  exact f.entries.sorted.filter _

theorem winner_spec {winner : Racer} (h : (Index.new f).winner (encodePath path) = some winner) :
    IsRacer f path winner.entry ∧ winner.own = decide (winner.entry.path = path) ∧
      ∀ e, IsRacer f path e → rank e ≤ rank winner.entry ∧
        (rank e = rank winner.entry → e ≠ winner.entry → entryKey winner.entry < entryKey e) := by
  unfold Index.winner at h
  cases hr : (Index.new f).racers (encodePath path) with
  | nil =>
    rw [hr] at h
    cases h
  | cons first rest =>
    rw [hr] at h
    obtain ⟨winner', before, after, hfold, hsp, hb, ha⟩ := foldl_best rest first
    obtain rfl : winner' = winner := hfold.symm.trans (Option.some.inj h)
    rw [hsp] at hr
    have hmem : ∀ r, r ∈ before ++ winner' :: after ↔ IsRacer f path r.entry ∧ r.own = decide (r.entry.path = path) :=
      fun r => by rw [← hr, mem_racers]
    obtain ⟨hw, ho⟩ := (hmem winner').mp (by simp)
    refine ⟨hw, ho, fun e he => ?_⟩
    have hsort := hr ▸ sorted_racers f path
    rcases mem_append.mp ((hmem ⟨decide (e.path = path), e⟩).mpr ⟨he, rfl⟩) with hin | hin
    · exact ⟨(hb _ hin).le, fun heq => absurd heq (hb _ hin).ne⟩
    · rcases mem_cons.mp hin with heq | hin
      · exact ⟨heq ▸ le_rfl, fun _ hne => absurd (congrArg Racer.entry heq) hne⟩
      · exact ⟨ha _ hin, fun _ _ => (pairwise_cons.mp (pairwise_append.mp hsort).2.1).1 _ hin⟩

def JsonEdit.node : JsonEdit → Node
  | .set value => .value value
  | .map => .map
  | .delete => .absent

theorem node_absent (h : ∀ e, ¬IsRacer f path e) : (Index.new f).node (encodePath path) = .absent := by
  unfold Index.node
  cases hw : (Index.new f).winner (encodePath path) with
  | none => rfl
  | some winner => exact absurd (winner_spec hw).1 (h _)

theorem exists_winner {e : Entry} (h : IsRacer f path e) : ∃ winner, (Index.new f).winner (encodePath path) = some winner := by
  have hmem : (⟨decide (e.path = path), e⟩ : Racer) ∈ (Index.new f).racers (encodePath path) := mem_racers.mpr ⟨h, rfl⟩
  unfold Index.winner
  cases hr : (Index.new f).racers (encodePath path) with
  | nil =>
    rw [hr] at hmem
    cases hmem
  | cons first rest => exact ⟨_, rfl⟩

theorem node_own {e : Entry} (h : IsRacer f path e) (ho : e.path = path)
    (hbest : ∀ other, IsRacer f path other → rank other ≤ rank e) :
    (Index.new f).node (encodePath path) = e.edit.node := by
  obtain ⟨winner, hw⟩ := exists_winner h
  obtain ⟨hracer, hwown, hspec⟩ := winner_spec hw
  -- An entry below the path comes after the path's own.
  have heq : winner.entry = e := by
    by_contra hne
    obtain ⟨hle, hf⟩ := hspec e h
    have hkey := hf (le_antisymm hle (hbest _ hracer)) fun he => hne he.symm
    have hpre : encodePath e.path <+: encodePath winner.entry.path := by
      rw [encodePath_prefix_iff, ho]
      exact hracer.below
    rcases Prod.Lex.lt_iff.mp hkey with hlt | ⟨hpaths, hlt⟩
    · exact absurd (Bytes.le_of_prefix hpre) (not_le.mpr hlt)
    · have hranks : rank e = rank winner.entry := le_antisymm hle (hbest _ hracer)
      exact absurd (congrArg (fun r => (ofLex r).2) hranks) hlt.ne'
  unfold Index.node
  rw [hw]
  dsimp only
  rw [Racer.isMap, hwown, heq, decide_eq_true ho, Bool.not_true]
  cases e.edit <;> rfl

theorem node_map {e : Entry} (h : IsRacer f path e)
    (hbeaten : ∀ own, IsRacer f path own → own.path = path → ∃ other, IsRacer f path other ∧ rank own < rank other) :
    (Index.new f).node (encodePath path) = .map := by
  obtain ⟨winner, hw⟩ := exists_winner h
  obtain ⟨hracer, hwown, hspec⟩ := winner_spec hw
  have hbelow : winner.entry.path ≠ path := fun hp => by
    obtain ⟨other, ho, hlt⟩ := hbeaten _ hracer hp
    exact absurd (hspec other ho).1 (not_le.mpr hlt)
  unfold Index.node
  rw [hw]
  dsimp only
  rw [Racer.isMap, hwown, decide_eq_false hbelow, Bool.not_false, Bool.true_or, if_pos rfl]

end Race

/-! ### The value of a frontier -/

def Node.place : Node → Place Value
  | .absent => .absent
  | .map => .map
  | .value v => .value v

/-- What the frontier reads at a path. -/
def Frontier.nodeAt (f : Frontier) (path : Path) : Place Value := ((Index.new f).node (encodePath path)).place

/-- No entry sets an object. -/
def Frontier.Plain (f : Frontier) : Prop := ∀ e ∈ f.entries, ∀ value, e.edit = .set value → value.asObject = none

section Build
variable {f : Frontier} {path : Path}

theorem plain_of_node (hplain : f.Plain) {value : Value} (h : (Index.new f).node (encodePath path) = .value value) :
    value.asObject = none := by
  unfold Index.node at h
  cases hw : (Index.new f).winner (encodePath path) with
  | none =>
    rw [hw] at h
    cases h
  | some winner =>
    rw [hw] at h
    dsimp only at h
    split at h
    · cases h
    · cases he : winner.entry.edit with
      | set other =>
        rw [he] at h
        cases h
        exact hplain winner.entry (winner_spec hw).1.mem _ he
      | map =>
        rw [he] at h
        cases h
      | delete =>
        rw [he] at h
        cases h

theorem nodeAt_absent (h : ∀ e ∈ f.entries, ¬path <+: e.path) : f.nodeAt path = .absent := by
  have hnone : ∀ e, ¬IsRacer f path e := fun e he => h e he.mem he.below
  rw [Frontier.nodeAt, node_absent hnone]
  rfl

theorem get_children {children : KeyedList utf8} {build : String → Option Value} (key : String) :
    let ms := children.toList.filterMap fun child => (build child).map fun value => (child, value)
    Members.Sorted ms ∧ ∀ value, Members.get ms key = some value ↔ key ∈ children ∧ build key = some value := by
  have hs : Members.Sorted (children.toList.filterMap fun child => (build child).map fun value => (child, value)) := by
    refine Pairwise.filterMap _ (fun a a' hlt m hm m' hm' => ?_) children.sorted
    obtain ⟨_, _, rfl⟩ := Option.map_eq_some_iff.mp hm
    obtain ⟨_, _, rfl⟩ := Option.map_eq_some_iff.mp hm'
    exact hlt
  refine ⟨hs, fun value => ?_⟩
  rw [hs.get_eq_some, mem_filterMap]
  constructor
  · rintro ⟨child, hc, hm⟩
    obtain ⟨v, hv, heq⟩ := Option.map_eq_some_iff.mp hm
    cases heq
    exact ⟨hc, hv⟩
  · rintro ⟨hc, hv⟩
    exact ⟨key, hc, by rw [hv]; rfl⟩

theorem mem_children {key : String} : key ∈ (ofList
    ((((Index.new f).under (encodePath path)).filter fun racer => !racer.own).map fun racer =>
      racer.entry.path.getD path.length "") : KeyedList utf8) ↔ ∃ e ∈ f.entries, path ++ [key] <+: e.path := by
  rw [mem_ofList_of_inj fun _ _ _ _ h => utf8_inj h, mem_map]
  constructor
  · rintro ⟨racer, hmem, rfl⟩
    obtain ⟨hmem, ho⟩ := mem_filter.mp hmem
    obtain ⟨hentry, ⟨rest, hr⟩, howneq⟩ := Index.mem_under_new.mp hmem
    refine ⟨racer.entry, hentry, ?_⟩
    cases rest with
    | nil => simp [howneq, ← hr] at ho
    | cons key rest =>
      rw [← hr]
      exact ⟨rest, by simp⟩
  · rintro ⟨e, he, rest, hr⟩
    have hne : e.path ≠ path := fun heq => by
      have := congrArg length (hr.trans heq)
      simp at this
    refine ⟨⟨false, e⟩, mem_filter.mpr ⟨Index.mem_under_new.mpr ⟨he, ?_, by simp [hne]⟩, rfl⟩, ?_⟩
    · exact ⟨key :: rest, by rw [← hr]; simp⟩
    · simp [← hr]

/-- The value that is built has at each path what the race there gives. -/
theorem build_spec (hp : f.Plain) (fuel : Nat) : ∀ path : Path, f.depth < fuel + path.length →
    SortedAt ((Index.new f).build fuel path) ∧ ∀ q, placeAt ((Index.new f).build fuel path) q = walk f.nodeAt path q := by
  induction fuel with
  | zero =>
    intro path hd
    have ha : f.nodeAt path = .absent := by
      refine nodeAt_absent fun e he hpre => ?_
      have := length_le_depth he
      have := hpre.length_le
      omega
    exact ⟨.none, fun q => (placeOf_eq_absent.mpr (valueAt_none q)).trans (walk_absent ha q).symm⟩
  | succ fuel ih =>
    intro path hd
    have hc : ∀ key, _ := fun key => ih (path ++ [key]) (by rw [length_append, length_singleton]; omega)
    rw [Index.build]
    cases hn : (Index.new f).node (encodePath path) with
    | absent =>
      have ha : f.nodeAt path = .absent := by rw [Frontier.nodeAt, hn]; rfl
      exact ⟨.none, fun q => (placeOf_eq_absent.mpr (valueAt_none q)).trans (walk_absent ha q).symm⟩
    | value v =>
      have hv := plain_of_node hp hn
      have hplace : f.nodeAt path = .value v := by rw [Frontier.nodeAt, hn]; rfl
      refine ⟨.some (.plain hv), fun q => ?_⟩
      cases q with
      | nil => exact (placeOf_plain hv).trans hplace.symm
      | cons key q => rw [placeAt_plain hv, walk, hplace]
    | map =>
      have hplace : f.nodeAt path = .map := by rw [Frontier.nodeAt, hn]; rfl
      generalize ho : (ofList _ : KeyedList utf8) = children
      have hmem : ∀ key, key ∈ children ↔ ∃ e ∈ f.entries, path ++ [key] <+: e.path := fun key => ho ▸ mem_children
      have hg := fun key => @get_children children (fun child => (Index.new f).build fuel (path ++ [child])) key
      refine ⟨.some (.object (hg "").1 fun m hm => ?_), fun q => ?_⟩
      · exact (hc m.1).1 m.2 (((hg m.1).2 m.2).mp ((hg m.1).1.get_eq_some.mpr hm)).2
      · cases q with
        | nil => exact hplace.symm
        | cons key q =>
          rw [walk, hplace]
          show placeAt (Members.get (children.toList.filterMap _) key) q = _
          by_cases hk : key ∈ children
          · have heq : Members.get (children.toList.filterMap fun child =>
                ((Index.new f).build fuel (path ++ [child])).map fun value => (child, value)) key =
                  (Index.new f).build fuel (path ++ [key]) :=
              Option.ext fun v => ((hg key).2 v).trans (and_iff_right hk)
            rw [heq, (hc key).2]
          · have heq : Members.get (children.toList.filterMap fun child =>
                ((Index.new f).build fuel (path ++ [child])).map fun value => (child, value)) key = none :=
              Option.eq_none_iff_forall_ne_some.mpr fun v hv => hk (((hg key).2 v).mp hv).1
            rw [heq, walk_absent (nodeAt_absent fun e he hpre => hk ((hmem key).mpr ⟨e, he, hpre⟩))]
            exact placeOf_eq_absent.mpr (valueAt_none q)

theorem materialize_spec (hplain : f.Plain) : SortedAt f.materialize ∧ ∀ q, placeAt f.materialize q = walk f.nodeAt [] q :=
  build_spec hplain (f.depth + 1) [] (by simp)

end Build

end Defra.Json
